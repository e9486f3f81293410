import Wordloom.Proofs.Checks
import Wordloom.Proofs.Compiled
import Wordloom.Proofs.Outcomes

/-!
# Wordloom.Proofs.Safety

Compiled programs never go wrong. Whatever they are run with, they end, and if they fail it is because
a limit was reached, something was divided by zero, or something is not there that only the run can
tell.
-/

namespace Wordloom

/-- A run that ended, with a fault that compiled code can run into if with one. -/
def Outcome.Safe : Outcome → Prop
  | .output _ => True
  | .failure e => e.fault.Expected
  | .unfinished => False

variable {result : Except Fault (Unit × World)}

theorem Outcome.Agrees.safe {seed : UInt64} {o : Outcome} (h : o.Agrees seed result) : o.Safe := by
  cases o with
  | output _ => trivial
  | failure e =>
    obtain hcuts | ⟨hexpected, -⟩ := h
    · exact hcuts.expected
    · exact hexpected
  | unfinished => exact h

theorem Outcome.Agrees.ended {seed : UInt64} {o : Outcome} (h : o.Agrees seed result) :
    o ≠ .unfinished := by
  rintro rfl
  exact h

namespace Engine

/-- Engines with the standard functions, on which every program that may be imported has been
compiled. Operands tell `2 ^ 31` strings apart, and while a program is built it can have as many strings
as its source has characters, some of which are dropped in the end. So sources must not be longer. -/
inductive Compiled : Engine → Prop where
  | start : Compiled {}
  | equip {e : Engine} (h : Compiled e) (pools : Std.TreeMap String SeedPool)
    (dictionary : Option Dictionary) (clock : Nat → Nat) :
    Compiled { e with pools := pools, dictionary := dictionary, clock := clock }
  | add {e : Engine} (h : Compiled e) {name source : String} {debug : Bool} {p : Program}
    (hp : e.compile name source debug = .ok p) (hsource : source.length ≤ 2 ^ 31)
    (importName : String) : Compiled (e.addProgram importName p)

namespace Compiled

variable {e : Engine}

theorem registry (h : Compiled e) : e.registry = Standard.registry := by
  induction h with
  | start => rfl
  | equip _ _ _ _ ih => exact ih
  | add _ _ _ _ ih => exact ih

theorem ok_of_imports (h : Compiled e) (debug : Bool)
    (himports : ∀ (name : String) (p : Program), e.programs[name]? = some p →
      ∃ code, (⟨p, code, [], false⟩ : Activation).Loaded e.registry) :
    (⟨debug, e.registry, e.programs⟩ : Compile.Context).Ok e.registry where
  imports name p hp _ := himports name p hp
  registry := by
    rintro r ⟨⟩
    rfl
  size := by
    rintro r ⟨⟩
    rw [h.registry]
    decide
  params := by
    rintro r ⟨⟩ id f hf
    rw [h.registry] at hf
    have hmem : f ∈ Standard.functions := by
      have hlist : Standard.functions[id]? = some f := by
        simpa [Standard.registry, Registry.get?] using hf
      exact List.mem_of_getElem? hlist
    have hall : ∀ f ∈ Standard.functions, f.params.length < 2 ^ 8 := by decide
    exact hall f hmem

/-- Every program that may be imported consists of sound code. -/
theorem imports (h : Compiled e) {name : String} {p : Program} (hp : e.programs[name]? = some p) :
    ∃ code, (⟨p, code, [], false⟩ : Activation).Loaded e.registry := by
  induction h generalizing name p with
  | start => simp at hp
  | equip _ _ _ _ ih => exact ih hp
  | @add e h _ _ debug q hq hsource importName ih =>
    rw [addProgram, Std.TreeMap.getElem?_insert] at hp
    split at hp
    · cases hp
      obtain ⟨code, hcode⟩ := Compile.consists_of_compile
        (h.ok_of_imports debug fun name p => ih) hq hsource
      exact ⟨code, hcode.loaded.reads, hcode.loaded.small, hcode.loaded.sound⟩
    · exact ih hp

/-- Every program that is compiled consists of sound code. -/
theorem loaded (h : Compiled e) {name source : String} {debug : Bool} {p : Program}
    (hp : e.compile name source debug = .ok p) (hsource : source.length ≤ 2 ^ 31) :
    ∃ code, (⟨p, code, [], false⟩ : Activation).Loaded e.registry := by
  obtain ⟨code, hcode⟩ :=
    Compile.consists_of_compile (h.ok_of_imports debug fun _ _ => h.imports) hp hsource
  exact ⟨code, hcode.loaded⟩

/-- A program that is compiled runs as its code is evaluated, and the run ends. -/
theorem halts (h : Compiled e) {name source : String} {debug : Bool} {p : Program}
    (hp : e.compile name source debug = .ok p) (hsource : source.length ≤ 2 ^ 31) {later : Engine}
    (hlater : later.registry = e.registry) (seed : UInt64) (options : Options) :
    ∃ result, (Machine.start options p seed).Halts (later.environment options) seed
      (Outcome.Agrees seed result) := by
  obtain ⟨code, hloaded⟩ := h.loaded hp hsource
  have hsound : (later.environment options).registry.Sound := by
    change later.registry.Sound
    rw [hlater, h.registry]
    exact Standard.sound_registry
  have hloaded : (⟨p, code, [], false⟩ : Activation).Loaded (later.environment options).registry := by
    change Activation.Loaded later.registry _
    rw [hlater]
    exact hloaded
  exact ⟨_, Program.halts hsound hloaded seed⟩

end Compiled

/-- **Compiled programs never go wrong.** A program compiled by an engine that has been built from the
standard functions is run to an end, whatever the seed, the options, the pools, the dictionary and the
clock are, and whatever has been added to the engine since; it prints something or fails with one of the
faults that are expected. The bound is that of `Compiled`: strings are told apart by 31 bits, and there may
be as many as the source has characters. -/
theorem run_safe {e later : Engine} (h : Compiled e) {name source : String} {debug : Bool} {p : Program}
    (hp : e.compile name source debug = .ok p) (hsource : source.length ≤ 2 ^ 31)
    (hlater : later.registry = e.registry) (seed : UInt64) (options : Options) :
    (Machine.start options p seed).Halts (later.environment options) seed Outcome.Safe ∧
      (later.run p seed options = .unfinished ∨ (later.run p seed options).Safe) := by
  obtain ⟨_, hagrees⟩ := h.halts hp hsource hlater seed options
  have hhalts := hagrees.mono fun _ => Outcome.Agrees.safe
  exact ⟨hhalts, hhalts.run stepLimit⟩

theorem run_safe_sample :
    ∃ p, ({} : Engine).compile "main" "[$[greet:name]:Hello, [arg:name]!][$greet:{a|b}]" true = .ok p ∧
      ((({} : Engine).run p 7 {}) = .unfinished ∨ (({} : Engine).run p 7 {}).Safe) := by
  have hcompiles : (({} : Engine).compile "main" "[$[greet:name]:Hello, [arg:name]!][$greet:{a|b}]"
      true).toOption.isSome := by
    decide +kernel
  obtain ⟨p, hp⟩ := Option.isSome_iff_exists.1 hcompiles
  have hp := toOption_eq_some.1 hp
  exact ⟨p, hp, (run_safe .start hp (by decide) rfl 7 {}).2⟩

/-- **Compiled programs end.** Whatever the seed and the options are, and however many other programs
are imported, some number of steps leads to an output or a failure, and more steps change nothing. -/
theorem run_ends {e later : Engine} (h : Compiled e) {name source : String} {debug : Bool}
    {p : Program} (hp : e.compile name source debug = .ok p) (hsource : source.length ≤ 2 ^ 31)
    (hlater : later.registry = e.registry) (seed : UInt64) (options : Options) :
    ∃ n outcome, outcome ≠ .unfinished ∧ ∀ steps, n ≤ steps →
      (Machine.start options p seed).run (later.environment options) seed steps = outcome := by
  obtain ⟨_, hagrees⟩ := h.halts hp hsource hlater seed options
  exact (hagrees.mono fun _ => Outcome.Agrees.ended).outcome

/-- A subroutine that calls itself, from a block that is repeated. -/
theorem run_ends_sample :
    ∃ p, ({} : Engine).compile "main" "[$[again]:[$again]][rep:3]{(2)a|[$again]}" false = .ok p ∧
      ∃ n outcome, outcome ≠ .unfinished ∧ ∀ steps, n ≤ steps →
        (Machine.start {} p 7).run (({} : Engine).environment {}) 7 steps = outcome := by
  have hcompiles : (({} : Engine).compile "main" "[$[again]:[$again]][rep:3]{(2)a|[$again]}"
      false).toOption.isSome := by
    decide +kernel
  obtain ⟨p, hp⟩ := Option.isSome_iff_exists.1 hcompiles
  have hp := toOption_eq_some.1 hp
  exact ⟨p, hp, run_ends .start hp (by decide) rfl 7 {}⟩

end Engine

end Wordloom
