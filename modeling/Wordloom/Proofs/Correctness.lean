import Wordloom.Proofs.StepEffects
import Wordloom.Proofs.LoweringBlocks
import Wordloom.Proofs.LoweringDefinitions
import Wordloom.Proofs.Safety

/-!
# Wordloom.Proofs.Correctness

Compiling a pattern and running the program comes to what the pattern is evaluated to. The source of a
pattern whose names are known is compiled; its code stands for the evaluation of the tree; and the
program runs as its code does.
-/

namespace Wordloom

open Compile

variable {ctx : Context} {env : Environment} {lib : Option Registry}

/-! ## Every pattern is compiled -/

theorem TagHead.lowers (hcapitals : env.options.capitals = .none) {args : Arguments}
    (hargs : args.Lowers ctx env lib) (head : TagHead) : head.Lowers ctx env lib args := by
  cases head with
  | set => exact lowers_set hcapitals hargs
  | get => exact lowers_get
  | swap => exact lowers_swap
  | arithmetic op => exact lowers_arithmetic hcapitals hargs
  | concat => exact lowers_concat hcapitals hargs
  | compare test => exact lowers_compare hcapitals hargs
  | argument => exact lowers_argument
  | call name => exact lowers_call hcapitals hargs

mutual

/-- Every pattern is compiled to code that means what it is evaluated to. -/
theorem Pattern.lowers (hcapitals : env.options.capitals = .none) :
    ∀ p : Pattern, p.Lowers ctx env lib
  | .nil => Pattern.lowers_nil
  | .leaf _ next => Pattern.lowers_leaf (next.lowers hcapitals)
  | .block items next => Pattern.lowers_block (items.lowers hcapitals) (next.lowers hcapitals)
  | .define _ _ body next => Pattern.lowers_define (body.lowers hcapitals) (next.lowers hcapitals)
  | .tag head args next =>
    Pattern.lowers_tag (head.lowers hcapitals (args.lowers hcapitals)) (next.lowers hcapitals)

theorem Arguments.lowers (hcapitals : env.options.capitals = .none) :
    ∀ args : Arguments, args.Lowers ctx env lib
  | .nil => trivial
  | .cons first rest => ⟨first.lowers hcapitals, rest.lowers hcapitals⟩

theorem Items.lowers (hcapitals : env.options.capitals = .none) :
    ∀ items : Items, items.Lowers ctx env lib
  | .nil => Items.lowers_nil
  | .plain body rest => Items.lowers_plain (body.lowers hcapitals) (rest.lowers hcapitals)
  | .weighted weight body rest =>
    Items.lowers_weighted hcapitals (weight.lowers hcapitals) (body.lowers hcapitals)
      (rest.lowers hcapitals)

end

/-! ## Sources -/

namespace Compile

theorem knows_start (ctx : Context) (source : String) :
    (Compilation.start ctx source).Knows {} [] where
  procedures := rfl
  subroutines name := by simp [Compilation.start, Scopes.find?, Link.find?]
  locals name := by simp [Compilation.start, Compilation.local?, Scopes.find?, placeIn]
  arguments name _ := by simp [Compilation.start, Compilation.argument?, Scopes.find?, placeOf?]
  count := rfl
  small := by decide
  few := by decide

/-- The code of a source is too long for its offsets. -/
def oversized : Cause := .limit "bytecode exceeds 2 GiB"

/-- A source whose constructs all end is compiled, unless its code is too long. -/
theorem source_of_finishes {c c' : Compilation} {n : Nat}
    (h : Finishes ctx n ((Construct.pattern .root).resume ctx c) c')
    (hn : n ≤ 4 * c.reader.rest.length) :
    2 ^ 31 ≤ c'.out.position ∧ source ctx c = .error ⟨c'.reader.position, oversized⟩ c' ∨
      c'.out.position < 2 ^ 31 ∧ source ctx c = .ok () c' := by
  have htokens : Compiling.tokensLeft c = .ok c.reader.rest.length c := rfl
  have hoffset : Compiling.offset c' = .ok c'.out.position c' := rfl
  have hrun : Compile.run ctx (stepBound c.reader.rest.length) [.pattern .root] c = .ok () c' := by
    have hfuel : stepBound c.reader.rest.length =
        n + 1 + (4 * c.reader.rest.length + 1 - n) := by
      rw [stepBound]
      omega
    rw [hfuel, h.run rfl]
    cases 4 * c.reader.rest.length + 1 - n <;> rfl
  rw [source, run_bind_of_ok htokens, run_bind_of_ok hrun, run_bind_of_ok hoffset]
  by_cases hsize : 0x80000000 ≤ c'.out.position
  · rw [if_pos hsize]
    exact .inl ⟨hsize, rfl⟩
  · rw [if_neg hsize]
    exact .inr ⟨Nat.lt_of_not_le hsize, rfl⟩

/-- A source to whose end the code means something is compiled to that code, unless there are more than
`2 ^ 23` characters and too much code. -/
theorem Written.compile {source : String} {s : Scoping} {links : List Link} {y : Sense Unit} {d : Draft}
    {c : Compilation}
    (h : Written env lib (.root (.start ctx source)) [] s links y 0 d c) (hfront : d.front = [])
    (hreaches : Reaches ctx (Compilation.start ctx source).reader.rest.length
      ((Construct.pattern .root).resume ctx (.start ctx source)) c)
    (hlength : source.length ≤ 2 ^ 31) (name : String) :
    (2 ^ 23 < source.length ∧
      ∃ position, Compile.compile ctx name source = .error ⟨position, oversized⟩) ∨
    ∃ program, Compile.compile ctx name source = .ok program ∧
      (⟨program, d.closed, [], false⟩ : Activation).Loaded lib ∧
      d.closed.Means env [] links s.locals 0 y := by
  obtain ⟨n, hfinishes, hn⟩ := hreaches
  have htokens : (Compilation.start ctx source).reader.rest.length ≤ source.length := by
    have hscan := length_scanFrom_le .start source.toList
    rwa [String.length_toList] at hscan
  obtain ⟨hsize, hsource⟩ | ⟨hsize, hsource⟩ := source_of_finishes hfinishes (by omega)
  · refine .inl ⟨?_, c.reader.position, by rw [Compile.compile, hsource]⟩
    have hbudget := hfinishes.budget_le rfl
    have hposition : (Compilation.start ctx source).out.position = 0 := rfl
    unfold Compilation.budget at hbudget
    omega
  · have hmeans := h.means.closed
    have hbase : d.base = 0 := by
      rw [Draft.base, hfront]
      rfl
    rw [hbase] at hmeans
    exact .inr ⟨c.out.build name, by rw [Compile.compile, hsource],
      (h.inv.consists hfront hsize hlength name).loaded, hmeans⟩

theorem written_start (ctx : Context) (source : String) :
    Written env lib (.root (.start ctx source)) [] {} [] (pure ()) 0 {} (.start ctx source) :=
  ⟨inv_start ctx source, .start [], knows_start ctx source⟩

end Compile

/-- The source of a pattern whose names are known is compiled to code that means what the pattern is
evaluated to, unless there are more than `2 ^ 23` characters and too much code. -/
theorem Pattern.Scoped.compile {p : Pattern} (h : p.Scoped) (hlength : p.source.length ≤ 2 ^ 31)
    (ctx : Context) (lib : Option Registry) (name : String) (env : Environment)
    (hcapitals : env.options.capitals = .none) :
    (2 ^ 23 < p.source.length ∧
      ∃ position, Compile.compile ctx name p.source = .error ⟨position, oversized⟩) ∨
    ∃ program code links locals, Compile.compile ctx name p.source = .ok program ∧
      (⟨program, code, [], false⟩ : Activation).Loaded lib ∧
      code.Means env [] links locals 0 (Scoping.denote {} p) := by
  obtain ⟨hapart, hcheck⟩ := h
  obtain ⟨s, hcheck⟩ := Option.isSome_iff_exists.1 hcheck
  have hfaces : (Compilation.start ctx p.source).Faces (p.lexemes ++ []) := by
    rw [List.append_nil]
    exact Token.forall₂_scan hapart
  have hlowers : p.Lowers ctx env lib := p.lowers hcapitals
  obtain ⟨d, c, links, hadds, hreaches, -, hwritten⟩ :=
    hlowers (written_start ctx p.source) hfaces rfl hcheck
  rw [pure_bind] at hwritten
  obtain hoversized | ⟨program, hprogram, hloaded, hmeans⟩ :=
    hwritten.compile hadds.front hreaches hlength name
  · exact .inl hoversized
  · exact .inr ⟨program, d.closed, links, s.locals, hprogram, hloaded, hmeans⟩

/-! ## Runs -/

/-- A run was ended by a limit: of the stack, of the depth of calls, of the characters or of the time. -/
def Fault.CutsOff : Fault → Prop
  | .stackOverflow _ | .callStackOverflow _ | .charLimitExceeded _ | .timeout => True
  | _ => False

theorem Fault.Cuts.cutsOff {f : Fault} (h : f.Cuts) : f.CutsOff := by
  cases f with
  | stackOverflow _ | timeout => trivial
  | _ => exact h.elim

theorem Fault.Limits.cutsOff {f : Fault} (h : f.Limits) : f.CutsOff := by
  cases h with
  | callStackOverflow _ | charLimitExceeded _ => trivial

/-- The outcome of a run is what a pattern is evaluated to, unless a limit ended the run. What is
printed is all in the main channel. -/
def Outcome.ComesTo (seed : UInt64) (result : Except Fault String) : Outcome → Prop
  | .output o => ∃ text, result = .ok text ∧ o = ⟨seed, [⟨mainChannel, .visible, text⟩]⟩
  | .failure e => e.fault.CutsOff ∨ result = .error e.fault
  | .unfinished => False

theorem World.shows_start {options : Options} (hcapitals : options.capitals = .none)
    (hformat : options.numberFormat = .normal) (seed : UInt64) (names : String → Option Nat) :
    (World.start options seed).Shows names { rng := .ofSeed seed } where
  out := by
    rw [World.start, hcapitals]
    rfl
  rng := rfl
  format := hformat
  repeater := rfl
  vars name := by
    cases names name with
    | none => rfl
    | some i => simp [World.start, World.getLocal]

/-- What code comes to is what it means. -/
theorem Code.Means.alike_result {code : Code} {links : List Link} {locals : List String}
    {y : Sense Unit} (h : code.Means env [] links locals 0 y)
    (hcapitals : env.options.capitals = .none) (hformat : env.options.numberFormat = .normal)
    {depth : Nat} (hdepth : env.options.maxCallDepth ≤ depth + 1) (program : Program) (seed : UInt64) :
    Alike (placeIn locals) (code.result env program seed) (y ⟨depth, []⟩ { rng := .ofSeed seed }) := by
  have hserves : (⟨program, code, [], false⟩ : Activation).Serves env [] locals (placeIn locals)
      (env.options.maxCallDepth - 1) depth := ⟨by omega, covers_placeIn locals, trivial⟩
  have htracks := h.runs hserves (Activation.finds_definitions ⟨program, code, [], false⟩)
  rw [Code.result, Code.runner_eq]
  exact htracks _ _ (World.shows_start hcapitals hformat seed _)

/-- What the code of a pattern comes to is what the pattern is evaluated to. -/
theorem Code.Means.alike {p : Pattern} {code : Code} {links : List Link} {locals : List String}
    (h : code.Means env [] links locals 0 (Scoping.denote {} p))
    (hcapitals : env.options.capitals = .none) (hformat : env.options.numberFormat = .normal)
    {depth : Nat} (hdepth : env.options.maxCallDepth ≤ depth + 1) (program : Program) (seed : UInt64) :
    Alike (placeIn locals) (code.result env program seed)
      (Interpreter.upTo depth [] {} p { rng := .ofSeed seed }) := by
  rw [Interpreter.upTo_apply]
  exact h.alike_result hcapitals hformat hdepth program seed

theorem Outcome.Agrees.comesTo {seed : UInt64} {names : String → Option Nat}
    {result : Except Fault (Unit × World)} {scene : Except Fault (Unit × Scene)} {o : Outcome}
    (h : o.Agrees seed result) (halike : Alike names result scene) :
    o.ComesTo seed (scene.map (·.2.text)) := by
  cases o with
  | output o =>
    obtain ⟨w, rfl, rfl⟩ := h
    obtain ⟨scene, rfl, hshows⟩ := halike
    refine ⟨scene.text, rfl, ?_⟩
    rw [hshows.out, Writer.finish, Writer.channels_plain]
  | failure e =>
    obtain hcuts | ⟨-, rfl⟩ := h
    · exact .inl hcuts.cutsOff
    · obtain hlimits | rfl := halike
      · exact .inl hlimits.cutsOff
      · exact .inr rfl
  | unfinished => exact h

theorem Pattern.Scoped.halts {e : Engine} (hregistry : e.registry.Sound) {p : Pattern} (hp : p.Scoped)
    (hlength : p.source.length ≤ 2 ^ 31) {name : String} {debug : Bool} {program : Program}
    (hprogram : e.compile name p.source debug = .ok program) {options : Options}
    (hcapitals : options.capitals = .none) (hformat : options.numberFormat = .normal) {depth : Nat}
    (hdepth : options.maxCallDepth ≤ depth + 1) (seed : UInt64) :
    (Machine.start options program seed).Halts (e.environment options) seed
      (Outcome.ComesTo seed (p.result depth seed)) := by
  obtain ⟨-, position, herror⟩ | ⟨program', code, links, locals, hprogram', hloaded, hmeans⟩ :=
    hp.compile hlength ⟨debug, e.registry, e.programs⟩ e.registry name (e.environment options) hcapitals
  · cases hprogram.symm.trans herror
  · cases hprogram.symm.trans hprogram'
    have halike := hmeans.alike hcapitals hformat hdepth program seed
    exact (Program.halts hregistry hloaded seed).mono fun _ hagrees => hagrees.comesTo halike

/-- **Compiling is correct.** A pattern whose names are known is compiled, unless its code would be too
long, as only that of a long source can be. Whatever the seed is, the program prints to the main channel
what the pattern is evaluated to, and nothing else, or it fails as the evaluation does, unless a limit
ends the run. -/
theorem Engine.comesTo_result {e : Engine} (hregistry : e.registry.Sound) {p : Pattern} (hp : p.Scoped)
    (hlength : p.source.length ≤ 2 ^ 31) (name : String) (debug : Bool) :
    (2 ^ 23 < p.source.length ∧
      ∃ position, e.compile name p.source debug = .error ⟨position, oversized⟩) ∨
    ∃ program, e.compile name p.source debug = .ok program ∧
      ∀ (options : Options) (seed : UInt64) (depth : Nat), options.capitals = .none →
        options.numberFormat = .normal → options.maxCallDepth ≤ depth + 1 →
        (Machine.start options program seed).Halts (e.environment options) seed
            (Outcome.ComesTo seed (p.result depth seed)) ∧
          (e.run program seed options = .unfinished ∨
            (e.run program seed options).ComesTo seed (p.result depth seed)) := by
  obtain hoversized | ⟨program, -, -, -, hprogram, -⟩ := hp.compile hlength
    ⟨debug, e.registry, e.programs⟩ e.registry name (e.environment {}) rfl
  · exact .inl hoversized
  · refine .inr ⟨program, hprogram, fun options seed depth hcapitals hformat hdepth => ?_⟩
    have hhalts := hp.halts hregistry hlength hprogram hcapitals hformat hdepth seed
    exact ⟨hhalts, hhalts.run stepLimit⟩

/-- A pattern that is only one word. -/
def Pattern.word (s : String) : Pattern := .leaf (.text s) .nil

/-- A greeting of someone who is chosen by weights, with a sign that depends on the choice. -/
def Pattern.greeting : Pattern :=
  .define "greet" ["name"]
    (.leaf (.text "Hi") (.leaf (.blank " ") (.tag .argument (.cons (word "name") .nil) .nil)))
    (.tag .set (.cons (word "x")
        (.cons (.block (.weighted (word "2") (word "Ann") (.plain (word "Bo") .nil)) .nil) .nil))
      (.tag (.call "greet") (.cons (.tag .get (.cons (word "x") .nil) .nil) .nil)
        (.tag (.compare .equal) (.cons (.tag .get (.cons (word "x") .nil) .nil)
          (.cons (word "Bo") (.cons (.leaf (.mark .exclamation) .nil)
            (.cons (.leaf (.mark .question) .nil) .nil)))) .nil)))

theorem Engine.comesTo_result_greeting :
    Pattern.greeting.source = "[$[greet:name]:Hi [arg:name]][set:x;\x7b*2*Ann|Bo\x7d]" ++
      "[$greet:[get:x]][eq:[get:x];Bo;!;?]" ∧
    ∃ program, ({} : Engine).compile "main" Pattern.greeting.source true = .ok program ∧
      (Machine.start {} program 7).Halts (({} : Engine).environment {}) 7
        (Outcome.ComesTo 7 (Pattern.greeting.result 255 7)) := by
  have hlength : Pattern.greeting.source.length ≤ 2 ^ 23 := by decide +kernel
  have hscoped : Pattern.greeting.Scoped := by
    unfold Pattern.Scoped
    decide +kernel
  refine ⟨by decide +kernel, ?_⟩
  obtain ⟨hlong, -⟩ | ⟨program, hprogram, hruns⟩ := comesTo_result (e := {})
    Standard.sound_registry hscoped (Nat.le_trans hlength (by decide)) "main" true
  · exact absurd hlength (Nat.not_le.2 hlong)
  · exact ⟨program, hprogram, (hruns {} 7 255 rfl rfl (by decide)).1⟩

end Wordloom
