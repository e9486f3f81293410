import Wordloom.Proofs.Bounds
import Wordloom.Proofs.Checks

/-!
# Wordloom.Proofs.Reachable

The states that a run goes through. All of them keep within the bounds of `Machine.Bounded`, which
rules out some faults for any program at all: those that would mean that a frame, an argument or the
item of a block is missing, or that a frame has no room for the value that it leaves.
-/

namespace Wordloom

/-! ## Runs -/

/-- The states that running leads to, from one on. -/
inductive Machine.Reaches (env : Environment) (m : Machine) : Machine → Prop where
  | refl : m.Reaches env m
  | step {m₁ m₂ : Machine} (h : m.Reaches env m₁) (hstep : Running.step env m₁ = .ok .running m₂) :
    m.Reaches env m₂

namespace Machine

variable {env : Environment} {m m₁ m' : Machine}

theorem Bounded.next (hm : m.Bounded env) {status : Status} (h : Running.step env m = .ok status m') :
    m.Next env (fun _ => True) status m' :=
  (Running.step_gives hm hm.obeys).yields status m' h

theorem Bounded.step (hm : m.Bounded env) (h : Running.step env m = .ok .running m') :
    m'.Bounded env :=
  hm.running (hm.next h)

theorem Bounded.admits (hm : m.Bounded env) {fault : Fault}
    (h : Running.step env m = .error fault m') : env.AdmitsFull fault :=
  (Running.step_gives hm hm.obeys).raises fault m' h

theorem Bounded.reaches (hm : m.Bounded env) (h : m.Reaches env m') : m'.Bounded env := by
  induction h with
  | refl => exact hm
  | step _ hstep ih => exact ih.step hstep

theorem bounded_start (env : Environment) (p : Program) (seed : UInt64) :
    (start env.options p seed).Bounded env := by
  refine ⟨rfl, Nat.zero_le _, Nat.le_refl _, Nat.le_refl _, ?_, trivial, ?_, ?_⟩
  · change 1 ≤ _
    omega
  · intro f hf
    obtain rfl := List.mem_singleton.1 hf
    exact ⟨Nat.le_refl _, nofun⟩
  · intro active hactive
    exact absurd hactive (Array.not_mem_empty active)

end Machine

/-! ## The order of frames -/

namespace Frame

/-- A frame is above another one. -/
structure Above (inner outer : Frame) : Prop where
  floor : outer.floor ≤ inner.floor
  stackBase : outer.stackBase ≤ inner.stackBase
  blocks : outer.blocks ≤ inner.blocks

theorem Nested.le {base blocks : Nat} {frames : List Frame} (h : Nested base blocks frames) :
    ∀ f ∈ frames, f.floor ≤ base ∧ f.blocks ≤ blocks := by
  induction frames generalizing base blocks with
  | nil => exact nofun
  | cons f frames ih =>
    obtain ⟨hfloor, hblocks, hrest⟩ := h
    have hbase := f.stackBase_le_floor
    intro g hg
    obtain rfl | hg := List.mem_cons.1 hg
    · exact ⟨hfloor, hblocks⟩
    · have hg := ih hrest g hg
      omega

theorem Nested.pairwise {base blocks : Nat} {frames : List Frame} (h : Nested base blocks frames) :
    frames.Pairwise Above := by
  induction frames generalizing base blocks with
  | nil => exact .nil
  | cons f frames ih =>
    refine List.pairwise_cons.2 ⟨fun g hg => ?_, ih h.2.2⟩
    have hle := h.2.2.le g hg
    have hbase := f.stackBase_le_floor
    have hbase' := g.stackBase_le_floor
    exact ⟨by omega, by omega, hle.2⟩

end Frame

theorem Machine.Bounded.nested {env : Environment} {m : Machine} (hm : m.Bounded env) :
    Frame.Nested m.stack.size m.blocks.size m.frames :=
  ⟨hm.floor, hm.blocks, hm.callers⟩

/-! ## Faults of the standard functions -/

/-- What a function says of arguments that it cannot use. -/
def Fault.OfArguments : Fault → Prop
  | .invalidArgument _ _ => True
  | .insufficientArguments _ _ => True
  | _ => False

namespace Standard

/-- A routine that does not fail but for its arguments. -/
def Checked (r : Routine) : Prop := ∀ fault, r.Raises fault → fault.OfArguments

theorem checked_fail {fault : Fault} (h : fault.OfArguments) : Checked (.fail fault) := by
  rintro _ rfl
  exact h

theorem checked_withNumber {function : String} {v : Value} {next : Float → Routine}
    (h : ∀ n, Checked (next n)) : Checked (withNumber function v next) := by
  unfold withNumber
  split
  · split
    · exact h _
    · exact checked_fail trivial
  · exact checked_fail trivial

theorem checked_withMode {α : Type} {function : String} {ofName? : String → Option α} {name : String}
    {next : α → Routine} (h : ∀ a, Checked (next a)) :
    Checked (withMode function ofName? name next) := by
  unfold withMode
  split
  · exact h _
  · exact checked_fail trivial

theorem checked_unary {f : Value → Routine} (h : ∀ a, Checked (f a)) (args : List Value) :
    Checked (unary f args) := by
  unfold unary
  split
  · exact h _
  · exact checked_fail trivial

theorem checked_binary {f : Value → Value → Routine} (h : ∀ a b, Checked (f a b))
    (args : List Value) : Checked (binary f args) := by
  unfold binary
  split
  · exact h _ _
  · exact checked_fail trivial

theorem checked_ternary {f : Value → Value → Value → Routine} (h : ∀ a b c, Checked (f a b c))
    (args : List Value) : Checked (ternary f args) := by
  unfold ternary
  split
  · exact h _ _ _
  · exact checked_fail trivial

theorem checked_textOf {v : Value} {next : String → Routine} (h : ∀ text, Checked (next text)) :
    Checked (.textOf v next) :=
  fun fault ⟨text, hraises⟩ => h text fault hraises

theorem checked_pool (args : List Value) : Checked (pool args) := by
  refine checked_ternary (fun name key pattern => ?_) args
  split
  · rintro fault ⟨_, _, _, _, _, ⟨⟩⟩
  · exact checked_fail trivial

theorem checked_num (args : List Value) : Checked (num args) := by
  refine checked_binary (fun a b => checked_withNumber fun x => checked_withNumber fun y => ?_) args
  rintro fault ⟨_, _, ⟨⟩⟩

theorem checked_of_mem {f : Function} (h : f ∈ functions) (args : List Value) :
    Checked (f.routine args) := by
  simp only [functions, List.mem_cons, List.not_mem_nil, or_false] at h
  rcases h with rfl | rfl | rfl | rfl | rfl | rfl | rfl | rfl | rfl | rfl | rfl | rfl
  · exact checked_unary (fun _ => checked_withNumber fun _ _ => by rintro ⟨⟩) args
  · exact checked_unary (fun _ => checked_textOf fun _ _ => by rintro ⟨⟩) args
  · exact checked_unary (fun _ => checked_textOf fun _ => checked_withMode fun _ _ => by rintro ⟨⟩) args
  · exact checked_num args
  · exact checked_pool args
  · exact checked_unary (fun _ => checked_textOf fun _ _ => by rintro ⟨⟩) args
  · exact checked_binary (fun _ _ => checked_textOf fun _ => checked_textOf fun _ _ => by rintro ⟨⟩) args
  · exact checked_binary (fun _ _ => checked_textOf fun _ => checked_textOf fun _ _ => by rintro ⟨⟩) args
  · exact checked_unary (fun _ => checked_textOf fun _ _ => by rintro ⟨⟩) args
  · exact checked_unary (fun _ => checked_textOf fun _ => checked_textOf fun _ _ => by rintro ⟨⟩) args
  · exact checked_unary (fun _ => checked_textOf fun _ => checked_withMode fun _ _ => by rintro ⟨⟩) args
  · exact checked_unary (fun _ => checked_textOf fun _ _ => by rintro ⟨⟩) args

/-- The standard functions fail only for what they are called with. -/
theorem ofArguments_of_raises {fault : Fault} (h : registry.Raises fault) : fault.OfArguments := by
  obtain ⟨id, f, args, hf, hraises⟩ := h
  have hmem : f ∈ functions := by
    have hget : functions[id]? = some f := by
      simpa [registry, Registry.get?] using hf
    exact List.mem_of_getElem? hget
  exact checked_of_mem hmem args fault hraises

end Standard

/-! ## Faults that are ruled out -/

/-- The machine that is about to execute an instruction, behind which there is `position`. -/
def Machine.fetched (m : Machine) (position : Nat) : Machine :=
  { m with
    frame := { m.frame with position := position }
    current := ⟨m.frame.program, m.frame.position⟩
    executed := m.executed + 1 }

namespace Running

variable {env : Environment} {m m' : Machine}

/-- An instruction is executed where it has been read, unless the time is over. -/
theorem step_of_decode (env : Environment) {i : Instr} {position : Nat}
    (hdecode : Instr.decodeAt m.frame.program.code m.frame.position = .ok (i, position))
    (hlt : m.frame.position < m.frame.program.code.size) :
    step env m =
      if env.isLate (m.executed + 1) then .error .timeout (m.fetched position)
      else execute env i (m.fetched position) := by
  simp only [step, run_bind, run_get, if_neg (Nat.not_le.2 hlt), fetch, hdecode, tick, run_set]
  cases env.isLate (m.executed + 1) with
  | true => rfl
  | false => rfl

/-- The next instruction is executed, unless the time is over. -/
theorem step_of_next (env : Environment) {i : Instr} (h : m.nextInstr? = some i) :
    (∃ m₁, m.Same m₁ ∧ step env m = execute env i m₁) ∨ ∃ m₁, step env m = .error .timeout m₁ := by
  unfold Machine.nextInstr? at h
  split at h
  · rename_i i' position hdecode
    by_cases hend : m.frame.program.code.size ≤ m.frame.position
    · simp [hend] at h
    · rw [if_neg hend] at h
      obtain rfl := Option.some.inj h
      rw [step_of_decode env hdecode (Nat.not_le.1 hend)]
      split
      · exact .inr ⟨_, rfl⟩
      · exact .inl ⟨m.fetched position, ⟨⟨position, rfl⟩, rfl, rfl, rfl, rfl, rfl⟩, rfl⟩
  · cases h

/-- The arguments of a frame are on the stack. -/
theorem argument_present (hm : m.Bounded env) (m' : Machine) (i : Nat) :
    argument i m ≠ .error .stackUnderflow m' := by
  intro h
  simp only [argument, run_bind, run_get] at h
  by_cases hi : m.frame.argCount ≤ i
  · rw [if_pos hi] at h
    cases h
  · rw [if_neg hi] at h
    have hargs := (hm.frames m.frame List.mem_cons_self).args
    have hlt : m.frame.argBase + i < m.stack.values.size := by
      have hfloor := hm.floor
      unfold Stack.size at hfloor
      omega
    simp only [Stack.get?, Array.getElem?_eq_getElem hlt] at h
    cases h

theorem loadArgument_present (hm : m.Bounded env) {index : UInt8}
    (h : m.nextInstr? = some (.loadArgument index)) : step env m ≠ .error .stackUnderflow m' := by
  obtain ⟨m₁, hsame, hstep⟩ | ⟨m₁, hstep⟩ := step_of_next env h
  · rw [hstep]
    intro herror
    simp only [execute, run_bind] at herror
    have hpresent := argument_present (hm.same hsame) m' index.toNat
    cases hargument : argument index.toNat m₁ with
    | ok v m₂ =>
      rw [hargument] at herror
      by_cases hfull : m₂.stack.limit ≤ m₂.stack.size
      · simp [push, Stack.push, hfull] at herror
      · simp [push, Stack.push, hfull, run_pure] at herror
    | error fault m₂ =>
      rw [hargument] at herror
      simp_all
  · rw [hstep]
    intro herror
    cases herror

/-- A frame is left, unless the time is over. -/
theorem step_of_leaving (env : Environment) (h : m.Leaving) :
    (∃ m₁, m.Same m₁ ∧ step env m = leave env m₁) ∨ ∃ m₁, step env m = .error .timeout m₁ := by
  by_cases hend : m.frame.program.code.size ≤ m.frame.position
  · refine .inl ⟨m, .refl m, ?_⟩
    simp only [step, run_bind, run_get, if_pos hend]
  · exact step_of_next env (h.resolve_left hend)

/-- A frame has room for the value that it leaves. -/
theorem leaving_roomy (hm : m.Bounded env) (h : m.Leaving) {limit : Nat}
    (hstep : step env m = .error (.stackOverflow limit) m') :
    env.registry.Raises (.stackOverflow limit) := by
  obtain ⟨m₁, hsame, hstep'⟩ | ⟨m₁, hstep'⟩ := step_of_leaving env h
  · rw [hstep'] at hstep
    exact (leave_gives hm hm.obeys h hsame).raises _ _ hstep
  · rw [hstep'] at hstep
    cases hstep

end Running

/-- The faults that a state rules out. -/
inductive Machine.Excludes (m : Machine) : Fault → Prop where
  | frame : m.Excludes (.internal "no active frame")
  | caller : m.Excludes (.internal "return without a frame")
  | item (n : Nat) : m.Excludes (.internal s!"block item {n} out of range")
  | argument {index : UInt8} (h : m.nextInstr? = some (.loadArgument index)) :
    m.Excludes .stackUnderflow
  | result {limit : Nat} (h : m.Leaving) : m.Excludes (.stackOverflow limit)

theorem InternalMessage.take {message : String} (h : InternalMessage message) :
    message.toList.take 7 ∈ ["no nest".toList, "block e".toList, "unknown".toList] := by
  rcases h with rfl | rfl | ⟨letter, rfl⟩ | ⟨visibility, rfl⟩ <;> simp [toString]

namespace Machine

variable {env : Environment} {m m' : Machine}

theorem Excludes.ofFunction (hm : m.Bounded env) {fault : Fault} (h : m.Excludes fault)
    (hstep : Running.step env m = .error fault m') : env.registry.Raises fault := by
  have hadmits := hm.admits hstep
  cases h with
  | frame | caller =>
    exact (hadmits.resolve_right (by simp)).resolve_right fun h => absurd h.take (by simp)
  | item n =>
    exact (hadmits.resolve_right (by simp)).resolve_right fun h => absurd h.take (by simp [toString])
  | argument hnext => exact absurd hstep (Running.loadArgument_present hm hnext)
  | result hleaving => exact Running.leaving_roomy hm hleaving hstep

theorem Excludes.not_ofArguments {fault : Fault} (h : m.Excludes fault) : ¬ fault.OfArguments := by
  cases h <;> exact id

/-- Any program whatsoever keeps the stack and the frames in order, and some faults do not happen at
all, unless a function that was added says so itself. -/
theorem reaches_bounds {p : Program} {seed : UInt64}
    (h : (start env.options p seed).Reaches env m) :
    (m.frame.floor ≤ m.stack.size ∧ m.stack.size ≤ env.options.maxStackSize) ∧
      m.frames.Pairwise Frame.Above ∧ (∀ f ∈ m.frames, f.blocks ≤ m.blocks.size) ∧
      m.frames.length ≤ max 1 env.options.maxCallDepth ∧
      ∀ fault m', Running.step env m = .error fault m' → m.Excludes fault →
        env.registry.Raises fault ∧ env.registry ≠ Standard.registry := by
  have hm := (bounded_start env p seed).reaches h
  refine ⟨⟨hm.floor, hm.limit ▸ hm.size⟩, hm.nested.pairwise, fun f hf => (hm.nested.le f hf).2,
    hm.depth, fun fault m' hstep hexcludes => ?_⟩
  have hraises := hexcludes.ofFunction hm hstep
  refine ⟨hraises, fun hregistry => hexcludes.not_ofArguments ?_⟩
  rw [hregistry] at hraises
  exact Standard.ofArguments_of_raises hraises

end Machine

/-- Code that calls itself with one argument, as often as it can. -/
def Program.selfCall : Program :=
  { name := "self", code := (Instr.pushNull.encode ++ (Instr.call 0 1).encode).toArray }

/-- It gets to a second frame, which may not touch its argument. -/
theorem Machine.reaches_bounds_selfCall :
    ∃ m, (start { maxCallDepth := 2 } .selfCall 7).Reaches
        { registry := Standard.registry, options := { maxCallDepth := 2 } } m ∧
      m.depth = 2 ∧ m.frame.floor = 1 ∧ m.frame.floor ≤ m.stack.size ∧
      m.frames.Pairwise Frame.Above := by
  have hrun : ((start { maxCallDepth := 2 } .selfCall 7).next?
        { registry := Standard.registry, options := { maxCallDepth := 2 } }).any fun m₁ =>
      (m₁.next? { registry := Standard.registry, options := { maxCallDepth := 2 } }).any fun m =>
        m.depth = 2 ∧ m.frame.floor = 1 := by
    decide +kernel
  simp only [Option.any_eq_true, decide_eq_true_eq] at hrun
  obtain ⟨m₁, hfirst, m, hsecond, hdepth, hfloor⟩ := hrun
  have hreaches := (Reaches.refl.step (step_of_next? hfirst)).step (step_of_next? hsecond)
  have hbounds := reaches_bounds hreaches
  exact ⟨m, hreaches, hdepth, hfloor, hbounds.1.1, hbounds.2.1⟩

end Wordloom
