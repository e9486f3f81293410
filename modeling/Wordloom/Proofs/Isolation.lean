import Wordloom.Proofs.Reachable

/-!
# Wordloom.Proofs.Isolation

What a frame cannot touch, whatever code it runs. While a call goes on, however many frames it enters
and leaves itself, its caller keeps its values, its locals, its position and its blocks; in the end the
arguments are replaced by at most one value. Evaluated code has no arguments and leaves no value, but
works on the locals of the frame that asks for it: these come back with what the code, and code that is
evaluated for it in turn, has written to them.
-/

namespace Wordloom

/-- The locals that the outermost of some frames works on; innermost first. They are lent to the code
that is evaluated for it, and by that to the code that is evaluated for it in turn. -/
def Frame.lent : List Frame → Array Value
  | [] => #[]
  | f :: fs => if (f :: fs).all (·.evaluation.isSome) then f.locals else lent fs

namespace Machine

/-- All frames from the innermost one of `base` on are evaluated code, so that they work on the same
locals. -/
def Shares (base m : Machine) : Bool :=
  (m.frames.take (m.depth + 1 - base.depth)).all (·.evaluation.isSome)

/-- What the next step writes to these locals. -/
def writes (base m : Machine) : List LocalWrite :=
  if base.Shares m then m.localWrite?.toList else []

/-- The states up to the one in which the innermost frame of `base` is left, and what has been written
to its locals until then. -/
inductive Within (env : Environment) (base : Machine) : Machine → List LocalWrite → Prop where
  | enter : Within env base base []
  | step {m m' : Machine} {ws : List LocalWrite} (h : Within env base m ws)
    (hstay : ¬ (m.depth = base.depth ∧ m.Leaving)) (hstep : Running.step env m = .ok .running m') :
    Within env base m' (ws ++ base.writes m)

/-- What there was when a frame was entered is still there. -/
structure Keeps (base m : Machine) : Prop where
  callers : base.callers <:+ m.callers
  stack : m.stack.values.take base.stack.size = base.stack.values
  blocks : m.blocks.take base.blocks.size = base.blocks

/-! ## The invariant of an activation -/

/-- Some frames, innermost first, end in this one, which may have got ahead. -/
def Rooted (root : Frame) (frames : List Frame) : Prop :=
  ∃ position locals, frames.getLast? = some { root with position := position, locals := locals }

/-- The innermost frame of `base` is active, with `inner` and the innermost frame of `m` above it. -/
structure Ongoing (env : Environment) (base m : Machine) (inner : List Frame)
    (ws : List LocalWrite) : Prop where
  bounded : m.Bounded env
  callers : m.callers = inner ++ base.callers
  root : Rooted base.frame (m.frame :: inner)
  stack : m.stack.values.take base.frame.floor = base.stack.values.take base.frame.floor
  blocks : m.blocks.take base.frame.blocks = base.blocks.take base.frame.blocks
  locals : base.frame.evaluation.isSome →
    Frame.lent (m.frame :: inner) = ws.foldl LocalWrite.apply base.frame.locals

variable {env : Environment} {base m m₁ m' : Machine} {inner : List Frame} {ws : List LocalWrite}
  {parent : Frame} {callers : List Frame}

theorem take_append_of_le {α : Type} {xs ys : Array α} {n : Nat} (h : n ≤ xs.size) :
    (xs ++ ys).take n = xs.take n := by
  have hempty : ys.extract 0 (n - xs.size) = #[] := by
    rw [Nat.sub_eq_zero_of_le h, Array.extract_zero]
  rw [Array.take_eq_extract, Array.take_eq_extract, Array.extract_append, Nat.zero_sub, hempty,
    Array.append_empty]

theorem Same.depth (h : m.Same m') : m.depth = m'.depth := by
  rw [Machine.depth, Machine.depth, h.callers]

theorem Same.evaluation (h : m.Same m') : m'.frame.evaluation = m.frame.evaluation := by
  obtain ⟨position, hframe⟩ := h.frame
  rw [hframe]

theorem Leaving.localWrite? (h : m.Leaving) : m.localWrite? = none := by
  unfold Machine.localWrite?
  obtain hend | hnext := h
  · have hnone : m.nextInstr? = none := by
      unfold Machine.nextInstr?
      split
      · exact if_pos hend
      · rfl
    rw [hnone]
  · rw [hnext]

theorem Rooted.head {root f : Frame} (h : Rooted root (f :: inner)) (position : Nat)
    (locals : Array Value) :
    Rooted root ({ f with position := position, locals := locals } :: inner) := by
  cases inner with
  | nil =>
    obtain ⟨_, _, hlast⟩ := h
    obtain rfl := Option.some.inj hlast
    exact ⟨position, locals, rfl⟩
  | cons g inner => exact h

theorem Rooted.mem {root : Frame} {frames : List Frame} (h : Rooted root frames) :
    ∃ f ∈ frames, f.floor = root.floor ∧ f.blocks = root.blocks := by
  obtain ⟨position, locals, hlast⟩ := h
  exact ⟨_, List.mem_of_getLast? hlast, rfl, rfl⟩

theorem lent_cons_of_all {f : Frame} {fs : List Frame}
    (h : (f :: fs).all (·.evaluation.isSome)) : Frame.lent (f :: fs) = f.locals := by
  rw [Frame.lent, if_pos h]

theorem lent_cons_of_not {f : Frame} {fs : List Frame}
    (h : ¬ (f :: fs).all (·.evaluation.isSome)) : Frame.lent (f :: fs) = Frame.lent fs := by
  rw [Frame.lent, if_neg h]

/-- A machine that enters a frame is within bounds itself. -/
theorem Bounded.of_entered (hm' : m'.Bounded env) (h : m.Entered m') : m.Bounded env := by
  have hcallers := hm'.callers
  rw [h.callers] at hcallers
  obtain ⟨hfloor, hblocks, hcallers⟩ := hcallers
  refine ⟨?_, ?_, ?_, ?_, ?_, hcallers, ?_, ?_⟩
  · rw [← h.stack]
    exact hm'.limit
  · rw [← h.stack]
    exact hm'.size
  · rw [← h.floor]
    exact Nat.le_trans hfloor m'.frame.stackBase_le_floor
  · rw [← h.marked]
    exact hblocks
  · have hdepth := hm'.depth
    rw [Machine.depth, h.callers, List.length_cons] at hdepth
    exact Nat.le_of_succ_le hdepth
  · intro f hf
    exact hm'.frames f (List.mem_cons_of_mem _ (h.callers ▸ hf))
  · rw [← h.blocks]
    exact hm'.items

namespace Ongoing

theorem start (hm : base.Bounded env) : Ongoing env base base [] [] := by
  refine ⟨hm, rfl, ⟨_, _, rfl⟩, rfl, rfl, fun hevaluation => ?_⟩
  simp [Frame.lent, hevaluation]

/-- If the frame is not the innermost one, then all that that one has is above it. -/
theorem le_base (h : Ongoing env base m (parent :: inner) ws) :
    base.frame.floor ≤ m.frame.stackBase ∧ base.frame.blocks ≤ m.frame.blocks := by
  have hroot : Rooted base.frame (parent :: inner) := h.root
  obtain ⟨f, hf, hfloor, hblocks⟩ := hroot.mem
  rw [← hfloor, ← hblocks]
  exact h.bounded.callers.le f (h.callers ▸ List.mem_append_left _ hf)

variable (h : Ongoing env base m inner ws)
include h

/-- Frames that were entered since count as depth. -/
theorem depth_eq : m.depth = inner.length + base.depth := by
  simp only [Machine.depth, h.callers, List.length_append]
  omega

theorem take_frames : m.frames.take (m.depth + 1 - base.depth) = m.frame :: inner := by
  have hlength : m.depth + 1 - base.depth = inner.length + 1 := by
    have hdepth := h.depth_eq
    omega
  rw [hlength, Machine.frames, h.callers, List.take_succ_cons, List.take_left]

/-- Locals are shared while all frames entered since are evaluations. -/
theorem shares_eq : base.Shares m = (m.frame :: inner).all (·.evaluation.isSome) := by
  rw [Shares, h.take_frames]

/-- The frame is below the innermost one. -/
theorem le : base.frame.floor ≤ m.frame.floor ∧ base.frame.blocks ≤ m.frame.blocks := by
  obtain ⟨f, hf, hfloor, hblocks⟩ := h.root.mem
  rw [← hfloor, ← hblocks]
  obtain rfl | hf := List.mem_cons.1 hf
  · exact ⟨Nat.le_refl _, Nat.le_refl _⟩
  · have hmem : f ∈ m.callers := by
      rw [h.callers]
      exact List.mem_append_left _ hf
    have habove := List.rel_of_pairwise_cons h.bounded.nested.pairwise hmem
    exact ⟨habove.floor, habove.blocks⟩

theorem stays (hstays : m.Stays m') (hm' : m'.Bounded env) :
    Ongoing env base m' inner ws := by
  obtain ⟨position, hframe⟩ := hstays.frame
  have hle := h.le
  refine ⟨hm', hstays.callers.trans h.callers, ?_, ?_, ?_, ?_⟩
  · rw [hframe]
    exact h.root.head position m.frame.locals
  · rw [← take_take_of_le hle.1, hstays.stack, take_take_of_le hle.1]
    exact h.stack
  · rw [← take_take_of_le hle.2, hstays.blocks, take_take_of_le hle.2]
    exact h.blocks
  · rw [hframe]
    exact h.locals

theorem same (hsame : m.Same m') : Ongoing env base m' inner ws :=
  h.stays hsame.stays (h.bounded.same hsame)

/-- A frame that is entered comes on top. -/
theorem entered (hentered : m.Entered m') (hm' : m'.Bounded env) :
    Ongoing env base m' (m.frame :: inner) ws := by
  refine ⟨hm', ?_, h.root, ?_, ?_, ?_⟩
  · rw [hentered.callers, h.callers, List.cons_append]
  · rw [hentered.stack]
    exact h.stack
  · rw [hentered.blocks]
    exact h.blocks
  · intro hevaluation
    rw [← h.locals hevaluation]
    by_cases hall : (m'.frame :: m.frame :: inner).all (·.evaluation.isSome)
    · have hinner : (m.frame :: inner).all (·.evaluation.isSome) := by
        rw [List.all_cons, Bool.and_eq_true] at hall
        exact hall.2
      have hframe : m'.frame.evaluation.isSome := by
        rw [List.all_cons, Bool.and_eq_true] at hall
        exact hall.1
      rw [lent_cons_of_all hall, lent_cons_of_all hinner, hentered.locals hframe]
    · exact lent_cons_of_not hall

theorem ahead (hahead : m.Ahead env m') : ∃ inner', Ongoing env base m' inner' ws := by
  obtain ⟨hm', hstays | ⟨m₁, hstays, hentered⟩⟩ := hahead
  · exact ⟨inner, h.stays hstays hm'⟩
  · exact ⟨_, (h.stays hstays (hm'.of_entered hentered)).entered hentered hm'⟩

/-- A write counts if it is to the locals that are shared. -/
theorem write (w : LocalWrite) :
    Ongoing env base (m.write w) inner (ws ++ if base.Shares m then [w] else []) := by
  refine ⟨h.bounded.write w, h.callers, h.root.head m.frame.position _, h.stack, h.blocks, ?_⟩
  intro hevaluation
  have hlocals := h.locals hevaluation
  rw [h.shares_eq]
  by_cases hall : (m.frame :: inner).all (·.evaluation.isSome)
  · rw [if_pos hall, List.foldl_append, ← hlocals, lent_cons_of_all hall]
    exact lent_cons_of_all hall
  · rw [if_neg hall, List.append_nil, ← hlocals, lent_cons_of_not hall]
    exact lent_cons_of_not hall

/-- The innermost frame is left, and it is not the one that all is about. -/
theorem leaveTo (locals : Array Value) (hdepth : m.depth ≠ base.depth)
    (hcallers : m.callers = parent :: callers)
    (hlocals : ∀ rest, Frame.lent (m.frame :: parent :: rest) =
      Frame.lent ({ parent with locals := locals } :: rest)) :
    ∃ inner', Ongoing env base (m.leaveTo { parent with locals := locals } callers) inner' ws := by
  have hlength := h.depth_eq
  cases inner with
  | nil => exact absurd (hlength.trans (Nat.zero_add _)) hdepth
  | cons f inner =>
    have heq := hcallers.symm.trans h.callers
    obtain ⟨rfl, rfl⟩ := List.cons.inj heq
    have hle := h.le_base
    refine ⟨inner, h.bounded.leaveTo hcallers locals, rfl, ?_, ?_, ?_, fun hevaluation => ?_⟩
    · have hroot : Rooted base.frame (parent :: inner) := h.root
      exact hroot.head parent.position locals
    · exact (take_take_of_le hle.1).trans h.stack
    · exact (take_take_of_le hle.2).trans h.blocks
    · rw [← h.locals hevaluation]
      exact (hlocals inner).symm

/-- A call that was entered since returns. -/
theorem returnTo (hdepth : m.depth ≠ base.depth)
    (hcallers : m.callers = parent :: callers) (hframe : m.frame.evaluation = none) :
    ∃ inner', Ongoing env base (m.returnTo parent callers) inner' ws := by
  have hlent (rest : List Frame) :
      Frame.lent (m.frame :: parent :: rest) = Frame.lent (parent :: rest) := by
    refine lent_cons_of_not ?_
    simp [hframe]
  obtain ⟨inner', hleft⟩ := h.leaveTo parent.locals hdepth hcallers hlent
  refine ⟨inner', h.bounded.returnTo hcallers, hleft.callers, hleft.root, ?_, hleft.blocks,
    hleft.locals⟩
  rw [← hleft.stack]
  exact take_append_of_le (Nat.le_trans hleft.le.1 hleft.bounded.floor)

/-- An evaluation that was entered since hands its locals back. -/
theorem resumeTo {back : Return} (hdepth : m.depth ≠ base.depth)
    (hcallers : m.callers = parent :: callers) (hframe : m.frame.evaluation = some back) :
    ∃ inner', Ongoing env base (m.resumeTo back parent callers) inner' ws := by
  have hlent (rest : List Frame) : Frame.lent (m.frame :: parent :: rest) =
      Frame.lent ({ parent with locals := m.frame.locals } :: rest) := by
    by_cases hall : (parent :: rest).all (·.evaluation.isSome)
    · have hparent : ({ parent with locals := m.frame.locals } :: rest).all (·.evaluation.isSome) := hall
      rw [lent_cons_of_all (by simpa [hframe] using hall), lent_cons_of_all hparent]
    · have hparent : ¬ ({ parent with locals := m.frame.locals } :: rest).all (·.evaluation.isSome) :=
        hall
      rw [lent_cons_of_not (by simpa [hframe] using hall), lent_cons_of_not hall,
        lent_cons_of_not hparent]
  obtain ⟨inner', hleft⟩ := h.leaveTo m.frame.locals hdepth hcallers hlent
  exact ⟨inner', h.bounded.resumeTo back hcallers, hleft.callers, hleft.root, hleft.stack,
    hleft.blocks, hleft.locals⟩

/-- A step that does not leave the activation goes on with it. -/
theorem step (hstay : ¬ (m.depth = base.depth ∧ m.Leaving))
    (hstep : Running.step env m = .ok .running m') :
    ∃ inner', Ongoing env base m' inner' (ws ++ base.writes m) := by
  have hdepth (hleaving : m.Leaving) : m.depth ≠ base.depth := fun hdepth => hstay ⟨hdepth, hleaving⟩
  cases h.bounded.next hstep with
  | onward hleaving hwrite honward =>
    have hwrites : base.writes m = [] := by simp [writes, hwrite]
    rw [hwrites, List.append_nil]
    exact h.ahead (h.bounded.onward honward)
  | @write m₁ w hleaving hwrite hchanges =>
    obtain ⟨hbounded, hstays⟩ := h.bounded.changes hchanges
    have h₁ := h.stays hstays hbounded
    have hshares : base.Shares m = base.Shares m₁ := by
      obtain ⟨position, hframe⟩ := hstays.frame
      rw [h.shares_eq, h₁.shares_eq, hframe]
      rfl
    have hwrites : base.writes m = if base.Shares m₁ then [w] else [] := by
      simp [writes, hwrite, hshares]
    rw [hwrites]
    exact ⟨inner, h₁.write w⟩
  | back hleaving hcallers hframe hsame =>
    have hwrites : base.writes m = [] := by simp [writes, hleaving.localWrite?]
    rw [hwrites, List.append_nil]
    exact (h.same hsame).returnTo (hsame.depth ▸ hdepth hleaving) (hsame.callers.trans hcallers)
      (hsame.evaluation.trans hframe)
  | resume hleaving hcallers hframe hsame honward =>
    have hwrites : base.writes m = [] := by simp [writes, hleaving.localWrite?]
    rw [hwrites, List.append_nil]
    obtain ⟨inner', h'⟩ := (h.same hsame).resumeTo (hsame.depth ▸ hdepth hleaving)
      (hsame.callers.trans hcallers) (hsame.evaluation.trans hframe)
    exact h'.ahead (h'.bounded.onward honward)

end Ongoing

theorem Within.ongoing (hm : base.Bounded env) (h : Within env base m ws) :
    ∃ inner, Ongoing env base m inner ws := by
  induction h with
  | enter => exact ⟨[], .start hm⟩
  | step _ hstay hstep ih =>
    obtain ⟨inner, hongoing⟩ := ih
    exact hongoing.step hstay hstep

/-! ## Entering a frame -/

/-- The innermost frame has just been entered. -/
structure Fresh (m : Machine) : Prop where
  floor : m.frame.floor = m.stack.size
  blocks : m.frame.blocks = m.blocks.size

/-- While it goes on, the caller keeps what it has. -/
theorem Ongoing.keeps (h : Ongoing env base m inner ws) (hfresh : base.Fresh) : base.Keeps m := by
  have hstack := h.stack
  have hblocks := h.blocks
  rw [hfresh.floor] at hstack
  rw [hfresh.blocks] at hblocks
  refine ⟨⟨inner, h.callers.symm⟩, hstack.trans ?_, hblocks.trans ?_⟩
  · exact Array.extract_size
  · exact Array.extract_size

/-- The innermost frame of `base` is the innermost frame again. -/
theorem Ongoing.at_base (h : Ongoing env base m inner ws) (hdepth : m.depth = base.depth) :
    inner = [] ∧ ∃ position, m.frame =
      { base.frame with position := position, locals := m.frame.locals } := by
  have hlength := h.depth_eq
  obtain rfl := List.eq_nil_of_length_eq_zero (show inner.length = 0 by omega)
  obtain ⟨position, locals, hlast⟩ := h.root
  have hframe : m.frame = { base.frame with position := position, locals := locals } :=
    Option.some.inj hlast
  refine ⟨rfl, position, ?_⟩
  rw [hframe]

/-- How many arguments the next step calls a subroutine or program with, if it does. -/
def calls? (m : Machine) : Option Nat :=
  match m.nextInstr? with
  | some (.call _ count) => some count.toNat
  | some (.callProgram _) => some 0
  | _ => none

/-- A frame for so many arguments has been entered, above all that there was in `m`. -/
structure Called (m : Machine) (count : Nat) (m' : Machine) : Prop where
  callers : ∃ position, m'.callers = { m.frame with position := position } :: m.callers
  stack : m'.stack = m.stack
  blocks : m'.blocks = m.blocks
  fresh : m'.Fresh
  base : m'.frame.stackBase = m.stack.size - count
  evaluation : m'.frame.evaluation = none

theorem Same.called {m₁ : Machine} {count : Nat} (hsame : m.Same m₁) (h : m₁.Called count m') :
    m.Called count m' := by
  obtain ⟨_, hframe⟩ := hsame.frame
  obtain ⟨position, hcallers⟩ := h.callers
  refine ⟨⟨position, ?_⟩, h.stack.trans hsame.stack, h.blocks.trans hsame.blocks, h.fresh, ?_,
    h.evaluation⟩
  · rw [hcallers, hframe, hsame.callers]
  · rw [h.base, hsame.stack]

/-- A step of a call enters a frame with its arguments. -/
theorem called_of_step {count : Nat} (h : m.calls? = some count)
    (hstep : Running.step env m = .ok .running m') : m.Called count m' := by
  unfold calls? at h
  split at h
  · rename_i target n hnext
    obtain rfl := Option.some.inj h
    obtain ⟨m₁, hsame, hexecute⟩ | ⟨m₁, htime⟩ := Running.step_of_next env hnext
    · rw [hexecute] at hstep
      refine hsame.called ?_
      obtain ⟨offset, m₂, haddress, hrest⟩ := run_bind_eq_ok.1 hstep
      obtain ⟨_, m₃, hcall, ⟨⟩⟩ := run_bind_eq_ok.1 hrest
      obtain ⟨rfl, -⟩ := (Running.address_gives env m₁ target).yields _ _ haddress
      obtain ⟨-, hcount, rfl⟩ := (Running.call_gives offset n.toNat).yields _ _ hcall
      refine ⟨⟨_, rfl⟩, rfl, rfl, ⟨?_, rfl⟩, rfl, rfl⟩
      unfold Stack.heightAbove at hcount
      change m₁.stack.size - n.toNat + n.toNat = m₁.stack.size
      omega
    · rw [htime] at hstep
      cases hstep
  · rename_i index hnext
    obtain rfl := Option.some.inj h
    obtain ⟨m₁, hsame, hexecute⟩ | ⟨m₁, htime⟩ := Running.step_of_next env hnext
    · rw [hexecute] at hstep
      refine hsame.called ?_
      obtain ⟨_, m₂, hcall, ⟨⟩⟩ := run_bind_eq_ok.1 hstep
      obtain ⟨-, target, rfl⟩ := (Running.callProgram_gives index).yields _ _ hcall
      exact ⟨⟨_, rfl⟩, rfl, rfl, ⟨rfl, rfl⟩, rfl, rfl⟩
    · rw [htime] at hstep
      cases hstep
  · cases h

/-! ## Leaving it -/

/-- A call is over: the arguments are replaced by at most one value. -/
theorem Ongoing.leave_call (h : Ongoing env base m inner ws) (hfresh : base.Fresh)
    (hframe : base.frame.evaluation = none) {parent : Frame} {callers : List Frame}
    (hcallers : base.callers = parent :: callers) (hdepth : m.depth = base.depth) (hleaving : m.Leaving) :
    (∃ m₂, Running.step env m = .ok .running m₂ ∧ m₂.frames = base.callers ∧
      m₂.blocks = base.blocks ∧
      ∃ result : Option Value,
        m₂.stack.values = base.stack.values.take base.frame.stackBase ++ result.toArray) ∨
      ∃ m₂, Running.step env m = .error .timeout m₂ := by
  obtain ⟨m₁, hsame, hstep⟩ | htime := Running.step_of_leaving env hleaving
  · have h₁ := h.same hsame
    obtain ⟨rfl, position, hat⟩ := h₁.at_base (hsame.depth ▸ hdepth)
    have hcallers₁ : m₁.callers = parent :: callers := h₁.callers.trans hcallers
    have hleave := Running.leave_call h₁.bounded hcallers₁ (by rw [hat]; exact hframe)
    have hkeeps := h₁.keeps hfresh
    refine .inl ⟨m₁.returnTo parent callers, hstep.trans hleave, hcallers.symm, ?_, m₁.result?, ?_⟩
    · have hblocks : m₁.frame.blocks = base.blocks.size := by rw [hat]; exact hfresh.blocks
      change m₁.blocks.take m₁.frame.blocks = _
      rw [hblocks, hkeeps.blocks]
    · have hbase : m₁.frame.stackBase = base.frame.stackBase := by rw [hat]
      have hle : base.frame.stackBase ≤ base.stack.size := by
        have hfloor := base.frame.stackBase_le_floor
        rwa [hfresh.floor] at hfloor
      change m₁.stack.values.take m₁.frame.stackBase ++ _ = _
      rw [hbase, ← take_take_of_le hle, hkeeps.stack]
  · exact .inr htime

/-- Evaluated code is done: what has asked for its value goes on where it was, with the locals. -/
theorem Ongoing.leave_evaluation (h : Ongoing env base m inner ws) (hbase : base.Bounded env)
    (hfresh : base.Fresh) {back : Return} (hframe : base.frame.evaluation = some back)
    {parent : Frame} {callers : List Frame} (hcallers : base.callers = parent :: callers)
    (hdepth : m.depth = base.depth) (hleaving : m.Leaving) :
    (∃ m₂, Running.step env m =
        (do
          Running.continueWith env (m.result?.getD .undefined) back.next
          return Status.running) m₂ ∧
      m₂.stack = base.stack ∧ m₂.blocks = base.blocks ∧ m₂.callers = callers ∧
      m₂.frame = { parent with locals := ws.foldl LocalWrite.apply base.frame.locals }) ∨
      ∃ m₂, Running.step env m = .error .timeout m₂ := by
  obtain ⟨m₁, hsame, hstep⟩ | htime := Running.step_of_leaving env hleaving
  · have h₁ := h.same hsame
    obtain ⟨rfl, position, hat⟩ := h₁.at_base (hsame.depth ▸ hdepth)
    have hcallers₁ : m₁.callers = parent :: callers := h₁.callers.trans hcallers
    have hback : m₁.frame.evaluation = some back := by
      rw [hat]
      exact hframe
    have hresult : m₁.result? = m.result? := by
      obtain ⟨_, hsameFrame⟩ := hsame.frame
      rw [result?, result?, hsame.stack, hsameFrame]
      rfl
    have hkeeps := h₁.keeps hfresh
    rw [Running.leave_evaluation hcallers₁ hback, hresult] at hstep
    refine .inl ⟨m₁.resumeTo back parent callers, hstep, ?_, ?_, rfl, ?_⟩
    · have hstackBase : m₁.frame.stackBase = base.stack.size := by
        rw [hat, ← hfresh.floor, Frame.floor, hframe]
        rfl
      have hlimit : m₁.stack.limit = base.stack.limit := h₁.bounded.limit.trans hbase.limit.symm
      change Stack.mk (m₁.stack.values.take m₁.frame.stackBase) m₁.stack.limit = base.stack
      rw [hstackBase, hkeeps.stack, hlimit]
    · have hblocks : m₁.frame.blocks = base.blocks.size := by
        rw [hat]
        exact hfresh.blocks
      change m₁.blocks.take m₁.frame.blocks = _
      rw [hblocks, hkeeps.blocks]
    · have hlocals := h₁.locals (by rw [hframe]; rfl)
      rw [lent_cons_of_all (by simp [hback])] at hlocals
      rw [← hlocals]
      rfl
  · exact .inr htime

/-- Whatever code runs, a call keeps to its own part of the machine, and evaluated code to that and
to the locals that it is lent. -/
theorem activations_isolated {p : Program} {seed : UInt64}
    (h : (start env.options p seed).Reaches env m) :
    (∀ count base, m.calls? = some count → Running.step env m = .ok .running base →
      (∃ position, base.callers = { m.frame with position := position } :: m.callers) ∧
      base.stack = m.stack ∧ base.blocks = m.blocks ∧ base.frame.floor = m.stack.size ∧
      ∀ m' ws, Within env base m' ws →
        base.Keeps m' ∧
        (m'.depth = base.depth → m'.Leaving →
          (∃ m₂, Running.step env m' = .ok .running m₂ ∧ m₂.frames = base.callers ∧
            m₂.blocks = m.blocks ∧
            ∃ result : Option Value,
              m₂.stack.values = m.stack.values.take (m.stack.size - count) ++ result.toArray) ∨
          ∃ m₂, Running.step env m' = .error .timeout m₂)) ∧
    ∀ address next m₀, Running.evaluate env.options address next m₀ = .ok () m →
      ∀ m' ws, Within env m m' ws →
        m.Keeps m' ∧
        (m'.depth = m.depth → m'.Leaving →
          (∃ m₂, Running.step env m' =
              (do
                Running.continueWith env (m'.result?.getD .undefined) next
                return Status.running) m₂ ∧
            m₂.stack = m₀.stack ∧ m₂.blocks = m₀.blocks ∧ m₂.callers = m₀.callers ∧
            m₂.frame = { m₀.frame with
              locals := ws.foldl LocalWrite.apply m₀.frame.locals }) ∨
          ∃ m₂, Running.step env m' = .error .timeout m₂) := by
  have hm := (bounded_start env p seed).reaches h
  constructor
  · intro count base hcalls hstep
    have hbase := hm.step hstep
    have hcalled := called_of_step hcalls hstep
    obtain ⟨position, hcallers⟩ := hcalled.callers
    refine ⟨⟨position, hcallers⟩, hcalled.stack, hcalled.blocks,
      hcalled.fresh.floor.trans (by rw [hcalled.stack]), fun m' ws hwithin => ?_⟩
    obtain ⟨inner, hongoing⟩ := hwithin.ongoing hbase
    refine ⟨hongoing.keeps hcalled.fresh, fun hdepth hleaving => ?_⟩
    have hleave := hongoing.leave_call hcalled.fresh hcalled.evaluation hcallers hdepth hleaving
    rwa [hcalled.base, hcalled.stack, hcalled.blocks] at hleave
  · intro address next m₀ hevaluate m' ws hwithin
    obtain ⟨inner, hongoing⟩ := hwithin.ongoing hm
    obtain ⟨-, rfl⟩ := (Running.evaluate_gives _ _).yields _ _ hevaluate
    refine ⟨hongoing.keeps ⟨rfl, rfl⟩, fun hdepth hleaving => ?_⟩
    exact hongoing.leave_evaluation hm ⟨rfl, rfl⟩ rfl rfl hdepth hleaving

end Machine

/-- Code that calls a subroutine, which leaves its argument. -/
def Program.echo : Program :=
  { name := "echo"
    code := (Instr.pushNull.encode ++ (Instr.call 8 1).encode ++ Instr.return.encode ++
      (Instr.loadArgument 0).encode ++ Instr.return.encode).toArray }

/-- Code with a block, the weight of whose only item is found by code that sets a local. -/
def Program.weighing : Program :=
  { name := "weighing"
    code := ((Instr.block 0).encode ++ Instr.return.encode ++
      Instr.pushNull.encode ++ (Instr.setLocal 0).encode ++ Instr.return.encode).toArray
    blocks := #[⟨5, [⟨5, .interpreted 6⟩]⟩] }

/-- The first local is set, to no value, and nothing else is written. -/
def LocalWrite.onlyNull : List LocalWrite → Bool
  | [.set 0 .null] => true
  | _ => false

theorem LocalWrite.eq_of_onlyNull {ws : List LocalWrite} (h : onlyNull ws) : ws = [.set 0 .null] := by
  unfold onlyNull at h
  split at h
  · rfl
  · cases h

namespace Machine

/-- A machine that is about to find that weight. -/
def weighing : Machine :=
  { start {} .weighing 7 with
    frame := { (start {} .weighing 7).frame with position := 5 }
    executed := 1
    current := ⟨.weighing, 0⟩ }

/-- When the subroutine is about to be left, its argument is still below what it has pushed; and when
the weight is known, the block is still as it was, and only the local has been written. -/
theorem activations_isolated_sample :
    (∃ m base m', (start {} .echo 7).Reaches { registry := Standard.registry } m ∧
      m.calls? = some 1 ∧ Running.step { registry := Standard.registry } m = .ok .running base ∧
      Within { registry := Standard.registry } base m' (base.writes base) ∧
      (m'.Leaving ∧ m'.stack.size = 2) ∧ base.Keeps m') ∧
    ∃ next m m', Running.evaluate {} 6 next weighing = .ok () m ∧
      (start {} .weighing 7).Reaches { registry := Standard.registry } m ∧
      Within { registry := Standard.registry } m m' [.set 0 .null] ∧
      (m'.Leaving ∧ m'.depth = m.depth) ∧ m.Keeps m' := by
  constructor
  · have hrun : ((start {} .echo 7).next? { registry := Standard.registry }).any fun m =>
        (m.next? { registry := Standard.registry }).any fun base =>
          (base.next? { registry := Standard.registry }).any fun m' =>
            m.calls? = some 1 ∧ ¬ base.Leaving ∧ m'.Leaving ∧ m'.stack.size = 2 := by
      decide +kernel
    simp only [Option.any_eq_true, decide_eq_true_eq] at hrun
    obtain ⟨m, hfirst, base, hsecond, m', hthird, hcalls, hstay, hleaving⟩ := hrun
    have hsecond := step_of_next? hsecond
    have hreaches := Reaches.refl.step (step_of_next? hfirst)
    have hwithin := Within.enter.step (fun h => hstay h.2) (step_of_next? hthird)
    have hisolated := (activations_isolated hreaches).1 1 base hcalls hsecond
    exact ⟨m, base, m', hreaches, hcalls, hsecond, hwithin, hleaving,
      (hisolated.2.2.2.2 m' _ hwithin).1⟩
  · have hstep : Running.step { registry := Standard.registry } (start {} .weighing 7) =
        (do
          Running.evaluate {} 6 (.choice ⟨5, [⟨5, .interpreted 6⟩]⟩
            (some ⟨⟨5, [⟨5, .interpreted 6⟩]⟩, 0, none⟩) [] [])
          return Status.running) weighing := rfl
    have hrun : ((start {} .weighing 7).next? { registry := Standard.registry }).any fun m =>
        (m.next? { registry := Standard.registry }).any fun m₁ =>
          (m₁.next? { registry := Standard.registry }).any fun m' =>
            LocalWrite.onlyNull (m.writes m ++ m.writes m₁) ∧ ¬ m.Leaving ∧ ¬ m₁.Leaving ∧
              m'.Leaving ∧ m'.depth = m.depth := by
      decide +kernel
    simp only [Option.any_eq_true, decide_eq_true_eq] at hrun
    obtain ⟨m, hentered, m₁, hfirst, m', hsecond, hnull, hstay, hstay₁, hleaving⟩ := hrun
    have hentered := step_of_next? hentered
    obtain ⟨_, _, hevaluate, ⟨⟩⟩ := run_bind_eq_ok.1 (hstep.symm.trans hentered)
    have hreaches := Reaches.refl.step hentered
    have hwithin := (Within.enter.step (fun h => hstay h.2) (step_of_next? hfirst)).step
      (fun h => hstay₁ h.2) (step_of_next? hsecond)
    rw [List.nil_append, LocalWrite.eq_of_onlyNull hnull] at hwithin
    have hisolated := (activations_isolated hreaches).2 6 _ weighing hevaluate m' _ hwithin
    exact ⟨_, m, m', hevaluate, hreaches, hwithin, hleaving, hisolated.1⟩

end Machine

end Wordloom
