import Wordloom.Proofs.Changes

/-!
# Wordloom.Proofs.Bounds

What holds in every state of a run, whatever bytes its program consists of. The stack stays within its
limit and above the floor of the innermost frame, frames lie on one another in the order in which they
were entered, and blocks belong to the frame that has started them. Each change that a step may make keeps
this; what a whole step comes to is said by `Machine.Next`.
-/

namespace Wordloom

/-! ## The invariant -/

structure Frame.Regular (r : Registry) (f : Frame) : Prop where
  /-- the arguments are below the floor -/
  args : f.argBase + f.argCount ≤ f.floor
  next : ∀ back ∈ f.evaluation, back.next.Fits r fun _ => True

/-- Frames, the innermost first, below one that was entered at this height of the stack and with so
many active blocks. -/
def Frame.Nested (base blocks : Nat) : List Frame → Prop
  | [] => True
  | f :: fs => f.floor ≤ base ∧ f.blocks ≤ blocks ∧ Nested f.stackBase f.blocks fs

/-- The frames, innermost first. -/
def Machine.frames (m : Machine) : List Frame := m.frame :: m.callers

structure Machine.Bounded (env : Environment) (m : Machine) : Prop where
  limit : m.stack.limit = env.options.maxStackSize
  size : m.stack.size ≤ m.stack.limit
  floor : m.frame.floor ≤ m.stack.size
  blocks : m.frame.blocks ≤ m.blocks.size
  depth : m.depth ≤ max 1 env.options.maxCallDepth
  callers : Frame.Nested m.frame.stackBase m.frame.blocks m.callers
  frames : ∀ f ∈ m.frames, f.Regular env.registry
  /-- only blocks that have items are started -/
  items : ∀ active ∈ m.blocks, active.block.items ≠ []

/-- The floor of a frame is above its base. -/
theorem Frame.stackBase_le_floor (f : Frame) : f.stackBase ≤ f.floor := by
  unfold Frame.floor
  split <;> omega

theorem take_take_of_le {α : Type} {xs : Array α} {i j : Nat} (h : i ≤ j) :
    (xs.take j).take i = xs.take i := by
  simp [Nat.min_eq_left h]

theorem mem_of_mem_take {α : Type} {xs : Array α} {n : Nat} {x : α} (h : x ∈ xs.take n) : x ∈ xs := by
  obtain ⟨i, hi, rfl⟩ := Array.mem_extract_iff_getElem.1 h
  exact Array.getElem_mem _

/-! ## What changes leave alone -/

/-- The machine goes on in the same frame, whose caller finds its values and blocks as they were. -/
structure Machine.Stays (m m' : Machine) : Prop where
  frame : ∃ position, m'.frame = { m.frame with position := position }
  callers : m'.callers = m.callers
  stack : m'.stack.values.take m.frame.floor = m.stack.values.take m.frame.floor
  blocks : m'.blocks.take m.frame.blocks = m.blocks.take m.frame.blocks

/-- The machine has entered a frame, which is above all that there was. Evaluated code works on the
locals of the frame that asks for it. -/
structure Machine.Entered (m m' : Machine) : Prop where
  callers : m'.callers = m.frame :: m.callers
  stack : m'.stack = m.stack
  blocks : m'.blocks = m.blocks
  floor : m'.frame.floor = m.stack.size
  marked : m'.frame.blocks = m.blocks.size
  locals : m'.frame.evaluation.isSome → m'.frame.locals = m.frame.locals

/-- What is known after a step that leaves no frame. -/
def Machine.Ahead (env : Environment) (m m' : Machine) : Prop :=
  m'.Bounded env ∧ (m.Stays m' ∨ ∃ m₁, m.Stays m₁ ∧ m₁.Entered m')

namespace Machine

variable {env : Environment} {m m₁ m' : Machine}

/-- To change nothing is to stay. -/
theorem Same.stays (h : m.Same m') : m.Stays m' :=
  ⟨h.frame, h.callers, by rw [h.stack], by rw [h.blocks]⟩

theorem Stays.refl (m : Machine) : m.Stays m := (Same.refl m).stays

/-- To stay keeps the floor. -/
theorem Stays.floor (h : m.Stays m') : m'.frame.floor = m.frame.floor := by
  obtain ⟨position, hframe⟩ := h.frame
  rw [hframe]
  rfl

/-- To stay keeps the number of blocks the frame was entered with. -/
theorem Stays.marked (h : m.Stays m') : m'.frame.blocks = m.frame.blocks := by
  obtain ⟨position, hframe⟩ := h.frame
  rw [hframe]

theorem Stays.trans (h : m.Stays m₁) (h' : m₁.Stays m') : m.Stays m' := by
  obtain ⟨_, hframe⟩ := h.frame
  obtain ⟨position, hframe'⟩ := h'.frame
  have hstack := h'.stack
  have hblocks := h'.blocks
  rw [h.floor, h.stack] at hstack
  rw [h.marked, h.blocks] at hblocks
  exact ⟨⟨position, by rw [hframe', hframe]⟩, h'.callers.trans h.callers, hstack, hblocks⟩

namespace Bounded

/-- Bounds are about no more than `Same` keeps. -/
theorem same (h : m.Bounded env) (hsame : m.Same m') : m'.Bounded env := by
  obtain ⟨⟨position, hframe⟩, hcallers, hstack, hblocks, -, -⟩ := hsame
  refine ⟨?_, ?_, ?_, ?_, ?_, ?_, ?_, ?_⟩
  · rw [hstack]
    exact h.limit
  · rw [hstack]
    exact h.size
  · rw [hstack, hframe]
    exact h.floor
  · rw [hblocks, hframe]
    exact h.blocks
  · rw [Machine.depth, hcallers]
    exact h.depth
  · rw [hcallers, hframe]
    exact h.callers
  · intro f hf
    rw [Machine.frames, hcallers, hframe, List.mem_cons] at hf
    obtain rfl | hf := hf
    · have hregular := h.frames m.frame List.mem_cons_self
      exact ⟨hregular.args, hregular.next⟩
    · exact h.frames f (List.mem_cons_of_mem _ hf)
  · rw [hblocks]
    exact h.items

/-- Another stack, neither too large nor below the floor. -/
theorem withStack (h : m.Bounded env) {stack : Stack} (hlimit : stack.limit = m.stack.limit)
    (hsize : stack.size ≤ m.stack.limit) (hfloor : m.frame.floor ≤ stack.size) :
    ({ m with stack := stack } : Machine).Bounded env :=
  { h with
    limit := hlimit.trans h.limit
    size := by rwa [← hlimit] at hsize
    floor := hfloor }

/-- Other blocks, none of them empty. -/
theorem withBlocks (h : m.Bounded env) {blocks : Array ActiveBlock}
    (hblocks : m.frame.blocks ≤ blocks.size)
    (hitems : ∀ active ∈ blocks, active.block.items ≠ []) :
    ({ m with blocks := blocks } : Machine).Bounded env :=
  { h with
    blocks := hblocks
    items := hitems }

/-- Each change keeps the bounds, and it leaves alone what belongs to the callers. -/
theorem change (h : m.Bounded env) (hchange : m.Change env (fun _ => True) m') :
    m'.Bounded env ∧ m.Stays m' := by
  have hsize := h.size
  have hfloor := h.floor
  have hblocks := h.blocks
  have hpop (hown : m.frame.blocks < m.blocks.size) :
      m.blocks.pop.take m.frame.blocks = m.blocks.take m.frame.blocks := by
    rw [pop_eq_take]
    exact take_take_of_le (by omega)
  have hitems (active : ActiveBlock) (hmem : active ∈ m.blocks.pop) : active.block.items ≠ [] :=
    h.items active (mem_of_mem_take (pop_eq_take _ ▸ hmem))
  cases hchange with
  | quiet hsame => exact ⟨h.same hsame, hsame.stays⟩
  | output houtput => exact ⟨{ h with }, ⟨⟨_, rfl⟩, rfl, rfl, rfl⟩⟩
  | push v hroom =>
    have hpush : (m.stack.values.push v).size = m.stack.size + 1 := Array.size_push ..
    refine ⟨h.withStack rfl ?_ ?_, ⟨⟨_, rfl⟩, rfl, Array.extract_push_of_le hfloor, rfl⟩⟩
    · change (m.stack.values.push v).size ≤ _
      omega
    · change _ ≤ (m.stack.values.push v).size
      omega
  | @take n hn =>
    unfold Stack.heightAbove at hn
    have htake : (m.stack.truncate (m.stack.size - n)).size = m.stack.size - n := by
      simp [Stack.truncate, Stack.size]
    refine ⟨h.withStack rfl (by omega) (by omega), ⟨⟨_, rfl⟩, rfl, ?_, rfl⟩⟩
    exact take_take_of_le (by omega)
  | enterBlock hactive =>
    refine ⟨h.withBlocks ?_ fun a ha => ?_, ⟨⟨_, rfl⟩, rfl, rfl, Array.extract_push_of_le hblocks⟩⟩
    · rw [Array.size_push]
      omega
    · obtain ha | rfl := Array.mem_push.1 ha
      · exact h.items a ha
      · exact hactive
  | @repeatBlock active hown hactive remaining =>
    refine ⟨h.withBlocks ?_ fun a ha => ?_, ⟨⟨_, rfl⟩, rfl, rfl, ?_⟩⟩
    · rw [Array.size_push, Array.size_pop]
      omega
    · obtain ha | rfl := Array.mem_push.1 ha
      · exact hitems a ha
      · exact h.items active (Array.mem_of_back? hactive)
    · refine Eq.trans (Array.extract_push_of_le ?_) (hpop hown)
      rw [Array.size_pop]
      omega
  | leaveBlock hown =>
    refine ⟨h.withBlocks ?_ hitems, ⟨⟨_, rfl⟩, rfl, rfl, hpop hown⟩⟩
    rw [Array.size_pop]
    omega

/-- Changes keep the bounds and the frames. -/
theorem changes (h : m.Bounded env) (hchanges : m.Changes env (fun _ => True) m') :
    m'.Bounded env ∧ m.Stays m' := by
  induction hchanges with
  | refl => exact ⟨h, .refl m⟩
  | tail _ hchange ih =>
    obtain ⟨hbounded, hstays⟩ := ih.1.change hchange
    exact ⟨hbounded, ih.2.trans hstays⟩

/-- A frame may be entered above all that there is. -/
theorem entering (h : m.Bounded env) (hdepth : m.depth < env.options.maxCallDepth) {frame : Frame}
    (hfloor : frame.floor = m.stack.size) (hbase : m.frame.floor ≤ frame.stackBase)
    (hregular : frame.Regular env.registry) : (m.entering frame).Bounded env := by
  refine { h with floor := ?_, blocks := ?_, depth := ?_, callers := ?_, frames := ?_ }
  · exact Nat.le_of_eq hfloor
  · exact Nat.le_refl _
  · simp only [Machine.depth, Machine.entering, List.length_cons] at hdepth ⊢
    omega
  · exact ⟨hbase, h.blocks, h.callers⟩
  · intro f hf
    obtain rfl | hf := List.mem_cons.1 hf
    · exact ⟨hregular.args, hregular.next⟩
    · exact h.frames f hf

/-- Entering a frame keeps the bounds. -/
theorem enters (h : m.Bounded env) (henters : m.Enters env (fun _ => True) m') :
    m'.Bounded env ∧ m.Entered m' := by
  have hfloor := h.floor
  cases henters with
  | @call program address count hdepth hcount =>
    unfold Stack.heightAbove at hcount
    have hnew : (Frame.new program address (m.stack.size - count) count).floor = m.stack.size := by
      change m.stack.size - count + count = _
      omega
    refine ⟨h.entering hdepth hnew ?_ ⟨Nat.le_refl _, nofun⟩, ⟨rfl, rfl, rfl, hnew, rfl, nofun⟩⟩
    change _ ≤ m.stack.size - count
    omega
  | evaluate hdepth hnext =>
    refine ⟨h.entering hdepth rfl hfloor ⟨?_, ?_⟩, ⟨rfl, rfl, rfl, rfl, rfl, fun _ => rfl⟩⟩
    · exact Nat.le_trans (h.frames m.frame List.mem_cons_self).args hfloor
    · rintro back ⟨⟩
      exact hnext

/-- What goes onward keeps the bounds. -/
theorem onward (h : m.Bounded env) (honward : m.Onward env (fun _ => True) m') : m.Ahead env m' := by
  obtain hchanges | ⟨m₁, hchanges, henters⟩ := honward
  · obtain ⟨hbounded, hstays⟩ := h.changes hchanges
    exact ⟨hbounded, .inl hstays⟩
  · obtain ⟨hbounded, hstays⟩ := h.changes hchanges
    obtain ⟨hbounded', hentered⟩ := hbounded.enters henters
    exact ⟨hbounded', .inr ⟨m₁, hstays, hentered⟩⟩

end Bounded

end Machine

/-! ## Steps -/

/-- A change of a frame's locals. -/
inductive LocalWrite where
  | set (index : Nat) (v : Value)
  | swap (a b : Nat)

def LocalWrite.apply (locals : Array Value) : LocalWrite → Array Value
  | .set index v => World.update locals index v
  | .swap a b =>
    World.update (World.update (World.reserve locals b) b (locals.getD a .undefined)) a
      ((World.reserve locals b).getD b .undefined)

namespace Machine

variable {env : Environment} {m m₁ m' : Machine}

/-- The instruction that is executed next. -/
def nextInstr? (m : Machine) : Option Instr :=
  match Instr.decodeAt m.frame.program.code m.frame.position with
  | .ok (i, _) => if m.frame.program.code.size ≤ m.frame.position then none else some i
  | .error _ => none

/-- The next step leaves the innermost frame. -/
def Leaving (m : Machine) : Prop :=
  m.frame.program.code.size ≤ m.frame.position ∨ m.nextInstr? = some .return

instance (m : Machine) : Decidable m.Leaving := inferInstanceAs (Decidable (_ ∨ _))

/-- What the next step does to the locals of the innermost frame. -/
def localWrite? (m : Machine) : Option LocalWrite :=
  match m.nextInstr? with
  | some (.setLocal index) => m.stack.values.back?.map (.set index.toNat)
  | some (.swap a b) => some (.swap a.toNat b.toNat)
  | _ => none

def write (m : Machine) (w : LocalWrite) : Machine :=
  { m with frame := { m.frame with locals := w.apply m.frame.locals } }

/-- The value that the innermost frame leaves, if any. -/
def result? (m : Machine) : Option Value :=
  if m.frame.floor < m.stack.size then m.stack.values.back? else none

/-- The machine with the innermost frame taken away, and a caller to go on. -/
def leaveTo (m : Machine) (parent : Frame) (callers : List Frame) : Machine :=
  { m with
    frame := parent
    callers := callers
    stack := m.stack.truncate m.frame.stackBase
    blocks := m.blocks.take m.frame.blocks }

/-- The same with the value that the frame leaves. -/
def returnTo (m : Machine) (parent : Frame) (callers : List Frame) : Machine :=
  { m.leaveTo parent callers with
    stack := { m.stack with values := m.stack.values.take m.frame.stackBase ++ m.result?.toArray } }

/-- The same for evaluated code, whose locals go back to the frame that has lent them. -/
def resumeTo (m : Machine) (back : Return) (parent : Frame) (callers : List Frame) : Machine :=
  { m.leaveTo { parent with locals := m.frame.locals } callers with current := back.place }

/-- Leaving a frame keeps the bounds. -/
theorem Bounded.leaveTo (hm : m.Bounded env) {parent : Frame} {callers : List Frame}
    (hcallers : m.callers = parent :: callers) (locals : Array Value) :
    (m.leaveTo { parent with locals := locals } callers).Bounded env := by
  have hnested := hm.callers
  have hdepth := hm.depth
  have hfloor := hm.floor
  have hbase := m.frame.stackBase_le_floor
  have hsize : (m.stack.truncate m.frame.stackBase).size = m.frame.stackBase := by
    unfold Stack.size at hfloor
    simp only [Stack.truncate, Stack.size, Array.take_eq_extract, Array.size_extract]
    omega
  have hblocks : (m.blocks.take m.frame.blocks).size = m.frame.blocks := by
    have hle := hm.blocks
    simp only [Array.take_eq_extract, Array.size_extract]
    omega
  rw [hcallers] at hnested
  rw [Machine.depth, hcallers, List.length_cons] at hdepth
  obtain ⟨hparent, hmarked, hrest⟩ := hnested
  have hparents : ∀ f ∈ parent :: callers, f.Regular env.registry := fun f hf =>
    hm.frames f (List.mem_cons_of_mem _ (hcallers ▸ hf))
  refine ⟨hm.limit, ?_, ?_, ?_, ?_, ?_, ?_, ?_⟩
  · have hlimit := hm.size
    change (m.stack.truncate m.frame.stackBase).size ≤ m.stack.limit
    omega
  · change parent.floor ≤ (m.stack.truncate m.frame.stackBase).size
    omega
  · change parent.blocks ≤ (m.blocks.take m.frame.blocks).size
    omega
  · change callers.length + 1 ≤ _
    omega
  · exact hrest
  · intro f hf
    obtain rfl | hf := List.mem_cons.1 hf
    · have hregular := hparents parent List.mem_cons_self
      exact ⟨hregular.args, hregular.next⟩
    · exact hparents f (List.mem_cons_of_mem _ hf)
  · intro active hactive
    exact hm.items active (mem_of_mem_take hactive)

/-- So does resuming a routine. -/
theorem Bounded.resumeTo (hm : m.Bounded env) (back : Return) {parent : Frame} {callers : List Frame}
    (hcallers : m.callers = parent :: callers) : (m.resumeTo back parent callers).Bounded env :=
  (hm.leaveTo hcallers m.frame.locals).same ⟨⟨_, rfl⟩, rfl, rfl, rfl, rfl, rfl⟩

/-- So does returning to the caller. -/
theorem Bounded.returnTo (hm : m.Bounded env) {parent : Frame} {callers : List Frame}
    (hcallers : m.callers = parent :: callers) : (m.returnTo parent callers).Bounded env := by
  have hleft := hm.leaveTo hcallers parent.locals
  have hfloor := hleft.floor
  have hbase := m.frame.stackBase_le_floor
  have hsize := hm.size
  refine hleft.withStack rfl ?_ ?_
  · change (m.stack.values.take m.frame.stackBase ++ m.result?.toArray).size ≤ m.stack.limit
    unfold result?
    unfold Stack.size at hsize
    rw [Array.size_append, Array.take_eq_extract, Array.size_extract]
    split
    · rename_i hvalue
      have hone : m.stack.values.back?.toArray.size ≤ 1 := by
        cases m.stack.values.back? <;> simp
      unfold Stack.size at hvalue
      omega
    · simp only [Option.toArray_none, Array.size_empty]
      omega
  · refine Nat.le_trans hfloor ?_
    change (m.stack.values.take m.frame.stackBase).size ≤
      (m.stack.values.take m.frame.stackBase ++ m.result?.toArray).size
    rw [Array.size_append]
    omega

/-- So does writing to variables. -/
theorem Bounded.write (hm : m.Bounded env) (w : LocalWrite) : (m.write w).Bounded env := by
  refine { hm with frames := ?_ }
  intro f hf
  obtain rfl | hf := List.mem_cons.1 hf
  · have hregular := hm.frames m.frame List.mem_cons_self
    exact ⟨hregular.args, hregular.next⟩
  · exact hm.frames f (List.mem_cons_of_mem _ hf)

end Machine

namespace Running

variable {env : Environment} {m m₁ m' : Machine}

/-- The run is over when the outermost frame is left. -/
theorem leave_outermost (h : m.callers = []) :
    leave env m = .ok .finished (dropFrameState m).2 := by
  simp only [leave, dropFrameState, run_bind, run_get, h, run_set, run_pure]

/-- A subroutine or program is left, and the value that it leaves goes on the stack of its caller. -/
theorem leave_subroutine {parent : Frame} {callers : List Frame} (h : m.callers = parent :: callers)
    (hframe : m.frame.evaluation = none) :
    leave env m =
      (match m.result? with
        | some v => do push v; return Status.running
        | none => return Status.running) (m.leaveTo parent callers) := by
  simp only [leave, dropFrameState, run_bind, run_get, h, hframe, run_set]
  rfl

/-- Its caller goes on with the value that it leaves. There is room for that, since it was on the stack
before. -/
theorem leave_call (hm : m.Bounded env) {parent : Frame} {callers : List Frame}
    (h : m.callers = parent :: callers) (hframe : m.frame.evaluation = none) :
    leave env m = .ok .running (m.returnTo parent callers) := by
  have hbase := m.frame.stackBase_le_floor
  have hsize := hm.size
  rw [leave_subroutine h hframe, Machine.returnTo]
  cases hresult : m.result? with
  | none => simp [Machine.leaveTo, Stack.truncate, run_pure]
  | some v =>
    have hvalue : m.frame.floor < m.stack.size := by
      unfold Machine.result? at hresult
      split at hresult
      · assumption
      · cases hresult
    have hroom : ¬ m.stack.limit ≤ (m.stack.truncate m.frame.stackBase).size := by
      simp only [Stack.truncate, Stack.size, Array.take_eq_extract, Array.size_extract]
      omega
    simp only [push, Stack.push, run_bind]
    rw [if_neg (by exact hroom)]
    simp [Machine.leaveTo, Stack.truncate, run_pure]

/-- Evaluated code is left: what asked for it goes on, with the value and the locals. -/
theorem leave_evaluation {parent : Frame} {callers : List Frame} {back : Return}
    (h : m.callers = parent :: callers) (hframe : m.frame.evaluation = some back) :
    leave env m =
      (do continueWith env (m.result?.getD .undefined) back.next; return Status.running)
        (m.resumeTo back parent callers) := by
  simp only [leave, dropFrameState, run_bind, run_get, h, hframe, run_set]
  rfl

end Running

namespace Machine

/-- What the next step comes to, where functions make only the edits `E`. -/
inductive Next (env : Environment) (E : Edit → Prop) (m : Machine) : Status → Machine → Prop where
  /-- the innermost frame goes on, or enters another one -/
  | onward {m' : Machine} (hleaving : ¬ m.Leaving) (hwrite : m.localWrite? = none)
    (h : m.Onward env E m') : m.Next env E .running m'
  | write {m₁ : Machine} {w : LocalWrite} (hleaving : ¬ m.Leaving) (hwrite : m.localWrite? = some w)
    (h : m.Changes env E m₁) : m.Next env E .running (m₁.write w)
  | finish {m₁ : Machine} (hleaving : m.Leaving) (hcallers : m.callers = []) (h : m.Same m₁)
    (stack : Stack) (blocks : Array ActiveBlock) :
    m.Next env E .finished { m₁ with stack := stack, blocks := blocks }
  | back {m₁ : Machine} {parent : Frame} {callers : List Frame} (hleaving : m.Leaving)
    (hcallers : m.callers = parent :: callers) (hframe : m.frame.evaluation = none)
    (h : m.Same m₁) : m.Next env E .running (m₁.returnTo parent callers)
  /-- what has asked for a value goes on, and may ask for another one at once -/
  | resume {m₁ m' : Machine} {parent : Frame} {callers : List Frame} {back : Return}
    (hleaving : m.Leaving) (hcallers : m.callers = parent :: callers)
    (hframe : m.frame.evaluation = some back) (h : m.Same m₁)
    (honward : (m₁.resumeTo back parent callers).Onward env E m') :
    m.Next env E .running m'

/-- Whatever function is to go on or is called next, it makes only the edits `E`. -/
structure Obeys (env : Environment) (E : Edit → Prop) (m : Machine) : Prop where
  next : ∀ back ∈ m.frame.evaluation, back.next.Fits env.registry E
  calls : ∀ id count f, m.nextInstr? = some (.nativeCall id count) → env.registry.get? id.toNat = some f →
    ∀ args, (f.routine args).Keeps E fun _ => True

variable {env : Environment} {E : Edit → Prop} {m m₁ m' : Machine}

/-- Where every edit is allowed, functions obey. -/
theorem Bounded.obeys (hm : m.Bounded env) : m.Obeys env fun _ => True :=
  ⟨(hm.frames m.frame List.mem_cons_self).next, fun _ _ _ _ _ _ => Routine.keeps_any _⟩

/-- A step keeps the bounds. -/
theorem Bounded.running (hm : m.Bounded env) (h : m.Next env (fun _ => True) .running m') :
    m'.Bounded env := by
  cases h with
  | onward _ _ honward => exact (hm.onward honward).1
  | write _ _ hchanges => exact (hm.changes hchanges).1.write _
  | back _ hcallers _ hsame => exact (hm.same hsame).returnTo (hsame.callers.trans hcallers)
  | resume _ hcallers _ hsame honward =>
    exact (((hm.same hsame).resumeTo _ (hsame.callers.trans hcallers)).onward honward).1

end Machine

namespace Running

variable {env : Environment} {E : Edit → Prop} {m m₁ m' : Machine}

/-- To leave a frame is one of the steps there are. -/
theorem leave_gives (hm : m.Bounded env) (hobeys : m.Obeys env E) (hleaving : m.Leaving)
    (hsame : m.Same m₁) : Gives env (leave env) m₁ fun status m' => m.Next env E status m' := by
  have hm₁ := hm.same hsame
  have hevaluation : m₁.frame.evaluation = m.frame.evaluation := by
    obtain ⟨position, hframe⟩ := hsame.frame
    rw [hframe]
  cases hcallers : m.callers with
  | nil =>
    exact .ok (leave_outermost (hsame.callers.trans hcallers)) (.finish hleaving hcallers hsame _ _)
  | cons parent callers =>
    have hcallers₁ := hsame.callers.trans hcallers
    cases hback : m.frame.evaluation with
    | none =>
      exact .ok (leave_call hm₁ hcallers₁ (hevaluation.trans hback)) (.back hleaving hcallers hback hsame)
    | some back =>
      refine .congr ?_ (leave_evaluation hcallers₁ (hevaluation.trans hback))
      refine .bind ((advances_continueWith _ (hobeys.next back hback) _).imp fun _ _ honward => .pure ?_)
      exact .resume hleaving hcallers hback hsame honward

/-- A swap is a write to two variables. -/
theorem execute_swap (a b : UInt16) :
    execute env (.swap a b) m = .ok .running (m.write (.swap a.toNat b.toNat)) := by
  simp only [execute, swapLocals, run_bind, run_modify, run_pure, Machine.write, LocalWrite.apply,
    Frame.setLocal, Frame.reserve, Frame.getLocal, World.update, World.reserve]

/-- What a step comes to, and the faults that it may end with. -/
theorem step_gives (hm : m.Bounded env) (hobeys : m.Obeys env E) :
    Ensures env.AdmitsFull (step env) m fun status m' => m.Next env E status m' := by
  refine .bind (.get ?_)
  dsimp only
  by_cases hend : m.frame.program.code.size ≤ m.frame.position
  · rw [if_pos hend]
    exact (leave_gives hm hobeys (.inl hend) (.refl m)).full
  rw [if_neg hend]
  refine .bind ((fetch_gives m).full.imp fun i m₁ ⟨hsame₁, position, hdecode⟩ => ?_)
  refine .bind ((quiet_tick env m₁).full.imp fun _ m₂ hsame₂ => ?_)
  have hnext : m.nextInstr? = some i := by
    unfold Machine.nextInstr?
    rw [hdecode]
    exact if_neg hend
  have hsame := hsame₁.trans hsame₂
  by_cases hreturn : i = .return
  · subst hreturn
    exact (leave_gives hm hobeys (.inr hnext) hsame).full
  have hleaving : ¬ m.Leaving := by
    rintro (h | h)
    · exact hend h
    · rw [hnext] at h
      exact hreturn (Option.some.inj h)
  by_cases hset : ∃ index, i = .setLocal index
  · obtain ⟨index, rfl⟩ := hset
    refine .bind ((pop_gives (E := E)).full.imp fun v m₃ ⟨hback, hchanges⟩ => ?_)
    have hwrite : m.localWrite? = some (.set index.toNat v) := by
      unfold Machine.localWrite?
      rw [hnext, ← hsame.stack, hback]
      rfl
    exact .bind (.modify (.pure (.write hleaving hwrite (hsame.changes.trans hchanges))))
  by_cases hswap : ∃ a b, i = .swap a b
  · obtain ⟨a, b, rfl⟩ := hswap
    have hwrite : m.localWrite? = some (.swap a.toNat b.toNat) := by
      unfold Machine.localWrite?
      rw [hnext]
    exact .ok (execute_swap a b) (.write hleaving hwrite hsame.changes)
  have hwrite : m.localWrite? = none := by
    unfold Machine.localWrite?
    rw [hnext]
    split
    · exact absurd ⟨_, Option.some.inj ‹_›⟩ hset
    · exact absurd ⟨_, _, Option.some.inj ‹_›⟩ hswap
    · rfl
  have hcall (id : UInt16) (count : UInt8) (f : Function) (hi : i = .nativeCall id count)
      (hf : env.registry.get? id.toNat = some f) (args : List Value) :
      (f.routine args).Keeps E env.registry.Raises :=
    (hobeys.calls id count f (hi ▸ hnext) hf args).raising fun _ hraises => ⟨_, f, args, hf, hraises⟩
  refine (execute_proceeds (hm.same hsame).items hcall hreturn (not_exists.1 hset)
    fun a b h => hswap ⟨a, b, h⟩).imp ?_
  rintro _ m' ⟨rfl, honward⟩
  exact .onward hleaving hwrite (hsame.changes.onward honward)

end Running

end Wordloom
