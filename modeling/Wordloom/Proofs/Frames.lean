import Wordloom.Proofs.Instructions

/-!
# Wordloom.Proofs.Frames

Frames that are entered and left. Evaluated code returns to the middle of a step, with what was to be
done with its value; a subroutine or a program returns to the instruction behind the call.
-/

namespace Wordloom

variable {env : Environment} {α : Type} {result : Except Fault (α × World)}
  {Q : α → World → Machine → Prop} {p : Program} {w : World} {c : Control} {m : Machine}
  {position : Nat} {t : Trace} {a : Activation} {options : Options} {target : Program} {n : Nat}
  {vs : List Value} {w' : World} {q : Nat}

namespace Control

/-- What is kept of the innermost frame while another is on top of it. -/
def suspended (c : Control) (w : World) (position : Nat) : Frame :=
  { c.frame with position := position, locals := w.locals }

/-- Evaluated code on top of the frame at `position`. -/
def evaluating (c : Control) (w : World) (position : Nat) (back : Place) (next : Continuation) :
    Control :=
  { c with
    frame :=
      { c.frame with
        stackBase := c.stack.size
        evaluation := some ⟨back, next⟩
        blocks := c.blocks.size }
    callers := c.suspended w position :: c.callers }

/-- A program called with the given arguments from the frame at `position`. -/
def calling (c : Control) (w : World) (position : Nat) (target : Program) (args : List Value) :
    Control :=
  { c.pushAll args with
    frame := { Frame.new target 0 c.stack.size args.length with blocks := c.blocks.size }
    callers := c.suspended w position :: c.callers }

theorem Fits.evaluating (h : c.Fits a) (w : World) (position : Nat) (back : Place)
    (next : Continuation) : (c.evaluating w position back next).Fits a where
  program := h.program
  floor := Nat.le_refl _
  blocks := Nat.le_refl _
  argCount := h.argCount
  args := h.args
  captured := h.captured

theorem fits_calling (w : World) (position : Nat) (target : Program) (code : Code)
    (args : List Value) :
    (c.calling w position target args).Fits ⟨target, code, args, c.outer.isSome⟩ where
  program := rfl
  floor := by simp [calling, Frame.new, Frame.floor, pushAll, Stack.size]
  blocks := Nat.le_refl _
  argCount := rfl
  args i v hv := by
    simp only [calling, Frame.new, pushAll, Stack.size]
    rw [Array.getElem?_append_right (by omega)]
    simpa using hv
  captured := rfl

theorem remaining_evaluating (h : c.remaining options = n + 1) (w : World) (position : Nat)
    (back : Place) (next : Continuation) :
    (c.evaluating w position back next).remaining options = n := by
  simp only [remaining, evaluating, List.length_cons] at h ⊢
  omega

theorem remaining_calling (h : c.remaining options = n + 1) (w : World) (position : Nat)
    (target : Program) (args : List Value) :
    (c.calling w position target args).remaining options = n := by
  simp only [remaining, calling, List.length_cons] at h ⊢
  omega

end Control

/-! ## Entering -/

theorem enter_of_zero (h : c.remaining options = 0) (frame : Frame) :
    ∃ m, Running.enter options frame (.of w c position t) =
      .error (.callStackOverflow options.maxCallDepth) m := by
  have hdepth : options.maxCallDepth ≤ (Machine.of w c position t).depth := by
    simp only [Control.remaining] at h
    change _ ≤ c.callers.length + 1
    omega
  refine ⟨.of w c position t, ?_⟩
  rw [Running.enter, run_bind_of_ok (run_get _), if_pos hdepth]
  rfl

theorem enter_of_succ (h : c.remaining options = n + 1) (frame : Frame) :
    Running.enter options frame (.of w c position t) =
      .ok () { Machine.of w c position t with
        frame := { frame with blocks := c.blocks.size }
        callers := c.suspended w position :: c.callers } := by
  have hdepth : ¬ options.maxCallDepth ≤ (Machine.of w c position t).depth := by
    simp only [Control.remaining] at h
    change ¬ _ ≤ c.callers.length + 1
    omega
  rw [Running.enter, run_bind_of_ok (run_get _), if_neg hdepth]
  rfl

/-- With no frame to spare, the call stack overflows. -/
theorem evaluate_of_zero (h : c.remaining options = 0) {address : Nat}
    (hprogram : c.frame.program = p) (haddress : address ≤ p.code.size) (next : Continuation) :
    ∃ m, Running.evaluate options address next (.of w c position t) =
      .error (.callStackOverflow options.maxCallDepth) m := by
  rw [Running.evaluate, run_bind_of_ok (checkedAddress_of hprogram haddress),
    run_bind_of_ok (run_get _)]
  exact enter_of_zero h _

/-- With a frame to spare, code is evaluated in a new one. -/
theorem evaluate_of_succ (h : c.remaining options = n + 1) {address : Nat}
    (hprogram : c.frame.program = p) (haddress : address ≤ p.code.size) (next : Continuation) :
    Running.evaluate options address next (.of w c position t) =
      .ok () (.of w (c.evaluating w position t.current next) address t) := by
  rw [Running.evaluate, run_bind_of_ok (checkedAddress_of hprogram haddress),
    run_bind_of_ok (run_get _), enter_of_succ h]
  rfl

theorem need_of (hfloor : c.frame.floor ≤ c.stack.size) (hn : n = vs.length) :
    Running.need n (.of w (c.pushAll vs) position t) =
      .ok () (.of w (c.pushAll vs) position t) := by
  have havailable : ¬ (Machine.of w (c.pushAll vs) position t).stack.heightAbove
      (Machine.of w (c.pushAll vs) position t).frame.floor < n := by
    change ¬ (c.stack.values ++ vs.toArray).size - c.frame.floor < n
    simp only [Stack.size] at hfloor
    simp only [Array.size_append, List.size_toArray]
    omega
  rw [Running.need, run_bind_of_ok (run_get _), if_neg havailable]
  rfl

/-- A call with the values on top of the stack. -/
theorem call_of_zero (h : c.remaining options = 0) (hfloor : c.frame.floor ≤ c.stack.size)
    (hn : n = vs.length) (address : Nat) :
    ∃ m, Running.call options address n (.of w (c.pushAll vs) position t) =
      .error (.callStackOverflow options.maxCallDepth) m := by
  rw [Running.call, run_bind_of_ok (need_of hfloor hn), run_bind_of_ok (run_get _)]
  exact enter_of_zero (c := c.pushAll vs) h _

/-- With a frame to spare, a subroutine is entered with its arguments. -/
theorem call_of_succ {k : Nat} (h : c.remaining options = k + 1) (hfloor : c.frame.floor ≤ c.stack.size)
    (hn : n = vs.length) (hprogram : c.frame.program = p) (address : Nat) :
    Running.call options address n (.of w (c.pushAll vs) position t) =
      .ok () (.of { w with locals := #[] } (c.calling w position p vs) address t) := by
  have hbase : (c.stack.values ++ vs.toArray).size - n = c.stack.values.size := by
    simp only [Array.size_append, List.size_toArray]
    omega
  subst hn hprogram
  rw [Running.call, run_bind_of_ok (need_of hfloor rfl), run_bind_of_ok (run_get _),
    enter_of_succ (c := c.pushAll vs) h]
  simp only [Machine.of, Control.pushAll, Control.calling, Control.suspended, Frame.new, Stack.size,
    hbase]

theorem callProgram_of_zero {index : UInt16} (h : c.remaining options = 0)
    (hprogram : c.frame.program = p) (htarget : p.reference? index = some target) :
    ∃ m, Running.callProgram options index (.of w c position t) =
      .error (.callStackOverflow options.maxCallDepth) m := by
  have hfound : (Machine.of w c position t).frame.program.reference? index = some target := by
    rw [← hprogram] at htarget
    exact htarget
  rw [Running.callProgram, run_bind_of_ok (run_get _), hfound]
  exact enter_of_zero h _

/-- With a frame to spare, another program is entered at its start. -/
theorem callProgram_of_succ {index : UInt16} {k : Nat} (h : c.remaining options = k + 1)
    (hprogram : c.frame.program = p) (htarget : p.reference? index = some target) :
    Running.callProgram options index (.of w c position t) =
      .ok () (.of { w with locals := #[] } (c.calling w position target []) 0 t) := by
  have hfound : (Machine.of w c position t).frame.program.reference? index = some target := by
    rw [← hprogram] at htarget
    exact htarget
  have henter : Running.enter options (.new target 0 c.stack.size 0) (.of w c position t) = _ :=
    enter_of_succ h _
  rw [Running.callProgram, run_bind_of_ok (run_get _), hfound]
  refine Eq.trans henter ?_
  simp [Machine.of, Control.calling, Frame.new, Control.suspended]

/-! ## Leaving -/

theorem dropFrameState_evaluating {back : Place} {next : Continuation} {v : Option Value} :
    Running.dropFrameState (.of w' ((c.evaluating w position back next).pushAll v.toList) q t) =
      (v, .of w' (c.evaluating w position back next) q t) := by
  have hfloor : (Machine.of w' ((c.evaluating w position back next).pushAll v.toList) q t).frame.floor
      = c.stack.values.size := rfl
  have hstack : (Machine.of w' ((c.evaluating w position back next).pushAll v.toList) q t).stack =
      ⟨c.stack.values ++ v.toList.toArray, c.stack.limit⟩ := rfl
  unfold Running.dropFrameState
  rw [hfloor, hstack]
  cases v with
  | none | some v =>
    simp [Stack.size, Stack.truncate, Machine.of, Control.evaluating, Control.pushAll]

/-- The end of evaluated code: the step in which it was asked for goes on with its value. -/
theorem leave_evaluating {back : Place} {next : Continuation} {v : Option Value} :
    Running.leave env (.of w' ((c.evaluating w position back next).pushAll v.toList) q t) =
      (do Running.continueWith env (v.getD .undefined) next; return Status.running)
        (.of w' c position { t with current := back }) := by
  rw [Running.leave, run_bind_of_ok (run_get _), dropFrameState_evaluating]
  rfl

theorem dropFrameState_calling {args : List Value} :
    Running.dropFrameState (.of w' (c.calling w position target args) q t) =
      (none, { Machine.of w' (c.calling w position target args) q t with stack := c.stack }) := by
  have hfloor : (Machine.of w' (c.calling w position target args) q t).frame.floor =
      c.stack.values.size + args.length := rfl
  have hstack : (Machine.of w' (c.calling w position target args) q t).stack =
      ⟨c.stack.values ++ args.toArray, c.stack.limit⟩ := rfl
  unfold Running.dropFrameState
  rw [hfloor, hstack]
  simp [Stack.size, Stack.truncate, Machine.of, Control.calling, Control.pushAll, Frame.new]

/-- The end of a subroutine or a program. -/
theorem leave_calling {args : List Value} :
    Running.leave env (.of w' (c.calling w position target args) q t) =
      .ok .running (.of { w' with locals := w.locals } c position t) := by
  rw [Running.leave, run_bind_of_ok (run_get _), dropFrameState_calling]
  rfl

end Wordloom
