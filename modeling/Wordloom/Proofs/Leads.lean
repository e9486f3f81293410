import Wordloom.Machine.Run
import Wordloom.Proofs.Meaning
import Wordloom.Proofs.StringTable

/-!
# Wordloom.Proofs.Leads

Runs of the machine compared with evaluation. A state of the machine is taken apart into the world
that evaluation knows, the control that it does not, and a trace that nothing depends on. A machine
`Ends` an evaluation if it gets, in finitely many steps, to a state that agrees with the result, or
fails as the evaluation does; a full stack or the end of the time may cut the run off before.
-/

namespace Wordloom

/-! ## Faults -/

/-- A limit that evaluation knows nothing of. -/
def Fault.Cuts : Fault → Prop
  | .stackOverflow _ | .timeout => True
  | _ => False

/-- The faults that compiled code can run into. -/
def Fault.Expected : Fault → Prop
  | .stackOverflow _ | .callStackOverflow _ | .divideByZero _ | .timeout | .charLimitExceeded _
  | .noDictionary | .unknownPool _ | .invalidArgument .. => True
  | _ => False

theorem Fault.Cuts.expected {f : Fault} (h : f.Cuts) : f.Expected := by
  cases f with
  | stackOverflow _ | timeout => trivial
  | _ => exact h.elim

/-! ## Parts of a state -/

/-- What a machine knows of where it is. The position and the locals of the frame count for
nothing. -/
structure Control where
  frame : Frame
  callers : List Frame
  stack : Stack
  blocks : Array ActiveBlock
  /-- while text is captured, the other outputs: those whose text is to become a value as well,
  innermost first, and that of the run -/
  outer : Option (List Writer × Writer)

/-- What a machine notes without any effect on what it prints. -/
structure Trace where
  executed : Nat
  comparison : Comparison
  current : Place
  marker : Option Marker

/-- The state that consists of the given parts, at an offset. -/
def Machine.of (w : World) (c : Control) (position : Nat) (t : Trace) : Machine where
  frame := { c.frame with position := position, locals := w.locals }
  callers := c.callers
  stack := c.stack
  root := c.outer.elim w.out (·.2)
  nested := c.outer.elim [] (w.out :: ·.1)
  blocks := c.blocks
  repeater := w.repeater
  carriers := w.carriers
  rng := w.rng
  comparison := t.comparison
  numberFormat := w.numberFormat
  executed := t.executed
  charsPrinted := w.charsPrinted
  current := t.current
  marker := t.marker

/-- The machine is at an offset, with the given world and control. -/
def Machine.At (w : World) (c : Control) (position : Nat) (m : Machine) : Prop :=
  ∃ t, m = .of w c position t

theorem Machine.at_of (w : World) (c : Control) (position : Nat) (t : Trace) :
    (Machine.of w c position t).At w c position := ⟨t, rfl⟩

variable {ls : List Line} {offset position : Nat} {m : Machine} {strings : Array String} {w : World}
  {c : Control} {l : Line}

namespace Control

/-- With values pushed, the last of them on top. -/
def pushAll (c : Control) (vs : List Value) : Control :=
  { c with stack := { c.stack with values := c.stack.values ++ vs.toArray } }

@[simp] theorem pushAll_nil (c : Control) : c.pushAll [] = c := by
  simp [pushAll]

theorem pushAll_append (c : Control) (us vs : List Value) :
    c.pushAll (us ++ vs) = (c.pushAll us).pushAll vs := by
  simp [pushAll]

/-- How many more frames there may be. -/
def remaining (options : Options) (c : Control) : Nat :=
  options.maxCallDepth - (c.callers.length + 1)

/-- The innermost frame is that of an activation. -/
structure Fits (c : Control) (a : Activation) : Prop where
  program : c.frame.program = a.program
  floor : c.frame.floor ≤ c.stack.size
  blocks : c.frame.blocks ≤ c.blocks.size
  argCount : c.frame.argCount = a.args.length
  args : ∀ i v, a.args[i]? = some v → c.stack.values[c.frame.argBase + i]? = some v
  captured : c.outer.isSome = a.captured

theorem Fits.pushAll {a : Activation} (h : c.Fits a) (vs : List Value) : (c.pushAll vs).Fits a where
  program := h.program
  floor := by
    have hfloor := h.floor
    simp only [Control.pushAll, Stack.size, Array.size_append] at hfloor ⊢
    omega
  blocks := h.blocks
  argCount := h.argCount
  args i v hv := by
    have hget := h.args i v hv
    obtain ⟨hlt, -⟩ := Array.getElem?_eq_some_iff.1 hget
    rw [Control.pushAll, Array.getElem?_append_left hlt, hget]
  captured := h.captured

end Control

/-! ## Runs -/

/-- The machine gets to a state with `Q`, or fails with a fault that has `E`, in finitely many
steps. -/
inductive Leads (env : Environment) (Q : Machine → Prop) (E : Fault → Prop) : Machine → Prop where
  | here {m : Machine} (h : Q m) : Leads env Q E m
  | step {m m' : Machine} (h : Running.step env m = .ok .running m') (next : Leads env Q E m') :
    Leads env Q E m
  | fail {m m' : Machine} {f : Fault} (h : Running.step env m = .error f m') (hf : E f) :
    Leads env Q E m

variable {env : Environment} {result : Except Fault (α × World)} {Q : α → World → Machine → Prop}
  {x : Running Unit} {t : Trace}

/-- Runs one after the other. -/
theorem Leads.trans {P Q : Machine → Prop} {E F : Fault → Prop} (h : Leads env P E m)
    (hE : ∀ f, E f → F f) (hnext : ∀ m, P m → Leads env Q F m) : Leads env Q F m := by
  induction h with
  | here h => exact hnext _ h
  | step h _ ih => exact .step h ih
  | fail h hf => exact .fail h (hE _ hf)

/-- The machine does what an evaluation with this result does: where that ends, `Q` says what the
machine is like. -/
def Ends (env : Environment) (result : Except Fault (α × World)) (Q : α → World → Machine → Prop) :
    Machine → Prop :=
  Leads env (fun m => ∃ x w, result = .ok (x, w) ∧ Q x w m)
    (fun f => f.Cuts ∨ f.Expected ∧ result = .error f)

/-- The same in the middle of a step. -/
def Goes (env : Environment) (rest : EStateM.Result Fault Machine Unit)
    (result : Except Fault (α × World)) (Q : α → World → Machine → Prop) : Prop :=
  match rest with
  | .ok () m => Ends env result Q m
  | .error f _ => f.Cuts ∨ f.Expected ∧ result = .error f

theorem Ends.here {x : α} (h : Q x w m) : Ends env (.ok (x, w)) Q m := Leads.here ⟨x, w, rfl, h⟩

/-- One evaluation after the other. -/
theorem Ends.bind {y : Evaluating α} {f : α → Evaluating β} {P : α → World → Machine → Prop}
    {Q : β → World → Machine → Prop} (h : Ends env (y w) P m)
    (hnext : ∀ x w' m', y w = .ok (x, w') → P x w' m' → Ends env (f x w') Q m') :
    Ends env ((y >>= f) w) Q m := by
  refine Leads.trans h ?_ ?_
  · rintro g (hg | ⟨hexpected, hg⟩)
    · exact .inl hg
    · exact .inr ⟨hexpected, bind_of_error hg⟩
  · rintro m' ⟨x, w', hx, hm'⟩
    rw [bind_of_ok hx]
    exact hnext x w' m' hx hm'

theorem Ends.mono {P Q : α → World → Machine → Prop} (h : Ends env result P m)
    (hPQ : ∀ x w m, P x w m → Q x w m) : Ends env result Q m := by
  refine Leads.trans h (fun _ hf => hf) ?_
  rintro m' ⟨x, w, hx, hm'⟩
  exact .here ⟨x, w, hx, hPQ x w m' hm'⟩

/-! ## Running a part of a step -/

/-- A part of a step does what a part of an evaluation does, and leaves the rest alone. -/
def Mirrors (a : Activation) (x : Running α) (y : Evaluating α) : Prop :=
  ∀ w c position t, c.Fits a →
    match y w with
    | .ok (v, w') => x (.of w c position t) = .ok v (.of w' c position t)
    | .error f => f.Expected ∧ ∃ m, x (.of w c position t) = .error f m

theorem Goes.of_ends {m' : Machine} (hx : x m = .ok () m') (h : Ends env result Q m') :
    Goes env (x m) result Q := by
  rw [hx]
  exact h

/-- A part of a step that evaluation knows, and then the rest of it. -/
theorem Mirrors.goes_bind {a : Activation} {x : Running α} {y : Evaluating α} (h : Mirrors a x y)
    {f : α → Running Unit} {g : α → Evaluating β} {Q : β → World → Machine → Prop} (hfits : c.Fits a)
    (hnext : ∀ v w', Goes env (f v (.of w' c position t)) (g v w') Q) :
    Goes env ((x >>= f) (.of w c position t)) ((y >>= g) w) Q := by
  have hxy := h w c position t hfits
  cases hy : y w with
  | ok r =>
    obtain ⟨v, w'⟩ := r
    rw [hy] at hxy
    rw [run_bind_of_ok hxy, bind_of_ok hy]
    exact hnext v w'
  | error fault =>
    rw [hy] at hxy
    obtain ⟨hexpected, m, hx⟩ := hxy
    rw [run_bind_of_error hx, bind_of_error hy]
    exact .inr ⟨hexpected, rfl⟩

/-- An action that mirrors an evaluation goes along with it. -/
theorem Mirrors.goes {a : Activation} {y : Evaluating Unit} (h : Mirrors a x y)
    {Q : Unit → World → Machine → Prop} (hfits : c.Fits a) (hQ : ∀ w', Q () w' (.of w' c position t)) :
    Goes env (x (.of w c position t)) (y w) Q := by
  have hgoes : Goes env ((x >>= pure) (.of w c position t)) ((y >>= pure) w) Q :=
    h.goes_bind hfits fun _ w' => Ends.here (hQ w')
  simpa using hgoes

/-! ## Code -/

theorem Line.size_of_ofInstr? {i : Instr} (h : Line.ofInstr? strings i = some l) :
    i.size = l.size := by
  cases i with
  | printString n | pushString n =>
    obtain ⟨s, -, rfl⟩ := Option.map_eq_some_iff.1 h
    rfl
  | openChannel n v =>
    simp only [Line.ofInstr?] at h
    split at h
    · cases h
      rfl
    · cases h
  | _ =>
    cases h
    rfl

theorem Line.sizes_of_ofInstr? {is : List Instr} (h : is.map (Line.ofInstr? strings) = ls.map some) :
    Instr.sizes is = Line.sizes ls := by
  rw [← Ref.sizes_of_map (g := id) Line.size_of_ofInstr? h, List.map_id]

theorem Line.eq_of_ofInstr?_plain {i j : Instr} (h : Line.ofInstr? strings i = some (.plain j)) :
    i = j := by
  cases i with
  | printString n | pushString n =>
    obtain ⟨s, -, hs⟩ := Option.map_eq_some_iff.1 h
    cases hs
  | openChannel n v =>
    simp only [Line.ofInstr?] at h
    split at h <;> cases h
  | _ =>
    cases h
    rfl

theorem Visibility.eq_toByte {b : UInt8} {v : Visibility} (h : Visibility.ofByte? b = some v) :
    b = v.toByte := by
  unfold Visibility.ofByte? at h
  split at h
  · cases h
    assumption
  · split at h
    · cases h
      assumption
    · split at h
      · cases h
        assumption
      · cases h

theorem Line.eq_instr_of_ofInstr?_text {i : Instr} {use : StringUse} {s : String}
    (h : Line.ofInstr? strings i = some (.text use s)) :
    ∃ n, i = use.instr n ∧ Program.lookup? strings n = some s := by
  cases i with
  | printString n | pushString n =>
    obtain ⟨s, hs, ⟨⟩⟩ := Option.map_eq_some_iff.1 h
    exact ⟨n, rfl, hs⟩
  | openChannel n b =>
    simp only [Line.ofInstr?] at h
    split at h
    · rename_i v s hv hs
      cases h
      exact ⟨n, by rw [Visibility.eq_toByte hv, StringUse.instr], hs⟩
    · cases h
  | _ => cases h

/-- The program has the given lines at an offset. -/
def Program.Has (p : Program) (offset : Nat) (ls : List Line) : Prop :=
  ∃ before after, p.Reads (before ++ ls ++ after) ∧ Line.sizes before = offset

namespace Program

variable {p : Program}

theorem Reads.has (h : p.Reads ls) : p.Has 0 ls := ⟨[], [], by simpa using h, rfl⟩

theorem Reads.size (h : p.Reads ls) : p.code.size = Line.sizes ls := by
  obtain ⟨is, hcode, hlines⟩ := h
  rw [← Array.length_toList, hcode, Instr.length_flatten, Line.sizes_of_ofInstr? hlines]

theorem Has.left {ms : List Line} (h : p.Has offset (ls ++ ms)) : p.Has offset ls := by
  obtain ⟨before, after, hreads, hsize⟩ := h
  exact ⟨before, ms ++ after, by simpa using hreads, hsize⟩

theorem Has.right {ms : List Line} (h : p.Has offset (ls ++ ms)) :
    p.Has (offset + Line.sizes ls) ms := by
  obtain ⟨before, after, hreads, hsize⟩ := h
  exact ⟨before ++ ls, after, by simpa using hreads, by simp [hsize]⟩

theorem Has.tail (h : p.Has offset (l :: ls)) : p.Has (offset + l.size) ls := by
  have htail : p.Has (offset + Line.sizes [l]) ls := Has.right (h : p.Has offset ([l] ++ ls))
  simpa using htail

theorem Has.tail_plain {i : Instr} (h : p.Has offset (.plain i :: ls)) :
    p.Has (offset + i.size) ls := h.tail

theorem Has.le_size (h : p.Has offset ls) : offset + Line.sizes ls ≤ p.code.size := by
  obtain ⟨before, after, hreads, hsize⟩ := h
  have hcode := hreads.size
  simp only [Line.sizes_append] at hcode
  omega

/-- The instruction at the offset is that of the first line. -/
theorem Has.decodeAt (h : p.Has offset (l :: ls)) :
    ∃ i, Instr.decodeAt p.code offset = .ok (i, offset + l.size) ∧
      Line.ofInstr? p.strings i = some l := by
  obtain ⟨before, after, ⟨is, hcode, hlines⟩, hsize⟩ := h
  rw [List.append_assoc, List.cons_append, List.map_append, List.map_eq_append_iff] at hlines
  obtain ⟨front, rest, rfl, hfront, hrest⟩ := hlines
  obtain ⟨i, back, rfl, hi, -⟩ := List.map_eq_cons_iff.1 hrest
  refine ⟨i, ?_, hi⟩
  have hdecode := Instr.decodeAt_of_toList hcode
  rwa [Line.sizes_of_ofInstr? hfront, hsize, Line.size_of_ofInstr? hi] at hdecode

end Program

/-! ## Steps -/

/-- What a machine may do from the middle of a step on. -/
def Settles (env : Environment) (rest : EStateM.Result Fault Machine Status)
    (result : Except Fault (α × World)) (Q : α → World → Machine → Prop) : Prop :=
  match rest with
  | .ok .running m => Ends env result Q m
  | .ok .finished _ => False
  | .error f _ => f.Cuts ∨ f.Expected ∧ result = .error f

theorem Goes.settles (h : Goes env (x m) result Q) :
    Settles env ((do x; return Status.running) m) result Q := by
  cases hx : x m with
  | ok u m' =>
    rw [run_bind_of_ok hx]
    rwa [hx] at h
  | error f m' =>
    rw [run_bind_of_error hx]
    rwa [hx] at h

theorem tick_of (env : Environment) (w : World) (c : Control) (position : Nat) (t : Trace) :
    (∃ t', Running.tick env (.of w c position t) = .ok () (.of w c position t') ∧
      t'.comparison = t.comparison) ∨
      ∃ m, Running.tick env (.of w c position t) = .error .timeout m := by
  simp only [Running.tick, run_bind, run_get, run_set]
  split
  · exact .inr ⟨_, rfl⟩
  · exact .inl ⟨{ t with executed := t.executed + 1 }, rfl, rfl⟩

/-- A step counts the next instruction and executes it. -/
theorem step_line {p : Program} (hhas : p.Has position (l :: ls)) (hprogram : c.frame.program = p) :
    ∃ i, Line.ofInstr? p.strings i = some l ∧ Running.step env (.of w c position t) =
      (Running.tick env >>= fun _ => Running.execute env i)
        (.of w c (position + l.size) { t with current := ⟨p, position⟩ }) := by
  obtain ⟨i, hdecode, hi⟩ := hhas.decodeAt
  have hlt : ¬ p.code.size ≤ position := by
    have hle := hhas.le_size
    have hpos := l.size_pos
    rw [Line.sizes_cons] at hle
    omega
  refine ⟨i, hi, ?_⟩
  rw [Running.step, run_bind_of_ok (run_get _), if_neg (by simpa [Machine.of, hprogram] using hlt)]
  apply run_bind_of_ok
  simp only [Running.fetch, Machine.of, hprogram, hdecode]

/-- A step is the execution of the next instruction, if there is time for it. The outcome of the last
comparison stays. -/
theorem Ends.line_of {p : Program} (hhas : p.Has position (l :: ls)) (hprogram : c.frame.program = p)
    (h : ∀ i t', Line.ofInstr? p.strings i = some l → t'.comparison = t.comparison → Settles env (Running.execute env i (.of w c (position + l.size) t')) result Q) :
    Ends env result Q (.of w c position t) := by
  obtain ⟨i, hi, hstep⟩ := step_line (w := w) (t := t) hhas hprogram
  obtain ⟨t', htick, hcomparison⟩ | ⟨m, htick⟩ := tick_of env w c (position + l.size)
    { t with current := ⟨p, position⟩ }
  · rw [run_bind_of_ok htick] at hstep
    have hsettles := h i t' hi hcomparison
    rw [← hstep] at hsettles
    cases hresult : Running.step env (.of w c position t) with
    | ok status m =>
      rw [hresult] at hsettles
      cases status with
      | running => exact Leads.step hresult hsettles
      | finished => exact hsettles.elim
    | error f m =>
      rw [hresult] at hsettles
      exact Leads.fail hresult hsettles
  · rw [run_bind_of_error htick] at hstep
    exact Leads.fail hstep (.inl trivial)

/-- The instruction at hand is that of the line. -/
theorem Ends.line {p : Program} (hm : m.At w c position) (hhas : p.Has position (l :: ls))
    (hprogram : c.frame.program = p)
    (h : ∀ i t, Line.ofInstr? p.strings i = some l → Settles env (Running.execute env i (.of w c (position + l.size) t)) result Q) :
    Ends env result Q m := by
  obtain ⟨t, rfl⟩ := hm
  exact Ends.line_of hhas hprogram fun i t' hi _ => h i t' hi

end Wordloom
