import Mathlib.Logic.Relation
import Wordloom.Machine.Standard
import Wordloom.Proofs.Blocks

/-!
# Wordloom.Proofs.Changes

What a step is made of. While it goes on in a frame, a machine changes in few ways (`Machine.Change`), and
in the end it may enter another frame (`Machine.Enters`). Every part of a step is described here once, by
the changes that it makes and by the faults that it can end with. What holds in every state of a run then
follows from what the changes keep, one by one.
-/

namespace Wordloom

/-! ## Functions -/

/-- A routine that can fail in this way, whatever it is answered. -/
def Routine.Raises (fault : Fault) : Routine → Prop
  | .done => False
  | .fail f => f = fault
  | .print _ next | .edit _ next | .setRepeat _ next | .setSeparator _ next
  | .setNumberFormat _ next | .setRng _ next => next.Raises fault
  | .textOf _ next => ∃ text, (next text).Raises fault
  | .getRng next => ∃ rng, (next rng).Raises fault
  | .getPool _ next => ∃ pool, (next pool).Raises fault
  | .evaluate _ next => ∃ v, (next v).Raises fault

/-- A function is registered that can fail in this way. -/
def Registry.Raises (r : Registry) (fault : Fault) : Prop :=
  ∃ id f args, r.get? id = some f ∧ (f.routine args).Raises fault

/-- Whatever it is answered, the routine makes only such edits, and it fails only in such ways. -/
def Routine.Keeps (E : Edit → Prop) (F : Fault → Prop) : Routine → Prop
  | .done => True
  | .fail fault => F fault
  | .edit e next => E e ∧ next.Keeps E F
  | .print _ next | .setRepeat _ next | .setSeparator _ next | .setNumberFormat _ next
  | .setRng _ next => next.Keeps E F
  | .textOf _ next => ∀ text, (next text).Keeps E F
  | .getRng next => ∀ rng, (next rng).Keeps E F
  | .getPool _ next => ∀ pool, (next pool).Keeps E F
  | .evaluate _ next => ∀ v, (next v).Keeps E F

/-- Nothing is asked of edits and faults. -/
theorem Routine.keeps_any (r : Routine) : r.Keeps (fun _ => True) fun _ => True := by
  induction r with
  | done | fail => trivial
  | edit e next ih => exact ⟨trivial, ih⟩
  | print _ _ ih | setRepeat _ _ ih | setSeparator _ _ ih | setNumberFormat _ _ ih | setRng _ _ ih
  | textOf _ _ ih | getRng _ ih | getPool _ _ ih | evaluate _ _ ih => exact ih

/-- A routine fails as it can fail. -/
theorem Routine.Keeps.raising {E : Edit → Prop} {F : Fault → Prop} {r : Routine}
    (h : r.Keeps E fun _ => True) (hF : ∀ fault, r.Raises fault → F fault) : r.Keeps E F := by
  induction r with
  | done => trivial
  | fail fault => exact hF fault rfl
  | edit e next ih => exact ⟨h.1, ih h.2 hF⟩
  | print _ _ ih | setRepeat _ _ ih | setSeparator _ _ ih | setNumberFormat _ _ ih | setRng _ _ ih =>
    exact ih h hF
  | textOf _ _ ih | getRng _ ih | getPool _ _ ih | evaluate _ _ ih =>
    exact fun a => ih a (h a) fun fault hraises => hF fault ⟨a, hraises⟩

/-- What the machine itself says of code that makes no sense. -/
def InternalMessage (message : String) : Prop :=
  message = "no nested output to return" ∨ message = "block end outside of a block" ∨
    (∃ letter : Char, message = s!"unknown character class '{letter}'") ∨
    ∃ visibility : UInt8, message = s!"unknown visibility {visibility}"

/-- The faults that a run may end with where nothing is put on the stack: those of the functions, and of
the machine itself all but an overflow of the stack and some that are internal. -/
def Environment.Admits (env : Environment) : Fault → Prop
  | .internal message => env.registry.Raises (.internal message) ∨ InternalMessage message
  | .stackOverflow limit => env.registry.Raises (.stackOverflow limit)
  | _ => True

/-- The same where values are put on the stack. -/
def Environment.AdmitsFull (env : Environment) (fault : Fault) : Prop :=
  env.Admits fault ∨ ∃ limit, fault = .stackOverflow limit

/-- The faults of functions are admitted. -/
theorem Environment.admits_of_raises {env : Environment} {fault : Fault}
    (h : env.registry.Raises fault) : env.Admits fault := by
  cases fault with
  | internal message => exact .inl h
  | stackOverflow limit => exact h
  | _ => trivial

/-- What is to be done with the value of evaluated code can be done: a function does what functions do,
and a block has an item for every weight. -/
def Continuation.Fits (r : Registry) (E : Edit → Prop) : Continuation → Prop
  | .routine next => ∀ v, (next v).Keeps E r.Raises
  | .choice block entered weights rest =>
    block.items ≠ [] ∧ weights.length + 1 + rest.length = block.items.length ∧
      ∀ active ∈ entered, active.block.items ≠ []

/-! ## Changes -/

theorem pop_eq_take {α : Type} (xs : Array α) : xs.pop = xs.take (xs.size - 1) :=
  (Array.extract_eq_pop rfl).symm

namespace Machine

/-- The machine goes on in the same frame, with the same values and blocks, and its output is what it
was. -/
structure Same (m m' : Machine) : Prop where
  frame : ∃ position, m'.frame = { m.frame with position := position }
  callers : m'.callers = m.callers
  stack : m'.stack = m.stack
  blocks : m'.blocks = m.blocks
  root : m'.root = m.root
  charsPrinted : m'.charsPrinted = m.charsPrinted

/-- What may become of the output of the run, and of the number of characters printed to it. -/
inductive Outputs (env : Environment) (E : Edit → Prop) (m : Machine) : Writer → Nat → Prop where
  | print (text : String)
    (hlimit : ∀ limit ∈ env.options.charLimit, m.charsPrinted + text.length ≤ limit) :
    m.Outputs env E (m.root.edit (.print text)) (m.charsPrinted + text.length)
  | edit {e : Edit} (he : e = .article ∨ E e) : m.Outputs env E (m.root.edit e) m.charsPrinted
  | openChannel (name : String) (visibility : Visibility) :
    m.Outputs env E (m.root.openChannel name visibility) m.charsPrinted
  | closeChannel : m.Outputs env E m.root.closeChannel.2 m.charsPrinted

/-- What a part of a step does to the machine while it goes on in a frame, where functions make only the
edits `E`. -/
inductive Change (env : Environment) (E : Edit → Prop) (m : Machine) : Machine → Prop where
  | quiet {m' : Machine} (h : m.Same m') : m.Change env E m'
  | output {root : Writer} {n : Nat} (h : m.Outputs env E root n) :
    m.Change env E { m with root := root, charsPrinted := n }
  | push (v : Value) (hroom : m.stack.size < m.stack.limit) :
    m.Change env E { m with stack := { m.stack with values := m.stack.values.push v } }
  /-- values that the frame may take are taken -/
  | take {n : Nat} (hn : n ≤ m.stack.heightAbove m.frame.floor) :
    m.Change env E { m with stack := m.stack.truncate (m.stack.size - n) }
  | enterBlock {active : ActiveBlock} (hitems : active.block.items ≠ []) :
    m.Change env E { m with blocks := m.blocks.push active }
  /-- the innermost block that the frame has started is run again -/
  | repeatBlock {active : ActiveBlock} (hown : m.frame.blocks < m.blocks.size)
    (hactive : m.blocks.back? = some active) (remaining : Nat) :
    m.Change env E { m with blocks := m.blocks.pop.push { active with remaining := remaining } }
  | leaveBlock (hown : m.frame.blocks < m.blocks.size) :
    m.Change env E { m with blocks := m.blocks.pop }

abbrev Changes (env : Environment) (E : Edit → Prop) : Machine → Machine → Prop :=
  Relation.ReflTransGen (Change env E)

/-- The machine with a frame entered, which is above all that there was. -/
def entering (m : Machine) (frame : Frame) : Machine :=
  { m with frame := { frame with blocks := m.blocks.size }, callers := m.frame :: m.callers }

/-- A frame is entered: for a call, with values that the frame below may take as arguments, or for code
that is evaluated on behalf of that one. -/
inductive Enters (env : Environment) (E : Edit → Prop) (m : Machine) : Machine → Prop where
  | call {program : Program} {address count : Nat} (hdepth : m.depth < env.options.maxCallDepth)
    (hcount : count ≤ m.stack.heightAbove m.frame.floor) :
    m.Enters env E (m.entering (.new program address (m.stack.size - count) count))
  | evaluate {address : Nat} {next : Continuation} (hdepth : m.depth < env.options.maxCallDepth)
    (hnext : next.Fits env.registry E) :
    m.Enters env E (m.entering
      { m.frame with
        position := address, stackBase := m.stack.size, evaluation := some ⟨m.current, next⟩ })

/-- What a step comes to that leaves no frame. -/
def Onward (env : Environment) (E : Edit → Prop) (m m' : Machine) : Prop :=
  m.Changes env E m' ∨ ∃ m₁, m.Changes env E m₁ ∧ m₁.Enters env E m'

variable {env : Environment} {E : Edit → Prop} {m m₁ m' : Machine}

theorem Same.refl (m : Machine) : m.Same m := ⟨⟨m.frame.position, rfl⟩, rfl, rfl, rfl, rfl, rfl⟩

theorem Same.trans (h : m.Same m₁) (h' : m₁.Same m') : m.Same m' := by
  obtain ⟨⟨_, hframe⟩, hcallers, hstack, hblocks, hroot, hchars⟩ := h
  obtain ⟨⟨position, hframe'⟩, hcallers', hstack', hblocks', hroot', hchars'⟩ := h'
  exact ⟨⟨position, by rw [hframe', hframe]⟩, hcallers'.trans hcallers, hstack'.trans hstack,
    hblocks'.trans hblocks, hroot'.trans hroot, hchars'.trans hchars⟩

theorem Same.changes (h : m.Same m') : m.Changes env E m' := .single (.quiet h)

/-- Changes in front of what goes onward. -/
theorem Changes.onward (h : m.Changes env E m₁) (h' : m₁.Onward env E m') : m.Onward env E m' := by
  obtain h' | ⟨m₂, h', henters⟩ := h'
  · exact .inl (h.trans h')
  · exact .inr ⟨m₂, h.trans h', henters⟩

end Machine

/-! ## Parts of a step -/

namespace Running

variable {env : Environment} {E : Edit → Prop} {m : Machine} {α β : Type} {x : Running α}
  {entered : Option ActiveBlock}

/-- What holds after a part of a step; if it fails, then in a way that is admitted. -/
abbrev Gives (env : Environment) : Running α → Machine → (α → Machine → Prop) → Prop := Ensures env.Admits

theorem Gives.full {Q : α → Machine → Prop} (h : Gives env x m Q) :
    Ensures env.AdmitsFull x m Q := h.mono (fun _ => .inl) fun _ _ => id

/-! ### Parts that leave frames, values, blocks and output alone -/

def Quiet (env : Environment) (x : Running α) : Prop := ∀ m, Gives env x m fun _ m' => m.Same m'

namespace Quiet

/-- One quiet action after the other. -/
theorem bind {x : Running α} {f : α → Running β} (hx : Quiet env x) (hf : ∀ a, Quiet env (f a)) :
    Quiet env (x >>= f) :=
  fun m => .bind ((hx m).imp fun a _ h => (hf a _).imp fun _ _ h' => h.trans h')

theorem pure (a : α) : Quiet env (pure a) := fun m => .pure (.refl m)

theorem get : Quiet env get := fun m => .get (.refl m)

theorem throw {fault : Fault} (h : env.Admits fault) : Quiet env (throw fault : Running α) :=
  fun _ => .throw h

theorem modify {g : Machine → Machine} (h : ∀ m : Machine, m.Same (g m)) : Quiet env (modify g) :=
  fun m => .modify (h m)

end Quiet

/-- An address outside of the code is a fault, and else nothing happens. -/
theorem checkedAddress_gives (env : Environment) (m : Machine) (address : Nat) :
    Gives env (checkedAddress address) m fun offset m' => m = m' ∧ offset = address := by
  refine .bind (.get ?_)
  split
  · exact .throw trivial
  · exact .pure ⟨rfl, rfl⟩

theorem address_gives (env : Environment) (m : Machine) (a : Int32) :
    Gives env (address a) m fun offset m' => m = m' ∧ offset = a.toInt.toNat := by
  unfold address
  split
  · exact .throw trivial
  · exact checkedAddress_gives env m _

theorem quiet_checkedAddress (address : Nat) : Quiet env (checkedAddress address) := fun m =>
  (checkedAddress_gives env m address).imp fun _ _ h => h.1 ▸ .refl m

theorem quiet_address (a : Int32) : Quiet env (address a) := fun m =>
  (address_gives env m a).imp fun _ _ h => h.1 ▸ .refl m

theorem quiet_jump (offset : Nat) : Quiet env (jump offset) :=
  .modify fun _ => ⟨⟨offset, rfl⟩, rfl, rfl, rfl, rfl, rfl⟩

theorem quiet_jumpTo (address : Nat) : Quiet env (do jump (← checkedAddress address)) :=
  .bind (quiet_checkedAddress address) fun offset => quiet_jump offset

/-- So is an index outside of a table. -/
theorem quiet_entry {table : String} {index : Int} {found : Option α} :
    Quiet env (entry table index found) := by
  unfold entry
  split
  · exact .pure _
  · exact .throw trivial

theorem quiet_string (index : Int32) : Quiet env (string index) :=
  .bind .get fun _ => quiet_entry

/-- A nested output is opened beside that of the run. -/
theorem quiet_openOutput (options : Options) : Quiet env (openOutput options) :=
  .modify fun _ => ⟨⟨_, rfl⟩, rfl, rfl, rfl, rfl, rfl⟩

/-- The innermost output is closed, if there is one. -/
theorem quiet_closeOutput : Quiet env closeOutput := by
  intro m
  refine .bind (.get ?_)
  split
  · exact .throw (.inr (.inl rfl))
  · exact .bind (.set (.pure ⟨⟨_, rfl⟩, rfl, rfl, rfl, rfl, rfl⟩))

theorem quiet_jumpIf (holds : Comparison → Bool) (target : Int32) :
    Quiet env (jumpIf holds target) := by
  refine .bind .get fun m => ?_
  split
  · exact .bind (quiet_address target) fun _ => quiet_jump _
  · exact .pure _

theorem quiet_argument (i : Nat) : Quiet env (argument i) := by
  intro m
  refine .bind (.get ?_)
  by_cases hi : m.frame.argCount ≤ i
  · rw [if_pos hi]
    exact .bind (.throw trivial)
  · rw [if_neg hi]
    dsimp only
    split
    · exact .pure (.refl m)
    · exact .throw trivial

/-- The clock counts steps only. -/
theorem quiet_tick (timed : Environment) : Quiet env (tick timed) := by
  intro m
  refine .bind (.get (.bind (.set ?_)))
  split
  · exact .throw trivial
  · exact .pure ⟨⟨_, rfl⟩, rfl, rfl, rfl, rfl, rfl⟩

/-- The next instruction is read. -/
theorem fetch_gives (m : Machine) : Gives env fetch m fun i m' => m.Same m' ∧
    ∃ position, Instr.decodeAt m.frame.program.code m.frame.position = .ok (i, position) := by
  refine .of_run ?_
  unfold fetch
  dsimp only
  cases hdecode : Instr.decodeAt m.frame.program.code m.frame.position with
  | ok r => exact ⟨⟨⟨_, rfl⟩, rfl, rfl, rfl, rfl, rfl⟩, r.2, rfl⟩
  | error e => trivial

/-! ### Parts that go on in the frame -/

/-- A part of a step that makes changes; it enters no frame. -/
def Varies (env : Environment) (E : Edit → Prop) (x : Running α) : Prop :=
  ∀ m, Gives env x m fun _ m' => m.Changes env E m'

theorem Quiet.varies (h : Quiet env x) : Varies env E x :=
  fun m => (h m).imp fun _ _ hsame => hsame.changes

theorem Varies.bind {f : α → Running β} (hx : Varies env E x) (hf : ∀ a, Varies env E (f a)) :
    Varies env E (x >>= f) :=
  fun m => .bind ((hx m).imp fun a _ h => (hf a _).imp fun _ _ h' => h.trans h')

/-- Only the output of the run is of interest: texts that are to become values are not. -/
theorem varies_onWriter {f : Writer → Writer}
    (hf : ∀ m : Machine, m.Outputs env E (f m.root) m.charsPrinted) :
    Varies env E (modify (·.onWriter f)) := by
  refine fun m => .modify ?_
  unfold Machine.onWriter
  split
  · exact .single (.output (hf m))
  · exact Machine.Same.changes ⟨⟨_, rfl⟩, rfl, rfl, rfl, rfl, rfl⟩

/-- What is printed is counted before, and must be within the limit. -/
theorem varies_print (text : String) : Varies env E (print env.options text) := by
  intro m
  have hprint (hnested : m.nested = [])
      (hlimit : ∀ limit ∈ env.options.charLimit, m.charsPrinted + text.length ≤ limit) :
      m.Changes env E (({ m with charsPrinted := m.charsPrinted + text.length } : Machine).onWriter
        (·.edit (.print text))) := by
    unfold Machine.onWriter
    split
    · exact .single (.output (.print text hlimit))
    · next hcons => cases hnested.symm.trans hcons
  refine .bind (.get ?_)
  by_cases hnested : m.nested.isEmpty
  · have hprint := hprint (List.isEmpty_iff.1 hnested)
    rw [if_pos hnested]
    refine .bind (.set ?_)
    split
    · next limit hlimit =>
      rw [hlimit] at hprint
      split
      · exact .bind (.throw trivial)
      · next hle =>
        refine .modify (hprint ?_)
        rintro _ ⟨⟩
        omega
    · next hnone =>
      rw [hnone] at hprint
      exact .modify (hprint nofun)
  · rw [if_neg hnested]
    refine .modify ?_
    unfold Machine.onWriter
    split
    · next hnil => simp [hnil] at hnested
    · exact Machine.Same.changes ⟨⟨_, rfl⟩, rfl, rfl, rfl, rfl, rfl⟩

/-- Characters are drawn one by one and printed together. -/
theorem varies_printChars (letter : Char) (count : Int32) :
    Varies env E (printChars env.options letter count) := by
  intro m
  unfold printChars
  split
  · exact .throw (.inr (.inr (.inr (.inl ⟨letter, rfl⟩))))
  · refine .bind (.get (.bind (.set ?_)))
    have hsame (rng : Rng) : m.Same { m with rng := rng } := ⟨⟨_, rfl⟩, rfl, rfl, rfl, rfl, rfl⟩
    exact (varies_print _ _).imp fun _ _ h => (hsame _).changes.trans h

/-- A channel is opened in the output of the run or in a nested one. -/
theorem varies_openChannel (name : Int32) (visibility : UInt8) :
    Varies env E (openChannel name visibility) := by
  refine .bind (quiet_string name).varies fun _ => ?_
  split
  · exact varies_onWriter fun _ => .openChannel _ _
  · exact fun _ => .throw (.inr (.inr (.inr (.inr ⟨visibility, rfl⟩))))

/-- What a dictionary answers is printed. -/
theorem varies_answerQuery (index : Int32) : Varies env E (answerQuery env index) := by
  intro m
  refine .bind (.get (.bind ?_))
  unfold entry
  split
  · refine .pure ?_
    split
    · exact .set (Machine.Same.changes ⟨⟨_, rfl⟩, rfl, rfl, rfl, rfl, rfl⟩)
    · exact .throw trivial
    · refine .bind (.set ?_)
      have hsame (carriers : CarrierState) (rng : Rng) :
          m.Same { m with carriers := carriers, rng := rng } :=
        ⟨⟨_, rfl⟩, rfl, rfl, rfl, rfl, rfl⟩
      exact (varies_print _ _).imp fun _ _ h => (hsame _ _).changes.trans h
  · exact .throw trivial

/-- The values asked for are there, above the floor of the frame. -/
theorem need_gives (env : Environment) (m : Machine) (n : Nat) :
    Gives env (need n) m fun _ m' => m = m' ∧ n ≤ m.stack.heightAbove m.frame.floor := by
  refine .bind (.get ?_)
  dsimp only
  split
  · exact .throw trivial
  · exact .pure ⟨rfl, by omega⟩

/-- A value is put on the stack, unless there is no room. -/
theorem push_gives (v : Value) :
    Ensures env.AdmitsFull (push v) m fun _ m' => m.Changes env E m' := by
  refine .of_run ?_
  unfold push Stack.push
  by_cases hfull : m.stack.limit ≤ m.stack.size
  · rw [if_pos hfull]
    exact .inr ⟨_, rfl⟩
  · rw [if_neg hfull]
    exact .single (.push v (Nat.not_le.1 hfull))

/-- The value on top is taken, which is above the floor. -/
theorem pop_gives : Gives env pop m fun v m' =>
    m.stack.values.back? = some v ∧ m.Changes env E m' := by
  refine .of_run ?_
  unfold pop Stack.popAbove
  by_cases hlow : m.stack.size ≤ m.frame.floor
  · rw [if_pos hlow]
    trivial
  · rw [if_neg hlow]
    cases hback : m.stack.values.back? with
    | none => trivial
    | some v =>
      have htake : m.stack.truncate (m.stack.size - 1) =
          { m.stack with values := m.stack.values.pop } := by
        rw [pop_eq_take]
        rfl
      have hn : 1 ≤ m.stack.heightAbove m.frame.floor := by
        unfold Stack.heightAbove
        omega
      exact ⟨rfl, htake ▸ .single (.take hn)⟩

/-- The arguments are taken from the stack. -/
theorem varies_popArguments (n : Nat) : Varies env E (popArguments n) := by
  refine fun m => .bind ((need_gives env m n).imp ?_)
  rintro _ _ ⟨rfl, hn⟩
  exact .bind (.get (.bind (.set (.pure (.single (.take hn))))))

/-- Two values are taken and their result is put back. -/
theorem binary_gives (op : Value → Value → Except DivisionByZero Value) :
    Ensures env.AdmitsFull (binary op) m fun _ m' => m.Changes env E m' := by
  refine .bind ((pop_gives (E := E)).full.imp fun b m₁ ⟨_, h₁⟩ => ?_)
  refine .bind ((pop_gives (E := E)).full.imp fun a m₂ ⟨_, h₂⟩ => ?_)
  split
  · exact (push_gives _).imp fun _ m' h => (h₁.trans h₂).trans h
  · exact .throw (.inl trivial)

/-! ### Parts that may enter a frame -/

/-- The rest of what is done for an instruction, unless it leaves the frame. -/
def Advances (env : Environment) (E : Edit → Prop) (x : Running α) : Prop :=
  ∀ m, Gives env x m fun _ m' => m.Onward env E m'

theorem Varies.advances (h : Varies env E x) : Advances env E x :=
  fun m => (h m).imp fun _ _ => .inl

/-- An action that advances, behind one that varies. -/
theorem Advances.after {f : α → Running β} (hx : Varies env E x) (hf : ∀ a, Advances env E (f a)) :
    Advances env E (x >>= f) :=
  fun m => .bind ((hx m).imp fun a _ h => (hf a _).imp fun _ _ h' => h.onward h')

/-- A frame is entered, unless the calls are too deep. -/
theorem enter_gives (frame : Frame) : Gives env (enter env.options frame) m fun _ m' =>
    m.depth < env.options.maxCallDepth ∧ m' = m.entering frame := by
  refine .bind (.get ?_)
  by_cases hfull : env.options.maxCallDepth ≤ m.depth
  · rw [if_pos hfull]
    exact .bind (.throw trivial)
  · rw [if_neg hfull]
    exact .set ⟨Nat.not_le.1 hfull, rfl⟩

/-- A call takes its arguments from the frame below. -/
theorem call_gives (address count : Nat) : Gives env (call env.options address count) m fun _ m' =>
    m.depth < env.options.maxCallDepth ∧ count ≤ m.stack.heightAbove m.frame.floor ∧
      m' = m.entering (.new m.frame.program address (m.stack.size - count) count) := by
  refine .bind ((need_gives env m count).imp ?_)
  rintro _ _ ⟨rfl, hcount⟩
  exact .bind (.get ((enter_gives _).imp fun _ _ ⟨hdepth, h⟩ => ⟨hdepth, hcount, h⟩))

theorem callProgram_gives (index : UInt16) : Gives env (callProgram env.options index) m fun _ m' =>
    m.depth < env.options.maxCallDepth ∧ ∃ target, m' = m.entering (.new target 0 m.stack.size 0) := by
  refine .bind (.get (.bind ?_))
  unfold entry
  split
  · exact .pure ((enter_gives _).imp fun _ _ ⟨hdepth, h⟩ => ⟨hdepth, _, h⟩)
  · exact .throw trivial

/-- Code is evaluated in a frame of its own. -/
theorem evaluate_gives (address : Nat) (next : Continuation) :
    Gives env (evaluate env.options address next) m fun _ m' =>
      m.depth < env.options.maxCallDepth ∧ m' = m.entering
        { m.frame with
          position := address, stackBase := m.stack.size, evaluation := some ⟨m.current, next⟩ } := by
  refine .bind ((checkedAddress_gives env m address).imp ?_)
  rintro _ _ ⟨rfl, rfl⟩
  exact .bind (.get (enter_gives _))

theorem advances_call (address count : Nat) : Advances env E (call env.options address count) := by
  refine fun m => (call_gives address count).imp ?_
  rintro _ _ ⟨hdepth, hcount, rfl⟩
  exact .inr ⟨m, .refl, .call hdepth hcount⟩

theorem advances_callProgram (index : UInt16) : Advances env E (callProgram env.options index) := by
  refine fun m => (callProgram_gives index).imp ?_
  rintro _ _ ⟨hdepth, target, rfl⟩
  have hnone : 0 ≤ m.stack.heightAbove m.frame.floor := Nat.zero_le _
  exact .inr ⟨m, .refl, .call hdepth hnone⟩

theorem advances_evaluate (address : Nat) {next : Continuation} (hnext : next.Fits env.registry E) :
    Advances env E (evaluate env.options address next) := by
  refine fun m => (evaluate_gives address next).imp ?_
  rintro _ _ ⟨hdepth, rfl⟩
  exact .inr ⟨m, .refl, .evaluate hdepth hnext⟩

/-- A routine makes its edits up to its end or up to code that it evaluates. -/
theorem advances_routine {r : Routine} (h : r.Keeps E env.registry.Raises) :
    Advances env E (routine env r) := by
  have hset {g : Machine → Machine} (hg : ∀ m : Machine, m.Same (g m)) : Varies env E (modify g) :=
    (Quiet.modify hg).varies
  induction r with
  | done => exact (Quiet.pure ()).varies.advances
  | fail fault => exact fun _ => .throw (Environment.admits_of_raises h)
  | print text next ih => exact .after (varies_print text) fun _ => ih h
  | edit e next ih => exact .after (varies_onWriter fun _ => .edit (.inr h.1)) fun _ => ih h.2
  | setRepeat _ _ ih | setSeparator _ _ ih | setNumberFormat _ _ ih | setRng _ _ ih =>
    exact .after (hset fun _ => ⟨⟨_, rfl⟩, rfl, rfl, rfl, rfl, rfl⟩) fun _ => ih h
  | textOf _ _ ih | getRng _ ih => exact fun m => .bind (.get (ih _ (h _) m))
  | getPool name next ih =>
    unfold routine
    split
    · exact ih _ (h _)
    · exact fun _ => .throw trivial
  | evaluate address next ih => exact advances_evaluate address h

/-- A function that is called makes the edits of its routine. -/
theorem advances_nativeCall {id : UInt16} (count : UInt8)
    (h : ∀ f, env.registry.get? id.toNat = some f →
      ∀ args, (f.routine args).Keeps E env.registry.Raises) :
    Advances env E (nativeCall env id count) := by
  refine fun m => .bind ?_
  unfold entry
  split
  · next f hf =>
    exact .pure (Advances.after (varies_popArguments _) (fun args => advances_routine (h f hf args)) m)
  · exact .throw trivial

/-- There is an item for the choice, since there is one for every weight. -/
theorem varies_chooseItem {block : Block} {weights : List Float} (hitems : block.items ≠ [])
    (hweights : weights.length = block.items.length)
    (hentered : ∀ active ∈ entered, active.block.items ≠ []) :
    Varies env E (chooseItem block entered weights) := by
  refine fun m => .bind (.get ?_)
  dsimp only
  refine .bind (.set ?_)
  have hlt : (m.rng.weightedChoice weights).1 < block.items.length := by
    have hpos := List.length_pos_iff.2 hitems
    have hchoice : (m.rng.weightedChoice weights).1 < weights.length :=
      m.rng.weightedChoice_lt (by omega)
    omega
  have hsame : m.Same { m with rng := (m.rng.weightedChoice weights).2 } :=
    ⟨⟨_, rfl⟩, rfl, rfl, rfl, rfl, rfl⟩
  rw [List.getElem?_eq_getElem hlt]
  refine .bind ((quiet_checkedAddress _ _).imp fun offset m₂ hsame₂ => ?_)
  have hchanges : m.Changes env E m₂ := (hsame.trans hsame₂).changes
  cases entered with
  | none => exact .bind (.pure ((quiet_jump offset m₂).imp fun _ _ h => hchanges.trans h.changes))
  | some active =>
    refine .bind (.modify ((quiet_jump offset _).imp fun _ _ h => ?_))
    exact (hchanges.tail (.enterBlock (hentered active rfl))).trans h.changes

/-- The weights are found one by one, and then an item is chosen. -/
theorem advances_weigh {block : Block} {weights : List Float} {rest : List BlockItem}
    (hitems : block.items ≠ []) (hweights : weights.length + rest.length = block.items.length)
    (hentered : ∀ active ∈ entered, active.block.items ≠ []) :
    Advances env E (weigh env block entered weights rest) := by
  induction rest generalizing weights with
  | nil => exact (varies_chooseItem hitems hweights hentered).advances
  | cons item rest ih =>
    rw [List.length_cons] at hweights
    have hmore (w : Float) : (weights ++ [w]).length + rest.length = block.items.length := by
      rw [List.length_append, List.length_singleton]
      omega
    unfold weigh
    split
    · exact ih (hmore _)
    · exact ih (hmore _)
    · exact advances_evaluate _ ⟨hitems, by omega, hentered⟩

/-- A block is entered when all its weights are known. -/
theorem advances_startBlock (index : Int32) : Advances env E (startBlock env index) := by
  refine fun m => .bind (.get (.bind ?_))
  unfold entry
  split
  · next block _ =>
    have hsame : m.Same { m with repeater := {} } := ⟨⟨_, rfl⟩, rfl, rfl, rfl, rfl, rfl⟩
    refine .pure (.bind (.set (Ensures.imp ?_ fun _ _ h => hsame.changes.onward h)))
    dsimp only
    split
    · exact (quiet_jumpTo _).varies.advances _
    · next hcount =>
      have hitems : block.items ≠ [] := by
        intro hempty
        simp [hempty] at hcount
      refine advances_weigh hitems (Nat.zero_add _) ?_ _
      rintro active ⟨⟩
      exact hitems
  · exact .throw trivial

/-- A block that is run again has items, if those that have been entered have. -/
theorem endBlock_gives (hitems : ∀ active ∈ m.blocks, active.block.items ≠ []) :
    Gives env (endBlock env) m fun _ m' => m.Onward env E m' := by
  refine .bind (.get ?_)
  split
  · exact .throw (.inr (.inr (.inl rfl)))
  · next active hactive =>
    by_cases hlow : m.blocks.size ≤ m.frame.blocks
    · rw [if_pos hlow]
      exact .bind (.throw (.inr (.inr (.inl rfl))))
    rw [if_neg hlow]
    have hown := Nat.not_le.1 hlow
    have hweigh : Advances env E (weigh env active.block none [] active.block.items) :=
      advances_weigh (hitems active (Array.mem_of_back? hactive)) (Nat.zero_add _) nofun
    dsimp only
    split
    · exact .bind (.set (((quiet_jumpTo _).varies.advances _).imp fun _ _ h =>
        Machine.Changes.onward (.single (.leaveBlock hown)) h))
    · refine .bind (.set (Ensures.imp ?_ fun _ _ h =>
        Machine.Changes.onward (.single (.repeatBlock hown hactive (active.remaining - 1))) h))
      split
      · exact Advances.after (varies_print _) (fun _ => hweigh) _
      · exact .bind (.pure (hweigh _))

/-- What has asked for a value goes on with it. -/
theorem advances_continueWith (v : Value) {next : Continuation} (hnext : next.Fits env.registry E) :
    Advances env E (continueWith env v next) := by
  cases next with
  | routine next => exact advances_routine (hnext v)
  | choice block entered weights rest =>
    obtain ⟨hitems, hweights, hentered⟩ := hnext
    refine advances_weigh hitems ?_ hentered
    rw [List.length_append, List.length_singleton]
    omega

/-! ### Instructions -/

/-- The rest of a step that leaves no frame. -/
def Proceeds (env : Environment) (E : Edit → Prop) (x : Running Status) (m : Machine) : Prop :=
  Ensures env.AdmitsFull x m fun status m' => status = .running ∧ m.Onward env E m'

namespace Proceeds

theorem done : Proceeds env E (pure .running) m := .pure ⟨rfl, .inl .refl⟩

/-- A part of a step that advances, at its end. -/
theorem last {x : Running Unit} (hx : Gives env x m fun _ m' => m.Onward env E m') :
    Proceeds env E (do x; return .running) m :=
  .bind (hx.full.imp fun _ _ h => .pure ⟨rfl, h⟩)

variable {f : α → Running Status} {x : Running α}

theorem after (hx : Ensures env.AdmitsFull x m fun _ m' => m.Changes env E m')
    (hf : ∀ a m', Proceeds env E (f a) m') : Proceeds env E (x >>= f) m :=
  .bind (hx.imp fun a m' h => (hf a m').imp fun _ _ h' => ⟨h'.1, h.onward h'.2⟩)

theorem varies (hx : Varies env E x) (hf : ∀ a m', Proceeds env E (f a) m') :
    Proceeds env E (x >>= f) m := after (hx m).full hf

theorem quiet (hx : Quiet env x) (hf : ∀ a m', Proceeds env E (f a) m') :
    Proceeds env E (x >>= f) m := varies hx.varies hf

theorem push (v : Value) : Proceeds env E (do Running.push v; return .running) m :=
  after (push_gives v) fun _ _ => done

theorem pop {f : Value → Running Status} (hf : ∀ v m', Proceeds env E (f v) m') :
    Proceeds env E (Running.pop >>= f) m := after (pop_gives.full.imp fun _ _ h => h.2) hf

end Proceeds

/-- An instruction that neither leaves a frame nor sets a local. -/
theorem execute_proceeds {i : Instr} (hitems : ∀ active ∈ m.blocks, active.block.items ≠ [])
    (hcall : ∀ id count f, i = .nativeCall id count → env.registry.get? id.toNat = some f →
      ∀ args, (f.routine args).Keeps E env.registry.Raises)
    (hreturn : i ≠ .return) (hset : ∀ index, i ≠ .setLocal index) (hswap : ∀ a b, i ≠ .swap a b) :
    Proceeds env E (execute env i) m := by
  cases i with
  | «return» => exact absurd rfl hreturn
  | setLocal index => exact absurd rfl (hset index)
  | swap a b => exact absurd rfl (hswap a b)
  | debug line column offset =>
    exact .quiet (.modify fun _ => ⟨⟨_, rfl⟩, rfl, rfl, rfl, rfl, rfl⟩) fun _ _ => .done
  | printString index => exact .quiet (quiet_string index) fun _ _ => .varies (varies_print _) fun _ _ => .done
  | printNumber bits => exact .quiet .get fun _ _ => .varies (varies_print _) fun _ _ => .done
  | openChannel name visibility => exact .varies (varies_openChannel name visibility) fun _ _ => .done
  | closeChannel => exact .varies (varies_onWriter fun _ => .closeChannel) fun _ _ => .done
  | block index => exact .last (advances_startBlock index m)
  | blockEnd => exact .last (endBlock_gives hitems)
  | print => exact .pop fun _ _ => .quiet .get fun _ _ => .varies (varies_print _) fun _ _ => .done
  | printChars charClass count => exact .varies (varies_printChars _ count) fun _ _ => .done
  | nativeCall id count => exact .last (advances_nativeCall count (fun f => hcall id count f rfl) m)
  | newOutput => exact .quiet (quiet_openOutput _) fun _ _ => .done
  | returnOutput => exact .quiet quiet_closeOutput fun _ _ => .push _
  | pushString index => exact .quiet (quiet_string index) fun _ _ => .push _
  | pushNumber _ | pushNull => exact .push _
  | pop => exact .pop fun _ _ => .done
  | call target count => exact .quiet (quiet_address target) fun _ m => .last (advances_call _ _ m)
  | loadArgument index => exact .quiet (quiet_argument _) fun _ _ => .push _
  | query index => exact .varies (varies_answerQuery index) fun _ _ => .done
  | jump target =>
    exact .quiet (quiet_address target) fun _ _ => .quiet (quiet_jump _) fun _ _ => .done
  | add | subtract | multiply | divide | modulo | concat => exact .after (binary_gives _) fun _ _ => .done
  | loadLocal index => exact .quiet .get fun _ _ => .push _
  | compare =>
    exact .pop fun _ _ => .pop fun _ _ =>
      .quiet (.modify fun _ => ⟨⟨_, rfl⟩, rfl, rfl, rfl, rfl, rfl⟩) fun _ _ => .done
  | jumpEqual target | jumpNotEqual target | jumpGreater target | jumpGreaterEqual target
  | jumpLess target | jumpLessEqual target | jumpZero target | jumpNotZero target =>
    exact .quiet (quiet_jumpIf _ target) fun _ _ => .done
  | pushAddress target => exact .quiet (quiet_address target) fun _ _ => .push _
  | article => exact .varies (varies_onWriter fun _ => .edit (.inl rfl)) fun _ _ => .done
  | toNumber => exact .pop fun _ _ => .push _
  | callProgram index => exact .last (advances_callProgram index m)

end Running

end Wordloom
