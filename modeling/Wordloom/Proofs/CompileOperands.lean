import Wordloom.Proofs.CompileBlocks

/-!
# Wordloom.Proofs.CompileOperands

The operands of a tag while they are compiled: for every argument that is not a name there is one
operand, of the kind that is wanted, or a number that has been held back.
-/

namespace Wordloom

/-! ## Operands -/

/-- An operand that an argument is compiled to. -/
def Operands.Fills : Compile.ArgumentMode → Operands → Prop
  | .captured, .constant _ .nil | .captured, .capture _ _ .nil
  | .number, .constant _ .nil | .number, .capture _ _ .nil | .outOfLine, .pointer _ .nil => True
  | _, _ => False

theorem Operands.Fills.length {mode : Compile.ArgumentMode} {o : Operands} (h : o.Fills mode) :
    o.length = 1 := by
  match mode, o, h with
  | .captured, .constant _ .nil, _ | .captured, .capture _ _ .nil, _
  | .number, .constant _ .nil, _ | .number, .capture _ _ .nil, _ | .outOfLine, .pointer _ .nil, _ =>
    rfl

theorem Operands.eq_nil_of_length {os : Operands} (h : os.length = 0) : os = .nil := by
  match os, h with
  | .nil, _ => rfl

theorem Operands.Provides.append {o : Operands} {kinds more : List ParamKind}
    (ho : o.Provides more) : ∀ {os : Operands}, os.Provides kinds →
    (os.append o).Provides (kinds ++ more) := by
  intro os hos
  induction kinds generalizing os with
  | nil =>
    match os, hos with
    | .nil, _ => exact ho
  | cons kind kinds ih =>
    match kind, os, hos with
    | .pattern, .pointer _ next, hos | .text, .constant _ next, hos | .number, .constant _ next, hos
    | .text, .capture _ _ next, hos | .number, .capture _ _ next, hos => exact ih hos

theorem Operands.Provides.length {kinds : List ParamKind} : ∀ {os : Operands}, os.Provides kinds →
    os.length = kinds.length := by
  intro os hos
  induction kinds generalizing os with
  | nil =>
    match os, hos with
    | .nil, _ => rfl
  | cons kind kinds ih =>
    match kind, os, hos with
    | .pattern, .pointer _ next, hos | .text, .constant _ next, hos | .number, .constant _ next, hos
    | .text, .capture _ _ next, hos | .number, .capture _ _ next, hos =>
      exact congrArg (· + 1) (ih hos)

namespace Compile

/-! ## Tags -/

/-- The number of operands among the first `n` arguments. -/
def Action.operands : Action → (n : Nat) → Nat
  | .openChannel, _ | .closeChannel, _ | .getLocal, _ | .swapLocals, _ | .getArgument, _
  | .callProgram, _ | .define _, _ => 0
  | .setLocal, n => n - 1
  | _, n => n

theorem Tag.operands_succ_of_name {tag : Tag} {n : Nat} (h : tag.mode n = .name) :
    tag.action.operands (n + 1) = tag.action.operands n := by
  unfold Tag.mode at h
  cases haction : tag.action with
  | setLocal =>
    simp only [haction] at h
    split at h
    · rename_i hn
      rw [hn]
      rfl
    · cases h
  | arithmetic _ | concat | call _ =>
    simp only [haction] at h
    cases h
  | compare jump numeric =>
    simp only [haction] at h
    split at h
    · cases h
    · split at h <;> cases h
  | compareZero jump | native id params =>
    simp only [haction] at h
    split at h <;> cases h
  | _ => rfl

theorem Tag.operands_succ_of_fills {tag : Tag} {n : Nat} {o : Operands} (h : o.Fills (tag.mode n)) :
    tag.action.operands (n + 1) = tag.action.operands n + 1 := by
  have hname : tag.mode n ≠ .name := by
    intro hname
    rw [hname] at h
    exact h
  have hinline : tag.mode n ≠ .inline := by
    intro hinline
    rw [hinline] at h
    exact h
  cases haction : tag.action with
  | setLocal =>
    rw [Tag.mode, haction] at hname
    have hn : n ≠ 0 := fun hn => hname (if_pos hn)
    simp only [Action.operands]
    omega
  | openChannel | closeChannel | getLocal | swapLocals | getArgument | callProgram =>
    rw [Tag.mode, haction] at hname
    exact absurd rfl hname
  | define _ =>
    rw [Tag.mode, haction] at hinline
    exact absurd rfl hinline
  | _ => rfl

/-- The number of operands that are compared. -/
def Action.compared? : Action → Option Nat
  | .compare .. => some 2
  | .compareZero _ => some 1
  | _ => none

/-- What a tag does can be done, with the numbers of arguments that it takes. -/
def Tag.Ok (lib : Option Registry) (known : Nat → Nat → Prop) (tag : Tag) : Prop :=
  match tag.action with
  | .setLocal | .arithmetic _ | .concat => tag.min = 2 ∧ tag.max = 2
  | .compare jump _ => (∃ test, jump = Test.jump 0 test) ∧ tag.min = 3 ∧ tag.max = 4
  | .compareZero jump => (∃ test, jump = Test.jump 0 test) ∧ tag.min = 2 ∧ tag.max = 3
  | .call s => Callable known s ∧ tag.min = s.arity ∧ tag.max = s.arity
  | .native id params =>
    (∀ r ∈ lib, (∃ f, r.get? id = some f ∧ f.params = params) ∧ id < 2 ^ 16 ∧
      params.length < 2 ^ 8) ∧ tag.min = params.length ∧ tag.max = params.length
  | .define _ => False
  | .openChannel | .closeChannel | .getLocal | .swapLocals | .getArgument | .callProgram => True

/-- The operands of the first `n` arguments. -/
structure Gathers (lib : Option Registry) (known : Nat → Nat → Prop) (t : OpenTag) (n : Nat)
    (os : Operands) : Prop where
  ok : t.tag.Ok lib known
  length : os.length + t.deferred.toList.length = t.tag.action.operands n
  deferred : ∀ bits, t.deferred = some bits → (∃ op, t.tag.action = .arithmetic op) ∧ n = 1
  provides : ∀ id params, t.tag.action = .native id params → os.Provides (params.take n)
  folded : t.folded = false
  elseJump : t.elseJump = none
  endJump : t.endJump = none

namespace Gathers

variable {lib : Option Registry} {known : Nat → Nat → Prop} {t : OpenTag} {n : Nat}
  {os o : Operands}

theorem start {tag : Tag} {place : Position} (h : tag.Ok lib known) :
    Gathers lib known { tag := tag, start := place } 0 .nil where
  ok := h
  length := by
    change 0 = tag.action.operands 0
    cases tag.action <;> rfl
  deferred bits hbits := by cases hbits
  provides id params _ := by
    rw [List.take_zero]
    trivial
  folded := rfl
  elseJump := rfl
  endJump := rfl

theorem congr {t' : OpenTag} (h : Gathers lib known t n os) (htag : t'.tag = t.tag)
    (hdeferred : t'.deferred = t.deferred) (hfolded : t'.folded = t.folded)
    (helse : t'.elseJump = t.elseJump) (hend : t'.endJump = t.endJump) :
    Gathers lib known t' n os where
  ok := htag ▸ h.ok
  length := by rw [htag, hdeferred]; exact h.length
  deferred := by rw [htag, hdeferred]; exact h.deferred
  provides := by rw [htag]; exact h.provides
  folded := hfolded.trans h.folded
  elseJump := helse.trans h.elseJump
  endJump := hend.trans h.endJump

theorem index_lt (h : Gathers lib known t n os) {id : Nat} {params : List ParamKind}
    (hmax : n < t.tag.max) (haction : t.tag.action = .native id params) : n < params.length := by
  have hok := h.ok
  rw [Tag.Ok, haction] at hok
  obtain ⟨-, -, heq⟩ := hok
  exact heq ▸ hmax

/-- A number is held back only between the two of an arithmetic tag. -/
theorem deferred_eq_none (h : Gathers lib known t n os)
    (hother : n ≠ 1 ∨ ∀ op, t.tag.action ≠ .arithmetic op) : t.deferred = none := by
  cases hbits : t.deferred with
  | none => rfl
  | some bits =>
    obtain ⟨⟨op, hop⟩, hone⟩ := h.deferred bits hbits
    exact hother.elim (absurd hone) fun hother => absurd hop (hother op)

theorem length_eq (h : Gathers lib known t n os)
    (hother : n ≠ 1 ∨ ∀ op, t.tag.action ≠ .arithmetic op) : os.length = t.tag.action.operands n := by
  have hlength := h.length
  rwa [h.deferred_eq_none hother] at hlength

/-- A name adds no operand. -/
theorem addName (h : Gathers lib known t n os) (hmode : t.tag.mode n = .name) :
    Gathers lib known t (n + 1) os := by
  have hdeferred := h.deferred_eq_none (.inr fun op hop => by rw [Tag.mode, hop] at hmode; cases hmode)
  refine { h with length := ?_, deferred := ?_, provides := ?_ }
  · rw [h.length, Tag.operands_succ_of_name hmode]
  · intro bits hbits
    rw [hdeferred] at hbits
    cases hbits
  · intro id params haction
    rw [Tag.mode, haction] at hmode
    dsimp only at hmode
    split at hmode <;> cases hmode

/-- An argument that is not a name adds an operand. -/
theorem add (h : Gathers lib known t n os) (hmax : n < t.tag.max) (hdeferred : t.deferred = none)
    (ho : o.Fills (t.tag.mode n)) : Gathers lib known t (n + 1) (os.append o) := by
  refine { h with length := ?_, deferred := ?_, provides := ?_ }
  · rw [Tag.operands_succ_of_fills ho, ← h.length, Operands.length_append, ho.length]
    omega
  · intro bits hbits
    rw [hdeferred] at hbits
    cases hbits
  · intro id params haction
    have hn := h.index_lt hmax haction
    rw [List.take_succ_eq_append_getElem hn]
    refine Operands.Provides.append ?_ (h.provides id params haction)
    rw [Tag.mode, haction] at ho
    simp only [List.getElem?_eq_getElem hn] at ho
    generalize params[n] = kind at ho
    match kind, o, ho with
    | .text, .constant _ .nil, _ | .text, .capture _ _ .nil, _ | .number, .constant _ .nil, _
    | .number, .capture _ _ .nil, _ | .pattern, .pointer _ .nil, _ => trivial

/-- The number that was held back is made an operand. -/
theorem pushDeferred {bits : UInt64} (h : Gathers lib known t n os) (hbits : t.deferred = some bits) :
    Gathers lib known { t with deferred := none } n
      (os.append (.constant (.number bits) .nil)) := by
  obtain ⟨⟨op, hop⟩, -⟩ := h.deferred bits hbits
  refine { h with length := ?_, deferred := ?_, provides := ?_ }
  · have hlength := h.length
    rw [hbits] at hlength
    rw [Operands.length_append]
    exact hlength
  · intro _ hnone
    cases hnone
  · intro id params haction
    cases hop.symm.trans haction

/-- The first number of a computation is held back. -/
theorem defer {op : Arithmetic} (h : Gathers lib known t 0 os) (haction : t.tag.action = .arithmetic op)
    (bits : UInt64) : Gathers lib known { t with deferred := some bits } 1 os := by
  have hlength : os.length = 0 := by
    have hlength := h.length
    rw [haction] at hlength
    exact (Nat.add_eq_zero_iff.1 hlength).1
  refine { h with length := ?_, deferred := ?_, provides := ?_ }
  · change os.length + 1 = t.tag.action.operands 1
    rw [hlength, haction]
    rfl
  · intro _ _
    exact ⟨⟨op, haction⟩, rfl⟩
  · intro id params hnative
    cases haction.symm.trans hnative

end Gathers

/-! ## Their code -/

section

variable {lib : Option Registry} {g : Setting} {d : Draft} {os o : Operands} {n k : Nat}
  {c : Compilation} {t : OpenTag}

/-- The code behind a draft is that of some operands. -/
def HasOperands (lib : Option Registry) (g : Setting) (d : Draft) (os : Operands) (n : Nat)
    (c : Compilation) : Prop :=
  Part lib g d (os.lines d.finish) (os.definitions d.finish)
    (fun s => os.Sound lib s d.finish) n c

namespace HasOperands

theorem reader (h : HasOperands lib g d os n c) {r : Token.Reader} (hr : c.reader.Passes k r) :
    HasOperands lib g d os (n + k) { c with reader := r } :=
  Part.reader h hr

theorem spare (h : HasOperands lib g d os n c) (hk : k ≤ n) : HasOperands lib g d os k c :=
  Part.spare h hk

theorem append
    (h : Part lib g d (os.lines d.finish ++ o.lines (d.finish + os.size))
      (os.definitions d.finish ++ o.definitions (d.finish + os.size))
      (fun s => os.Sound lib s d.finish ∧ o.Sound lib s (d.finish + os.size))
      n c) :
    HasOperands lib g d (os.append o) n c := by
  rw [HasOperands, Operands.lines_append, Operands.definitions_append]
  exact h.imp fun s hs => Operands.sound_append.2 hs

theorem constant (constant : Constant)
    (h : Part lib g d (os.lines d.finish ++ constant.lines) (os.definitions d.finish)
      (fun s => os.Sound lib s d.finish) n c) :
    HasOperands lib g d (os.append (.constant constant .nil)) n c := by
  apply HasOperands.append
  simp only [Operands.lines, Operands.definitions, List.append_nil]
  exact h.imp fun s hs => ⟨hs, by rw [Operands.Sound, Operands.Sound]; trivial⟩

theorem pushNumber (h : HasOperands lib g d os n c) (bits : UInt64) :
    HasOperands lib g d (os.append (.constant (.number bits) .nil)) n
      { c with out := c.out.emit (.pushNumber bits) } :=
  .constant (.number bits) (Part.emit h rfl)

theorem pushString (h : HasOperands lib g d os (n + 1) c) (text : String) :
    HasOperands lib g d (os.append (.constant (.string text) .nil)) n
      { c with out := c.out.emitString .push text } :=
  .constant (.string text) (Part.emitString h (by decide) text)

theorem pushSpelled (h : HasOperands lib g d os (n + 1) c) (text : String) :
    HasOperands lib g d (os.append (.constant (.spelled text) .nil)) n
      { c with out := (c.out.emitString .push text).emit .toNumber } := by
  have huse : StringUse.push ≠ .print := by decide
  refine .constant (.spelled text) ?_
  have hpart := (Part.emitString h huse text).emit (i := .toNumber) rfl
  rwa [List.append_assoc] at hpart

/-- The code in between is captured. -/
theorem capture {numeric : Bool} {body : Code}
    (h : Part lib g d
      (os.lines d.finish ++ [.plain .newOutput] ++ body.lines (d.finish + os.size + 1) ++
        captureEnd numeric)
      (os.definitions d.finish ++ body.definitions (d.finish + os.size + 1))
      (fun s => os.Sound lib s d.finish ∧
        body.Sound lib s (d.finish + os.size + 1)) n c) :
    HasOperands lib g d (os.append (.capture numeric body .nil)) n c := by
  apply HasOperands.append
  simp only [Operands.lines, Operands.definitions, List.append_nil, List.append_assoc,
    List.cons_append, List.nil_append] at h ⊢
  exact h.imp fun s hs => ⟨hs.1, by rw [Operands.Sound, Operands.Sound]; exact ⟨hs.2, trivial⟩⟩

/-- There is a jump around the code, and its address is pushed behind it. -/
theorem pointer {body : Code}
    (h : Part lib g d
      (os.lines d.finish ++
        .plain (.jump (Int32.ofNat (d.finish + Line.sizes (os.lines d.finish ++ .plain (.jump 0) ::
          (body.lines (d.finish + os.size + 5) ++ [.plain .return]))))) ::
        (body.lines (d.finish + os.size + 5) ++ [.plain .return]) ++
        [.plain (.pushAddress (Int32.ofNat (d.finish + os.size + 5)))])
      (os.definitions d.finish ++ body.definitions (d.finish + os.size + 5))
      (fun s => os.Sound lib s d.finish ∧
        body.Sound lib s (d.finish + os.size + 5)) n c) :
    HasOperands lib g d (os.append (.pointer body .nil)) n c := by
  have hsize : d.finish + Line.sizes (os.lines d.finish ++ .plain (.jump 0) ::
      (body.lines (d.finish + os.size + 5) ++ [.plain .return])) =
      d.finish + os.size + 5 + body.size + 1 := by
    rw [Line.sizes_append, Line.sizes_cons, Line.sizes_append, Operands.sizes_lines,
      Code.sizes_lines, ← Nat.add_assoc, ← Nat.add_assoc, ← Nat.add_assoc]
    rfl
  rw [hsize] at h
  apply HasOperands.append
  simp only [Operands.lines, Operands.definitions, List.append_nil, List.append_assoc,
    List.cons_append, List.nil_append] at h ⊢
  exact h.imp fun s hs => ⟨hs.1, by rw [Operands.Sound, Operands.Sound]; exact ⟨hs.2, trivial⟩⟩

end HasOperands

/-- Operands with their code. -/
structure Gathered (lib : Option Registry) (g : Setting) (d : Draft) (t : OpenTag) (n : Nat)
    (os : Operands) (k : Nat) (c : Compilation) : Prop where
  gathers : Gathers lib (g.after d) t n os
  code : HasOperands lib g d os k c

theorem Gathered.pushDeferred_yields (h : Gathered lib g d t n os k c) :
    Yields t.pushDeferred c fun t' c' => t' = { t with deferred := none } ∧
      ∃ os', Gathered lib g d t' n os' k c' := by
  unfold OpenTag.pushDeferred
  split
  · rename_i bits hbits
    exact .bind (.output (.pure ⟨rfl, _, h.gathers.pushDeferred hbits, h.code.pushNumber bits⟩))
  · rename_i hnone
    exact .bind (.pure (.pure ⟨rfl, os, h.gathers.congr rfl hnone.symm rfl rfl rfl, h.code⟩))

end

end Compile

end Wordloom
