import Wordloom.Proofs.Completes
import Wordloom.Proofs.Sound

/-!
# Wordloom.Proofs.Draft

Code while it is being compiled. What an emitter has so far is what stands before a pattern, as lines
in which jumps may still lead nowhere, and the code of the pattern, as a tree; text that was printed
last is kept apart until something else follows.
-/

namespace Wordloom

/-! ## Lines -/

namespace Emitter

variable {e : Emitter} {ls : List Line}

/-- The lines of the program so far. -/
def Spells (e : Emitter) (ls : List Line) : Prop := ∃ s : Script, e.Follows s ∧ s.all = ls

/-- The lines of the program so far, to the last of which nothing is joined. -/
def Ended (e : Emitter) (ls : List Line) : Prop := e.Follows ⟨ls, none⟩

theorem Ended.spells (h : e.Ended ls) : e.Spells ls := ⟨_, h, by simp [Script.all]⟩

/-- Code is as long as the lines that it spells. -/
theorem Spells.position (h : e.Spells ls) : e.position = Line.sizes ls := by
  obtain ⟨s, hs, rfl⟩ := h
  exact hs.position

theorem Spells.emit (h : e.Spells ls) {i : Instr} (hi : i.namesString = false) :
    (e.emit i).Ended (ls ++ [.plain i]) := by
  obtain ⟨s, hs, rfl⟩ := h
  exact hs.emit hi

theorem Spells.emitString (h : e.Spells ls) {use : StringUse} (huse : use ≠ .print) (s : String) :
    (e.emitString use s).Ended (ls ++ [.text use s]) := by
  obtain ⟨t, ht, rfl⟩ := h
  have hadd := ht.emitString use s
  rwa [Script.addText, if_neg huse] at hadd

theorem patchHere_eq (e : Emitter) (offset : Nat) :
    e.patchHere offset = { e with lastPrint := none }.patchHere offset := by
  unfold patchHere patch position
  simp only [Nat.le_refl, if_true]

/-- A jump is pointed to where the next instruction goes. -/
theorem Spells.land {before after : List Line} {i : Instr}
    (h : e.Spells (before ++ .plain i :: after)) (hi : i.target?.isSome) {offset : Nat}
    (hoffset : offset = Line.sizes before) :
    (e.patchHere offset).Ended (before ++
      .plain (i.withTarget (Int32.ofNat (Line.sizes (before ++ .plain i :: after)))) :: after) := by
  subst hoffset
  have hposition := h.position
  obtain ⟨s, hs, hall⟩ := h
  have hclosed := hs.close
  rw [Script.close, hall] at hclosed
  have hjump : (⟨before ++ .plain i :: after, none⟩ : Script).HasJump (Line.sizes before) :=
    ⟨before, i, after, rfl, rfl, hi⟩
  have hpatch := hclosed.patch hjump e.position
  have hretarget := Line.retarget_append (Int32.ofNat e.position) 0 before (.plain i) after
  have hsize : (⟨before ++ .plain i :: after, none⟩ : Script).size = e.position := by
    rw [hposition, Script.size, Script.all]
    simp
  rw [Script.patch, hsize, if_pos (Nat.le_refl _), Script.close, Script.all] at hpatch
  simp only [Option.map_none, Option.toList_none, List.append_nil] at hpatch
  rw [Nat.zero_add] at hretarget
  rw [hretarget] at hpatch
  rw [patchHere_eq, ← hposition]
  exact hpatch

/-! ### Sizes -/

theorem size_strings_emitString_le (e : Emitter) (use : StringUse) (s : String) :
    (e.emitString use s).strings.size ≤ e.strings.size + 1 := by
  obtain ⟨last, hsame⟩ | ⟨last, hsame⟩ := emitString_cases e use s
  · obtain ⟨_, _, _, _, _, -, hsize, hextend⟩ := extendPrint_eq e last s
    rw [hsame, hextend]
    exact hsize
  · rw [hsame]
    exact size_strings_intern_le e s

theorem strings_patch (e : Emitter) (offset target : Nat) :
    (e.patch offset target).strings = e.strings := by
  obtain ⟨_, _, -, hpatch⟩ := patch_eq e offset target
  rw [hpatch]

theorem position_emit (e : Emitter) (i : Instr) : (e.emit i).position = e.position + i.size := by
  unfold emit position
  rw [← Array.length_toList, Array.toList_appendList, List.length_append, Instr.length_encode,
    Array.length_toList]

theorem position_emit_le (e : Emitter) (i : Instr) : e.position ≤ (e.emit i).position := by
  rw [position_emit]
  omega

theorem position_patch (e : Emitter) (offset target : Nat) :
    (e.patch offset target).position = e.position := by
  obtain ⟨_, _, hsize, hpatch⟩ := patch_eq e offset target
  rw [hpatch]
  exact hsize

theorem position_intern (e : Emitter) (s : String) : (e.intern s).2.position = e.position := by
  unfold intern
  split <;> rfl

/-- Code grows by one instruction, or not at all. -/
theorem position_emitString (e : Emitter) (use : StringUse) (s : String) :
    (e.emitString use s).position = e.position ∨
    ∃ i : Instr, (e.emitString use s).position = e.position + i.size := by
  obtain ⟨last, hsame⟩ | ⟨last, hsame⟩ := emitString_cases e use s
  · obtain ⟨_, _, _, _, _, hsize, -, hextend⟩ := extendPrint_eq e last s
    rw [hsame, hextend]
    exact .inl hsize
  · rw [hsame, ← position_intern e s]
    exact .inr ⟨_, position_emit _ _⟩

theorem position_emitString_le (e : Emitter) (use : StringUse) (s : String) :
    e.position ≤ (e.emitString use s).position := by
  obtain h | ⟨i, h⟩ := position_emitString e use s <;> omega

end Emitter

/-! ## Drafts -/

/-- A pattern while it is being compiled. -/
structure Draft where
  /-- what stands before it -/
  front : List Line := []
  code : Code := .nil
  /-- the text printed last -/
  pending : Option String := none

namespace Draft

variable {e : Emitter} {d : Draft}

/-- The offset of the pattern. -/
def base (d : Draft) : Nat := Line.sizes d.front

def script (d : Draft) : Script := ⟨d.front ++ d.code.lines d.base, d.pending⟩

/-- The code with the text printed last. -/
def closed (d : Draft) : Code :=
  d.code.append (d.pending.elim .nil fun s => .act .nil (.print s) .nil)

/-- All lines. -/
def lines (d : Draft) : List Line := d.front ++ d.closed.lines d.base

/-- The offset of what comes next. -/
def finish (d : Draft) : Nat := d.base + d.closed.size

/-- Appends code. -/
def add (d : Draft) (code : Code) : Draft :=
  { d with code := d.closed.append code, pending := none }

/-- Appends text. -/
def print (d : Draft) (s : String) : Draft :=
  { d with pending := some (d.pending.getD "" ++ s) }

@[simp] theorem closed_of_none (front : List Line) (code : Code) :
    (⟨front, code, none⟩ : Draft).closed = code := Code.append_nil code

theorem all_script (d : Draft) : d.script.all = d.lines := by
  unfold Script.all lines closed
  cases hp : d.pending with
  | none => simp [script, hp, Code.lines_append, Code.lines]
  | some s =>
    simp [script, hp, Code.lines_append, Code.lines, Operands.lines, Act.lines, base]

/-- A text that is joined to the one printed last leaves the other lines. -/
theorem plain_mem_print (d : Draft) (s : String) {i : Instr} (h : .plain i ∈ d.lines) :
    .plain i ∈ (d.print s).lines := by
  rw [← all_script, Script.all, List.mem_append] at h ⊢
  obtain h | h := h
  · exact .inl h
  · simp at h

theorem definitions_closed (d : Draft) (base : Nat) :
    d.closed.definitions base = d.code.definitions base := by
  unfold closed
  cases d.pending <;> simp [Code.definitions_append, Code.definitions, Operands.definitions]

/-- Text that is pending is sound. -/
theorem sound_closed {lib : Option Registry} {s : Reach} {base : Nat} :
    d.closed.Sound lib s base ↔ d.code.Sound lib s base := by
  unfold closed
  cases d.pending <;>
    simp [Code.sound_append, Code.Sound, Operands.Sound, Operands.length, Act.Sound, Act.arity]

/-- A draft ends where its lines end. -/
theorem sizes_lines (d : Draft) : Line.sizes d.lines = d.finish := by
  rw [lines, Line.sizes_append, Code.sizes_lines, finish, base]

theorem spells (d : Draft) (h : e.Follows d.script) : e.Spells d.lines :=
  ⟨d.script, h, d.all_script⟩

/-- Code that is added stands behind the draft. -/
theorem lines_add (d : Draft) (code : Code) :
    (d.add code).lines = d.lines ++ code.lines d.finish := by
  rw [lines, add, closed_of_none, lines, Code.lines_append, List.append_assoc, finish]
  rfl

theorem finish_add (d : Draft) (code : Code) : (d.add code).finish = d.finish + code.size := by
  rw [finish, add, closed_of_none, Code.size_append, finish, Nat.add_assoc]
  rfl

theorem add_nil (h : d.pending = none) : d.add .nil = d := by
  obtain ⟨front, code, pending⟩ := d
  cases h
  rw [add, closed_of_none, Code.append_nil]

theorem add_add (d : Draft) (a b : Code) : (d.add a).add b = d.add (a.append b) := by
  rw [add, add, add, closed_of_none, Code.append_assoc]

/-- Code behind a draft that is ended is a draft. -/
theorem follows_add {code : Code} (h : e.Ended (d.lines ++ code.lines d.finish)) :
    e.Follows (d.add code).script := by
  have hlines : d.lines ++ code.lines d.finish =
      d.front ++ (d.closed.append code).lines d.base := by
    rw [lines, Code.lines_append, List.append_assoc, finish]
  rw [hlines] at h
  exact h

/-- Text that is printed is part of the draft. -/
theorem follows_print (h : e.Follows d.script) (s : String) :
    (e.emitString .print s).Follows (d.print s).script := h.emitString .print s

theorem lines_start (ls : List Line) : (⟨ls, .nil, none⟩ : Draft).lines = ls := by
  rw [lines, closed_of_none, Code.lines, List.append_nil]

theorem follows_start (h : e.Ended ls) : e.Follows (⟨ls, .nil, none⟩ : Draft).script := by
  unfold script
  rw [Code.lines, List.append_nil]
  exact h

end Draft

end Wordloom
