import Wordloom.Proofs.Draft
import Wordloom.Proofs.Failures

/-!
# Wordloom.Proofs.Emissions

What tags emit. Between its arguments a tag does nothing but append instructions, a few at a time. At its
end it may also declare a variable, or leave the frame of the subroutine that it defines.
-/

namespace Wordloom

/-- No instruction is longer than 13 bytes. -/
theorem Instr.size_le (i : Instr) : i.size ≤ 13 := by
  cases i <;> exact Nat.le_of_ble_eq_true rfl

theorem Emitter.position_emit_le_add (e : Emitter) (i : Instr) : (e.emit i).position ≤ e.position + 13 := by
  rw [position_emit]
  exact Nat.add_le_add_left i.size_le _

/-- Nor is one that names a string. -/
theorem Emitter.position_emitString_le_add (e : Emitter) (use : StringUse) (s : String) :
    (e.emitString use s).position ≤ e.position + 13 := by
  obtain h | ⟨i, h⟩ := position_emitString e use s
  · omega
  · have hsize := i.size_le
    omega

/-- A mark is one instruction at most. -/
theorem Emitter.position_mark_le (e : Emitter) (p : Position) : (e.mark p).position ≤ e.position + 13 := by
  unfold mark
  split
  · exact e.position_emit_le_add _
  · exact Nat.le_add_right _ _

theorem Emitter.position_addReference (e : Emitter) (name : String) (p : Program) :
    (e.addReference name p).2.position = e.position := by
  unfold addReference
  split <;> rfl

namespace Compile

variable {α β : Type}

/-- An action that appends at most `n` instructions and does nothing else; `V` holds of its result. If it
fails, then at the given place. -/
def Emits (place : Position) (V : α → Prop) (x : Compiling α) (n : Nat) : Prop :=
  ∀ c, Ensures (Error.DefiniteAt place) x c fun a c' =>
    V a ∧ ∃ out, c' = { c with out := out } ∧ out.position ≤ c.out.position + 13 * n

namespace Emits

variable {x y : Compiling α} {f : α → Compiling β} {V : α → Prop} {W : β → Prop} {place : Position}
  {m n : Nat}

theorem pure {a : α} (h : V a) : Emits place V (pure a) n := fun c =>
  .pure ⟨h, c.out, rfl, Nat.le_add_right _ _⟩

/-- To fail at the place in question. -/
theorem refuse {cause : Cause} (h : cause.isFault = false) :
    Emits place V (Compiling.fail place cause) n := fun _ => .fail ⟨rfl, definite_of_isFault h⟩

/-- One action after the other: their instructions add up. -/
theorem bind (hx : Emits place V x m) (hf : ∀ a, V a → Emits place W (f a) n) :
    Emits place W (x >>= f) (n + m) := fun c =>
  .bind ((hx c).imp fun a c₁ ⟨ha, out, hc₁, hsize⟩ => (hf a ha c₁).imp fun _ c' ⟨hb, out', hc', hsize'⟩ => by
    subst hc₁
    exact ⟨hb, out', hc', by dsimp only at hsize'; omega⟩)

theorem ite {p : Prop} [Decidable p] (hx : Emits place V x n) (hy : Emits place V y n) :
    Emits place V (if p then x else y) n := by
  split
  · exact hx
  · exact hy

theorem get : Emits place anything (get : Compiling Compilation) 0 := fun c =>
  .get ⟨trivial, c.out, rfl, Nat.le_refl _⟩

/-- An action on the emitter that writes at most `m` instructions. -/
theorem output {g : Emitter → Emitter} (h : ∀ e : Emitter, (g e).position ≤ e.position + 13 * m) :
    Emits place anything (Compiling.output g) (n + m) := fun c =>
  .output ⟨trivial, g c.out, rfl, Nat.le_trans (h c.out) (by omega)⟩

theorem emit {i : Instr} : Emits place anything (Compiling.emit i) (n + 1) :=
  output fun e => e.position_emit_le_add i

theorem offset : Emits place anything Compiling.offset 0 := .bind (m := 0) .get fun _ _ => .pure trivial

theorem emitAt {i : Instr} : Emits place anything (Compiling.emitAt i) 1 :=
  .bind (m := 0) offset fun _ _ => .bind (m := 1) .emit fun _ _ => .pure trivial

theorem emitString {use : StringUse} {s : String} :
    Emits place anything (Compiling.emitString use s) (n + 1) :=
  output fun e => e.position_emitString_le_add use s

/-- To fill in the target of a jump writes nothing. -/
theorem land {jump : Nat} : Emits place anything (Compiling.land jump) n :=
  output (m := 0) fun e => Nat.le_of_eq (e.position_patch _ _)

end Emits

/-! ## Between arguments -/

namespace OpenTag

variable (t : OpenTag)

/-- The number that was held back takes one instruction. -/
theorem emits_pushDeferred : Emits t.start (·.start = t.start) t.pushDeferred 1 := by
  unfold pushDeferred
  split
  · exact .bind (m := 1) .emit fun _ _ => .pure rfl
  · exact .pure rfl

/-- A constant number takes three instructions at most. -/
theorem emits_constantNumber (text : String) :
    Emits t.start (·.start = t.start) (t.constantNumber text) 3 := by
  have hpushed : ∀ bits, Emits t.start (·.start = t.start) (do
      let t ← t.pushDeferred
      Compiling.emit (.pushNumber bits)
      return t) 3 := fun bits =>
    .bind (m := 1) t.emits_pushDeferred fun _ ht => .bind (m := 1) .emit fun _ _ => .pure ht
  unfold constantNumber
  split
  · exact .bind (m := 1) t.emits_pushDeferred fun _ ht => .bind (m := 1) .emitString fun _ _ =>
      .bind (m := 1) .emit fun _ _ => .pure ht
  · dsimp only
    split
    · refine .ite (.pure rfl) ?_
      split
      · exact hpushed _
      · split
        · exact .bind (m := 1) .emit fun _ _ => .pure rfl
        · exact hpushed _
    · exact hpushed _

/-- An argument ends with two instructions at most. -/
theorem emits_afterArgument (place : Position) (after : After) :
    Emits place anything (afterArgument after) 2 := by
  cases after with
  | capture => exact .emit
  | captureNumber => exact .bind (m := 1) .emit fun _ _ => .emit
  | nothing => exact .pure trivial
  | outOfLine skip start =>
    exact .bind (m := 1) .emit fun _ _ => .bind (m := 0) .land fun _ _ => .emit

theorem emits_landElse (n : Nat) : Emits t.start (·.start = t.start) t.landElse n := by
  unfold landElse
  split
  · exact .bind (m := 0) .land fun _ _ => .pure rfl
  · exact .pure rfl

/-- A branch takes four between its arguments at most. -/
theorem emits_branch (jump : Instr) (operands : Nat) (more : Bool) :
    Emits t.start (·.start = t.start) (t.branch jump operands more) 4 := by
  have hchoose {n : Nat} : Emits t.start (·.start = t.start) (do
      Compiling.emit .compare
      let thenJump ← Compiling.emitAt jump
      let elseJump ← Compiling.emitAt (.jump 0)
      Compiling.land thenJump
      return { t with elseJump := some elseJump }) (n + 3) :=
    .bind (m := 1) .emit fun _ _ => .bind (m := 1) .emitAt fun _ _ => .bind (m := 1) .emitAt fun _ _ =>
      .bind (m := 0) .land fun _ _ => .pure rfl
  unfold branch
  refine .ite (.ite (.bind (m := 1) .emit fun _ _ => hchoose) hchoose)
    (.ite ?_ (.pure rfl))
  exact .bind (m := 1) .emitAt fun endJump _ => emits_landElse { t with endJump := some endJump } _

/-- Four instructions come between two arguments at most. -/
theorem emits_betweenArguments (more : Bool) :
    Emits t.start (·.start = t.start) (t.betweenArguments more) 4 := by
  unfold betweenArguments
  split
  · exact t.emits_branch _ _ _
  · exact t.emits_branch _ _ _
  · exact .pure rfl

/-! ## At the end -/

/-- To look up a variable writes nothing. -/
theorem emits_localIndex (name : String) : Emits t.start anything (t.localIndex name) 0 := by
  refine .bind (m := 0) .get fun c _ => ?_
  split
  · exact .pure trivial
  · exact .refuse rfl

theorem emits_visibility (names : List String) : Emits t.start anything (t.visibility names) 0 := by
  unfold visibility
  split
  · exact .pure trivial
  · exact .pure trivial
  · split
    · exact .pure trivial
    · exact .refuse rfl

end OpenTag

/-- What a tag that has its arguments can do to the names in scope: nothing, declare a variable of the
innermost frame, or leave that frame. -/
inductive Compilation.Turns (c : Compilation) : Compilation → Prop where
  | keep : Turns c c
  | declare {name : String} (hnew : c.local? name = none) (hsmall : c.locals + 1 < UInt16.size) :
    Turns c (c.addLocal name)
  | leave : Turns c c.closeFrame

/-- What turns on a construct reads nothing. -/
theorem Compilation.Turns.reader {c c' : Compilation} (h : c.Turns c') : c'.reader = c.reader := by
  cases h with
  | keep | declare | leave => rfl

/-- A tag emits at most two instructions beside that, or it fails where it starts. -/
theorem OpenTag.perform_turns (t : OpenTag) (ctx : Context) (c : Compilation) :
    Ensures (Error.DefiniteAt t.start) (t.perform ctx) c fun _ c' => ∃ c₁ out, c.Turns c₁ ∧
      c' = { c₁ with out := out } ∧ out.position ≤ c.out.position + 13 * 2 := by
  have hkeep {x : Compiling Unit} (h : Emits t.start anything x 2) :
      Ensures (Error.DefiniteAt t.start) x c fun _ c' => ∃ c₁ out, c.Turns c₁ ∧
        c' = { c₁ with out := out } ∧ out.position ≤ c.out.position + 13 * 2 :=
    (h c).imp fun _ _ ⟨_, out, hc', hsize⟩ => ⟨c, out, .keep, hc', hsize⟩
  unfold perform
  split
  · exact hkeep (.bind (m := 0) (t.emits_visibility _) fun _ _ => .emitString)
  · exact hkeep .emit
  · rename_i name rest _ _
    refine .bind (.bind (.get ?_))
    split
    · exact .pure (.output ⟨c, _, .keep, rfl, Nat.le_trans (c.out.position_emit_le_add _) (by omega)⟩)
    · rename_i hnew
      split
      · rename_i hsmall
        exact .bind (.set (.pure (.output ⟨_, _, .declare hnew hsmall, rfl,
          Nat.le_trans (c.out.position_emit_le_add _) (by omega)⟩)))
      · exact .fail ⟨rfl, definite_of_isFault rfl⟩
  · exact hkeep (.bind (m := 0) (t.emits_localIndex _) fun _ _ => .bind (m := 1) .emit fun _ _ => .emit)
  · exact hkeep (.bind (m := 0) (t.emits_localIndex _) fun _ _ => .bind (m := 0) (t.emits_localIndex _) fun _ _ => .emit)
  · exact hkeep (.ite (.bind (m := 1) .emit fun _ _ => .emit) (.pure trivial))
  · exact hkeep (.bind (m := 1) .emit fun _ _ => .emit)
  · refine hkeep (.bind (m := 0) (t.emits_landElse 0) fun t _ => ?_)
    split
    · exact .land
    · exact .pure trivial
  · refine hkeep (.bind (m := 0) (t.emits_landElse 0) fun t _ => ?_)
    split
    · exact .land
    · exact .pure trivial
  · refine hkeep (.bind (m := 0) .get fun c _ => ?_)
    split
    · exact .bind (m := 1) .emit fun _ _ => .emit
    · exact .bind (m := 0) (.refuse (V := anything) rfl) fun _ _ => .emit
  · exact hkeep .emit
  · refine .bind (.output (.bind (.output (.ok rfl ⟨_, _, .leave, rfl, ?_⟩))))
    rw [Emitter.patchHere, Emitter.position_patch]
    exact Nat.le_trans (c.out.position_emit_le_add _) (by omega)
  · split
    · exact .fail ⟨rfl, definite_of_isFault rfl⟩
    · rename_i name _ _ _ _ program _
      refine .bind (.get (.set ⟨c, _, .keep, rfl, ?_⟩))
      have hsize := (c.out.addReference name program).2.position_emit_le_add
        (.callProgram (c.out.addReference name program).1)
      rw [Emitter.position_addReference] at hsize
      exact Nat.le_trans hsize (by omega)
  · exact hkeep .emit
  · exact .fail ⟨rfl, definite_of_head (c := 'n') (by simp [toString]) (by decide)⟩

/-! ## Escapes -/

/-- An escape is one instruction at most. -/
theorem emits_escape (token : Token) : Emits token.position anything (escape token) 1 := by
  unfold escape
  split
  · exact .refuse rfl
  · exact .ite (.refuse rfl) (.ite (.pure trivial) .emitString)
  · exact .ite .emit (.refuse rfl)
  · exact .emit

end Compile

end Wordloom
