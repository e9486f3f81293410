import Wordloom.Output.Writer

/-!
# Wordloom.Proofs.Printing

What text becomes when it is printed.
-/

namespace Wordloom

/-! ## Capitalization -/

namespace Capitalizer

theorem foldl_push {z : Capitalizer} (h : z.mode = .none) (acc : String) (cs : List Char) :
    cs.foldl push (acc, z) = (acc ++ String.ofList cs, z) := by
  induction cs generalizing acc with
  | nil => simp
  | cons c cs ih =>
    have hstep : push (acc, z) c = (acc.push c, z) := by
      simp [push, step, h]
    rw [List.foldl_cons, hstep, ih]
    rw [String.push_eq_append, String.append_assoc, ← String.ofList_cons]

theorem apply_of_none {z : Capitalizer} (h : z.mode = .none) (text : String) :
    z.apply text = (text, z) := by
  rw [apply, if_neg (by rw [h]; decide), foldl_push h]
  simp

theorem apply_empty (z : Capitalizer) : z.apply "" = ("", z) := by
  unfold apply
  split <;> rfl

end Capitalizer

/-- What a text becomes that is printed to a new output. -/
def Capitals.apply (mode : Capitals) (text : String) : String :=
  (({ mode := mode } : Capitalizer).apply text).1

/-! ## Outputs -/

/-- A new output holds what is printed to it. -/
theorem Writer.mainText_print (mode : Capitals) (text : String) :
    ((Writer.new mode).edit (.print text)).mainText = mode.apply text := by
  by_cases hempty : text.isEmpty
  · obtain rfl : text = "" := by simpa using hempty
    rw [Capitals.apply, Capitalizer.apply_empty]
    rfl
  · simp [edit, hempty, Writer.new, onTargets, targets, reach, Chain.new, mainText, Chain.edit,
      Chain.print, Chain.render, Capitals.apply]

end Wordloom
