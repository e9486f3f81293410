import Wordloom.Proofs.Printing

/-!
# Wordloom.Proofs.Capitalization

Outside of lower case it does not matter how a text is cut into pieces. What a character becomes depends on
the state in front of it alone, and no character leads to lower case, so the state behind one piece is all
that the next one needs (`Capitalizer.apply_append`). Any two ways to cut a text give the same letters and
leave the same state (`Capitalizer.applyAll_eq_of_join_eq`), and so do prints to a chain on which no article
waits (`Chain.print_append`).
-/

namespace Wordloom

namespace Capitalizer

variable {z : Capitalizer}

/-! ## Characters -/

theorem foldl_stringPush (cs : List Char) (out : String) :
    cs.foldl String.push out = out ++ String.ofList cs := by
  induction cs generalizing out with
  | nil => simp
  | cons c cs ih =>
    rw [List.foldl_cons, ih, String.push_eq_append, String.append_assoc, ← String.ofList_cons]

theorem push_eq (out : String) (z : Capitalizer) (c : Char) :
    push (out, z) c = (out ++ String.ofList (z.step c).1, (z.step c).2) := by
  simp [push, foldl_stringPush]

theorem mode_step_ne_lower (h : z.mode ≠ .lower) (c : Char) : (z.step c).2.mode ≠ .lower := by
  cases hmode : z.mode with
  | lower => exact absurd hmode h
  | first => by_cases hc : Text.isLetter c <;> simp [step, hmode, hc]
  | sentence =>
    simp only [step, hmode]
    split
    · simp
    · split <;> simp [hmode]
  | none | upper | word => simp [step, hmode]

/-- What comes out of characters is put behind what has come out before, and does not depend on it. -/
theorem foldl_push_append (cs : List Char) (out : String) (z : Capitalizer) :
    cs.foldl push (out, z) = (out ++ (cs.foldl push ("", z)).1, (cs.foldl push ("", z)).2) := by
  induction cs generalizing out z with
  | nil => simp
  | cons c cs ih =>
    simp only [List.foldl_cons, push_eq]
    rw [ih (out ++ _), ih ("" ++ _)]
    simp [String.append_assoc]

theorem mode_foldl_push_ne_lower (h : z.mode ≠ .lower) (cs : List Char) (out : String) :
    (cs.foldl push (out, z)).2.mode ≠ .lower := by
  induction cs generalizing out z with
  | nil => exact h
  | cons c cs ih =>
    rw [List.foldl_cons, push_eq]
    exact ih (mode_step_ne_lower h c) _

/-! ## Pieces of a text -/

theorem mode_apply_ne_lower (h : z.mode ≠ .lower) (text : String) : (z.apply text).2.mode ≠ .lower := by
  rw [apply, if_neg h]
  exact mode_foldl_push_ne_lower h _ _

theorem apply_append (h : z.mode ≠ .lower) (a b : String) :
    z.apply (a ++ b) = ((z.apply a).1 ++ ((z.apply a).2.apply b).1, ((z.apply a).2.apply b).2) := by
  have hnext := mode_apply_ne_lower h a
  rw [apply, if_neg h] at hnext ⊢
  rw [apply, if_neg h, apply, if_neg hnext, String.toList_append, List.foldl_append]
  exact foldl_push_append b.toList _ _

/-- The pieces of a text one after the other, as they are printed, and the state after them. -/
def applyAll (z : Capitalizer) : List String → String × Capitalizer
  | [] => ("", z)
  | text :: texts =>
    let (out, z) := z.apply text
    let (rest, z) := z.applyAll texts
    (out ++ rest, z)

theorem applyAll_eq (h : z.mode ≠ .lower) (pieces : List String) :
    z.applyAll pieces = z.apply (String.join pieces) := by
  induction pieces generalizing z with
  | nil => simp [applyAll, apply_empty]
  | cons text texts ih =>
    rw [String.join_cons, apply_append h]
    simp only [applyAll, ih (mode_apply_ne_lower h text)]

/-- In every mode but lower case the pieces of a text give what the text gives at once, and leave the same
state; so two ways to cut a text do not differ. -/
theorem applyAll_eq_of_join_eq (z : Capitalizer) (h : z.mode ≠ .lower) :
    (∀ a b : String, ((z.apply a).1 ++ ((z.apply a).2.apply b).1, ((z.apply a).2.apply b).2) =
      z.apply (a ++ b)) ∧
    ∀ pieces others : List String, String.join pieces = String.join others →
      z.applyAll pieces = z.applyAll others := by
  constructor
  · intro a b
    rw [apply_append h]
  · intro pieces others hjoin
    rw [applyAll_eq h, applyAll_eq h, hjoin]

theorem applyAll_sentence :
    ({ mode := .sentence } : Capitalizer).applyAll ["one. ", "", "t", "wo", "! three"] =
        ("One. Two! Three", { mode := .sentence, sentenceStart := false }) ∧
      ({ mode := .sentence } : Capitalizer).applyAll ["one. ", "", "t", "wo", "! three"] =
        ({ mode := .sentence } : Capitalizer).applyAll ["one. two! three"] :=
  ⟨by decide +kernel, (applyAll_eq_of_join_eq { mode := .sentence } (by decide)).2 _ _ (by decide +kernel)⟩

end Capitalizer

namespace Chain

variable {chain : Chain}

theorem print_of_pending_eq_none (hpending : chain.pending = none) (text : String) : chain.print text =
    { chain with
      case := (chain.case.apply text).2
      current := chain.current ++ (chain.case.apply text).1 } := by
  simp [print, hpending]

theorem print_append (hmode : chain.case.mode ≠ .lower) (hpending : chain.pending = none) (a b : String) :
    chain.print (a ++ b) = (chain.print a).print b := by
  have hnext : (chain.print a).pending = none := by rw [print_of_pending_eq_none hpending, hpending]
  rw [print_of_pending_eq_none hnext, print_of_pending_eq_none hpending, print_of_pending_eq_none hpending,
    Capitalizer.apply_append hmode]
  simp [String.append_assoc]

end Chain

end Wordloom
