import Wordloom.Proofs.Joining

/-!
# Wordloom.Proofs.Positions

Cutting a source into tokens loses nothing and knows where it is: the texts of the tokens make up
the source, and the place of each is what counting the characters and line breaks before it gives.
-/

namespace Wordloom

namespace Position

/-- The place behind `cs` in a source that begins with them, found by counting: a line break begins
a line, and what stands behind the last one decides on the column. -/
def behind (cs : List Char) : Position :=
  ⟨cs.count '\n' + 1, (cs.reverse.takeWhile (· ≠ '\n')).length + 1, cs.length⟩

theorem next_behind (cs : List Char) (c : Char) : (behind cs).next c = behind (cs ++ [c]) := by
  by_cases hc : c = '\n' <;> simp [behind, next, hc]

/-- Going on character by character is counting. -/
theorem after_behind (front cs : List Char) : (behind front).after cs = behind (front ++ cs) := by
  induction cs generalizing front with
  | nil => simp [after]
  | cons c cs ih =>
    calc (behind front).after (c :: cs)
      _ = ((behind front).next c).after cs := rfl
      _ = (behind (front ++ [c])).after cs := by rw [next_behind]
      _ = behind (front ++ c :: cs) := by simp [ih]

theorem start_after (cs : List Char) : start.after cs = behind cs := after_behind [] cs

end Position

namespace Token

/-- The characters that some tokens are made of. -/
def texts (ts : List Token) : List Char := ts.flatMap (·.text.toList)

theorem texts_cons (t : Token) (ts : List Token) : texts (t :: ts) = t.text.toList ++ texts ts := rfl

theorem texts_scanFrom (p : Position) (cs : List Char) : texts (scanFrom p cs) = cs := by
  fun_induction scanFrom p cs with
  | case1 p => rfl
  | case2 p c cs lexeme ih => simp [texts_cons, lexeme, ih, cut_append]

variable {cs : List Char} {p : Position} {before after : List Token}

theorem text_ne_of_mem_scanFrom {t : Token} (h : t ∈ scanFrom p cs) : t.text ≠ "" := by
  fun_induction scanFrom p cs with
  | case1 p => simp at h
  | case2 p c cs lexeme ih =>
    obtain rfl | h := List.mem_cons.1 h
    · simp [lexeme]
    · exact ih h

/-- The tokens from any one on are those of what is left of the source there. -/
theorem scanFrom_of_append (h : scanFrom p cs = before ++ after) :
    after = scanFrom (p.after (texts before)) (texts after) := by
  induction before generalizing p cs with
  | nil =>
    rw [List.nil_append] at h
    rw [← h, texts_scanFrom]
    rfl
  | cons t before ih =>
    cases cs with
    | nil => cases h.symm.trans (scanFrom.eq_1 p)
    | cons c cs =>
      rw [scanFrom] at h
      obtain ⟨rfl, hrest⟩ := List.cons.inj h
      rw [texts_cons, Position.after_append, String.toList_ofList, ← ih hrest]

/-- Each token is cut off what its text and those behind it make up. -/
theorem cut_of_scanFrom {t : Token} (h : scanFrom p cs = before ++ t :: after) :
    t.position = p.after (texts before) ∧
      ∃ d ds, texts (t :: after) = d :: ds ∧ t.kind = (cut d ds).kind := by
  have hrest := scanFrom_of_append h
  cases htexts : texts (t :: after) with
  | nil =>
    rw [htexts, scanFrom] at hrest
    cases hrest
  | cons d ds =>
    rw [htexts, scanFrom] at hrest
    obtain ⟨rfl, -⟩ := List.cons.inj hrest
    exact ⟨rfl, d, ds, rfl, rfl⟩

/-- Each token stands behind the texts of those before it. -/
theorem position_of_scanFrom {t : Token} (h : scanFrom p cs = before ++ t :: after) :
    t.position = p.after (texts before) :=
  (cut_of_scanFrom h).1

theorem length_le_length_texts {ts : List Token} (h : ∀ t ∈ ts, t.text ≠ "") :
    ts.length ≤ (texts ts).length := by
  induction ts with
  | nil => simp
  | cons t ts ih =>
    have ht : t.text.toList ≠ [] := by simpa using h t List.mem_cons_self
    have hts := ih fun u hu => h u (List.mem_cons_of_mem _ hu)
    have hpos := List.length_pos_iff.2 ht
    simp only [texts_cons, List.length_append, List.length_cons]
    omega

/-- **Nothing is lost, and every token knows its place.** No token is empty, so there are no more of
them than characters; together they are the source; each stands where counting over those before it
leads, and the end of the source is where counting over all of them leads. -/
theorem scan_lossless (source : String) :
    (∀ t ∈ scan source, t.text ≠ "") ∧
    (scan source).length ≤ source.length ∧
    String.join ((scan source).map (·.text)) = source ∧
    (∀ before t after, scan source = before ++ t :: after →
      t.position = .behind (texts before)) ∧
    Position.endOf source = .behind (texts (scan source)) := by
  have htexts : texts (scan source) = source.toList := texts_scanFrom .start source.toList
  have hne : ∀ t ∈ scan source, t.text ≠ "" := fun t ht => text_ne_of_mem_scanFrom ht
  refine ⟨hne, ?_, ?_, ?_, ?_⟩
  · rw [← String.length_toList, ← htexts]
    exact length_le_length_texts hne
  · apply String.toList_injective
    rw [String.toList_join, List.flatMap_map]
    exact htexts
  · intro before t after h
    rw [position_of_scanFrom h, Position.start_after]
  · rw [htexts, ← Position.start_after, Position.endOf]

/-- A bracket behind a line break. -/
theorem scan_lossless_second_line :
    scan "ab\n  [x]" = [⟨.text, "ab", ⟨1, 1, 0⟩⟩, ⟨.blank, "\n  ", ⟨1, 3, 2⟩⟩] ++
      ⟨.leftSquare, "[", ⟨2, 3, 5⟩⟩ :: [⟨.text, "x", ⟨2, 4, 6⟩⟩, ⟨.rightSquare, "]", ⟨2, 5, 7⟩⟩] ∧
    (⟨2, 3, 5⟩ : Position) = .behind "ab\n  ".toList := by
  have h : scan "ab\n  [x]" = [⟨.text, "ab", ⟨1, 1, 0⟩⟩, ⟨.blank, "\n  ", ⟨1, 3, 2⟩⟩] ++
      ⟨.leftSquare, "[", ⟨2, 3, 5⟩⟩ :: [⟨.text, "x", ⟨2, 4, 6⟩⟩, ⟨.rightSquare, "]", ⟨2, 5, 7⟩⟩] := by
    decide +kernel
  exact ⟨h, (scan_lossless "ab\n  [x]").2.2.2.1 _ _ _ h⟩

end Token

end Wordloom
