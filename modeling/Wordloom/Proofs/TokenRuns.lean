import Mathlib.Data.List.Chain
import Wordloom.Proofs.Pieces
import Wordloom.Proofs.Positions

/-!
# Wordloom.Proofs.TokenRuns

Where tokens end. A run of text or of blanks is one token, so two of them are never next to one
another; and what stops in the middle can only be the last token of a source.
-/

namespace Wordloom.Token

/-! ## What stops in the middle -/

/-- Wherever two slashes follow one another, they stand behind a backslash. -/
def SlashesEscaped (cs : List Char) : Prop :=
  ∀ front back, cs = front ++ '/' :: '/' :: back → front.getLast? = some '\\'

/-- A source that begins with something that is not brought to its end in it. -/
inductive Unfinished : List Char → Prop where
  /-- behind the opening quote, quotes only come in pairs -/
  | literal (s : List Char) : Unfinished ('"' :: double s)
  /-- behind the opening slashes, two slashes only follow one another behind a backslash -/
  | regex {cs : List Char} (h : SlashesEscaped cs) : Unfinished ('/' :: '/' :: cs)
  /-- an escape without a code -/
  | escape : Unfinished ['\\']
  /-- the same behind a count -/
  | counted {digits : List Char} (hne : digits ≠ []) (h : digits.all Char.isDigit = true) :
    Unfinished ('\\' :: (digits ++ [',']))

theorem double_eq_cons {c : Char} {s cs : List Char} (h : double s = c :: cs) :
    ∃ s', s = c :: s' ∧ cs = if c = '"' then '"' :: double s' else double s' := by
  cases s with
  | nil => cases h
  | cons d s' =>
    rw [double] at h
    split at h <;> cases h
    · exact ⟨s', by simp_all, rfl⟩
    · exact ⟨s', rfl, by rw [if_neg ‹_›]⟩

theorem kind_splitLiteral_eq_broken (cs : List Char) :
    (splitLiteral cs).kind = .broken ↔ ∃ s, cs = double s := by
  fun_induction splitLiteral cs with
  | case1 => exact ⟨fun _ => ⟨[], rfl⟩, fun _ => rfl⟩
  | case2 cs ih =>
    refine ih.trans ⟨?_, ?_⟩
    · rintro ⟨s, rfl⟩
      exact ⟨'"' :: s, by rw [double, if_pos rfl]⟩
    · rintro ⟨s, hs⟩
      obtain ⟨s', -, hcs⟩ := double_eq_cons hs.symm
      exact ⟨s', (List.cons.inj hcs).2⟩
  | case3 cs hcs =>
    refine ⟨(by cases ·), ?_⟩
    rintro ⟨s, hs⟩
    obtain ⟨s', -, hs'⟩ := double_eq_cons hs.symm
    exact absurd hs' (hcs _)
  | case4 c cs hpair hc ih =>
    refine ih.trans ⟨?_, ?_⟩
    · rintro ⟨s, rfl⟩
      exact ⟨c :: s, by rw [double, if_neg hc]⟩
    · rintro ⟨s, hs⟩
      obtain ⟨s', -, hs'⟩ := double_eq_cons hs.symm
      exact ⟨s', by rw [hs', if_neg hc]⟩

theorem slashesEscaped_cons {c : Char} {cs : List Char} (hclose : ∀ ds, c = '/' → cs = '/' :: ds → False)
    (hescape : ∀ ds, c = '\\' → cs = '/' :: ds → False) :
    SlashesEscaped (c :: cs) ↔ SlashesEscaped cs := by
  constructor
  · intro h front back hcs
    have hlast := h (c :: front) back (by rw [hcs, List.cons_append])
    rw [List.getLast?_cons] at hlast
    cases front with
    | nil => exact (hescape _ (Option.some.inj hlast) hcs).elim
    | cons d front =>
      rw [List.getLast?_cons] at hlast ⊢
      exact hlast
  · intro h front back hcs
    cases front with
    | nil =>
      obtain ⟨hc, hcs⟩ := List.cons.inj hcs
      exact (hclose _ hc hcs).elim
    | cons d front =>
      have hlast := h front back (List.cons.inj hcs).2
      rw [List.getLast?_cons, hlast]
      rfl

theorem kind_splitRegex_eq_broken (cs : List Char) :
    (splitRegex cs).kind = .broken ↔ SlashesEscaped cs := by
  fun_induction splitRegex cs with
  | case1 => simp [SlashesEscaped]
  | case2 cs => exact ⟨(by cases ·), fun h => absurd (h [] cs rfl) (by simp)⟩
  | case3 cs ih =>
    refine ih.trans ⟨fun h front back hcs => ?_, fun h front back hcs => ?_⟩
    · rcases front with _ | ⟨d, _ | ⟨e, front⟩⟩ <;> simp only [List.nil_append, List.cons_append] at hcs <;>
        cases hcs
      · rfl
      · have hlast := h front back rfl
        rw [List.getLast?_cons, List.getLast?_cons, hlast]
        rfl
    · have hlast := h ('\\' :: '/' :: front) back (by rw [hcs]; rfl)
      rw [List.getLast?_cons, List.getLast?_cons] at hlast
      cases front with
      | nil => cases hlast
      | cons d front => exact hlast
  | case4 c cs hclose hescape ih => exact ih.trans (slashesEscaped_cons hclose hescape).symm

theorem kind_splitCode_eq_broken (cs : List Char) : (splitCode cs).kind = .broken ↔ cs = [] := by
  fun_cases splitCode cs <;> simp_all

theorem kind_splitEscape_eq_broken (cs : List Char) : (splitEscape cs).kind = .broken ↔
    cs = [] ∨ ∃ digits, digits ≠ [] ∧ digits.all Char.isDigit = true ∧ cs = digits ++ [','] := by
  -- where digits and a comma are all there is, this is how they are told apart
  have hcount : ∀ digits, digits.all Char.isDigit = true → cs = digits ++ [','] →
      cs.takeWhile Char.isDigit = digits ∧ cs.dropWhile Char.isDigit = [','] := by
    rintro digits hdigits rfl
    exact takeWhile_append_of_head hdigits (by decide)
  unfold splitEscape
  split
  · rename_i d digits rest hd hrest
    have hcs := List.takeWhile_append_dropWhile (p := Char.isDigit) (l := cs)
    rw [hd, hrest] at hcs
    refine (kind_splitCode_eq_broken rest).trans ⟨?_, ?_⟩
    · rintro rfl
      exact .inr ⟨d :: digits, List.cons_ne_nil _ _, hd ▸ List.all_takeWhile, hcs.symm⟩
    · rintro (rfl | ⟨digits', -, hdigits, hcs'⟩)
      · cases hcs
      · exact (List.cons.inj (hrest.symm.trans (hcount digits' hdigits hcs').2)).2
  · rename_i hne
    refine (kind_splitCode_eq_broken cs).trans ⟨.inl, ?_⟩
    rintro (hcs | ⟨digits, hdigits, hall, hcs⟩)
    · exact hcs
    · obtain ⟨htake, hdrop⟩ := hcount digits hall hcs
      obtain ⟨d, ds, rfl⟩ := List.exists_cons_of_ne_nil hdigits
      exact (hne _ _ _ htake hdrop).elim

/-- The first token is broken just if what it begins with is not brought to its end. -/
theorem kind_cut_eq_broken (c : Char) (cs : List Char) :
    (cut c cs).kind = .broken ↔ Unfinished (c :: cs) := by
  -- nothing but a quote, a backslash or two slashes begins something that can be unfinished
  have hother (hquote : c ≠ '"') (hescape : c ≠ '\\') (hslash : ∀ ds, c = '/' → cs = '/' :: ds → False)
      {kind : Kind} (hkind : kind ≠ .broken) : kind = .broken ↔ Unfinished (c :: cs) := by
    refine ⟨fun h => absurd h hkind, fun h => ?_⟩
    cases h with
    | literal s => exact absurd rfl hquote
    | regex h => exact (hslash _ rfl rfl).elim
    | escape => exact absurd rfl hescape
    | counted hne h => exact absurd rfl hescape
  fun_cases cut c cs with
  | case1 =>
    rename_i hblank
    have hne : ∀ d, Text.isBlank d = false → c ≠ d := by
      rintro d hd rfl
      rw [hblank] at hd
      cases hd
    exact hother (hne _ (by decide)) (hne _ (by decide)) (fun _ hc _ => hne _ (by decide) hc) (by simp)
  | case2 rest =>
    refine (kind_splitRegex_eq_broken rest).trans ⟨.regex, fun h => ?_⟩
    cases h with
    | regex h => exact h
  | case3 =>
    refine (kind_splitEscape_eq_broken cs).trans ⟨?_, fun h => ?_⟩
    · rintro (rfl | ⟨digits, hne, hall, rfl⟩)
      · exact .escape
      · exact .counted hne hall
    · cases h with
      | escape => exact .inl rfl
      | counted hne hall => exact .inr ⟨_, hne, hall, rfl⟩
  | case4 =>
    refine (kind_splitLiteral_eq_broken cs).trans ⟨?_, fun h => ?_⟩
    · rintro ⟨s, rfl⟩
      exact .literal s
    · cases h with
      | literal s => exact ⟨s, rfl⟩
  | case5 | case6 => exact hother (by decide) (by decide) (fun _ hc _ => by cases hc) (by simp)
  | case7 =>
    rename_i hescape hquote hspecial _ hslash _ _
    exact hother hquote hescape hslash (ofChar_ne hspecial hescape hquote).2.2
  | case8 =>
    rename_i hescape hquote hspecial _ hslash _ _
    exact hother hquote hescape hslash (by simp)

/-! ## What comes next -/

theorem stopsText_of_splitText {c : Char} {cs ds : List Char} (h : (splitText ds).2 = c :: cs) :
    stopsText c cs = true := by
  induction ds with
  | nil => cases h
  | cons d ds ih =>
    unfold splitText at h
    split at h
    · rename_i hstops
      cases h
      exact hstops
    · exact ih h

/-- Neither a text nor a run of blanks goes on in the next token, and behind a broken token there is
none. -/
theorem cut_next {c d : Char} {cs ds : List Char} (h : (cut c cs).rest = d :: ds) :
    ((cut c cs).kind = .text → (cut d ds).kind ≠ .text) ∧
    ((cut c cs).kind = .blank → (cut d ds).kind ≠ .blank) ∧ (cut c cs).kind ≠ .broken := by
  refine ⟨fun htext hnext => ?_, fun hblank hnext => ?_, fun hbroken => ?_⟩
  · have hstops := stopsText_of_splitText ((cut_of_kind_text htext).2.symm.trans h)
    rw [(cut_of_kind_text hnext).1] at hstops
    cases hstops
  · have hhead := List.head?_dropWhile_not Text.isBlank cs
    rw [(cut_of_kind_blank hblank).2.symm.trans h] at hhead
    exact absurd (cut_of_kind_blank hnext).1 (Bool.eq_false_iff.1 hhead)
  · have hrest : (cut c cs).rest = [] := by simpa [hbroken] using cut_cases c cs
    rw [h] at hrest
    cases hrest

theorem isChain_scanFrom (p : Position) (cs : List Char) :
    (scanFrom p cs).IsChain fun t u =>
      (t.kind = .text → u.kind ≠ .text) ∧ (t.kind = .blank → u.kind ≠ .blank) ∧ t.kind ≠ .broken := by
  fun_induction scanFrom p cs with
  | case1 => exact .nil
  | case2 p c cs lexeme ih =>
    cases hrest : (cut c cs).rest with
    | nil =>
      rw [scanFrom]
      exact .singleton _
    | cons d ds =>
      rw [hrest, scanFrom] at ih
      rw [scanFrom]
      exact .cons_cons (cut_next hrest) ih

/-- **Runs are maximal, and what is broken comes last.** Two texts or two runs of blanks are never next
to one another, and no token follows a broken one. A token is broken just if an escape, a literal or a
regular expression begins there that is not brought to its end. -/
theorem scan_runs (source : String) :
    ((scan source).IsChain fun t u =>
      (t.kind = .text → u.kind ≠ .text) ∧ (t.kind = .blank → u.kind ≠ .blank) ∧ t.kind ≠ .broken) ∧
    ∀ t ∈ scan source, t.kind = .broken ↔ Unfinished (source.toList.drop t.position.offset) := by
  refine ⟨isChain_scanFrom .start source.toList, fun t ht => ?_⟩
  obtain ⟨before, after, hscan⟩ := List.append_of_mem ht
  obtain ⟨hposition, c, cs, htexts, hkind⟩ := cut_of_scanFrom hscan
  have hsource : source.toList = texts before ++ (c :: cs) := by
    rw [← texts_scanFrom .start source.toList, ← htexts]
    change texts (scan source) = _
    rw [hscan, texts, List.flatMap_append]
    rfl
  have hoffset : t.position.offset = (texts before).length := by
    rw [hposition, Position.start_after]
    rfl
  rw [hkind, hsource, hoffset, List.drop_left]
  exact kind_cut_eq_broken c cs

/-- Slashes of which the first is escaped do not close a regular expression. -/
theorem scan_runs_unclosed :
    scan "x //a\\//b" = [⟨.text, "x", ⟨1, 1, 0⟩⟩, ⟨.blank, " ", ⟨1, 2, 1⟩⟩,
      ⟨.broken, "//a\\//b", ⟨1, 3, 2⟩⟩] ∧ Unfinished "//a\\//b".toList := by
  have hscan : scan "x //a\\//b" = [⟨.text, "x", ⟨1, 1, 0⟩⟩, ⟨.blank, " ", ⟨1, 2, 1⟩⟩,
      ⟨.broken, "//a\\//b", ⟨1, 3, 2⟩⟩] := by decide +kernel
  have hlast := (scan_runs "x //a\\//b").2 ⟨.broken, "//a\\//b", ⟨1, 3, 2⟩⟩ (by rw [hscan]; simp)
  exact ⟨hscan, hlast.1 rfl⟩

end Wordloom.Token
