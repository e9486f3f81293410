import Mathlib.Data.List.Forall2
import Wordloom.Proofs.Joining
import Wordloom.Proofs.Source

/-!
# Wordloom.Proofs.Scanning

The text of lexemes is cut into them again, if each of them is a token where it stands: what follows a
lexeme must not be something that would make the token longer.
-/

namespace Wordloom

namespace Token

/-! ## Single lexemes -/

/-- What a text token can stand before. -/
def EndsText (rest : List Char) : Prop :=
  (rest.head?.all fun c => Text.isBlank c || isSpecial c) = true

variable {cs rest : List Char} {code : List Char}

theorem isText_cons {c : Char} (h : isText (c :: cs) = true) (hrest : EndsText rest) :
    Text.isBlank c = false ∧ isSpecial c = false ∧
      (c == '/' && (cs ++ rest).head? == some '/') = false ∧ isText cs = true := by
  rw [isText, Bool.and_eq_true, Bool.not_eq_true', Bool.or_eq_false_iff, Bool.or_eq_false_iff] at h
  obtain ⟨⟨⟨hblank, hspecial⟩, hslash⟩, hcs⟩ := h
  refine ⟨hblank, hspecial, ?_, hcs⟩
  cases cs with
  | cons c' cs => exact hslash
  | nil =>
    cases rest with
    | nil => simp
    | cons c' rest =>
      have hends : (Text.isBlank c' || isSpecial c') = true := hrest
      have hne : c' ≠ '/' := by
        rintro rfl
        revert hends
        decide
      simp [hne]

theorem splitText_of_isText (h : isText cs = true) (hrest : EndsText rest) :
    splitText (cs ++ rest) = (cs, rest) := by
  induction cs with
  | nil =>
    cases rest with
    | nil => rfl
    | cons c rest =>
      have hc : (Text.isBlank c || isSpecial c) = true := hrest
      rw [List.nil_append, splitText, hc, Bool.true_or, if_pos rfl]
  | cons c cs ih =>
    obtain ⟨hblank, hspecial, hslash, hcs⟩ := isText_cons h hrest
    rw [List.cons_append, splitText, hblank, hspecial, hslash, ih hcs]
    rfl

/-- A text token is cut off what can follow it. -/
theorem cut_of_isText {c : Char} (h : isText (c :: cs) = true) (hrest : EndsText rest) :
    cut c (cs ++ rest) = ⟨.text, cs, rest⟩ := by
  obtain ⟨hblank, hspecial, hslash, hcs⟩ := isText_cons h hrest
  have hne : ∀ c', isSpecial c' = true → c ≠ c' := by
    rintro c' hc' rfl
    rw [hspecial] at hc'
    cases hc'
  have hsplit := splitText_of_isText hcs hrest
  unfold cut
  rw [if_neg (by rw [hblank]; decide)]
  split
  · rename_i heq
    rw [heq] at hslash
    cases hslash
  · exact absurd rfl (hne '\\' rfl)
  · exact absurd rfl (hne '"' rfl)
  · exact absurd rfl (hne ':' rfl)
  · exact absurd rfl (hne '?' rfl)
  · rw [hspecial, hsplit]
    rfl

theorem takeWhile_append_of_head {p : Char → Bool} (h : cs.all p = true)
    (hrest : (rest.head?.all fun c => !p c) = true) :
    (cs ++ rest).takeWhile p = cs ∧ (cs ++ rest).dropWhile p = rest := by
  have hall : ∀ c ∈ cs, p c = true := List.all_eq_true.1 h
  rw [List.takeWhile_append_of_pos hall, List.dropWhile_append_of_pos hall]
  cases rest with
  | nil => simp
  | cons c rest =>
    have hc : p c = false := by simpa using hrest
    simp [hc]

theorem splitLiteral_double (cs : List Char) {rest : List Char} (hrest : rest.head? ≠ some '"') :
    splitLiteral (double cs ++ '"' :: rest) = ⟨.literal, double cs ++ ['"'], rest⟩ := by
  induction cs with
  | nil =>
    cases rest with
    | nil => rfl
    | cons c rest =>
      have hc : c ≠ '"' := fun hc => hrest (congrArg some hc)
      rw [double, List.nil_append, splitLiteral]
      · rfl
      · intro cs hcs
        exact hc (List.cons.inj hcs).1
  | cons c cs ih =>
    rw [double]
    split
    · rw [List.cons_append, List.cons_append, splitLiteral, ih]
      rfl
    · rename_i hc
      rw [List.cons_append, splitLiteral, ih]
      · rfl
      · exact fun _ h => absurd h hc
      · exact fun h => absurd h hc

theorem splitCode_of_isCode (h : isCode code = true) (rest : List Char) :
    splitCode (code ++ rest) = ⟨.escape, code, rest⟩ := by
  unfold isCode at h
  split at h
  · rename_i c
    have hc : c ≠ 'u' := by simpa using h
    rw [List.singleton_append, splitCode]
    exact fun _ _ _ _ _ hu => absurd hu hc
  · rename_i a b c d
    simp only [List.cons_append, List.nil_append, splitCode]
    rw [if_pos h]
  · cases h

theorem isCode_ne_nil (h : isCode code = true) : code ≠ [] := by
  rintro rfl
  cases h

theorem splitEscape_of_code {digits code rest : List Char} (hdigits : digits.all Char.isDigit = true)
    (hcode : isCode code = true)
    (hrest : (digits != [] ||
      !(code.all Char.isDigit && (rest.dropWhile Char.isDigit).head? == some ',')) = true) :
    splitEscape (Lexeme.escapeBody digits code ++ rest) =
      ⟨.escape, Lexeme.escapeBody digits code, rest⟩ := by
  unfold Lexeme.escapeBody
  split
  · rename_i hnone
    -- Without a count the digits in front, if any, are not followed by a comma.
    have hno : ∀ d ds more, ¬ ((code ++ rest).takeWhile Char.isDigit = d :: ds ∧
        (code ++ rest).dropWhile Char.isDigit = ',' :: more) := by
      rintro d ds more ⟨htake, hdrop⟩
      by_cases hall : code.all Char.isDigit = true
      · rw [List.dropWhile_append_of_pos (List.all_eq_true.1 hall)] at hdrop
        rw [hnone, hall, hdrop] at hrest
        cases hrest
      · unfold isCode at hcode
        split at hcode
        · rename_i c
          have hc : ¬ c.isDigit = true := fun hc => hall (by simp [hc])
          simp [hc] at htake
        · simp [show ('u' : Char).isDigit = false from rfl] at htake
        · cases hcode
    rw [splitEscape]
    split
    · rename_i d ds more htake hdrop
      exact absurd ⟨htake, hdrop⟩ (hno d ds more)
    · exact splitCode_of_isCode hcode rest
  · rename_i hsome
    have hcomma : ((',' :: (code ++ rest)).head?.all fun c => !c.isDigit) = true := rfl
    obtain ⟨htake, hdrop⟩ := takeWhile_append_of_head hdigits hcomma
    obtain ⟨d, ds, rfl⟩ := List.exists_cons_of_ne_nil hsome
    rw [List.append_assoc, show (',' :: code) ++ rest = ',' :: (code ++ rest) from rfl, splitEscape, htake,
      hdrop]
    simp [splitCode_of_isCode hcode, Cut.extend]

/-- A lexeme is cut off what follows it. -/
theorem cut_of_endsBefore {l : Lexeme} {rest : List Char} (h : l.endsBefore rest = true) :
    ∃ c cs, l.chars = c :: cs ∧ cut c (cs ++ rest) = ⟨l.kind, cs, rest⟩ := by
  cases l with
  | text s =>
    simp only [Lexeme.endsBefore, Bool.and_eq_true, bne_iff_ne] at h
    obtain ⟨⟨hne, htext⟩, hrest⟩ := h
    obtain ⟨c, cs, hcs⟩ := List.exists_cons_of_ne_nil hne
    rw [hcs] at htext
    exact ⟨c, cs, hcs, cut_of_isText htext hrest⟩
  | blank s =>
    simp only [Lexeme.endsBefore, Bool.and_eq_true, bne_iff_ne] at h
    obtain ⟨⟨hne, hall⟩, hrest⟩ := h
    obtain ⟨c, cs, hcs⟩ := List.exists_cons_of_ne_nil hne
    rw [hcs, List.all_cons, Bool.and_eq_true] at hall
    obtain ⟨htake, hdrop⟩ := takeWhile_append_of_head hall.2 hrest
    refine ⟨c, cs, hcs, ?_⟩
    unfold cut
    rw [if_pos hall.1, htake, hdrop]
    rfl
  | literal s =>
    refine ⟨'"', double s.toList ++ ['"'], rfl, ?_⟩
    have hrest : rest.head? ≠ some '"' := by simpa [Lexeme.endsBefore] using h
    rw [List.append_assoc, List.singleton_append]
    exact splitLiteral_double s.toList hrest
  | escape digits code =>
    simp only [Lexeme.endsBefore, Bool.and_eq_true] at h
    exact ⟨'\\', Lexeme.escapeBody digits code, rfl, splitEscape_of_code h.1.1 h.1.2 h.2⟩
  | mark kind =>
    cases kind with
    | text | blank | escape | literal | regex | leftAngle | rightAngle | broken => cases h
    | colon =>
      have hrest : rest.head? ≠ some ':' := by
        rintro hrest
        simp [Lexeme.endsBefore, hrest] at h
      exact ⟨':', [], rfl, cut_colon hrest⟩
    | question =>
      have hrest : rest.head? ≠ some '!' := by
        rintro hrest
        simp [Lexeme.endsBefore, hrest] at h
      exact ⟨'?', [], rfl, cut_question hrest⟩
    | doubleColon => exact ⟨_, _, rfl, rfl⟩
    | without => exact ⟨_, _, rfl, rfl⟩
    | _ => exact ⟨_, [], rfl, rfl⟩

/-! ## Sources -/

/-- The token is a lexeme at some place. -/
structure Is (t : Token) (l : Lexeme) : Prop where
  kind : t.kind = l.kind
  text : t.text = String.ofList l.chars

theorem forall₂_scanFrom {ls : List Lexeme} (h : Lexeme.apart ls = true) (p : Position) :
    List.Forall₂ Is (scanFrom p (Lexeme.spell ls)) ls := by
  induction ls generalizing p with
  | nil =>
    rw [Lexeme.spell, List.flatMap_nil, scanFrom]
    exact .nil
  | cons l ls ih =>
    rw [Lexeme.apart, Bool.and_eq_true] at h
    obtain ⟨c, cs, hcs, hcut⟩ := cut_of_endsBefore h.1
    have hspell : Lexeme.spell (l :: ls) = c :: (cs ++ Lexeme.spell ls) := by
      rw [Lexeme.spell, List.flatMap_cons, hcs]
      rfl
    rw [hspell, scanFrom, hcut]
    exact .cons ⟨rfl, by rw [hcs]⟩ (ih h.2 _)

/-- The tokens of a pattern's source are its lexemes. -/
theorem forall₂_scan {p : Pattern} (h : Lexeme.apart p.lexemes = true) :
    List.Forall₂ Is (scan p.source) p.lexemes := by
  rw [scan, Pattern.source, String.toList_ofList]
  exact forall₂_scanFrom h .start

/-! ## What tokens print -/

theorem undouble_double (cs : List Char) : undouble (double cs) = cs := by
  induction cs with
  | nil => rfl
  | cons c cs ih =>
    rw [double]
    split
    · rename_i hc
      rw [undouble, ih, hc]
    · rename_i hc
      rw [undouble, ih]
      exact fun _ h => absurd h hc

theorem unquote_double (cs : List Char) :
    unquote (String.ofList ('"' :: double cs ++ ['"'])) = String.ofList cs := by
  have hlast : (double cs ++ ['"']).getLast? = some '"' := List.getLast?_concat
  simp [unquote, undouble_double]

/-- A leaf that is no escape prints its own text. -/
theorem Is.value {t : Token} {l : Lexeme} (h : t.Is l) (hl : l.kind ≠ .escape) :
    t.value = l.prints := by
  rw [Token.value, h.kind, h.text]
  cases l with
  | text s | blank s => simp [Lexeme.kind, Lexeme.chars, Lexeme.prints]
  | literal s =>
    rw [Lexeme.chars, unquote_double]
    simp [Lexeme.kind, Lexeme.prints]
  | escape digits code => exact absurd rfl hl
  | mark kind =>
    by_cases hkind : kind = .literal
    · subst hkind
      rfl
    · rw [Lexeme.kind, if_neg hkind]
      rfl

theorem takeWhile_ne_comma {cs : List Char} (h : cs.all Char.isDigit = true) (rest : List Char) :
    (cs ++ ',' :: rest).takeWhile (· ≠ ',') = cs ∧
      (cs ++ ',' :: rest).dropWhile (· ≠ ',') = ',' :: rest := by
  have hall : cs.all (fun c => decide (c ≠ ',')) = true := by
    rw [List.all_eq_true] at h ⊢
    intro c hc
    have hdigit := h c hc
    simp only [decide_eq_true_eq]
    rintro rfl
    cases hdigit
  exact takeWhile_append_of_head hall rfl

theorem split_of_no_comma {body : List Char} (h : ',' ∉ body) :
    Compile.Escape.split body = (1, body) := by
  have hall : ∀ c ∈ body, decide (c ≠ ',') = true := by
    intro c hc
    simp only [decide_eq_true_eq]
    rintro rfl
    exact h hc
  have hdrop : body.dropWhile (· ≠ ',') = [] := by
    rw [← List.append_nil body, List.dropWhile_append_of_pos hall]
    rfl
  unfold Compile.Escape.split
  rw [hdrop]
  split
  · rename_i heq
    cases heq
  · rfl

/-- The count and the code of an escape are read off it again. -/
theorem split_escapeBody {digits code : List Char} (hdigits : digits.all Char.isDigit = true)
    (hcode : isCode code = true) {count : Nat}
    (hcount : (if digits = [] then some 1 else Text.ofDigits? digits) = some count) :
    Compile.Escape.split (Lexeme.escapeBody digits code) = (count, code) := by
  unfold Lexeme.escapeBody
  by_cases hnone : digits = []
  · rw [if_pos hnone] at hcount ⊢
    cases hcount
    unfold isCode at hcode
    split at hcode
    · rename_i c
      by_cases hc : c = ','
      · subst hc
        rfl
      · exact split_of_no_comma (by simpa using fun h => hc h.symm)
    · rename_i a b c d
      have hne : ∀ x ∈ [a, b, c, d], x ≠ ',' := by
        rintro x hx rfl
        exact absurd (List.all_eq_true.1 hcode _ hx) (by decide)
      exact split_of_no_comma fun hmem => by
        obtain hu | hmem := List.mem_cons.1 hmem
        · cases hu
        · exact hne _ hmem rfl
    · cases hcode
  · rw [if_neg hnone] at hcount ⊢
    obtain ⟨htake, hdrop⟩ := takeWhile_ne_comma hdigits code
    obtain ⟨c, cs, rfl⟩ := List.exists_cons_of_ne_nil (isCode_ne_nil hcode)
    rw [Compile.Escape.split, htake, hdrop, hcount]

theorem isSome_hexDigit?_of_foldlM {cs : List Char} {m n : Nat}
    (h : cs.foldlM (fun n c => (Text.hexDigit? c).map (n * 16 + ·)) m = some n) :
    ∀ c ∈ cs, (Text.hexDigit? c).isSome = true := by
  induction cs generalizing m with
  | nil => nofun
  | cons c cs ih =>
    rw [List.foldlM_cons] at h
    cases hc : Text.hexDigit? c with
    | none =>
      rw [hc] at h
      cases h
    | some k =>
      rw [hc] at h
      intro x hx
      obtain rfl | hx := List.mem_cons.1 hx
      · rw [hc]
        rfl
      · exact ih h x hx

theorem isCode_of_ofCode? {c : Char} (h : Compile.Escape.ofCode? code = some (.char c)) :
    isCode code = true := by
  unfold Compile.Escape.ofCode? at h
  split at h
  · rename_i x
    rw [isCode, bne_iff_ne]
    rintro rfl
    have hnone : Compile.Escape.ofChar? 'u' = none := by decide +kernel
    rw [hnone] at h
    cases h
  · rename_i u a b c d
    split at h
    · rename_i hu
      subst hu
      cases hhex : Text.ofHexChars? [a, b, c, d] with
      | none =>
        rw [hhex] at h
        cases h
      | some n =>
        rw [isCode, List.all_eq_true]
        exact isSome_hexDigit?_of_foldlM hhex
    · cases h
  · cases h

/-- An escape of a fixed character is recognized as such. -/
theorem ofText?_of_escaped {digits code : List Char} {text : String}
    (h : Lexeme.escaped? digits code = some text) :
    ∃ count c, Compile.Escape.ofText? (String.ofList (Lexeme.escape digits code).chars) =
        some (count, .char c) ∧ count ≤ Compile.Escape.maxRepeat ∧
      text = String.ofList (List.replicate count c) := by
  unfold Lexeme.escaped? at h
  split at h
  · rename_i count c hcount hcode
    split at h
    · rename_i hle
      cases h
      refine ⟨count, c, ?_, hle, rfl⟩
      have hdigits : digits.all Char.isDigit = true := by
        cases digits with
        | nil => rfl
        | cons d ds =>
          rw [if_neg (List.cons_ne_nil _ _)] at hcount
          unfold Text.ofDigits? at hcount
          dsimp only at hcount
          split at hcount
          · assumption
          · cases hcount
      have hsmall : count < UInt32.size := Nat.lt_of_le_of_lt hle (by decide)
      rw [Compile.Escape.ofText?, String.toList_ofList, Lexeme.chars, List.drop_one, List.tail_cons,
        split_escapeBody hdigits (isCode_of_ofCode? hcode) hcount]
      simp only [if_pos hsmall, hcode, Option.map_some]
    · cases h
  · cases h

end Token

end Wordloom
