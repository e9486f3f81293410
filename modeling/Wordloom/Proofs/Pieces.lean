import Wordloom.Proofs.Scanning

/-!
# Wordloom.Proofs.Pieces

Sources that are put together from given pieces. If each of them ends where the next one begins, the
source is cut into them again. Unlike lexemes, pieces can be of any kind, and where they can stand is
said by how the source is cut there.
-/

namespace Wordloom.Token

/-- The kind and the characters of a token. -/
structure Piece where
  kind : Kind
  chars : List Char

namespace Piece

variable {p : Piece} {ps qs : List Piece} {rest : List Char}

/-- The piece is the token that is cut off a source that goes on with `rest`. -/
def Before (p : Piece) (rest : List Char) : Prop :=
  ∃ c cs, p.chars = c :: cs ∧ cut c (cs ++ rest) = ⟨p.kind, cs, rest⟩

def spell (ps : List Piece) : List Char := ps.flatMap (·.chars)

@[simp] theorem spell_nil : spell [] = [] := rfl

@[simp] theorem spell_cons : spell (p :: ps) = p.chars ++ spell ps := List.flatMap_cons

@[simp] theorem spell_append : spell (ps ++ qs) = spell ps ++ spell qs := List.flatMap_append

/-- Each of the pieces is a token where it stands, in a source that goes on with `rest`. -/
def Apart : List Piece → List Char → Prop
  | [], _ => True
  | p :: ps, rest => p.Before (spell ps ++ rest) ∧ Apart ps rest

@[simp] theorem apart_nil : Apart [] rest ↔ True := .rfl

@[simp] theorem apart_cons : Apart (p :: ps) rest ↔ p.Before (spell ps ++ rest) ∧ Apart ps rest := .rfl

@[simp] theorem apart_append :
    Apart (ps ++ qs) rest ↔ Apart ps (spell qs ++ rest) ∧ Apart qs rest := by
  induction ps with
  | nil => simp
  | cons p ps ih => simp [ih, and_assoc]

/-- The tokens that the pieces are, the first of which is at `place`. -/
def tokens (place : Position) : List Piece → List Token
  | [] => []
  | p :: ps => ⟨p.kind, String.ofList p.chars, place⟩ :: tokens (place.after p.chars) ps

/-- A source of pieces is cut into them. -/
theorem scanFrom_spell (h : Apart ps []) (place : Position) :
    scanFrom place (spell ps) = tokens place ps := by
  induction ps generalizing place with
  | nil => rw [spell_nil, scanFrom, tokens]
  | cons p ps ih =>
    obtain ⟨⟨c, cs, hcs, hcut⟩, hps⟩ := h
    rw [List.append_nil] at hcut
    rw [spell_cons, hcs, List.cons_append, scanFrom, hcut, tokens, hcs, ih hps]

/-- The second pieces begin where the first ones end. -/
theorem tokens_append (place : Position) :
    tokens place (ps ++ qs) = tokens place ps ++ tokens (place.after (spell ps)) qs := by
  induction ps generalizing place with
  | nil => rfl
  | cons p ps ih => simp [tokens, ih, Position.after_append]

theorem spell_intercalate (sep : List Piece) (pss : List (List Piece)) :
    spell (sep.intercalate pss) = (spell sep).intercalate (pss.map spell) := by
  induction pss with
  | nil => simp
  | cons ps pss ih => cases pss <;> simp_all [List.intercalate_cons_cons]

theorem length_le_intercalate (sep : List Piece) {pss : List (List Piece)}
    (h : ∀ ps ∈ pss, ps ≠ []) : pss.length ≤ (sep.intercalate pss).length := by
  induction pss with
  | nil => exact Nat.zero_le _
  | cons ps pss ih =>
    have hps := List.length_pos_iff.2 (h ps List.mem_cons_self)
    have htail := ih fun qs hqs => h qs (List.mem_cons_of_mem _ hqs)
    cases pss with
    | nil => rwa [List.intercalate_singleton]
    | cons qs pss =>
      rw [List.intercalate_cons_cons, List.length_append, List.length_append, List.length_cons]
      omega

@[simp] theorem length_tokens (place : Position) : (tokens place ps).length = ps.length := by
  induction ps generalizing place with
  | nil => rfl
  | cons p ps ih => simp [tokens, ih]

end Piece

/-! ## Texts -/

/-- A text ends before what begins with these: a blank, a special character or two slashes. -/
def stopsText (c : Char) (cs : List Char) : Bool :=
  Text.isBlank c || isSpecial c || (c == '/' && cs.head? == some '/')

variable {cs : List Char} {c : Char}

theorem isText_of_splitText (h : (splitText cs).2 = []) : isText cs = true := by
  induction cs with
  | nil => rfl
  | cons c cs ih =>
    unfold splitText at h
    split at h
    · cases h
    · rename_i hc
      rw [isText, ih h, Bool.and_true, Bool.not_eq_true']
      exact Bool.eq_false_iff.2 hc

theorem kind_splitRegex (cs : List Char) :
    (splitRegex cs).kind = .regex ∨ (splitRegex cs).kind = .broken ∧ (splitRegex cs).rest = [] := by
  fun_induction splitRegex cs <;> simp_all [Cut.extend]

theorem kind_splitLiteral (cs : List Char) :
    (splitLiteral cs).kind = .literal ∨ (splitLiteral cs).kind = .broken ∧ (splitLiteral cs).rest = [] := by
  fun_induction splitLiteral cs <;> simp_all [Cut.extend]

theorem kind_splitCode (cs : List Char) :
    (splitCode cs).kind = .escape ∨ (splitCode cs).kind = .broken ∧ (splitCode cs).rest = [] := by
  fun_cases splitCode cs <;> simp

theorem kind_splitEscape (cs : List Char) :
    (splitEscape cs).kind = .escape ∨ (splitEscape cs).kind = .broken ∧ (splitEscape cs).rest = [] := by
  unfold splitEscape
  split <;> exact kind_splitCode _

/-- A special character that begins nothing longer stands for itself. -/
theorem ofChar_ne (h : isSpecial c = true) (hescape : c ≠ '\\') (hquote : c ≠ '"') :
    Kind.ofChar c ≠ .blank ∧ Kind.ofChar c ≠ .text ∧ Kind.ofChar c ≠ .broken := by
  fun_cases Kind.ofChar c <;> simp_all [isSpecial]

/-- A token is a run of blanks, a text, or neither; and behind a broken token nothing is left. -/
theorem cut_cases (c : Char) (cs : List Char) :
    (cut c cs).kind = .blank ∧ Text.isBlank c = true ∧ (cut c cs).rest = cs.dropWhile Text.isBlank ∨
    (cut c cs).kind = .text ∧ stopsText c cs = false ∧ (cut c cs).rest = (splitText cs).2 ∨
    (cut c cs).kind ≠ .blank ∧ (cut c cs).kind ≠ .text ∧
      ((cut c cs).kind = .broken → (cut c cs).rest = []) := by
  fun_cases cut c cs with
  | case1 => exact .inl ⟨rfl, ‹_›, rfl⟩
  | case2 rest => rcases kind_splitRegex rest with h | h <;> simp [Cut.extend, h]
  | case3 => rcases kind_splitEscape cs with h | h <;> simp [h]
  | case4 => rcases kind_splitLiteral cs with h | h <;> simp [h]
  | case5 | case6 => simp
  | case7 =>
    rename_i hescape hquote hspecial _ _ _ _
    obtain ⟨hblank, htext, hbroken⟩ := ofChar_ne hspecial hescape hquote
    exact .inr (.inr ⟨hblank, htext, fun h => absurd h hbroken⟩)
  | case8 =>
    rename_i hspecial hblank hregex _ _
    have hslash : (c == '/' && cs.head? == some '/') = false := by
      by_contra hslash
      simp only [Bool.not_eq_false, Bool.and_eq_true, beq_iff_eq] at hslash
      obtain ⟨rest, hcs⟩ := List.head?_eq_some_iff.1 hslash.2
      exact hregex rest hslash.1 hcs
    exact .inr (.inl ⟨rfl, by simp [stopsText, hspecial, hblank, hslash], rfl⟩)

theorem cut_of_kind_text (hkind : (cut c cs).kind = .text) :
    stopsText c cs = false ∧ (cut c cs).rest = (splitText cs).2 := by
  simpa [hkind] using cut_cases c cs

theorem cut_of_kind_blank (hkind : (cut c cs).kind = .blank) :
    Text.isBlank c = true ∧ (cut c cs).rest = cs.dropWhile Text.isBlank := by
  simpa [hkind] using cut_cases c cs

/-- A text token that nothing is left behind is a text. -/
theorem isText_of_cut (hkind : (cut c cs).kind = .text) (hrest : (cut c cs).rest = []) :
    isText (c :: cs) = true := by
  obtain ⟨hstops, hsplit⟩ := cut_of_kind_text hkind
  rw [isText, isText_of_splitText (hsplit.symm.trans hrest), Bool.and_true, Bool.not_eq_true']
  exact hstops

/-- What is cut into a single text token is a text. -/
theorem isText_of_scan {s : String} (h : (scan s).map (·.kind) = [.text]) :
    s.toList ≠ [] ∧ isText s.toList = true := by
  unfold scan at h
  cases hs : s.toList with
  | nil =>
    rw [hs, scanFrom] at h
    cases h
  | cons c cs =>
    rw [hs, scanFrom, List.map_cons, List.cons.injEq, List.map_eq_nil_iff] at h
    refine ⟨List.cons_ne_nil _ _, isText_of_cut h.1 ?_⟩
    cases hrest : (cut c cs).rest with
    | nil => rfl
    | cons d ds =>
      have hnone := h.2
      rw [hrest, scanFrom] at hnone
      cases hnone

theorem isText_of_forall (h : ∀ c ∈ cs, Text.isBlank c = false ∧ isSpecial c = false ∧ c ≠ '/') :
    isText cs = true := by
  induction cs with
  | nil => rfl
  | cons c cs ih =>
    obtain ⟨hblank, hspecial, hslash⟩ := h c List.mem_cons_self
    simp [isText, hblank, hspecial, hslash, ih fun d hd => h d (List.mem_cons_of_mem _ hd)]

namespace Piece

variable {rest : List Char}

def text (s : String) : Piece := ⟨.text, s.toList⟩

/-- The single blank that stands between parts. -/
def space : Piece := ⟨.blank, [' ']⟩

theorem before_text {s : String} (h : s.toList ≠ [] ∧ isText s.toList = true)
    (hrest : EndsText rest) : (text s).Before rest := by
  have hends : (Lexeme.text s).endsBefore rest = true := by
    simp only [Lexeme.endsBefore, Bool.and_eq_true, bne_iff_ne]
    exact ⟨h, hrest⟩
  exact cut_of_endsBefore hends

theorem before_space (hrest : (rest.head?.all fun c => !Text.isBlank c) = true) :
    space.Before rest := by
  have hends : (Lexeme.blank " ").endsBefore rest = true := by
    simp only [Lexeme.endsBefore, hrest]
    decide
  exact cut_of_endsBefore hends

end Piece

end Wordloom.Token
