import Wordloom.Proofs.Pieces
import Wordloom.Proofs.RegexTokens

/-!
# Wordloom.Proofs.QuerySource

How queries are written: between angle brackets the name of the table, a dollar sign if the query is
exclusive, the modifiers that narrow it and, behind a double colon, its carriers. The regular
expressions of a query are given by a table that its filters refer to.
-/

namespace Wordloom

open Token (Piece)

/-! ## The text -/

/-- The signs in front of a carrier's name. -/
def CarrierKind.sign : CarrierKind → String
  | .matchWord => "="
  | .associative => "@"
  | .dissociative => "@!"
  | .divergent => "@+"
  | .relational => "@?"
  | .matchAssociative => "@="
  | .matchDissociative => "@!="
  | .matchDivergent => "@+="
  | .matchRelational => "@?="
  | .unique => "!"
  | .matchUnique => "!="
  | .rhyme => "&"

def Carrier.source (c : Carrier) : String := c.kind.sign ++ c.id

def ClassRule.source (r : ClassRule) : String := if r.required then r.name else "!" ++ r.name

/-- A bound on the number of syllables; nothing stands for none. -/
def SyllableRange.bound (n : Option UInt32) : String := n.elim "" fun n => toString n.toNat

def SyllableRange.source (r : SyllableRange) : String :=
  "(" ++ bound r.min ++ "-" ++ bound r.max ++ ")"

/-- What can narrow a query. -/
inductive Modifier where
  | classes (rules : List ClassRule)
  | syllables (range : SyllableRange)
  | regex (wanted : Bool) (r : Regex)
  | subtype (name : String)

def Modifier.source : Modifier → String
  | .classes rules => "-" ++ "|".intercalate (rules.map ClassRule.source)
  | .syllables range => range.source
  | .regex wanted r =>
    (if wanted then "?" else "?!") ++
      "//" ++ String.ofList (Token.escapeSlashes r.source.toList) ++ "//"
  | .subtype name => "." ++ name

namespace Query

/-- The modifiers of a query, whose filters refer to `regexes`. -/
def modifiers (regexes : UInt32 → Regex) (q : Query) : List Modifier :=
  q.classFilter.map .classes ++ q.syllables.toList.map .syllables ++
    q.regexFilters.map (fun f => .regex f.wanted (regexes f.regex)) ++
    q.subtype.toList.map .subtype

def carriersSource (carriers : List Carrier) : String :=
  if carriers = [] then "" else " ::" ++ " ".intercalate (carriers.map Carrier.source)

/-- A query as it is written, with a space before each of its modifiers and carriers. -/
def source (regexes : UInt32 → Regex) (q : Query) : String :=
  "<" ++ q.table.getD "" ++ (if q.exclusive then "$" else "") ++
    String.join ((q.modifiers regexes).map (" " ++ ·.source)) ++ carriersSource q.carriers ++ ">"

end Query

/-! ## What can be written -/

/-- A name that is a token of its own. -/
def IsName (s : String) : Prop := (Token.scan s).map (·.kind) = [.text]

instance (s : String) : Decidable (IsName s) := inferInstanceAs (Decidable (_ = _))

/-- The modifier of a query, exclusive or not, can be written. -/
def Modifier.IsWritable (exclusive : Bool) : Modifier → Prop
  | .classes rules =>
    rules ≠ [] ∧ ∀ r ∈ rules, IsName r.name ∧ (exclusive = true → r.required = true)
  | .syllables range => range.min.isSome = true ∨ range.max.isSome = true
  | .regex _ r => r.source.toList.getLast? ≠ some '\\'
  | .subtype name => IsName name

/-- A query that can be written: it has a table of a plain name, its names are tokens, no list of
classes is empty, no class is excluded where only the classes named are allowed, a range of syllables
has a bound, and no regular expression ends in a backslash. -/
structure Query.IsWritable (regexes : UInt32 → Regex) (q : Query) : Prop where
  table : ∃ name, q.table = some name ∧ IsName name ∧
    ∀ c ∈ name.toList, Text.isLetterOrNumeral c = true ∨ c = '_'
  modifiers : ∀ m ∈ q.modifiers regexes, m.IsWritable q.exclusive
  carriers : ∀ c ∈ q.carriers, IsName c.id

/-! ## The pieces -/

/-- Signs that are tokens one by one. -/
def signs (cs : List Char) : List Piece := cs.map fun c => ⟨.ofChar c, [c]⟩

def Carrier.pieces (c : Carrier) : List Piece := signs c.kind.sign.toList ++ [.text c.id]

def ClassRule.pieces (r : ClassRule) : List Piece :=
  if r.required then [.text r.name] else [⟨.exclamation, ['!']⟩, .text r.name]

def SyllableRange.boundPieces (n : Option UInt32) : List Piece :=
  n.elim [] fun n => [.text (toString n.toNat)]

/-- The pieces of a range of syllables between its parentheses. -/
def SyllableRange.pieces (r : SyllableRange) : List Piece :=
  boundPieces r.min ++ [⟨.hyphen, ['-']⟩] ++ boundPieces r.max

/-- Classes with bars between them. -/
def rulesPieces (rules : List ClassRule) : List Piece :=
  [⟨.pipe, ['|']⟩].intercalate (rules.map ClassRule.pieces)

/-- Carriers with spaces between them. -/
def carriersPieces (carriers : List Carrier) : List Piece :=
  [Piece.space].intercalate (carriers.map Carrier.pieces)

def Modifier.pieces : Modifier → List Piece
  | .classes rules => ⟨.hyphen, ['-']⟩ :: rulesPieces rules
  | .syllables range => ⟨.leftParen, ['(']⟩ :: (range.pieces ++ [⟨.rightParen, [')']⟩])
  | .regex wanted r =>
    [if wanted then ⟨.question, ['?']⟩ else ⟨.without, ['?', '!']⟩,
      ⟨.regex, Token.regexChars r.source.toList []⟩]
  | .subtype name => [⟨.dot, ['.']⟩, .text name]

namespace Query

/-- The last pieces of a query, its carriers and its closing bracket. -/
def endPieces (carriers : List Carrier) : List Piece :=
  (if carriers = [] then [] else .space :: ⟨.doubleColon, [':', ':']⟩ :: carriersPieces carriers) ++
    [⟨.rightAngle, ['>']⟩]

/-- The pieces of a query behind its table. -/
def restPieces (ms : List Modifier) (carriers : List Carrier) : List Piece :=
  ms.flatMap (fun m => .space :: m.pieces) ++ endPieces carriers

def pieces (name : String) (exclusive : Bool) (ms : List Modifier) (carriers : List Carrier) :
    List Piece :=
  ⟨.leftAngle, ['<']⟩ :: .text name ::
    ((if exclusive then [⟨.dollar, ['$']⟩] else []) ++ restPieces ms carriers)

end Query

/-! ## The pieces spell the text -/

namespace Token.Piece

@[simp] theorem spell_signs (cs : List Char) : spell (signs cs) = cs := by
  induction cs with
  | nil => rfl
  | cons c cs ih => simpa [signs] using ih

@[simp] theorem chars_text (s : String) : (text s).chars = s.toList := rfl

end Token.Piece

open Token.Piece

theorem ClassRule.toList_source (r : ClassRule) : r.source.toList = spell r.pieces := by
  unfold source pieces
  split <;> simp

theorem Carrier.toList_source (c : Carrier) : c.source.toList = spell c.pieces := by
  simp [source, pieces]

theorem SyllableRange.toList_bound (n : Option UInt32) :
    (bound n).toList = spell (boundPieces n) := by
  cases n <;> simp [bound, boundPieces]

theorem Modifier.toList_source (m : Modifier) : m.source.toList = spell m.pieces := by
  cases m with
  | classes rules =>
    simp [source, pieces, rulesPieces, spell_intercalate, String.toList_intercalate,
      ClassRule.toList_source, Function.comp_def]
  | syllables range =>
    simp [source, pieces, SyllableRange.source, SyllableRange.pieces, SyllableRange.toList_bound]
  | regex wanted r => cases wanted <;> simp [source, pieces, Token.regexChars]
  | subtype name => simp [source, pieces]

namespace Query

theorem toList_carriersSource (carriers : List Carrier) :
    (carriersSource carriers).toList ++ ['>'] = spell (endPieces carriers) := by
  unfold carriersSource endPieces
  split
  · simp
  · simp [carriersPieces, spell_intercalate, String.toList_intercalate, Carrier.toList_source,
      Function.comp_def, space]

theorem toList_modifiers (ms : List Modifier) :
    (ms.map (" " ++ ·.source)).flatMap String.toList =
      spell (ms.flatMap fun m => .space :: m.pieces) := by
  induction ms with
  | nil => rfl
  | cons m ms ih => simp [Modifier.toList_source, space, ih]

/-- The source of a query is spelled by its pieces. -/
theorem toList_source {regexes : UInt32 → Regex} {q : Query} {name : String}
    (h : q.table = some name) :
    (q.source regexes).toList =
      spell (pieces name q.exclusive (q.modifiers regexes) q.carriers) := by
  have hdollar : (if q.exclusive then "$" else "").toList =
      spell (if q.exclusive then [⟨.dollar, ['$']⟩] else []) := by split <;> rfl
  simp [source, pieces, restPieces, h, hdollar, toList_modifiers, ← toList_carriersSource]

end Query

/-! ## The pieces are tokens where they stand -/

namespace Token.Piece

variable {rest : List Char}

/-- Pieces with separators between them are apart if they are one by one. -/
theorem apart_intercalate {sep : List Piece} {pss : List (List Piece)}
    (hpss : ∀ ps ∈ pss, ∀ rest, EndsText rest → Apart ps rest)
    (hsep : ∀ ps ∈ pss, ∀ rest, Apart sep (spell ps ++ rest))
    (hends : ∀ rest, EndsText (spell sep ++ rest)) (hrest : EndsText rest) :
    Apart (sep.intercalate pss) rest := by
  induction pss with
  | nil => trivial
  | cons ps pss ih =>
    cases pss with
    | nil =>
      rw [List.intercalate_singleton]
      exact hpss ps List.mem_cons_self rest hrest
    | cons qs pss =>
      have htail := ih (fun ps hps => hpss ps (List.mem_cons_of_mem _ hps))
        (fun ps hps => hsep ps (List.mem_cons_of_mem _ hps))
      have hhead : ∃ more, sep.intercalate (qs :: pss) = qs ++ more := by
        cases pss with
        | nil => exact ⟨[], by simp⟩
        | cons => exact ⟨_, by rw [List.intercalate_cons_cons, List.append_assoc]⟩
      obtain ⟨more, hmore⟩ := hhead
      rw [List.intercalate_cons_cons, apart_append, apart_append]
      refine ⟨⟨?_, ?_⟩, htail⟩
      · exact hpss ps List.mem_cons_self _ (hends _)
      · rw [hmore, spell_append, List.append_assoc]
        exact hsep qs (List.mem_cons_of_mem _ List.mem_cons_self) _

end Token.Piece

section

open Token

variable {rest : List Char}

theorem IsName.before {s : String} (h : IsName s) (hrest : EndsText rest) :
    (Piece.text s).Before rest := before_text (isText_of_scan h) hrest

theorem ClassRule.apart_pieces {r : ClassRule} (h : IsName r.name) (hrest : EndsText rest) :
    Apart r.pieces rest := by
  unfold pieces
  split
  · exact ⟨h.before hrest, trivial⟩
  · exact ⟨⟨_, _, rfl, rfl⟩, h.before hrest, trivial⟩

theorem apart_rulesPieces {rules : List ClassRule} (h : ∀ r ∈ rules, IsName r.name)
    (hrest : EndsText rest) : Apart (rulesPieces rules) rest := by
  apply apart_intercalate
  · intro ps hps rest hrest
    obtain ⟨r, hr, rfl⟩ := List.mem_map.1 hps
    exact r.apart_pieces (h r hr) hrest
  · exact fun ps _ rest => ⟨⟨_, _, rfl, rfl⟩, trivial⟩
  · exact fun _ => rfl
  · exact hrest

theorem before_sign {c : Char} (hc : c ∈ ['=', '@', '!', '+', '&']) :
    Before ⟨.ofChar c, [c]⟩ rest := by
  simp only [List.mem_cons, List.not_mem_nil, or_false] at hc
  obtain rfl | rfl | rfl | rfl | rfl := hc <;> exact ⟨_, _, rfl, rfl⟩

theorem before_question (hrest : rest.head? ≠ some '!') : Before ⟨.question, ['?']⟩ rest :=
  ⟨_, _, rfl, cut_question hrest⟩

theorem CarrierKind.apart_sign (k : CarrierKind) (hrest : rest.head? ≠ some '!') :
    Apart (signs k.sign.toList) rest := by
  have hlast : Before ⟨.ofChar '?', ['?']⟩ rest := before_question hrest
  have hequal : Before ⟨.ofChar '?', ['?']⟩ ('=' :: rest) := ⟨_, _, rfl, rfl⟩
  cases k <;> simp [sign, signs, before_sign, hlast, hequal]

/-- No name begins with a sign. -/
theorem IsName.head?_ne {s : String} (h : IsName s) (rest : List Char) :
    (s.toList ++ rest).head? ≠ some '!' := by
  obtain ⟨hne, htext⟩ := isText_of_scan h
  obtain ⟨c, cs, hcs⟩ := List.exists_cons_of_ne_nil hne
  rw [hcs] at htext ⊢
  rintro ⟨⟩
  cases htext

theorem Carrier.apart_pieces {c : Carrier} (h : IsName c.id) (hrest : EndsText rest) :
    Apart c.pieces rest := by
  rw [pieces, apart_append]
  refine ⟨?_, h.before hrest, trivial⟩
  rw [spell_cons, spell_nil, List.append_nil]
  exact c.kind.apart_sign (h.head?_ne rest)

theorem Carrier.before_spell (c : Carrier) (rest : List Char) :
    Piece.space.Before (spell c.pieces ++ rest) := by
  apply before_space
  rw [pieces, spell_append, spell_signs]
  cases c.kind <;> simp [CarrierKind.sign] <;> decide

theorem apart_carriersPieces {carriers : List Carrier} (h : ∀ c ∈ carriers, IsName c.id)
    (hrest : EndsText rest) : Apart (carriersPieces carriers) rest := by
  apply apart_intercalate
  · intro ps hps rest hrest
    obtain ⟨c, hc, rfl⟩ := List.mem_map.1 hps
    exact c.apart_pieces (h c hc) hrest
  · intro ps hps rest
    obtain ⟨c, hc, rfl⟩ := List.mem_map.1 hps
    exact ⟨c.before_spell rest, trivial⟩
  · exact fun _ => rfl
  · exact hrest

/-! ### Syllables -/

/-- A digit is neither blank nor a sign. -/
theorem plain_of_isDigit {c : Char} (h : c.isDigit = true) :
    Text.isBlank c = false ∧ isSpecial c = false ∧ c ≠ '/' := by
  have hrange : 48 ≤ c.toNat ∧ c.toNat ≤ 57 := by simpa [Char.isDigit, UInt32.le_iff_toNat_le] using h
  have hspecial : ∀ d, isSpecial d = true → d.isDigit = false := by simp [isSpecial]
  refine ⟨?_, ?_, ?_⟩
  · simp only [Text.isBlank, Text.blankRanges, Text.Ranges.contains, List.any_cons, List.any_nil,
      Bool.or_false, Bool.or_eq_false_iff, Bool.and_eq_false_iff, decide_eq_false_iff_not]
    omega
  · rw [Bool.eq_false_iff]
    intro hc
    rw [hspecial c hc] at h
    cases h
  · rintro rfl
    cases h

theorem isText_toString (n : Nat) :
    (toString n).toList ≠ [] ∧ isText (toString n).toList = true := by
  rw [Nat.toString_eq_ofList_toDigits, String.toList_ofList]
  exact ⟨Nat.toDigits_ne_nil, isText_of_forall fun c hc =>
    plain_of_isDigit (Nat.isDigit_of_mem_toDigits (by decide) (Nat.le_refl 10) hc)⟩

theorem SyllableRange.apart_boundPieces (n : Option UInt32) (hrest : EndsText rest) :
    Apart (boundPieces n) rest := by
  cases n with
  | none => trivial
  | some n => exact ⟨before_text (isText_toString n.toNat) hrest, trivial⟩

/-! ### Modifiers -/

/-- What stands behind a modifier. -/
def EndsPart (rest : List Char) : Prop := rest.head? = some ' ' ∨ rest.head? = some '>'

theorem EndsPart.endsText (h : EndsPart rest) : EndsText rest := by
  unfold EndsText
  obtain h | h := h <;> rw [h] <;> rfl

/-- The pieces of a modifier do not run into each other. -/
theorem Modifier.apart_pieces {exclusive : Bool} {m : Modifier} (h : m.IsWritable exclusive)
    (hrest : EndsPart rest) : Apart m.pieces rest := by
  cases m with
  | classes rules =>
    exact ⟨⟨_, _, rfl, rfl⟩, apart_rulesPieces (fun r hr => (h.2 r hr).1) hrest.endsText⟩
  | syllables range =>
    simp only [pieces, SyllableRange.pieces, apart_cons, apart_append]
    refine ⟨⟨_, _, rfl, rfl⟩, ⟨⟨?_, ⟨_, _, rfl, rfl⟩, trivial⟩, ?_⟩, ⟨_, _, rfl, rfl⟩, trivial⟩
    · exact SyllableRange.apart_boundPieces _ rfl
    · exact SyllableRange.apart_boundPieces _ rfl
  | regex wanted r =>
    have halpha : (rest.head?.all fun c => !c.isAlpha) = true := by
      obtain hrest | hrest := hrest <;> rw [hrest] <;> rfl
    have hregex : Before ⟨.regex, regexChars r.source.toList []⟩ rest :=
      ⟨_, _, rfl, cut_regexChars h rfl halpha⟩
    cases wanted with
    | false => exact ⟨⟨_, _, rfl, rfl⟩, hregex, trivial⟩
    | true => exact ⟨before_question (by simp [regexChars]), hregex, trivial⟩
  | subtype name => exact ⟨⟨_, _, rfl, rfl⟩, h.before hrest.endsText, trivial⟩

theorem Modifier.before_spell (m : Modifier) (rest : List Char) :
    Piece.space.Before (spell m.pieces ++ rest) := by
  apply before_space
  cases m with
  | regex wanted r => cases wanted <;> rfl
  | _ => rfl

namespace Query

theorem apart_endPieces {carriers : List Carrier} (h : ∀ c ∈ carriers, IsName c.id)
    (rest : List Char) : Apart (endPieces carriers) rest := by
  rw [endPieces, apart_append]
  refine ⟨?_, ⟨_, _, rfl, rfl⟩, trivial⟩
  split
  · trivial
  · refine ⟨?_, ⟨_, _, rfl, rfl⟩, apart_carriersPieces h rfl⟩
    exact before_space rfl

/-- Behind a part of a query comes a blank or its end. -/
theorem endsPart_restPieces (ms : List Modifier) (carriers : List Carrier) (rest : List Char) :
    EndsPart (spell (restPieces ms carriers) ++ rest) := by
  cases ms with
  | cons m ms => exact .inl rfl
  | nil =>
    unfold restPieces endPieces
    split
    · exact .inr rfl
    · exact .inl rfl

theorem restPieces_cons (m : Modifier) (ms : List Modifier) (carriers : List Carrier) :
    restPieces (m :: ms) carriers = .space :: (m.pieces ++ restPieces ms carriers) := by
  simp [restPieces]

/-- Modifiers and carriers do not run into each other. -/
theorem apart_restPieces {exclusive : Bool} {ms : List Modifier} {carriers : List Carrier}
    (hms : ∀ m ∈ ms, m.IsWritable exclusive) (hcarriers : ∀ c ∈ carriers, IsName c.id) :
    Apart (restPieces ms carriers) [] := by
  induction ms with
  | nil => exact apart_endPieces hcarriers []
  | cons m ms ih =>
    have htail := ih fun m hm => hms m (List.mem_cons_of_mem _ hm)
    have hm := Modifier.apart_pieces (hms m List.mem_cons_self) (endsPart_restPieces ms carriers [])
    rw [restPieces_cons, apart_cons, apart_append, spell_append, List.append_assoc]
    exact ⟨m.before_spell _, hm, htail⟩

/-- A query that can be written is cut into its pieces. -/
theorem scan_source {regexes : UInt32 → Regex} {q : Query} {name : String}
    (h : q.IsWritable regexes) (hname : q.table = some name) :
    scan (q.source regexes) =
      tokens .start (pieces name q.exclusive (q.modifiers regexes) q.carriers) := by
  have hrest := apart_restPieces h.modifiers h.carriers
  have hends := endsPart_restPieces (q.modifiers regexes) q.carriers []
  obtain ⟨name', hname', hisName, -⟩ := h.table
  obtain rfl : name' = name := Option.some.inj (hname'.symm.trans hname)
  rw [scan, toList_source hname]
  apply scanFrom_spell
  refine ⟨⟨_, _, rfl, rfl⟩, hisName.before ?_, apart_append.2 ⟨?_, hrest⟩⟩
  · split
    · rfl
    · exact hends.endsText
  · split
    · exact ⟨⟨_, _, rfl, rfl⟩, trivial⟩
    · trivial

end Query

end

end Wordloom
