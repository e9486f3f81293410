import Wordloom.Proofs.Container
import Wordloom.Proofs.Parsing
import Wordloom.Proofs.QuerySource

/-!
# Wordloom.Proofs.QueryReading

What the parser makes of the tokens of a query. Each modifier is added to the query as it is read, and
a regular expression gets its number in the program when it is read for the first time.
-/

namespace Wordloom

/-! ## What is added to a query -/

/-- The index of a regular expression in a table that it is added to if it is new. -/
def Regex.indexIn (table : Array Regex) (r : Regex) : Nat :=
  (table.findIdx? (·.source == r.source)).getD table.size

/-- A table with a regular expression, which is added if it is new. -/
def Regex.addTo (table : Array Regex) (r : Regex) : Array Regex :=
  if (table.findIdx? (·.source == r.source)).isSome then table else table.push r

namespace Modifier

/-- A query with one more modifier, and the regular expressions that the query refers to then. -/
def add (q : Query) (table : Array Regex) : Modifier → Query × Array Regex
  | .classes rules => ({ q with classFilter := q.classFilter ++ [rules] }, table)
  | .syllables range => ({ q with syllables := some range }, table)
  | .regex wanted r =>
    ({ q with regexFilters := q.regexFilters ++ [⟨wanted, (r.indexIn table).toUInt32⟩] },
      r.addTo table)
  | .subtype name => ({ q with subtype := some name }, table)

def addAll (q : Query) (table : Array Regex) : List Modifier → Query × Array Regex
  | [] => (q, table)
  | m :: ms => addAll (m.add q table).1 (m.add q table).2 ms

end Modifier

theorem Emitter.addRegex_source (e : Emitter) (r : Regex) :
    e.addRegex r.source = .ok (r.indexIn e.regexes, { e with regexes := r.addTo e.regexes }) := by
  unfold addRegex Regex.indexIn Regex.addTo
  cases e.regexes.findIdx? (·.source == r.source) with
  | some i => rfl
  | none =>
    rw [Container.compile_source]
    rfl

variable {name : String} {exclusive : Bool}

namespace Compile.Query

open Token (skip)
open Token.Piece (tokens)

variable {ts us vs : List Token} {e e' : Emitter} {t : Token} {fuel : Nat} {rules : List ClassRule}

/-! ## Classes -/

/-- A class is read with the mark that excludes it. -/
theorem parses_class {r : ClassRule} (place : Position) (h : exclusive = true → r.required = true)
    (hmore : Parses (do
      if ← Compiling.takeLoose .pipe then return r :: (← classRules exclusive fuel)
      else return [r]) us e rules vs e) :
    Parses (classRules exclusive (fuel + 1)) (tokens place r.pieces ++ us) e rules vs e := by
  obtain ⟨name, required⟩ := r
  have hname := String.ofList_toList (s := name)
  rw [classRules]
  cases required with
  | true =>
    refine (Parses.take_of_ne Token.Kind.noConfusion).bind ?_
    rw [Bool.and_false]
    exact (Parses.expectText rfl).bind (hname.symm ▸ hmore)
  | false =>
    obtain rfl : exclusive = false := Bool.eq_false_iff.2 fun hexclusive => by cases h hexclusive
    exact (Parses.take rfl).bind ((Parses.expectText rfl).bind (hname.symm ▸ hmore))

theorem rulesPieces_cons (r : ClassRule) (hne : rules ≠ []) :
    rulesPieces (r :: rules) = r.pieces ++ ⟨.pipe, ['|']⟩ :: rulesPieces rules := by
  obtain ⟨r', rules, rfl⟩ := List.exists_cons_of_ne_nil hne
  simp [rulesPieces, List.intercalate_cons_cons]

theorem length_rulesPieces (rules : List ClassRule) :
    rules.length ≤ (rulesPieces rules).length := by
  have hne : ∀ ps ∈ rules.map ClassRule.pieces, ps ≠ [] := by
    intro ps hps
    obtain ⟨r, -, rfl⟩ := List.mem_map.1 hps
    unfold ClassRule.pieces
    split <;> exact List.cons_ne_nil _ _
  have hle := Token.Piece.length_le_intercalate [⟨.pipe, ['|']⟩] hne
  rwa [List.length_map] at hle

theorem parses_classRules (hne : rules ≠ [])
    (hrules : ∀ r ∈ rules, exclusive = true → r.required = true) (hfuel : rules.length ≤ fuel)
    (hskip : skip us = t :: vs) (ht : t.kind ≠ .pipe) (place : Position) :
    Parses (classRules exclusive fuel) (tokens place (rulesPieces rules) ++ us) e rules (t :: vs) e := by
  induction rules generalizing fuel place with
  | nil => exact absurd rfl hne
  | cons r rules ih =>
    obtain _ | fuel := fuel
    · cases hfuel
    have hr := hrules r List.mem_cons_self
    by_cases hrest : rules = []
    · subst hrest
      rw [rulesPieces, List.map_singleton, List.intercalate_singleton]
      exact parses_class place hr ((Parses.takeLoose_of_ne hskip ht).bind .pure)
    · have htail := ih hrest (fun r hr => hrules r (List.mem_cons_of_mem _ hr))
        (Nat.le_of_succ_le_succ hfuel)
      rw [rulesPieces_cons r hrest, Token.Piece.tokens_append, List.append_assoc]
      exact parses_class place hr
        ((Parses.takeLoose (Token.skip_cons Token.Kind.noConfusion) rfl).bind ((htail _).bind .pure))

/-! ## Syllables -/

theorem foldl_digits (cs : List Char) (n : Nat) :
    cs.foldl (fun n c => n * 10 + Text.digitValue c) n = Nat.ofDigitChars 10 cs n := by
  rw [Nat.ofDigitChars_eq_foldl]
  congr 1
  funext n c
  rw [Nat.mul_comm]
  rfl

/-- A number is read back from its digits. -/
theorem syllableCount?_toDigits (n : UInt32) :
    syllableCount? (String.ofList (Nat.toDigits 10 n.toNat)) = some n := by
  have hdigits : Text.ofDigits? (Nat.toDigits 10 n.toNat) = some n.toNat := by
    have hall : (Nat.toDigits 10 n.toNat).all Char.isDigit = true :=
      List.all_eq_true.2 fun c hc => Nat.isDigit_of_mem_toDigits (by decide) (Nat.le_refl 10) hc
    obtain ⟨c, cs, hcs⟩ := List.exists_cons_of_ne_nil (Nat.toDigits_ne_nil (b := 10) (n := n.toNat))
    have hfold := foldl_digits (Nat.toDigits 10 n.toNat) 0
    rw [Nat.ofDigitChars_ten_toDigits] at hfold
    rw [hcs] at hall hfold ⊢
    rw [Text.ofDigits?, if_pos hall, hfold]
    simp
  unfold syllableCount?
  rw [String.toList_ofList, hdigits]
  simp [UInt32.toNat_lt_size]

theorem parses_syllableParts (hts : ∀ t ∈ ts, t.kind = .text ∨ t.kind = .hyphen)
    (ht : t.kind = .rightParen) (hfuel : ts.length < fuel) :
    Parses (syllableParts fuel) (ts ++ t :: us) e ts us e := by
  induction ts generalizing fuel with
  | nil =>
    obtain _ | fuel := fuel
    · cases hfuel
    rw [syllableParts]
    refine (Parses.readLoose (Token.skip_cons (by rw [ht]; decide))).bind ?_
    rw [ht]
    exact .pure
  | cons u ts ih =>
    obtain _ | fuel := fuel
    · cases hfuel
    have htail := ih (fun t ht => hts t (List.mem_cons_of_mem _ ht)) (Nat.lt_of_succ_lt_succ hfuel)
    rw [syllableParts]
    obtain hu | hu := hts u List.mem_cons_self
    all_goals
      refine (Parses.readLoose (Token.skip_cons (by rw [hu]; decide))).bind ?_
      rw [hu]
      exact htail.bind .pure

/-- A range with a bound is read back. -/
theorem parses_syllables {range : SyllableRange}
    (h : range.min.isSome = true ∨ range.max.isSome = true) (start place : Position)
    (ht : t.kind = .rightParen) :
    Parses (syllables start) (tokens place range.pieces ++ t :: us) e range us e := by
  have hparts : ∀ t ∈ tokens place range.pieces, t.kind = .text ∨ t.kind = .hyphen := by
    obtain ⟨_ | min, _ | max⟩ := range <;>
      simp [SyllableRange.pieces, SyllableRange.boundPieces, tokens, Token.Piece.text]
  have hrange : syllableRange? (tokens place range.pieces) = some range := by
    obtain ⟨_ | min, _ | max⟩ := range
    · simp at h
    all_goals
      simp [SyllableRange.pieces, SyllableRange.boundPieces, tokens, syllableRange?, Token.Piece.text,
        syllableCount?_toDigits]
  refine Parses.tokensLeft.bind ((parses_syllableParts hparts ht ?_).bind ?_)
  · rw [List.length_append]
    omega
  · rw [hrange]
    exact .pure

/-! ## Regular expressions -/

theorem parses_regex {r : Regex} {index : Nat} (h : e.addRegex r.source = .ok (index, e'))
    (place : Position) :
    Parses regex (⟨.regex, String.ofList (Token.regexChars r.source.toList []), place⟩ :: us) e
      index.toUInt32 us e' := by
  have hflags : ([] : List Char).all Char.isAlpha = true := rfl
  have hsource := regexSource?_regexChars r.source.toList hflags
  refine (Parses.expectLoose (Token.skip_cons Token.Kind.noConfusion) rfl).bind ?_
  intro c hrest hout
  have hsame : String.ofList (withFlags [] r.source.toList) = r.source := String.ofList_toList
  refine ⟨{ c with out := e' }, ?_, hrest, rfl⟩
  rw [hsource, hsame]
  dsimp only
  rw [run_bind_of_ok (run_get c), hout, h]
  rfl

/-! ## Carriers -/

theorem skip_sign (k : CarrierKind) (place : Position) :
    skip (tokens place (signs k.sign.toList) ++ us) = tokens place (signs k.sign.toList) ++ us := by
  cases k <;> simp [CarrierKind.sign, signs, tokens] <;> exact Token.skip_cons Token.Kind.noConfusion

/-- The kind of a carrier is read off its signs. -/
theorem parses_carrierKind? (k : CarrierKind) (place place' : Position) (id : String)
    (h : skip ts = tokens place (signs k.sign.toList) ++ ⟨.text, id, place'⟩ :: us) :
    Parses carrierKind? ts e (some k) (⟨.text, id, place'⟩ :: us) e := by
  refine Parses.position fun p => ?_
  cases k
  all_goals
    simp only [CarrierKind.sign, String.reduceToList, signs, List.map_cons, List.map_nil, tokens,
      List.cons_append, List.nil_append] at h
    refine (Parses.peekKindLoose h).bind ?_
    -- the signs and the text behind them are known, so that the rest can be computed
    rintro ⟨⟨_, _, _⟩, _⟩ rfl rfl
    exact ⟨_, rfl, rfl, rfl⟩

theorem carriersPieces_cons (c : Carrier) (carriers : List Carrier) :
    carriersPieces (c :: carriers) =
      c.pieces ++ (if carriers = [] then [] else .space :: carriersPieces carriers) := by
  cases carriers <;> simp [carriersPieces, List.intercalate_cons_cons]

theorem parses_carriers (before : List Carrier) {carriers : List Carrier}
    (hne : before ++ carriers ≠ []) (hfuel : carriers.length < fuel) (hus : skip us = t :: vs)
    (ht : t.kind = .rightAngle) (place : Position)
    (hts : skip ts = skip (tokens place (carriersPieces carriers) ++ us)) :
    Parses (Query.carriers before fuel) ts e (before ++ carriers) (t :: vs) e := by
  induction carriers generalizing before fuel place ts with
  | nil =>
    obtain _ | fuel := fuel
    · cases hfuel
    have hbefore : before.isEmpty = false := by simpa using hne
    have hkind : Parses carrierKind? ts e none (t :: vs) e := by
      refine Parses.position fun p => (Parses.peekKindLoose (hts.trans hus)).bind ?_
      rw [ht]
      exact .pure
    rw [Query.carriers, List.append_nil]
    refine Parses.position fun p => hkind.bind ?_
    rw [hbefore]
    exact .pure
  | cons c carriers ih =>
    obtain _ | fuel := fuel
    · cases hfuel
    rw [carriersPieces_cons, Carrier.pieces, List.append_assoc, Token.Piece.tokens_append,
      List.append_assoc, skip_sign] at hts
    rw [Query.carriers]
    refine Parses.position fun p => (parses_carrierKind? c.kind _ _ _ hts).bind
      ((Parses.expectText rfl).bind ?_)
    -- behind a carrier there is a space if another one follows, and the next step skips it
    generalize (place.after _).after _ = next
    have hnext : skip (tokens next
        (if carriers = [] then [] else .space :: carriersPieces carriers) ++ us) =
        skip (tokens (next.after [' ']) (carriersPieces carriers) ++ us) := by
      split
      · rename_i hnil
        rw [hnil]
        rfl
      · exact Token.skip_blank rfl
    have htail := ih (before ++ [c]) (by simp) (Nat.lt_of_succ_lt_succ hfuel) _ hnext
    rw [List.append_assoc] at htail
    simpa [Token.Piece.text] using htail

/-! ## Modifiers -/

/-- On tokens that are `ts` but for blanks in front, the rest of a query is read: it makes `q'` of
`q` and leaves the program `e'`. The blanks behind some parts are skipped with them and those behind
others are not. -/
def Filters (q : Query) (ts : List Token) (e : Emitter) (q' : Query) (e' : Emitter) : Prop :=
  ∀ us fuel, skip us = skip ts → us.length < fuel → Parses (filters q fuel) us e q' [] e'

variable {q q' : Query} {ms : List Modifier}

theorem Filters.blank (h : Filters q ts e q' e') (ht : t.kind = .blank) :
    Filters q (t :: ts) e q' e' := by
  intro us fuel hus hfuel
  exact h us fuel (hus.trans (Token.skip_blank ht)) hfuel

/-- The first token that is not blank says what comes next. -/
theorem Filters.of_head (ht : t.kind ≠ .blank)
    (h : ∀ us fuel, skip us = t :: ts → ts.length < fuel →
      Parses (filters q (fuel + 1)) us e q' [] e') :
    Filters q (t :: ts) e q' e' := by
  intro us fuel hus hfuel
  obtain _ | fuel := fuel
  · cases hfuel
  have hlength := Token.length_skip_le us
  rw [Token.skip_cons ht] at hus
  rw [hus, List.length_cons] at hlength
  exact h us fuel hus (by omega)

theorem filters_close (q : Query) (e : Emitter) (ht : t.kind = .rightAngle) :
    Filters q [t] e q e := by
  refine .of_head (by rw [ht]; decide) fun us fuel hus _ => ?_
  rw [filters]
  refine (Parses.readLoose hus).bind ?_
  rw [ht]
  exact .pure

theorem filters_classes (hne : rules ≠ [])
    (hrules : ∀ r ∈ rules, q.exclusive = true → r.required = true) (hts : skip ts = t :: us)
    (ht : t.kind ≠ .pipe)
    (h : Filters { q with classFilter := q.classFilter ++ [rules] } ts e q' e') (place : Position) :
    Filters q (tokens place (Modifier.classes rules).pieces ++ ts) e q' e' := by
  have hlength := length_rulesPieces rules
  -- looking for another bar skips the blanks behind the last class
  have hskip := Token.length_skip_le ts
  have hagain := Token.skip_skip ts
  rw [hts] at hskip hagain
  refine .of_head Token.Kind.noConfusion fun us fuel hus hfuel => ?_
  rw [List.append_eq, List.length_append, Token.Piece.length_tokens] at hfuel
  rw [filters]
  refine (Parses.readLoose hus).bind (Parses.tokensLeft.bind
    ((parses_classRules hne hrules ?_ hts ht _).bind (h _ _ ?_ ?_)))
  · rw [List.append_eq, List.length_append, Token.Piece.length_tokens]
    omega
  · exact hagain.trans hts.symm
  · omega

theorem filters_syllables {range : SyllableRange}
    (hrange : range.min.isSome = true ∨ range.max.isSome = true)
    (h : Filters { q with syllables := some range } ts e q' e') (place : Position) :
    Filters q (tokens place (Modifier.syllables range).pieces ++ ts) e q' e' := by
  refine .of_head Token.Kind.noConfusion fun us fuel hus hfuel => ?_
  rw [Token.Piece.tokens_append, List.append_eq, List.append_assoc] at hus
  rw [filters]
  refine (Parses.readLoose hus).bind
    ((parses_syllables hrange _ _ rfl).bind (h _ _ rfl ?_))
  rw [List.append_eq, List.length_append] at hfuel
  exact Nat.lt_of_le_of_lt (Nat.le_add_left _ _) hfuel

theorem filters_regex (wanted : Bool) (r : Regex)
    (h : Filters { q with
        regexFilters := q.regexFilters ++ [⟨wanted, (r.indexIn e.regexes).toUInt32⟩] } ts
      { e with regexes := r.addTo e.regexes } q' e') (place : Position) :
    Filters q (tokens place (Modifier.regex wanted r).pieces ++ ts) e q' e' := by
  cases wanted
  all_goals
    refine .of_head Token.Kind.noConfusion fun us fuel hus hfuel => ?_
    rw [filters]
    exact (Parses.readLoose hus).bind ((parses_regex (e.addRegex_source r) _).bind
      (h _ _ rfl (Nat.lt_of_succ_lt hfuel)))

theorem filters_subtype (h : Filters { q with subtype := some name } ts e q' e') (place : Position) :
    Filters q (tokens place (Modifier.subtype name).pieces ++ ts) e q' e' := by
  refine .of_head Token.Kind.noConfusion fun us fuel hus hfuel => ?_
  rw [filters]
  refine (Parses.readLoose hus).bind ((Parses.expectText rfl).bind ?_)
  have hname : String.ofList (Token.Piece.text name).chars = name := String.ofList_toList
  rw [hname]
  exact h _ _ rfl (Nat.lt_of_succ_lt hfuel)

/-- A modifier is added to the query. -/
theorem filters_modifier {m : Modifier} (hm : m.IsWritable q.exclusive)
    (h : Filters (m.add q e.regexes).1 ts { e with regexes := (m.add q e.regexes).2 } q' e')
    (hts : skip ts = t :: us) (ht : t.kind ≠ .pipe) (place : Position) :
    Filters q (tokens place m.pieces ++ ts) e q' e' := by
  cases m with
  | classes rules => exact filters_classes hm.1 (fun r hr => (hm.2 r hr).2) hts ht h place
  | syllables range => exact filters_syllables hm h place
  | regex wanted r => exact filters_regex wanted r h place
  | subtype name => exact filters_subtype h place

theorem length_carriersPieces (carriers : List Carrier) :
    carriers.length ≤ (carriersPieces carriers).length := by
  have hne : ∀ ps ∈ carriers.map Carrier.pieces, ps ≠ [] := by
    intro ps hps
    obtain ⟨c, -, rfl⟩ := List.mem_map.1 hps
    exact List.append_ne_nil_of_right_ne_nil _ (List.cons_ne_nil _ _)
  have hle := Token.Piece.length_le_intercalate [.space] hne
  rwa [List.length_map] at hle

/-- The carriers and the bracket behind them end a query. -/
theorem filters_end (q : Query) (carriers : List Carrier) (e : Emitter) (place : Position) :
    Filters q (tokens place (Query.endPieces carriers)) e
      { q with carriers := q.carriers ++ carriers } e := by
  unfold Query.endPieces
  split
  · rename_i hnone
    subst hnone
    rw [List.append_nil]
    exact filters_close q e rfl
  · rename_i hsome
    have hlength := length_carriersPieces carriers
    refine .blank (.of_head Token.Kind.noConfusion fun us fuel hus hfuel => ?_) rfl
    rw [filters]
    refine (Parses.readLoose hus).bind (Parses.tokensLeft.bind
      ((parses_carriers q.carriers ?_ ?_ (Token.skip_cons Token.Kind.noConfusion) rfl _
        (congrArg skip (Token.Piece.tokens_append _))).bind ?_))
    · simp [hsome]
    · rw [Token.Piece.length_tokens, List.append_eq, List.length_append]
      omega
    · refine filters_close _ e rfl _ _ rfl (Nat.lt_of_le_of_lt ?_ hfuel)
      rw [Token.Piece.length_tokens, List.append_eq, List.length_append]
      exact Nat.le_add_left _ _

/-- What comes next in a query is a space or the end, and behind the space no bar. -/
theorem exists_tokens_restPieces (ms : List Modifier) (carriers : List Carrier) (place : Position) :
    ∃ t us, tokens place (Query.restPieces ms carriers) = t :: us ∧ t.kind ≠ .dollar ∧
      ∃ t' us', skip (t :: us) = t' :: us' ∧ t'.kind ≠ .pipe := by
  cases ms with
  | nil =>
    unfold Query.restPieces Query.endPieces
    split
    · exact ⟨_, _, rfl, Token.Kind.noConfusion, _, _, rfl, Token.Kind.noConfusion⟩
    · exact ⟨_, _, rfl, Token.Kind.noConfusion, _, _, rfl, Token.Kind.noConfusion⟩
  | cons m ms =>
    rw [Query.restPieces_cons]
    refine ⟨_, _, rfl, Token.Kind.noConfusion, ?_⟩
    cases m with
    | regex wanted r => cases wanted <;> exact ⟨_, _, rfl, Token.Kind.noConfusion⟩
    | _ => exact ⟨_, _, rfl, Token.Kind.noConfusion⟩

theorem exclusive_add (q : Query) (table : Array Regex) (m : Modifier) :
    (m.add q table).1.exclusive = q.exclusive := by
  cases m <;> rfl

/-- All that is written behind its table is added to a query. -/
theorem filters_rest (hms : ∀ m ∈ ms, m.IsWritable q.exclusive) (carriers : List Carrier) (e : Emitter)
    (place : Position) :
    Filters q (tokens place (Query.restPieces ms carriers)) e
      { (Modifier.addAll q e.regexes ms).1 with
        carriers := (Modifier.addAll q e.regexes ms).1.carriers ++ carriers }
      { e with regexes := (Modifier.addAll q e.regexes ms).2 } := by
  induction ms generalizing q e place with
  | nil => exact filters_end q carriers e place
  | cons m ms ih =>
    have hm := hms m List.mem_cons_self
    have hrest : ∀ m' ∈ ms, m'.IsWritable (m.add q e.regexes).1.exclusive := by
      rw [exclusive_add]
      exact fun m hm => hms m (List.mem_cons_of_mem _ hm)
    obtain ⟨t, us, hnext, -, t', us', hskip, hpipe⟩ := exists_tokens_restPieces ms carriers
      ((place.after [' ']).after (Token.Piece.spell m.pieces))
    rw [Query.restPieces_cons]
    refine .blank ?_ rfl
    rw [Token.Piece.tokens_append]
    exact filters_modifier hm (ih hrest _ _) (hnext ▸ hskip) hpipe _

/-! ## The whole query -/

theorem parses_table (h : isTableName name = true) (place : Position) :
    Parses table (⟨.text, name, place⟩ :: us) e (some name) us e := by
  refine (Parses.peekKindLoose (Token.skip_cons Token.Kind.noConfusion)).bind ?_
  rw [if_neg (by simp)]
  refine (Parses.expectText rfl).bind ?_
  rw [if_pos h]
  exact .pure

theorem kept_addAll (q : Query) (table : Array Regex) (ms : List Modifier) :
    (Modifier.addAll q table ms).1.table = q.table ∧
      (Modifier.addAll q table ms).1.carriers = q.carriers := by
  induction ms generalizing q table with
  | nil => exact ⟨rfl, rfl⟩
  | cons m ms ih =>
    obtain ⟨htable, hcarriers⟩ := ih (m.add q table).1 (m.add q table).2
    rw [Modifier.addAll, htable, hcarriers]
    cases m <;> exact ⟨rfl, rfl⟩

/-- Behind the table of a query comes the rest of it. -/
theorem parses_rest (htable : q.table = some name) (hcarriers : q.carriers = [])
    (hms : ∀ m ∈ ms, m.IsWritable q.exclusive) (carriers : List Carrier) (e : Emitter)
    (start place : Position) :
    Parses (do
      let q ← filters q ((← Compiling.tokensLeft) + 1)
      if q.table.isNone && q.carriers.isEmpty then Compiling.fail start .deleteWithoutCarriers
      else return q) (tokens place (Query.restPieces ms carriers)) e
      { (Modifier.addAll q e.regexes ms).1 with carriers } []
      { e with regexes := (Modifier.addAll q e.regexes ms).2 } := by
  obtain ⟨hkept, hnone⟩ := kept_addAll q e.regexes ms
  have hrest := filters_rest hms carriers e place
  rw [hnone, hcarriers, List.nil_append] at hrest
  refine Parses.tokensLeft.bind ((hrest _ _ rfl (Nat.lt_succ_self _)).bind ?_)
  rw [hkept, htable]
  exact .pure

/-- A query is read behind its opening bracket. -/
theorem parses_parse (hname : isTableName name = true) (hms : ∀ m ∈ ms, m.IsWritable exclusive)
    (carriers : List Carrier) (e : Emitter) (start place : Position) :
    Parses (parse start) (tokens place (.text name ::
        ((if exclusive then [⟨.dollar, ['$']⟩] else []) ++ Query.restPieces ms carriers))) e
      { (Modifier.addAll { table := some name, exclusive } e.regexes ms).1 with carriers } []
      { e with regexes := (Modifier.addAll { table := some name, exclusive } e.regexes ms).2 } := by
  have htext : String.ofList (Token.Piece.text name).chars = name := String.ofList_toList
  rw [tokens, htext]
  refine (parses_table hname place).bind ?_
  cases exclusive with
  | true => exact (Parses.take rfl).bind (parses_rest rfl rfl hms carriers e start _)
  | false =>
    have hrest := parses_rest (q := { table := some name }) rfl rfl hms carriers e start
      (place.after name.toList)
    obtain ⟨t, us, htokens, hdollar, -⟩ :=
      exists_tokens_restPieces ms carriers (place.after name.toList)
    refine Parses.bind ?_ hrest
    exact htokens ▸ Parses.take_of_ne hdollar

end Compile.Query

end Wordloom
