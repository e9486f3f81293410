import Wordloom.Proofs.Checks
import Wordloom.Proofs.Compiled
import Wordloom.Proofs.Emissions
import Wordloom.Proofs.QueryReading

/-!
# Wordloom.Proofs.QueryRoundTrip

A query that is compiled from its written form is the query again. Its filters refer to the regular
expressions of the program then, which are numbered in the order in which they are first read.
-/

namespace Wordloom

/-! ## Regular expressions by number -/

theorem Regex.eq_of_source {r r' : Regex} (h : r.source = r'.source) : r = r' := by
  have hr := Container.compile_source r
  rw [h, Container.compile_source r'] at hr
  exact (Except.ok.inj hr).symm

section

variable {table : Array Regex} {r r' : Regex} {i : Nat}

theorem Regex.eq_of_findIdx? (h : table.findIdx? (·.source == r.source) = some i) :
    table[i]? = some r := by
  obtain ⟨hi, hsource, -⟩ := Array.findIdx?_eq_some_iff_getElem.1 h
  rw [Array.getElem?_eq_getElem hi, Regex.eq_of_source (eq_of_beq hsource)]

/-- A regular expression stands where its index says. -/
theorem Regex.getElem?_indexIn (table : Array Regex) (r : Regex) :
    (r.addTo table)[r.indexIn table]? = some r := by
  unfold addTo indexIn
  cases h : table.findIdx? (·.source == r.source) with
  | some i => exact eq_of_findIdx? h
  | none => simp

/-- Those that are in a table already stay where they are. -/
theorem Regex.getElem?_addTo (r : Regex) (h : table[i]? = some r') :
    (r.addTo table)[i]? = some r' := by
  unfold addTo
  split
  · exact h
  · obtain ⟨hi, -⟩ := Array.getElem?_eq_some_iff.1 h
    rw [Array.getElem?_push, if_neg (Nat.ne_of_lt hi), h]

end

/-- A table of some of the regular expressions that numbers of 32 bits stand for, each once. -/
structure Regex.Lists (regexes : UInt32 → Regex) (table : Array Regex) : Prop where
  nodup : table.toList.Nodup
  listed : ∀ r ∈ table, ∃ i, regexes i = r

namespace Regex.Lists

variable {regexes : UInt32 → Regex} {table : Array Regex}

/-- There are no more of them than numbers. -/
theorem size_le (h : Lists regexes table) : table.size ≤ UInt32.size := by
  have hsub : table.toList ⊆ (List.range UInt32.size).map fun n => regexes n.toUInt32 := by
    intro r hr
    obtain ⟨i, rfl⟩ := h.listed r (Array.mem_toList_iff.1 hr)
    exact List.mem_map.2 ⟨i.toNat, List.mem_range.2 i.toNat_lt_size, by simp⟩
  have hle := (List.subperm_of_subset h.nodup hsub).length_le
  rwa [List.length_map, List.length_range, Array.length_toList] at hle

theorem addTo (h : Lists regexes table) (i : UInt32) : Lists regexes ((regexes i).addTo table) := by
  unfold Regex.addTo
  split
  · exact h
  · rename_i hnew
    have hnone := Array.findIdx?_eq_none_iff.1 (Option.not_isSome_iff_eq_none.1 hnew)
    refine ⟨?_, fun r hr => ?_⟩
    · rw [Array.toList_push, List.nodup_append]
      refine ⟨h.nodup, by simp, fun r hr r' hr' heq => ?_⟩
      have hsource := hnone r (Array.mem_toList_iff.1 hr)
      simp [heq, List.mem_singleton.1 hr'] at hsource
    · obtain hr | rfl := Array.mem_push.1 hr
      · exact h.listed r hr
      · exact ⟨i, rfl⟩

end Regex.Lists

/-- Both filters ask for the same, the first by its number in `regexes` and the second by its index
in `table`. -/
def RegexFilter.SameIn (regexes : UInt32 → Regex) (table : Array Regex) (f f' : RegexFilter) : Prop :=
  f'.wanted = f.wanted ∧ table[f'.regex.toNat]? = some (regexes f.regex)

namespace Modifier

variable {regexes : UInt32 → Regex} {table : Array Regex}

/-- Filters are numbered as they are added, and their numbers are kept from then on. -/
theorem addAll_filters (h : Regex.Lists regexes table) (q : Query) (fs : List RegexFilter) :
    ∃ fs' table', addAll q table (fs.map fun f => .regex f.wanted (regexes f.regex)) =
        ({ q with regexFilters := q.regexFilters ++ fs' }, table') ∧
      (∀ (i : Nat) r, table[i]? = some r → table'[i]? = some r) ∧
      List.Forall₂ (RegexFilter.SameIn regexes table') fs fs' := by
  induction fs generalizing q table with
  | nil => exact ⟨[], table, by rw [List.append_nil]; rfl, fun _ _ => id, .nil⟩
  | cons f fs ih =>
    have hlists := h.addTo f.regex
    obtain ⟨fs', table', hadd, hkept, hsame⟩ := ih hlists
      { q with
        regexFilters := q.regexFilters ++ [⟨f.wanted, ((regexes f.regex).indexIn table).toUInt32⟩] }
    have hstands := Regex.getElem?_indexIn table (regexes f.regex)
    obtain ⟨hindex, -⟩ := Array.getElem?_eq_some_iff.1 hstands
    -- the table is too short for an index that does not fit
    have hexact : ((regexes f.regex).indexIn table).toUInt32.toNat =
        (regexes f.regex).indexIn table :=
      Nat.mod_eq_of_lt (Nat.lt_of_lt_of_le hindex hlists.size_le)
    refine ⟨⟨f.wanted, ((regexes f.regex).indexIn table).toUInt32⟩ :: fs', table', ?_, ?_, ?_⟩
    · rw [List.map_cons, addAll, add, hadd, List.append_assoc, List.singleton_append]
    · exact fun i r hr => hkept i r (Regex.getElem?_addTo _ hr)
    · exact .cons ⟨rfl, by rw [hexact]; exact hkept _ _ hstands⟩ hsame

theorem addAll_append (q : Query) (table : Array Regex) (ms ms' : List Modifier) :
    addAll q table (ms ++ ms') = addAll (addAll q table ms).1 (addAll q table ms).2 ms' := by
  induction ms generalizing q table with
  | nil => rfl
  | cons m ms ih => exact ih _ _

theorem addAll_classes (q : Query) (table : Array Regex) (filter : List (List ClassRule)) :
    addAll q table (filter.map .classes) =
      ({ q with classFilter := q.classFilter ++ filter }, table) := by
  induction filter generalizing q with
  | nil => rw [List.append_nil]; rfl
  | cons rules filter ih =>
    rw [List.map_cons, addAll, add, ih, List.append_assoc, List.singleton_append]

theorem addAll_syllables (q : Query) (table : Array Regex) (range : Option SyllableRange) :
    addAll q table (range.toList.map .syllables) =
      ({ q with syllables := range.or q.syllables }, table) := by
  cases range <;> rfl

theorem addAll_subtype (q : Query) (table : Array Regex) (name : Option String) :
    addAll q table (name.toList.map .subtype) =
      ({ q with subtype := name.or q.subtype }, table) := by
  cases name <;> rfl

/-- The modifiers of a query make the query, with numbers of its own for the filters. -/
theorem addAll_modifiers (regexes : UInt32 → Regex) (q : Query) :
    ∃ filters table,
      addAll { table := q.table, exclusive := q.exclusive } #[] (q.modifiers regexes) =
        ({ q with regexFilters := filters, carriers := [] }, table) ∧
      List.Forall₂ (RegexFilter.SameIn regexes table) q.regexFilters filters := by
  have hempty : Regex.Lists regexes #[] := ⟨.nil, fun r hr => by simp at hr⟩
  obtain ⟨filters, table, hadd, -, hsame⟩ := addAll_filters hempty
    { table := q.table, exclusive := q.exclusive, classFilter := q.classFilter,
      syllables := q.syllables } q.regexFilters
  refine ⟨filters, table, ?_, hsame⟩
  simp only [Query.modifiers, addAll_append, addAll_classes, addAll_syllables, List.nil_append,
    Option.or_none] at hadd ⊢
  rw [hadd, addAll_subtype, Option.or_none]

end Modifier

namespace Compile

open Token

variable {ctx : Context} {ts : List Token} {e e' : Emitter} {start : Position}

/-! ## The program of a query -/

/-- A program with a query added, and the instruction that runs it. -/
def withQuery (e : Emitter) (q : Query) : Emitter :=
  (e.addQuery q).2.emit (.query (Int32.ofNat (e.addQuery q).1))

theorem parses_open (ctx : Context) (text : String) :
    Parses (Construct.resume ctx (.pattern .root)) (⟨.leftAngle, text, start⟩ :: ts) e
      (.push (.pattern .root) (.query start)) ts (e.mark start) :=
  Parses.rest (Parses.read.bind ((Parses.output _).bind .pure))

theorem parses_end (ctx : Context) (e : Emitter) :
    Parses (Construct.resume ctx (.pattern .root)) [] e .done [] e := Parses.rest .pure

theorem parses_query {q : Query} (ctx : Context) (h : Parses (Query.parse start) ts e q [] e') :
    Parses (Construct.resume ctx (.query start)) ts e .done [] (withQuery e' q) := by
  have hquery : Parses (query start) ts e () [] (withQuery e' q) := h.bind fun c hrest hout =>
    ⟨{ c with out := withQuery c.out q }, rfl, hrest, by rw [hout]⟩
  exact hquery.bind .pure

/-- A source that is a query is compiled to its instruction. -/
theorem parses_source {q : Query} (ctx : Context) (text : String)
    (h : Parses (Query.parse start) ts (e.mark start) q [] e')
    (hsize : (withQuery e' q).position < 0x80000000) :
    Parses (source ctx) (⟨.leftAngle, text, start⟩ :: ts) e () [] (withQuery e' q) := by
  have hdone (fuel : Nat) : Parses (run ctx fuel []) [] (withQuery e' q) () [] (withQuery e' q) := by
    rw [run]
    exact .pure
  have hrun (fuel : Nat) : Parses (run ctx (fuel + 3) [.pattern .root])
      (⟨.leftAngle, text, start⟩ :: ts) e () [] (withQuery e' q) :=
    (parses_open ctx text).bind ((parses_query ctx h).bind ((parses_end ctx _).bind (hdone fuel)))
  refine Parses.tokensLeft.bind ((hrun _).bind (Parses.offset.bind ?_))
  rw [if_neg (Nat.not_le_of_lt hsize)]
  exact .pure

/-- The tables of a program that is a query. -/
theorem compile_of_parses {q : Query} {source text : String} (ctx : Context) (name : String)
    (hscan : scan source = ⟨.leftAngle, text, start⟩ :: ts)
    (hmark : ({ debug := ctx.debug } : Emitter).mark start = e)
    (hparse : Parses (Query.parse start) ts e q [] e') (hcode : e'.code = e.code) :
    ∃ p, compile ctx name source = .ok p ∧ p.tables = (withQuery e' q).tables := by
  subst hmark
  have hsize : (withQuery e' q).position < 0x80000000 := by
    have hle : (({ debug := ctx.debug } : Emitter).mark start).code.size ≤ 0 + 13 :=
      Emitter.position_mark_le _ _
    have hemit : (withQuery e' q).position = e'.code.size + 5 := Emitter.position_emit _ _
    rw [hemit, hcode]
    omega
  obtain ⟨c, hc, -, hout⟩ := parses_source ctx text hparse hsize (.start ctx source) hscan rfl
  refine ⟨c.out.build name, ?_, ?_⟩
  · unfold compile
    rw [hc]
  · rw [tables_build, hout]

theorem isTableName_of_forall {name : String} (hname : IsName name)
    (h : ∀ c ∈ name.toList, Text.isLetterOrNumeral c = true ∨ c = '_') :
    Query.isTableName name = true := by
  have hne : name ≠ "" := by
    rintro rfl
    exact (isText_of_scan hname).1 rfl
  have hall : (name.toList.all fun c => Text.isLetterOrNumeral c || c == '_' || c == '-') = true := by
    rw [List.all_eq_true]
    intro c hc
    obtain hc | hc := h c hc <;> simp [hc]
  simpa [Query.isTableName, String.all_bool_eq, hne] using hall

/-- **Queries are compiled from what they are written as.** The program of a query that can be written
has that query and no other, and each of its filters refers to the regular expression that it was
written with. -/
theorem compile_querySource {regexes : UInt32 → Regex} {q : Query} (h : q.IsWritable regexes)
    (ctx : Context) (name : String) :
    ∃ p filters, compile ctx name (q.source regexes) = .ok p ∧
      p.queries = #[{ q with regexFilters := filters }] ∧
      List.Forall₂ (RegexFilter.SameIn regexes p.regexes) q.regexFilters filters := by
  obtain ⟨tableName, htable, hisName, hchars⟩ := h.table
  obtain ⟨filters, table, hadd, hsame⟩ := Modifier.addAll_modifiers regexes q
  have hscan := Query.scan_source h htable
  have htables := Emitter.tables_mark { debug := ctx.debug } .start
  generalize hmark : ({ debug := ctx.debug } : Emitter).mark .start = e at htables
  have hregexes : e.regexes = #[] := congrArg Tables.regexes htables
  have hqueries : e.queries = #[] := congrArg Tables.queries htables
  have hparse := Query.parses_parse (isTableName_of_forall hisName hchars) h.modifiers q.carriers e
    .start (Position.start.after ['<'])
  rw [hregexes, ← htable, hadd] at hparse
  obtain ⟨p, hcompile, hp⟩ := compile_of_parses ctx name hscan hmark hparse rfl
  have hpregexes : p.regexes = table := congrArg Tables.regexes hp
  refine ⟨p, filters, hcompile, ?_, ?_⟩
  · have hpqueries : p.queries = e.queries.push { q with regexFilters := filters } :=
      congrArg Tables.queries hp
    rw [hpqueries, hqueries]
    rfl
  · rw [hpregexes]
    exact hsame

/-- Two expressions, one of which has a slash and is asked for twice, are numbered anew. -/
theorem compile_querySource_sample :
    ∃ slash letters : Regex, slash.source = "a/b" ∧ letters.source = "[xy]+" ∧
      ∃ p filters, compile { registry := Standard.registry } "main"
        "<noun$ -animal|plant -tall (2-) ?//a\\/b// ?!//[xy]+// ?//a\\/b// .plural ::@?=a !b>" = .ok p ∧
      p.queries = #[{
        table := some "noun"
        exclusive := true
        classFilter := [[⟨"animal", true⟩, ⟨"plant", true⟩], [⟨"tall", true⟩]]
        regexFilters := filters
        syllables := some ⟨some 2, none⟩
        subtype := some "plural"
        carriers := [⟨.matchRelational, "a"⟩, ⟨.unique, "b"⟩] }] ∧
      List.Forall₂ (RegexFilter.SameIn (fun i => if i = 7 then slash else letters) p.regexes)
        [⟨true, 7⟩, ⟨false, 1⟩, ⟨true, 7⟩] filters := by
  have hslash : (Regex.Expr.parse "a/b").toOption.isSome := by decide +kernel
  have hletters : (Regex.Expr.parse "[xy]+").toOption.isSome := by decide +kernel
  obtain ⟨slashExpr, hslash⟩ := Option.isSome_iff_exists.1 hslash
  obtain ⟨lettersExpr, hletters⟩ := Option.isSome_iff_exists.1 hletters
  let slash : Regex := ⟨"a/b", slashExpr, toOption_eq_some.1 hslash⟩
  let letters : Regex := ⟨"[xy]+", lettersExpr, toOption_eq_some.1 hletters⟩
  let q : Query := {
    table := some "noun"
    exclusive := true
    classFilter := [[⟨"animal", true⟩, ⟨"plant", true⟩], [⟨"tall", true⟩]]
    regexFilters := [⟨true, 7⟩, ⟨false, 1⟩, ⟨true, 7⟩]
    syllables := some ⟨some 2, none⟩
    subtype := some "plural"
    carriers := [⟨.matchRelational, "a"⟩, ⟨.unique, "b"⟩] }
  have hwritable : q.IsWritable fun i => if i = 7 then slash else letters := by
    have hnames : IsName "noun" ∧ IsName "animal" ∧ IsName "plant" ∧ IsName "tall" ∧
        IsName "plural" ∧ IsName "a" ∧ IsName "b" := by decide +kernel
    have htable : ("noun".toList.all fun c => Text.isLetterOrNumeral c || c == '_') = true := by
      decide +kernel
    refine ⟨⟨"noun", rfl, hnames.1, fun c hc => ?_⟩, ?_, ?_⟩
    · simpa using List.all_eq_true.1 htable c hc
    · simp [q, Query.modifiers, Modifier.IsWritable, slash, letters, hnames]
    · simp [q, hnames]
  have hsource : q.source (fun i => if i = 7 then slash else letters) =
      "<noun$ -animal|plant -tall (2-) ?//a\\/b// ?!//[xy]+// ?//a\\/b// .plural ::@?=a !b>" := by
    have htwo : Nat.repr 2 = "2" := by decide +kernel
    simp [q, slash, letters, Query.source, Query.modifiers, Modifier.source, ClassRule.source,
      SyllableRange.source, SyllableRange.bound, Token.escapeSlashes, Query.carriersSource,
      Carrier.source, CarrierKind.sign, htwo]
  refine ⟨slash, letters, rfl, rfl, ?_⟩
  rw [← hsource]
  exact compile_querySource hwritable _ _

end Compile

end Wordloom
