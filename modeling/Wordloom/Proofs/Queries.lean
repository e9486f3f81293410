import Wordloom.Proofs.Invariant

/-!
# Wordloom.Proofs.Queries

Constructs without patterns inside them: escapes and queries. To read a query changes nothing but the
tokens that are left and the table of regular expressions.
-/

namespace Wordloom.Compile

variable {lib : Option Registry} {α β : Type} {g : Setting} {n : Nat} {d : Draft}
  {c c' : Compilation}

/-! ## Reading -/

/-- Nothing but tokens has been read, and regular expressions have been collected. -/
def Skims (c c' : Compilation) : Prop :=
  ∃ r regexes, c' = { c with reader := r, out := { c.out with regexes := regexes } } ∧
    c.reader.Passes 0 r ∧ c.out.regexes.size ≤ regexes.size

theorem Skims.refl (c : Compilation) : Skims c c :=
  ⟨c.reader, c.out.regexes, rfl, .refl _, Nat.le_refl _⟩

theorem Skims.reader {r : Token.Reader} (h : c.reader.Passes 0 r) : Skims c { c with reader := r } :=
  ⟨r, c.out.regexes, rfl, h, Nat.le_refl _⟩

theorem Skims.trans {c'' : Compilation} (h : Skims c c') (h' : Skims c' c'') : Skims c c'' := by
  obtain ⟨r, regexes, rfl, hr, hsize⟩ := h
  obtain ⟨r', regexes', rfl, hr', hsize'⟩ := h'
  exact ⟨r', regexes', rfl, Nat.le_trans hr' hr, Nat.le_trans hsize hsize'⟩

/-- Filters stay valid, since the table only grows. -/
theorem Skims.allIn (h : Skims c c') {filters : List RegexFilter}
    (hfilters : RegexFilter.AllIn filters c.out.regexes) :
    RegexFilter.AllIn filters c'.out.regexes := by
  obtain ⟨r, regexes, rfl, -, hsize⟩ := h
  exact fun f hf => Nat.lt_of_lt_of_le (hfilters f hf) hsize

/-- An action that does no more than that. -/
def Skimming (x : Compiling α) : Prop := ∀ c, Yields x c fun _ c' => Skims c c'

namespace Skimming

theorem pure {a : α} : Skimming (pure a) := fun c => .pure (.refl c)

theorem fail {position : Position} {cause : Cause} :
    Skimming (Compiling.fail position cause : Compiling α) := fun _ => .fail

theorem bind {x : Compiling α} {f : α → Compiling β} (h : Skimming x) (hf : ∀ a, Skimming (f a)) :
    Skimming (x >>= f) := fun c =>
  .bind ((h c).mono fun a c' hc => (hf a c').mono fun _ _ hc' => hc.trans hc')

theorem ite {p : Prop} [Decidable p] {x y : Compiling α} (hx : Skimming x) (hy : Skimming y) :
    Skimming (if p then x else y) := by
  split
  · exact hx
  · exact hy

variable {wanted : String} {kind : Token.Kind}

theorem read : Skimming (Compiling.read wanted) := fun _ =>
  .read fun _ _ hr => .reader (Nat.le_of_succ_le hr)

theorem readLoose : Skimming (Compiling.readLoose wanted) := fun _ =>
  .readLoose fun _ _ hr => .reader (Nat.le_of_succ_le hr)

theorem expectLoose : Skimming (Compiling.expectLoose kind wanted) := fun _ =>
  .expectLoose fun _ _ hr => .reader (Nat.le_of_succ_le hr)

theorem take : Skimming (Compiling.take kind) := fun _ =>
  .take fun _ _ hr => .reader hr

theorem takeLoose : Skimming (Compiling.takeLoose kind) := fun _ =>
  .takeLoose fun _ _ hr => .reader hr

theorem peekKindLoose : Skimming Compiling.peekKindLoose := fun _ =>
  .peekKindLoose fun _ _ hr => .reader hr

theorem position : Skimming Compiling.position := fun c => .position (.refl c)

theorem lastPosition : Skimming Compiling.lastPosition := fun c => .lastPosition (.refl c)

theorem tokens : Skimming Compiling.tokens := fun c => .tokens (.refl c)

theorem tokensLeft : Skimming Compiling.tokensLeft := fun c => .tokensLeft (.refl c)

end Skimming

namespace Query

/-- A regular expression that is read has its place in the table. -/
theorem regex_yields (c : Compilation) :
    Yields regex c fun index c' => Skims c c' ∧ index.toNat < c'.out.regexes.size := by
  refine .bind ((Skimming.expectLoose c).mono fun token c₁ hc₁ => ?_)
  split
  · exact .fail
  · refine .bind (.get ?_)
    split
    · rename_i index out hadd
      refine .bind (.set (.pure ?_))
      have hindex : index.toUInt32.toNat ≤ index := Nat.mod_le _ _
      unfold Emitter.addRegex at hadd
      split at hadd
      · rename_i found hfound
        obtain ⟨hlt, -⟩ := Array.findIdx?_eq_some_iff_getElem.1 hfound
        cases hadd
        exact ⟨hc₁, Nat.lt_of_le_of_lt hindex hlt⟩
      · cases hcompile : Regex.compile _ with
        | error e =>
          rw [hcompile] at hadd
          cases hadd
        | ok regex =>
          rw [hcompile] at hadd
          cases hadd
          have hsize : (c₁.out.regexes.push regex).size = c₁.out.regexes.size + 1 :=
            Array.size_push _
          refine ⟨hc₁.trans ⟨c₁.reader, _, rfl, .refl _, ?_⟩, ?_⟩
          · omega
          · change _ < (c₁.out.regexes.push regex).size
            omega
    · exact .fail

theorem skimming_classRules (exclusive : Bool) : ∀ fuel, Skimming (classRules exclusive fuel)
  | 0 => .bind .position fun _ => .fail
  | fuel + 1 => by
    refine .bind .take fun negative => ?_
    have hrest : Skimming (do
        let name ← Compiling.expectLoose .text "class name"
        let rule : ClassRule := ⟨name.text, !negative⟩
        if ← Compiling.takeLoose .pipe then return rule :: (← classRules exclusive fuel)
        else return [rule]) :=
      .bind .expectLoose fun _ => .bind .takeLoose fun _ => .ite
        (.bind (skimming_classRules exclusive fuel) fun _ => .pure) .pure
    exact .ite (.bind .lastPosition fun _ => .bind .fail fun _ => hrest) hrest

theorem skimming_syllableParts : ∀ fuel, Skimming (syllableParts fuel)
  | 0 => .bind .position fun _ => .fail
  | fuel + 1 => by
    refine .bind .readLoose fun token => ?_
    split
    · exact .pure
    · exact .bind (skimming_syllableParts fuel) fun _ => .pure
    · exact .bind (skimming_syllableParts fuel) fun _ => .pure
    · exact .fail

theorem skimming_syllables (start : Position) : Skimming (syllables start) := by
  refine .bind .tokensLeft fun _ => .bind (skimming_syllableParts _) fun parts => ?_
  split
  · exact .pure
  · exact .fail

theorem skimming_association : Skimming association := by
  refine .bind .peekKindLoose fun kind => ?_
  have hrest : Skimming (do
      if ← Compiling.takeLoose .equal then return (associationOf kind).matching
      else return associationOf kind) := .bind .takeLoose fun _ => .ite .pure .pure
  exact .ite (.bind .read fun _ => hrest) hrest

theorem skimming_carrierKind? : Skimming carrierKind? := by
  refine .bind .position fun place => .bind .peekKindLoose fun kind => ?_
  split
  · exact .fail
  · exact .pure
  · exact .pure
  · exact .pure
  · exact .pure
  · exact .pure
  · exact .pure
  · exact .bind .read fun _ => .pure
  · exact .bind .read fun _ => .bind skimming_association fun _ => .pure
  · exact .bind .read fun _ => .bind .take fun _ => .ite .pure .pure
  · exact .bind .read fun _ => .pure
  · exact .bind .read fun _ => .fail

theorem skimming_carriers : ∀ fuel before, Skimming (carriers before fuel)
  | 0, _ => .bind .position fun _ => .fail
  | fuel + 1, before => by
    refine .bind .position fun place => .bind skimming_carrierKind? fun kind => ?_
    split
    · exact .ite .fail .pure
    · exact .bind .expectLoose fun _ => skimming_carriers fuel _

/-- An action that makes a query, of which the regular expressions are in the table if those of
`filters` are. -/
def Filtering (filters : List RegexFilter) (x : Compiling Wordloom.Query) : Prop :=
  ∀ c, RegexFilter.AllIn filters c.out.regexes →
    Yields x c fun q c' => Skims c c' ∧ RegexFilter.AllIn q.regexFilters c'.out.regexes

section

variable {fs : List RegexFilter}

theorem Filtering.bind {x : Compiling α} {f : α → Compiling Wordloom.Query} (h : Skimming x)
    (hf : ∀ a, Filtering fs (f a)) : Filtering fs (x >>= f) := fun c hfs =>
  .bind ((h c).mono fun a c₁ hc₁ => (hf a c₁ (hc₁.allIn hfs)).mono fun _ _ hc' =>
    ⟨hc₁.trans hc'.1, hc'.2⟩)

theorem Filtering.regex {wanted : Bool} {f : UInt32 → Compiling Wordloom.Query}
    (hf : ∀ index, Filtering (fs ++ [⟨wanted, index⟩]) (f index)) :
    Filtering fs (Query.regex >>= f) := by
  refine fun c hfs => .bind ((regex_yields c).mono fun index c₁ hc₁ => ?_)
  refine (hf index c₁ ?_).mono fun _ _ hc' => ⟨hc₁.1.trans hc'.1, hc'.2⟩
  intro filter hfilter
  obtain hfilter | hfilter := List.mem_append.1 hfilter
  · exact hc₁.1.allIn hfs filter hfilter
  · cases List.mem_singleton.1 hfilter
    exact hc₁.2

end

theorem filtering_filters : ∀ fuel q, Filtering q.regexFilters (filters q fuel)
  | 0, _ => .bind .position fun _ _ _ => .fail
  | fuel + 1, q => by
    refine .bind .readLoose fun token => ?_
    split
    · exact fun c hq => .pure ⟨.refl c, hq⟩
    · exact .bind .expectLoose fun subtype =>
        filtering_filters fuel { q with subtype := some subtype.text }
    · exact .bind .tokensLeft fun _ => .bind (skimming_classRules _ _) fun rules =>
        filtering_filters fuel { q with classFilter := q.classFilter ++ [rules] }
    · exact .bind (skimming_syllables _) fun range =>
        filtering_filters fuel { q with syllables := some range }
    · exact .regex fun index => filtering_filters fuel
        { q with regexFilters := q.regexFilters ++ [⟨token.kind = .question, index⟩] }
    · exact .regex fun index => filtering_filters fuel
        { q with regexFilters := q.regexFilters ++ [⟨token.kind = .question, index⟩] }
    · exact .bind .tokensLeft fun _ => .bind (skimming_carriers _ _) fun carriers =>
        filtering_filters fuel { q with carriers }
    · exact fun _ _ => .fail

theorem skimming_table : Skimming table := by
  refine .bind .peekKindLoose fun kind => .ite .pure ?_
  exact .bind .expectLoose fun _ => .ite .pure .fail

/-- The filters of a query name regular expressions of the table. -/
theorem parse_yields (start : Position) (c : Compilation) :
    Yields (parse start) c fun q c' =>
      Skims c c' ∧ RegexFilter.AllIn q.regexFilters c'.out.regexes := by
  refine .bind ((skimming_table c).mono fun table c₁ hc₁ => ?_)
  refine .bind ((Skimming.take c₁).mono fun exclusive c₂ hc₂ => .bind (.tokensLeft ?_))
  refine .bind ((filtering_filters _ { table, exclusive } c₂ (by nofun)).mono fun q c₃ hc₃ => ?_)
  split
  · exact .fail
  · exact .pure ⟨hc₁.trans (hc₂.trans hc₃.1), hc₃.2⟩

end Query

/-- A query that is read leaves the invariant as it is. -/
theorem Inv.skims (h : Inv lib g n d c) (hc : Skims c c') : Inv lib g n d c' := by
  have hfilters := fun q hq => hc.allIn (h.around.tables.filters q hq)
  obtain ⟨r, regexes, rfl, hr, hsize⟩ := hc
  have hread := h.around.reader hr
  have hle : Reach.Le ⟨c.out.tables, g.after d, g.arity⟩
      ⟨{ c.out with regexes := regexes }.tables, g.after d, g.arity⟩ :=
    ⟨⟨fun _ _ _ hb => hb, Nat.le_refl _, fun _ _ hp => hp⟩, fun _ _ hknown => hknown, rfl⟩
  refine ⟨h.follows.congr rfl, h.blocks, h.sound.mono hle, ?_⟩
  exact
    { hread with
      tables := ⟨hread.tables.blocks, hread.tables.queries, hfilters, hread.tables.names,
        hread.tables.imports⟩
      growth := ⟨hread.growth.size, hread.growth.blocks, hread.growth.queries,
        hread.growth.references⟩ }

/-! ## Acts -/

/-- An act on operands is complete with its instructions. -/
theorem Part.finishAct {os : Operands} {a : Act}
    (h : Part lib g d (os.lines d.finish ++ a.lines) (os.definitions d.finish)
      (fun s => os.Sound lib s d.finish) n c)
    (hended : c.out.Ended (d.lines ++ (os.lines d.finish ++ a.lines)))
    (harity : os.length = a.arity)
    (hsound : a.Sound c.out.tables g.arity (d.finish + os.size)) :
    Inv lib g n (d.add (.act os a .nil)) c := by
  refine h.finishAs hended ?_ ?_ ?_
  · rw [Code.lines, Code.lines, List.append_nil]
  · rw [Code.definitions, Code.definitions, List.append_nil]
  · rw [Code.Sound, Code.Sound]
    exact ⟨h.sound, harity, hsound, trivial⟩

/-- There are no operands yet. -/
theorem Inv.operands (h : Inv lib g n d c) :
    Part lib g d (Operands.nil.lines d.finish) (Operands.nil.definitions d.finish)
      (fun s => Operands.nil.Sound lib s d.finish) n c := by
  rw [Operands.lines, Operands.definitions]
  exact h.part.imp fun s _ => by rw [Operands.Sound]; trivial

/-- An act without operands that is one instruction. -/
theorem Inv.act (h : Inv lib g n d c) (a : Act) {i : Instr} (hlines : a.lines = [.plain i])
    (hi : i.namesString = false) (harity : a.arity = 0)
    (hsound : a.Sound c.out.tables g.arity d.finish) :
    Inv lib g n (d.add (.act .nil a .nil)) { c with out := c.out.emit i } := by
  have hpart := h.operands.emit hi
  have hended := h.operands.ended_emit hi
  rw [← hlines] at hpart hended
  exact hpart.finishAct hended harity.symm hsound

/-! ## Escapes -/

theorem Escape.charClass?_of_mem {letter : Char} (h : letter ∈ Escape.charClasses) :
    ∃ chars, Running.charClass? (Char.ofNat letter.toNat.toUInt8.toNat) = some chars := by
  simp only [Escape.charClasses, List.mem_cons, List.not_mem_nil, or_false] at h
  obtain rfl | rfl | rfl | rfl | rfl | rfl | rfl | rfl := h <;> exact ⟨_, rfl⟩

theorem Escape.mem_charClasses {code : List Char} {letter : Char}
    (h : Escape.ofCode? code = some (.randomChars letter)) : letter ∈ Escape.charClasses := by
  revert h
  fun_cases Escape.ofCode? code with
  | case1 c =>
    intro h
    unfold Escape.ofChar? at h
    split at h
    · rename_i escape hnamed
      cases h
      obtain ⟨front, back, hnamed, -⟩ := List.lookup_eq_some_iff.1 hnamed
      have hmem : (c, .randomChars letter) ∈ Escape.named := by simp [hnamed]
      simp [Escape.named] at hmem
    · split at h
      · rename_i hcontains
        cases h
        exact List.contains_iff_mem.1 hcontains
      · split at h <;> cases h
  | case2 => simp [Option.bind_eq_some_iff]
  | case3 => simp
  | case4 => simp

/-- An escape is compiled behind the draft. -/
theorem escape_drafts {front : List Line} (token : Token) (h : Drafted lib g 1 front c) :
    Yields (escape token) c fun _ => Drafted lib g 0 front := by
  obtain ⟨d, rfl, hinv⟩ := h
  unfold escape
  split
  · exact .fail
  · split
    · exact .fail
    · split
      · exact .pure hinv.drafted
      · exact .output (hinv.print _).drafted
  · rename_i count letter htext
    have hletter : letter ∈ Escape.charClasses := by
      unfold Escape.ofText? at htext
      dsimp only at htext
      split at htext
      · obtain ⟨e, he, heq⟩ := Option.map_eq_some_iff.1 htext
        cases heq
        exact Escape.mem_charClasses he
      · cases htext
    split
    · exact .output (hinv.act (.chars letter.toNat.toUInt8 (Int32.ofNat count)) rfl rfl rfl
        (Escape.charClass?_of_mem hletter)).drafted
    · exact .fail
  · exact .output (hinv.act .article rfl rfl rfl trivial).drafted

/-! ## Queries -/

/-- A query is compiled behind the draft. -/
theorem query_drafts {front : List Line} (start : Position) (h : Drafted lib g 1 front c) :
    Yields (query start) c fun _ => Drafted lib g 0 front := by
  obtain ⟨d, rfl, hinv⟩ := h
  refine .bind ((Query.parse_yields start c).mono fun q c₁ hc₁ => .bind (.get (.set ?_)))
  obtain ⟨hskims, hfilters⟩ := hc₁
  have hinv := hinv.skims hskims
  have hposition : c₁.out.position = d.finish := by
    rw [hinv.part.position, Line.sizes_nil, Nat.add_zero]
  have htables := hinv.around.tables
  have hemit := (c₁.out.addQuery q).2.position_emit (.query (Int32.ofNat c₁.out.queries.size))
  have hsize : (Instr.query (Int32.ofNat c₁.out.queries.size)).size = 5 := rfl
  have hkept : (c₁.out.addQuery q).2.position = c₁.out.position := rfl
  have hqueries : (c₁.out.queries.push q).size = c₁.out.queries.size + 1 := Array.size_push _
  have hextends : c₁.out.tables.Extends (c₁.out.addQuery q).2.tables :=
    ⟨Nat.le_refl _, fun _ _ => rfl, by
      change c₁.out.queries.size ≤ (c₁.out.queries.push q).size
      omega, fun _ _ hp => hp⟩
  have hok : TablesOk lib
      ((c₁.out.addQuery q).2.emit (.query (Int32.ofNat c₁.out.queries.size))) := by
    refine ⟨?_, ?_, ?_, htables.names, htables.imports⟩
    · have hblocks := htables.blocks
      rw [hemit]
      change c₁.out.blocks.size ≤ _
      omega
    · have hle := htables.queries
      rw [hemit]
      change (c₁.out.queries.push q).size ≤ _
      omega
    · intro other hother
      obtain hother | rfl := Array.mem_push.1 hother
      · exact htables.filters other hother
      · exact hfilters
  obtain ⟨hpart, hended⟩ :=
    hinv.operands.emitTo (fun _ _ hs hS => Operands.Sound.mono hs.le hS) (c₁.out.addQuery q).2
      (.query (Int32.ofNat c₁.out.queries.size)) rfl rfl hextends
      (fun _ hj => .inl hj) hok
  refine (Part.finishAct (a := .query c₁.out.queries.size) hpart hended rfl ⟨?_, ?_⟩).drafted
  · have hle := htables.queries
    omega
  · change c₁.out.queries.size < (c₁.out.queries.push q).size
    omega

end Wordloom.Compile
