import Wordloom.Proofs.CompileTags

/-!
# Wordloom.Proofs.Compiled

Compiled programs. Every construct keeps the invariant of the pattern that it is in, whatever it is
nested in; so a program that is compiled is one of sound code.
-/

namespace Wordloom.Compile

variable {ctx : Context} {lib : Option Registry} {g : Setting} {front : List Line} {d : Draft}
  {n : Nat} {c c' : Compilation}

/-! ## Constructs -/

/-- What holds when a construct is gone on with. -/
def Construct.Waits (lib : Option Registry) (g : Setting) (front : List Line) :
    Construct → Compilation → Prop
  | .pattern _, c => Drafted lib g 0 front c
  | .escape _, c | .query _, c | .tag _, c | .block, c => Drafted lib g 1 front c
  | .argument t after, c => WaitsForArgument lib g front t after c
  | .weight b offset, c => WaitsForWeight lib g front b offset c
  | .item b, c => WaitsForItem lib g front b c

/-- What a step of a construct leads to: it is done, or it waits for one inside it. -/
def Step.Continues (lib : Option Registry) (g : Setting) (front : List Line) :
    Step → Compilation → Prop
  | .done, c => Drafted lib g 0 front c
  | .push self child, c => ∃ (g' : Setting) (front' : List Line), child.Waits lib g' front' c ∧
      ∀ c', Drafted lib g' 0 front' c' → self.Waits lib g front c'

/-- The pattern inside has a setting of its own. -/
theorem Inside.pattern {ls : List Line} {defs : List Definition} {S : Reach → Prop}
    (h : Inside lib g d ls defs S n c) :
    ∃ (g' : Setting) (front' : List Line), Drafted lib g' 0 front' c ∧
      ∀ c', Drafted lib g' 0 front' c' → Inside lib g d ls defs S n c' := by
  obtain ⟨before, hpart, hmono, hdrafted⟩ := h
  exact ⟨_, _, hdrafted, fun c' hdrafted' => ⟨before, hpart, hmono, hdrafted'⟩⟩

theorem Block.Continues.step {step : Step} (h : Block.Continues lib g front step c) :
    step.Continues lib g front c := by
  cases h with
  | done h => exact h
  | weight h =>
    obtain ⟨d, choices, hfront, hfresh, hitems, hoffset, hinside⟩ := h
    obtain ⟨g', front', hdrafted, hnext⟩ := hinside.pattern
    exact ⟨g', front', hdrafted, fun c' hc' =>
      ⟨d, choices, hfront, hfresh, hitems, hoffset, hnext c' hc'⟩⟩
  | item h =>
    obtain ⟨d, choices, head, hfront, hfresh, hitems, hinside⟩ := h
    obtain ⟨g', front', hdrafted, hnext⟩ := hinside.pattern
    exact ⟨g', front', hdrafted, fun c' hc' =>
      ⟨d, choices, head, hfront, hfresh, hitems, hnext c' hc'⟩⟩

theorem WaitsForArgument.pattern {t : OpenTag} {after : After}
    (h : WaitsForArgument lib g front t after c) :
    ∃ (g' : Setting) (front' : List Line), Drafted lib g' 0 front' c ∧
      ∀ c', Drafted lib g' 0 front' c' → WaitsForArgument lib g front t after c' := by
  cases h with
  | capture numeric hfront h hdeferred hmax hmode hcompares hinside =>
    obtain ⟨g', front', hdrafted, hnext⟩ := hinside.pattern
    exact ⟨g', front', hdrafted, fun c' hc' =>
      .capture numeric hfront h hdeferred hmax hmode hcompares (hnext c' hc')⟩
  | outOfLine hfront h hdeferred hmax hmode hcompares hinside =>
    obtain ⟨g', front', hdrafted, hnext⟩ := hinside.pattern
    exact ⟨g', front', hdrafted, fun c' hc' =>
      .outOfLine hfront h hdeferred hmax hmode hcompares (hnext c' hc')⟩
  | yes hfront hbranch hinside =>
    obtain ⟨g', front', hdrafted, hnext⟩ := hinside.pattern
    exact ⟨g', front', hdrafted, fun c' hc' => .yes hfront hbranch (hnext c' hc')⟩
  | no hfront hbranch hindex hinside =>
    obtain ⟨g', front', hdrafted, hnext⟩ := hinside.pattern
    exact ⟨g', front', hdrafted, fun c' hc' => .no hfront hbranch hindex (hnext c' hc')⟩
  | body hfront haction hmin hmax hindex h =>
    exact ⟨_, _, h.drafted, fun c' hc' =>
      .body hfront haction hmin hmax hindex ⟨h.code, h.around, hc'⟩⟩

theorem Tag.Continues.step {step : Step} (h : Tag.Continues lib g front step c) :
    step.Continues lib g front c := by
  cases h with
  | done h => exact h
  | argument h => exact h.pattern

/-! ## Patterns -/

theorem Inv.mark (h : Inv lib g n d c) (p : Position) :
    Drafted lib g n d.front { c with out := c.out.mark p } := by
  unfold Emitter.mark
  split
  · exact ⟨d.add (.act .nil (.mark p) .nil), rfl, h.act (.mark p) rfl rfl rfl trivial⟩
  · exact ⟨d, rfl, h⟩

/-- A construct is entered inside a pattern. -/
theorem enter_yields (h : Drafted lib g 1 front c) (stop : Terminator) (token : Token)
    {child : Construct} (hchild : ∀ c', Drafted lib g 1 front c' → child.Waits lib g front c') :
    Yields (enter stop token child) c (Step.Continues lib g front) := by
  obtain ⟨d, rfl, hinv⟩ := h
  exact .bind (.output (.pure ⟨g, d.front, hchild _ (hinv.mark token.position), fun _ hc' => hc'⟩))

theorem pattern_yields (stop : Terminator) (tokens : List Token) (h : Drafted lib g 0 front c) :
    Yields (pattern stop tokens) c (Step.Continues lib g front) := by
  induction tokens generalizing c with
  | nil =>
    unfold pattern
    split
    · exact .pure h
    · exact .bind (.position .fail)
  | cons token tokens ih =>
    unfold pattern
    split
    · exact .pure h
    · refine .bind (.read fun _ r hr => ?_)
      obtain ⟨d, rfl, hinv⟩ := h
      have hread : Drafted lib g 1 d.front { c with reader := r } := ⟨d, rfl, by
        simpa using hinv.reader hr⟩
      split
      · exact .fail
      · exact .fail
      · exact .fail
      · exact enter_yields hread stop token fun _ hc' => hc'
      · exact enter_yields hread stop token fun _ hc' => hc'
      · exact enter_yields hread stop token fun _ hc' => hc'
      · exact enter_yields hread stop token fun _ hc' => hc'
      · exact .fail
      · obtain ⟨d', hfront, hinv'⟩ := hread
        refine .bind (.output (ih ?_))
        exact ⟨d'.print token.value, hfront, hinv'.print token.value⟩

/-- Every construct keeps the invariant. -/
theorem Construct.resume_yields (hctx : ctx.Ok lib) {k : Construct} (h : k.Waits lib g front c) :
    Yields (k.resume ctx) c (Step.Continues lib g front) := by
  cases k with
  | pattern stop => exact .bind (.get (pattern_yields stop _ h))
  | escape token => exact .bind ((escape_drafts token h).mono fun _ _ hdrafted => .pure hdrafted)
  | query start => exact .bind ((query_drafts start h).mono fun _ _ hdrafted => .pure hdrafted)
  | tag start => exact (Tag.start_yields hctx start h).mono fun _ _ hstep => hstep.step
  | argument t after =>
    exact (WaitsForArgument.resume_yields hctx h).mono fun _ _ hstep => hstep.step
  | block => exact (Block.start_continues h).mono fun _ _ hstep => hstep.step
  | weight b offset => exact (Block.afterWeight_continues h).mono fun _ _ hstep => hstep.step
  | item b => exact (Block.afterItem_continues h).mono fun _ _ hstep => hstep.step

theorem Completes.drafted (hctx : ctx.Ok lib) {k : Construct} (h : Completes ctx k c c')
    (hwaits : k.Waits lib g front c) : Drafted lib g 0 front c' := by
  induction h generalizing g front with
  | done h => exact Construct.resume_yields hctx hwaits _ _ h
  | push h _ _ ihchild ihself =>
    obtain ⟨g', front', hchild, hnext⟩ := Construct.resume_yields hctx hwaits _ _ h
    exact ihself (hnext _ (ihchild hchild))

/-! ## Programs -/

theorem length_scanFrom_le (p : Position) (cs : List Char) :
    (Token.scanFrom p cs).length ≤ cs.length := by
  fun_induction Token.scanFrom p cs with
  | case1 => exact Nat.le_refl _
  | case2 p c cs lexeme ih =>
    have hrest := Token.cut_rest_length_le c cs
    rw [List.length_cons, List.length_cons]
    omega

/-- What a source starts with. -/
def Setting.root (c : Compilation) : Setting where
  known _ _ := False
  arity := 0
  slots := []
  subroutines := []
  locals := []
  tables := c.out.tables
  bound := c.reader.rest.length

theorem inv_start (ctx : Context) (source : String) :
    Inv lib (.root (.start ctx source)) 0 {} (.start ctx source) := by
  refine ⟨?_, by nofun, by rw [Code.Sound]; trivial, ?_⟩
  · exact Draft.follows_start (Emitter.follows_empty ctx.debug)
  · exact
      { subroutines := fun scope hscope name s hs => by
          obtain rfl := List.mem_singleton.1 hscope
          simp [Compilation.start] at hs
        slots :=
          ⟨fun name slot hslot => by simp [Compilation.start] at hslot,
            fun name f i hslot => by simp [Compilation.start] at hslot,
            fun scope hscope => by cases hscope⟩
        outerSlots := rfl
        outerSubroutines := rfl
        outerLocals := rfl
        tables := ⟨Nat.le_refl _, Nat.le_refl _, by nofun, rfl,
          fun i p hp => by simp [Compilation.start] at hp⟩
        growth := .refl _
        strings := Nat.le_of_eq (Nat.zero_add _) }

theorem drafted_start (ctx : Context) (source : String) :
    Drafted lib (.root (.start ctx source)) 0 [] (.start ctx source) := ⟨{}, rfl, inv_start ctx source⟩

/-- There are no more strings than the source has characters. -/
theorem Around.size_strings_le {known : Nat → Nat → Prop} {source : String}
    (h : Around lib (.root (.start ctx source)) known n c) : c.out.strings.size ≤ source.length := by
  have hbound := h.strings
  have htokens := length_scanFrom_le .start source.toList
  have hlength : (Setting.root (.start ctx source)).bound =
    (Token.scanFrom .start source.toList).length := rfl
  rw [String.length_toList] at htokens
  omega

theorem tables_build (e : Emitter) (name : String) : (e.build name).tables = e.tables := by
  have hkept : e.dropUnused.tables = e.tables := by
    unfold Emitter.dropUnused
    split <;> rfl
  rw [← hkept]
  rfl

/-- A program consists of sound code, by which each of its blocks is entered. -/
structure Consists (lib : Option Registry) (p : Program) (code : Code) : Prop where
  loaded : (⟨p, code, [], false⟩ : Activation).Loaded lib
  blocks : ∀ i < p.blocks.size, .plain (.block (Int32.ofNat i)) ∈ code.lines 0
  size : p.blocks.size ≤ p.code.size
  filters : ∀ q ∈ p.queries, RegexFilter.AllIn q.regexFilters p.regexes

/-- The draft of a whole source is the code of the program that is built from it. -/
theorem Inv.consists {source : String} (hinv : Inv lib (.root (.start ctx source)) n d c)
    (hfront : d.front = []) (hsize : c.out.position < 2 ^ 31) (hsource : source.length ≤ 2 ^ 31)
    (name : String) : Consists lib (c.out.build name) d.closed := by
  have hbase : d.base = 0 := by rw [Draft.base, hfront, Line.sizes_nil]
  have hstrings := Nat.le_trans hinv.around.size_strings_le hsource
  have hreads : (c.out.build name).Reads (d.closed.lines 0) := by
    have hbuild := hinv.follows.build hstrings name
    rwa [d.all_script, Draft.lines, hfront, hbase, List.nil_append] at hbuild
  have hposition := (d.spells hinv.follows).position
  rw [Draft.lines, hfront, hbase, List.nil_append, ← hreads.size] at hposition
  have hlines : d.lines = d.closed.lines 0 := by rw [Draft.lines, hfront, hbase, List.nil_append]
  have hbuilt := tables_build c.out name
  have hblocks : (c.out.build name).blocks = c.out.blocks := congrArg Tables.blocks hbuilt
  have hqueries : (c.out.build name).queries = c.out.queries := congrArg Tables.queries hbuilt
  have hregexes : (c.out.build name).regexes = c.out.regexes := congrArg Tables.regexes hbuilt
  have hknown : ∀ address arity, (Setting.root (.start ctx source)).after d address arity →
      d.closed.Knows address arity := by
    rintro address arity (hfalse | ⟨e, he, hfound⟩)
    · exact hfalse.elim
    · rw [hbase, ← d.definitions_closed] at he
      exact ⟨e, he, hfound⟩
  have hsound := Draft.sound_closed.2 hinv.sound
  rw [hbase] at hsound
  refine ⟨⟨hreads, ?_, ?_⟩, ?_, ?_, ?_⟩
  · rw [Program.Small, ← hposition]
    exact hsize
  · rw [hbuilt]
    refine hsound.mono ?_
    exact ⟨.refl _, hknown, rfl⟩
  · rw [hblocks, ← hlines]
    exact hinv.blocks
  · rw [hblocks, ← hposition]
    exact hinv.around.tables.blocks
  · rw [hqueries, hregexes]
    exact hinv.around.tables.filters

/-- A program that is compiled consists of sound code. -/
theorem consists_of_compile (hctx : ctx.Ok lib) {name source : String} {p : Program}
    (h : compile ctx name source = .ok p) (hsource : source.length ≤ 2 ^ 31) :
    ∃ code, Consists lib p code := by
  unfold compile at h
  split at h
  · rename_i c hc
    cases h
    obtain ⟨hcompletes, hsize⟩ := completes_of_source hc
    obtain ⟨d, hfront, hinv⟩ := hcompletes.drafted hctx (drafted_start ctx source)
    exact ⟨d.closed, hinv.consists hfront hsize hsource name⟩
  · cases h

end Wordloom.Compile
