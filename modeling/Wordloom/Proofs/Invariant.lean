import Wordloom.Proofs.Draft

/-!
# Wordloom.Proofs.Invariant

What holds while a source is compiled: the code of the pattern so far is sound, for the subroutines
that were known when the pattern started and those defined in it; and around it, names stand for what
is there, tables only grow, and there is a token for every string.
-/

namespace Wordloom

/-- Tables with more at their ends. -/
structure Tables.Extends (t t' : Tables) : Prop where
  size : t.blocks.size ≤ t'.blocks.size
  blocks : ∀ i < t.blocks.size, t'.blocks[i]? = t.blocks[i]?
  queries : t.queries.size ≤ t'.queries.size
  references : ∀ (i : Nat) (p : Program), t.references[i]? = some p → t'.references[i]? = some p

theorem Tables.Extends.refl (t : Tables) : t.Extends t :=
  ⟨Nat.le_refl _, fun _ _ => rfl, Nat.le_refl _, fun _ _ h => h⟩

theorem Tables.Extends.trans {t t' t'' : Tables} (h : t.Extends t') (h' : t'.Extends t'') :
    t.Extends t'' where
  size := Nat.le_trans h.size h'.size
  blocks i hi := (h'.blocks i (Nat.lt_of_lt_of_le hi h.size)).trans (h.blocks i hi)
  queries := Nat.le_trans h.queries h'.queries
  references i p hi := h'.references i p (h.references i p hi)

theorem Tables.Extends.le {t t' : Tables} (h : t.Extends t') : t.Le t' where
  blocks i b _ hi := by
    rw [h.blocks i (Array.getElem?_eq_some_iff.1 hi).1, hi]
  queries := h.queries
  references := h.references

/-- The regular expressions that words are filtered by are in the table. -/
def RegexFilter.AllIn (filters : List RegexFilter) (regexes : Array Regex) : Prop :=
  ∀ f ∈ filters, f.regex.toNat < regexes.size

/-- There is more to refer to, at the ends of the tables. -/
structure Reach.Grows (s s' : Reach) : Prop where
  tables : s.tables.Extends s'.tables
  known : ∀ address arity, s.known address arity → s'.known address arity
  arity : s.arity = s'.arity

theorem Reach.Grows.le {s s' : Reach} (h : s.Grows s') : s.Le s' := ⟨h.tables.le, h.known, h.arity⟩

end Wordloom

namespace Wordloom.Compile

variable {lib : Option Registry} {α : Type} {k : Nat} {name : String} {known : Nat → Nat → Prop}

/-! ## Names -/

/-- The frame that a variable belongs to. -/
def Slot.frame : Slot → Nat
  | .var frame _ | .arg frame _ => frame

/-- Every name in scope stands for something that has `P`. -/
def Scopes.All (P : α → Prop) (s : Scopes α) : Prop :=
  ∀ scope ∈ s.inner :: s.outer, ∀ (name : String) (a : α), scope[name]? = some a → P a

namespace Scopes

variable {P Q : α → Prop} {s : Scopes α}

/-- What holds of all that is in scope holds of what is found. -/
theorem All.find? (h : s.All P) {a : α} (ha : s.find? name = some a) : P a := by
  obtain ⟨scope, hscope, hname⟩ := List.exists_of_findSome?_eq_some ha
  exact h scope hscope name a hname

theorem All.add (h : s.All P) {a : α} (ha : P a) : (s.add name a).All P := by
  intro scope hscope other b hb
  obtain rfl | hscope := List.mem_cons.1 hscope
  · rw [Scopes.add, Std.TreeMap.getElem?_insert] at hb
    split at hb
    · cases hb
      exact ha
    · exact h s.inner List.mem_cons_self other b hb
  · exact h scope (List.mem_cons_of_mem _ hscope) other b hb

theorem All.mono (h : s.All P) (hPQ : ∀ a, P a → Q a) : s.All Q :=
  fun scope hscope name a ha => hPQ a (h scope hscope name a ha)

theorem All.openNew (h : s.All P) : s.openNew.All P := by
  intro scope hscope name a ha
  obtain rfl | hscope := List.mem_cons.1 hscope
  · simp [Scopes.openNew] at ha
  · exact h scope hscope name a ha

end Scopes

/-- Variables belong to the frame of their scope, and arguments are among those that it has. -/
structure SlotsOk (arity frame : Nat) (s : Scopes Slot) : Prop where
  inner : ∀ (name : String) (slot : Slot), s.inner[name]? = some slot → slot.frame = frame
  args : ∀ (name : String) (f i : Nat), s.inner[name]? = some (.arg f i) → i < arity
  outer : ∀ scope ∈ s.outer, ∀ (name : String) (slot : Slot), scope[name]? = some slot →
    slot.frame < frame

namespace SlotsOk

variable {arity frame : Nat} {s : Scopes Slot}

theorem add (h : SlotsOk arity frame s) {slot : Slot} (hframe : slot.frame = frame)
    (harg : ∀ f i, slot = .arg f i → i < arity) : SlotsOk arity frame (s.add name slot) where
  inner other b hb := by
    rw [Scopes.add, Std.TreeMap.getElem?_insert] at hb
    split at hb
    · cases hb
      exact hframe
    · exact h.inner other b hb
  args other f i hb := by
    rw [Scopes.add, Std.TreeMap.getElem?_insert] at hb
    split at hb
    · exact harg f i (Option.some.inj hb)
    · exact h.args other f i hb
  outer := h.outer

theorem openNew (h : SlotsOk arity frame s) (n : Nat) : SlotsOk n (frame + 1) s.openNew where
  inner name slot hslot := by simp [Scopes.openNew] at hslot
  args name f i hslot := by simp [Scopes.openNew] at hslot
  outer scope hscope name slot hslot := by
    obtain rfl | hscope := List.mem_cons.1 hscope
    · have hframe := h.inner name slot hslot
      omega
    · have hframe := h.outer scope hscope name slot hslot
      omega

theorem addArguments {c : Compilation} {names : List String} {index : Nat}
    (h : SlotsOk arity c.frame c.slots) (hindex : index + names.length ≤ arity) :
    SlotsOk arity c.frame (c.addArguments index names).slots := by
  induction names generalizing c index with
  | nil => exact h
  | cons name names ih =>
    rw [List.length_cons] at hindex
    refine ih (c := { c with slots := c.slots.add name (.arg c.frame index) }) ?_ (by omega)
    exact h.add rfl fun f i hslot => by
      cases hslot
      omega

/-- An argument of the innermost frame is one of those that it has. -/
theorem argument?_lt {c : Compilation} (h : SlotsOk arity c.frame c.slots) {index : Nat}
    (hindex : c.argument? name = some index) : index < arity := by
  unfold Compilation.argument? at hindex
  split at hindex
  · rename_i f i hfind
    split at hindex
    · rename_i hframe
      cases hindex
      obtain ⟨scope, hscope, hname⟩ := List.exists_of_findSome?_eq_some hfind
      obtain rfl | hscope := List.mem_cons.1 hscope
      · exact h.args name f index hname
      · have hlt : f < c.frame := h.outer scope hscope name _ hname
        omega
    · cases hindex
  · cases hindex

end SlotsOk

/-- Arguments are named in the innermost scope, where they may take the place of locals. -/
theorem frame_addArguments (c : Compilation) (index : Nat) (names : List String) :
    ∃ inner : Scope Slot, c.addArguments index names = { c with slots := { c.slots with inner := inner } } ∧
      ∀ (name : String) f i, inner[name]? = some (.var f i) → c.slots.inner[name]? = some (.var f i) := by
  induction names generalizing c index with
  | nil => exact ⟨c.slots.inner, rfl, fun _ _ _ h => h⟩
  | cons first names ih =>
    obtain ⟨inner, hinner, hvars⟩ :=
      ih { c with slots := c.slots.add first (.arg c.frame index) } (index + 1)
    refine ⟨inner, hinner, fun name f i h => ?_⟩
    have hname := hvars name f i h
    rw [Scopes.add, Std.TreeMap.getElem?_insert] at hname
    split at hname
    · cases hname
    · exact hname

/-! ## Around a pattern -/

/-- What is known, with the subroutines that are defined. -/
def withDefinitions (known : Nat → Nat → Prop) (ds : List Definition) (address arity : Nat) : Prop :=
  known address arity ∨ ∃ d ∈ ds, d.address = address ∧ d.arity = arity

theorem withDefinitions_append {ds es : List Definition} :
    withDefinitions known (ds ++ es) = withDefinitions (withDefinitions known ds) es := by
  funext address arity
  simp only [withDefinitions, List.mem_append, or_and_right, exists_or, or_assoc]

theorem withDefinitions_nil : withDefinitions known [] = known := by
  funext address arity
  simp [withDefinitions]

/-- What a pattern starts with. -/
structure Setting where
  /-- the subroutines in scope -/
  known : (address arity : Nat) → Prop
  /-- the number of arguments of the frame -/
  arity : Nat
  slots : List (Scope Slot)
  subroutines : List (Scope Subroutine)
  locals : List Nat
  tables : Tables
  /-- a bound for the strings and the tokens to be read -/
  bound : Nat

/-- A subroutine that can be called. -/
def Callable (known : Nat → Nat → Prop) (s : Subroutine) : Prop :=
  known s.address s.arity ∧ s.arity < 256

/-- Where there is a library, programs that may be imported consist of sound code. -/
def ImportsOk (lib : Option Registry) (p : Program) : Prop :=
  lib.isSome → ∃ code, (⟨p, code, [], false⟩ : Activation).Loaded lib

/-- The tables of an emitter are as long as its code allows, the regular expressions of queries are
there, and imported programs are sound. -/
structure TablesOk (lib : Option Registry) (e : Emitter) : Prop where
  blocks : e.blocks.size ≤ e.position
  queries : e.queries.size ≤ e.position
  filters : ∀ q ∈ e.queries, RegexFilter.AllIn q.regexFilters e.regexes
  names : e.referenceNames.size = e.references.size
  imports : ∀ (i : Nat) (p : Program), e.references[i]? = some p → ImportsOk lib p

/-- What holds apart from the code: names are those of the setting and of what is known by now, and
there are `n` tokens to spare for strings. -/
structure Around (lib : Option Registry) (g : Setting) (known : Nat → Nat → Prop) (n : Nat)
    (c : Compilation) : Prop where
  subroutines : c.subroutines.All (Callable known)
  slots : SlotsOk g.arity c.frame c.slots
  outerSlots : c.slots.outer = g.slots
  outerSubroutines : c.subroutines.outer = g.subroutines
  outerLocals : c.outerLocals = g.locals
  tables : TablesOk lib c.out
  growth : g.tables.Extends c.out.tables
  strings : c.out.strings.size + c.reader.rest.length + n ≤ g.bound

namespace Around

variable {g : Setting} {known : Nat → Nat → Prop} {n : Nat} {c : Compilation}

theorem reader (h : Around lib g known n c) {r : Token.Reader} (hr : c.reader.Passes k r) :
    Around lib g known (n + k) { c with reader := r } where
  subroutines := h.subroutines
  slots := h.slots
  outerSlots := h.outerSlots
  outerSubroutines := h.outerSubroutines
  outerLocals := h.outerLocals
  tables := h.tables
  growth := h.growth
  strings := by
    have hstrings := h.strings
    unfold Token.Reader.Passes at hr
    change c.out.strings.size + r.rest.length + (n + k) ≤ g.bound
    omega

theorem spare (h : Around lib g known n c) (hk : k ≤ n) : Around lib g known k c :=
  { h with strings := Nat.le_trans (Nat.add_le_add_left hk _) h.strings }

/-- More code, with no more strings than there are tokens for, and the same tables. -/
theorem output (h : Around lib g known n c) {e : Emitter} (htables : e.tables = c.out.tables)
    (hposition : c.out.position ≤ e.position)
    (hstrings : e.strings.size + k ≤ c.out.strings.size + n) :
    Around lib g known k { c with out := e } where
  subroutines := h.subroutines
  slots := h.slots
  outerSlots := h.outerSlots
  outerSubroutines := h.outerSubroutines
  outerLocals := h.outerLocals
  tables := by
    have hok := h.tables
    have hblocks : e.blocks = c.out.blocks := congrArg Tables.blocks htables
    have hqueries : e.queries = c.out.queries := congrArg Tables.queries htables
    have hregexes : e.regexes = c.out.regexes := congrArg Tables.regexes htables
    have hreferences : e.references = c.out.references := congrArg Tables.references htables
    have hnames : e.referenceNames = c.out.referenceNames :=
      congrArg Tables.referenceNames htables
    exact ⟨by rw [hblocks]; exact Nat.le_trans hok.blocks hposition,
      by rw [hqueries]; exact Nat.le_trans hok.queries hposition,
      by rw [hqueries, hregexes]; exact hok.filters,
      by rw [hreferences, hnames]; exact hok.names, by rw [hreferences]; exact hok.imports⟩
  growth := by
    rw [htables]
    exact h.growth
  strings := by
    have hbound := h.strings
    change e.strings.size + c.reader.rest.length + k ≤ g.bound
    omega

theorem emit (h : Around lib g known n c) (i : Instr) :
    Around lib g known n { c with out := c.out.emit i } :=
  h.output rfl (c.out.position_emit_le i) (Nat.le_refl _)

theorem emitString (h : Around lib g known (n + 1) c) (use : StringUse) (s : String) :
    Around lib g known n { c with out := c.out.emitString use s } :=
  h.output (Emitter.tables_emitString c.out use s) (c.out.position_emitString_le use s) (by
    have hsize := c.out.size_strings_emitString_le use s
    omega)

theorem land (h : Around lib g known n c) (offset : Nat) :
    Around lib g known n { c with out := c.out.patchHere offset } :=
  h.output (Emitter.tables_patch _ _ _) (Nat.le_of_eq (c.out.position_patch offset _).symm)
    (Nat.le_of_eq (by rw [Emitter.patchHere, Emitter.strings_patch]))

end Around

/-! ## Patterns -/

/-- What is known behind the code of a draft. -/
def Setting.after (g : Setting) (d : Draft) : Nat → Nat → Prop :=
  withDefinitions g.known (d.code.definitions d.base)

/-- Every block of an emitter is entered by one of the lines. -/
def BlocksIn (e : Emitter) (ls : List Line) : Prop :=
  ∀ i < e.blocks.size, .plain (.block (Int32.ofNat i)) ∈ ls

/-- The invariant of a pattern. -/
structure Inv (lib : Option Registry) (g : Setting) (n : Nat) (d : Draft) (c : Compilation) :
    Prop where
  follows : c.out.Follows d.script
  blocks : BlocksIn c.out d.lines
  sound : d.code.Sound lib ⟨c.out.tables, g.after d, g.arity⟩ d.base
  around : Around lib g (g.after d) n c

/-- A pattern behind some lines is being compiled. -/
def Drafted (lib : Option Registry) (g : Setting) (n : Nat) (front : List Line) (c : Compilation) : Prop :=
  ∃ d : Draft, d.front = front ∧ Inv lib g n d c

section

variable {g : Setting} {n : Nat} {d : Draft} {c : Compilation}

theorem Inv.print (h : Inv lib g (n + 1) d c) (s : String) :
    Inv lib g n (d.print s) { c with out := c.out.emitString .print s } where
  follows := d.follows_print h.follows s
  blocks := by
    have hblocks : (c.out.emitString .print s).blocks = c.out.blocks :=
      congrArg Tables.blocks (Emitter.tables_emitString c.out .print s)
    intro i hi
    rw [hblocks] at hi
    exact d.plain_mem_print s (h.blocks i hi)
  sound := by
    have hsound := h.sound
    rw [← Emitter.tables_emitString c.out .print s] at hsound
    exact hsound
  around := h.around.emitString .print s

theorem Inv.reader (h : Inv lib g n d c) {r : Token.Reader} (hr : c.reader.Passes k r) :
    Inv lib g (n + k) d { c with reader := r } := 
  ⟨h.follows, h.blocks, h.sound, h.around.reader hr⟩

theorem Inv.spare (h : Inv lib g n d c) (hk : k ≤ n) : Inv lib g k d c :=
  ⟨h.follows, h.blocks, h.sound, h.around.spare hk⟩

theorem Inv.drafted (h : Inv lib g n d c) : Drafted lib g 0 d.front c :=
  ⟨d, rfl, h.spare (Nat.zero_le n)⟩

/-! ## Parts of constructs -/

/-- A construct behind a draft, of which the lines `ls` have been emitted. `S` says what is known of
them, and `defs` are the subroutines defined in them. -/
structure Part (lib : Option Registry) (g : Setting) (d : Draft) (ls : List Line) (defs : List Definition)
    (S : Reach → Prop) (n : Nat) (c : Compilation) : Prop where
  spells : c.out.Spells (d.lines ++ ls)
  blocks : BlocksIn c.out (d.lines ++ ls)
  code : d.code.Sound lib ⟨c.out.tables, g.after d, g.arity⟩ d.base
  sound : S ⟨c.out.tables, withDefinitions (g.after d) defs, g.arity⟩
  around : Around lib g (withDefinitions (g.after d) defs) n c

theorem Inv.part (h : Inv lib g n d c) : Part lib g d [] [] (fun _ => True) n c where
  spells := by simpa using d.spells h.follows
  blocks := by simpa using h.blocks
  code := h.sound
  sound := trivial
  around := by simpa [withDefinitions_nil] using h.around

namespace Part

variable {ls : List Line} {defs : List Definition} {S : Reach → Prop} {i : Instr}

theorem reader (h : Part lib g d ls defs S n c) {r : Token.Reader} (hr : c.reader.Passes k r) :
    Part lib g d ls defs S (n + k) { c with reader := r } :=
  ⟨h.spells, h.blocks, h.code, h.sound, h.around.reader hr⟩

theorem spare (h : Part lib g d ls defs S n c) (hk : k ≤ n) :
    Part lib g d ls defs S k c := ⟨h.spells, h.blocks, h.code, h.sound, h.around.spare hk⟩

theorem imp (h : Part lib g d ls defs S n c) {T : Reach → Prop} (hST : ∀ s, S s → T s) :
    Part lib g d ls defs T n c := ⟨h.spells, h.blocks, h.code, hST _ h.sound, h.around⟩

/-- The code so far ends where the part does. -/
theorem position (h : Part lib g d ls defs S n c) : c.out.position = d.finish + Line.sizes ls := by
  rw [h.spells.position, Line.sizes_append, d.sizes_lines]

/-- The lines are replaced by others, the tables staying as they are. -/
theorem output (h : Part lib g d ls defs S n c) {e : Emitter} {ms : List Line}
    (hspells : e.Spells (d.lines ++ ms)) (htables : e.tables = c.out.tables)
    (hlines : ∀ j, .plain (.block j) ∈ ls → .plain (.block j) ∈ ms)
    (haround : Around lib g (withDefinitions (g.after d) defs) k { c with out := e }) :
    Part lib g d ms defs S k { c with out := e } where
  spells := hspells
  blocks := by
    have hblocks : e.blocks = c.out.blocks := congrArg Tables.blocks htables
    intro i hi
    rw [hblocks] at hi
    have hmem := h.blocks i hi
    rw [List.mem_append] at hmem ⊢
    exact hmem.imp_right (hlines _)
  code := by
    have hcode := h.code
    rw [← htables] at hcode
    exact hcode
  sound := by
    have hsound := h.sound
    rw [← htables] at hsound
    exact hsound
  around := haround

theorem ended_emit (h : Part lib g d ls defs S n c) (hi : i.namesString = false) :
    (c.out.emit i).Ended (d.lines ++ (ls ++ [.plain i])) := by
  have hemit := h.spells.emit hi
  rwa [List.append_assoc] at hemit

theorem emit (h : Part lib g d ls defs S n c) (hi : i.namesString = false) :
    Part lib g d (ls ++ [.plain i]) defs S n { c with out := c.out.emit i } :=
  h.output (h.ended_emit hi).spells rfl (fun _ hj => List.mem_append_left _ hj) (h.around.emit i)

theorem ended_emitString (h : Part lib g d ls defs S (n + 1) c) {use : StringUse}
    (huse : use ≠ .print) (s : String) :
    (c.out.emitString use s).Ended (d.lines ++ (ls ++ [.text use s])) := by
  have hemit := h.spells.emitString huse s
  rwa [List.append_assoc] at hemit

theorem emitString (h : Part lib g d ls defs S (n + 1) c) {use : StringUse} (huse : use ≠ .print)
    (s : String) :
    Part lib g d (ls ++ [.text use s]) defs S n { c with out := c.out.emitString use s } :=
  h.output (h.ended_emitString huse s).spells (Emitter.tables_emitString _ _ _)
    (fun _ hj => List.mem_append_left _ hj) (h.around.emitString use s)

/-- A jump is sent to the place behind the part. -/
theorem ended_land {before after : List Line}
    (h : Part lib g d (before ++ .plain i :: after) defs S n c) (hi : i.target?.isSome) {offset : Nat}
    (hoffset : offset = d.finish + Line.sizes before) :
    (c.out.patchHere offset).Ended (d.lines ++ (before ++
      .plain (i.withTarget (Int32.ofNat (d.finish + Line.sizes (before ++ .plain i :: after)))) ::
        after)) := by
  have hspells := h.spells
  rw [← List.append_assoc] at hspells
  have hplace : offset = Line.sizes (d.lines ++ before) := by
    rw [Line.sizes_append, d.sizes_lines, hoffset]
  have hland := hspells.land hi hplace
  rw [List.append_assoc, List.append_assoc, Line.sizes_append, d.sizes_lines] at hland
  exact hland

theorem land {before after : List Line} (h : Part lib g d (before ++ .plain i :: after) defs S n c)
    (hi : i.target?.isSome) {offset : Nat} (hoffset : offset = d.finish + Line.sizes before) :
    Part lib g d (before ++
      .plain (i.withTarget (Int32.ofNat (d.finish + Line.sizes (before ++ .plain i :: after)))) ::
        after) defs S n { c with out := c.out.patchHere offset } := by
  refine h.output (h.ended_land hi hoffset).spells (Emitter.tables_patch _ _ _) ?_
    (h.around.land offset)
  intro j hj
  rw [List.mem_append, List.mem_cons] at hj ⊢
  obtain hj | hj | hj := hj
  · exact .inl hj
  · cases hj
    cases hi
  · exact .inr (.inr hj)

/-- An instruction is appended after the tables have grown. -/
theorem emitTo (h : Part lib g d ls defs S n c) (hmono : ∀ s s', Reach.Grows s s' → S s → S s')
    (e : Emitter) (i : Instr) (hi : i.namesString = false)
    (hwritten : e.written = c.out.written) (htables : c.out.tables.Extends e.tables)
    (hblocks : ∀ j < e.blocks.size, j < c.out.blocks.size ∨ i = .block (Int32.ofNat j))
    (hok : TablesOk lib (e.emit i)) :
    Part lib g d (ls ++ [.plain i]) defs S n { c with out := e.emit i } ∧
      (e.emit i).Ended (d.lines ++ (ls ++ [.plain i])) := by
  have hended : (e.emit i).Ended (d.lines ++ (ls ++ [.plain i])) := by
    obtain ⟨s, hs, hall⟩ := h.spells
    have hspells : e.Spells (d.lines ++ ls) := ⟨s, hs.congr hwritten, hall⟩
    have hemit := hspells.emit hi
    rwa [List.append_assoc] at hemit
  have hgrows : ∀ known : Nat → Nat → Prop,
      Reach.Grows ⟨c.out.tables, known, g.arity⟩ ⟨(e.emit i).tables, known, g.arity⟩ := fun _ =>
    ⟨htables, fun _ _ hknown => hknown, rfl⟩
  have haround := h.around
  refine ⟨⟨hended.spells, ?_, h.code.mono (hgrows _).le, hmono _ _ (hgrows _) h.sound, ?_⟩, hended⟩
  · intro j hj
    rw [← List.append_assoc, List.mem_append, List.mem_singleton]
    exact (hblocks j hj).imp (h.blocks j) fun hblock => by rw [hblock]
  exact
    { haround with
      tables := hok
      growth := haround.growth.trans htables
      strings := by
        have hbound := haround.strings
        rwa [← show e.strings = c.out.strings from congrArg (·.strings) hwritten] at hbound }

/-- A construct that is complete is part of the pattern. -/
theorem finish {code : Code}
    (h : Part lib g d (code.lines d.finish) (code.definitions d.finish)
      (fun s => code.Sound lib s d.finish) n c)
    (hended : c.out.Ended (d.lines ++ code.lines d.finish)) : Inv lib g n (d.add code) c := by
  have hdefinitions : g.after (d.add code) =
      withDefinitions (g.after d) (code.definitions d.finish) := by
    unfold Setting.after
    rw [← withDefinitions_append, ← d.definitions_closed, Draft.finish]
    exact congrArg _ (Code.definitions_append _ _ _)
  refine ⟨Draft.follows_add hended, ?_, ?_, ?_⟩
  · rw [Draft.lines_add]
    exact h.blocks
  · rw [hdefinitions]
    refine Code.sound_append.2 ⟨?_, h.sound⟩
    have hle : Reach.Le ⟨c.out.tables, g.after d, g.arity⟩
        ⟨c.out.tables, withDefinitions (g.after d) (code.definitions d.finish), g.arity⟩ :=
      ⟨.refl _, fun _ _ hknown => .inl hknown, rfl⟩
    exact (Draft.sound_closed.2 h.code).mono hle
  · rw [hdefinitions]
    exact h.around

/-- The lines that have been emitted are those of a construct. -/
theorem finishAs {code : Code} (h : Part lib g d ls defs S n c) (hended : c.out.Ended (d.lines ++ ls))
    (hlines : code.lines d.finish = ls) (hdefinitions : code.definitions d.finish = defs)
    (hsound : code.Sound lib ⟨c.out.tables, withDefinitions (g.after d) defs, g.arity⟩ d.finish) :
    Inv lib g n (d.add code) c := by
  subst hlines hdefinitions
  exact finish ⟨h.spells, h.blocks, h.code, hsound, h.around⟩ hended

end Part

/-! ## Patterns inside constructs -/

/-- What a pattern inside a construct starts with, the tables being `t`. -/
def Setting.inside (g : Setting) (d : Draft) (defs : List Definition) (t : Tables) (n : Nat) :
    Setting :=
  { g with known := withDefinitions (g.after d) defs, tables := t, bound := g.bound - n }

section

variable {ls : List Line} {defs : List Definition} {S : Reach → Prop}

/-- A pattern starts where nothing is joined to what comes before. -/
theorem Part.start (h : Part lib g d ls defs S n c) (hended : c.out.Ended (d.lines ++ ls)) :
    Inv lib (g.inside d defs c.out.tables n) 0 ⟨d.lines ++ ls, .nil, none⟩ c := by
  refine ⟨Draft.follows_start hended, ?_, by rw [Code.Sound]; trivial, ?_⟩
  · rw [Draft.lines_start]
    exact h.blocks
  have hafter : (g.inside d defs c.out.tables n).after ⟨d.lines ++ ls, .nil, none⟩ =
      withDefinitions (g.after d) defs := by
    unfold Setting.after
    rw [Code.definitions, withDefinitions_nil]
    rfl
  rw [hafter]
  have haround := h.around
  exact
    { haround with
      growth := .refl _
      strings := by
        have hstrings := haround.strings
        change _ + _ + 0 ≤ g.bound - n
        omega }

/-- A pattern that is complete is part of the construct that it started behind. -/
theorem Part.leave (h : Part lib g d ls defs S n c)
    (hmono : ∀ s s', Reach.Grows s s' → S s → S s') {d' : Draft} {c' : Compilation}
    (hfront : d'.front = d.lines ++ ls) (hinv : Inv lib (g.inside d defs c.out.tables n) 0 d' c') :
    Part lib g d (ls ++ d'.closed.lines (d.finish + Line.sizes ls))
      (defs ++ d'.closed.definitions (d.finish + Line.sizes ls))
      (fun s => S s ∧ d'.closed.Sound lib s (d.finish + Line.sizes ls)) n c' := by
  have hbase : d'.base = d.finish + Line.sizes ls := by
    rw [Draft.base, hfront, Line.sizes_append, d.sizes_lines]
  have hafter : (g.inside d defs c.out.tables n).after d' =
      withDefinitions (g.after d) (defs ++ d'.closed.definitions (d.finish + Line.sizes ls)) := by
    rw [withDefinitions_append, d'.definitions_closed, ← hbase]
    rfl
  have htables := hinv.around.growth
  have hgrows : ∀ known more : Nat → Nat → Prop, (∀ a n, known a n → more a n) →
      Reach.Grows ⟨c.out.tables, known, g.arity⟩ ⟨c'.out.tables, more, g.arity⟩ := fun _ _ hknown =>
    ⟨htables, hknown, rfl⟩
  refine ⟨?_, ?_, h.code.mono (hgrows _ _ fun _ _ hknown => hknown).le, ⟨?_, ?_⟩, ?_⟩
  · have hspells := d'.spells hinv.follows
    rwa [Draft.lines, hfront, hbase, List.append_assoc] at hspells
  · have hblocks := hinv.blocks
    rwa [Draft.lines, hfront, hbase, List.append_assoc] at hblocks
  · refine hmono _ _ (hgrows _ _ fun _ _ hknown => ?_) h.sound
    rw [withDefinitions_append]
    exact .inl hknown
  · have hsound := Draft.sound_closed.2 hinv.sound
    rw [hafter, hbase] at hsound
    exact hsound
  · have haround := hinv.around
    rw [hafter] at haround
    have hbound := h.around.strings
    exact
      { haround with
        growth := h.around.growth.trans htables
        strings := by
          have hstrings := haround.strings
          change _ + _ + 0 ≤ g.bound - n at hstrings
          omega }

/-- A pattern is being compiled behind the lines of a construct, which were the last ones when the
compilation had got to `before`. -/
def Inside (lib : Option Registry) (g : Setting) (d : Draft) (ls : List Line)
    (defs : List Definition) (S : Reach → Prop) (n : Nat) (c : Compilation) : Prop :=
  ∃ before, Part lib g d ls defs S n before ∧ (∀ s s', Reach.Grows s s' → S s → S s') ∧
    Drafted lib (g.inside d defs before.out.tables n) 0 (d.lines ++ ls) c

/-- Code may be written behind a part. -/
theorem Part.enter (h : Part lib g d ls defs S n c) (hended : c.out.Ended (d.lines ++ ls))
    (hmono : ∀ s s', Reach.Grows s s' → S s → S s') : Inside lib g d ls defs S n c :=
  ⟨c, h, hmono, _, rfl, h.start hended⟩

/-- The code that was written becomes part of it. -/
theorem Inside.leave (h : Inside lib g d ls defs S n c) :
    ∃ code : Code, Part lib g d (ls ++ code.lines (d.finish + Line.sizes ls))
      (defs ++ code.definitions (d.finish + Line.sizes ls))
      (fun s => S s ∧ code.Sound lib s (d.finish + Line.sizes ls)) n c := by
  obtain ⟨before, hpart, hmono, d', hfront, hinv⟩ := h
  exact ⟨d'.closed, hpart.leave hmono hfront hinv⟩

end

end

end Wordloom.Compile
