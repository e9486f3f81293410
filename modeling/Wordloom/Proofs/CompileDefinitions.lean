import Wordloom.Proofs.CompileOperands

/-!
# Wordloom.Proofs.CompileDefinitions

Definitions of subroutines while they are compiled. The body has a frame of its own; the subroutine
is known in it, and when the frame is closed the names are those that were in scope before.
-/

namespace Wordloom.Compile

variable {lib : Option Registry} {g : Setting} {d : Draft} {arity n : Nat} {front : List Line}
  {outside c : Compilation}

/-- What is known in the body of a subroutine behind a draft. -/
def Setting.withBody (g : Setting) (d : Draft) (arity : Nat) (address count : Nat) : Prop :=
  g.after d address count ∨ address = d.finish + 5 ∧ count = arity

/-- What the body of a subroutine starts with; `outside` is the compilation when its frame is
opened. -/
def Setting.body (g : Setting) (d : Draft) (arity : Nat) (outside : Compilation) (n : Nat) :
    Setting where
  known := g.withBody d arity
  arity := arity
  slots := outside.slots.inner :: outside.slots.outer
  subroutines := outside.subroutines.inner :: outside.subroutines.outer
  locals := outside.locals :: outside.outerLocals
  tables := outside.out.tables
  bound := g.bound - n

/-- The body of a subroutine is being compiled. -/
structure InBody (lib : Option Registry) (g : Setting) (d : Draft) (arity n : Nat)
    (outside c : Compilation) : Prop where
  code : d.code.Sound lib ⟨outside.out.tables, g.after d, g.arity⟩ d.base
  around : Around lib g (g.withBody d arity) n outside
  drafted : Drafted lib (g.body d arity outside n) 0 (d.lines ++ [.plain (.jump 0)]) c

theorem InBody.reader (h : InBody lib g d arity n outside c) {k : Nat} {r : Token.Reader}
    (hr : c.reader.Passes k r) : InBody lib g d arity n outside { c with reader := r } where
  code := h.code
  around := h.around
  drafted := by
    obtain ⟨d', hfront, hinv⟩ := h.drafted
    exact ⟨d', hfront, (hinv.reader hr).spare (Nat.zero_le _)⟩

/-! ## The head -/

theorem skimming_parameters : ∀ fuel, Skimming (Tag.parameters fuel)
  | 0 => .bind .position fun _ => .fail
  | fuel + 1 => .bind .expectLoose fun _ => .bind .takeLoose fun _ =>
      .ite (.bind (skimming_parameters fuel) fun _ => .pure) .pure

/-- A frame with arguments is opened. -/
theorem Around.openFrame {params : List String} {known : Nat → Nat → Prop}
    (h : Around lib g known n outside) (hended : outside.out.Ended (d.lines ++ [.plain (.jump 0)]))
    (hblocks : BlocksIn outside.out (d.lines ++ [.plain (.jump 0)]))
    (hknown : known = g.withBody d params.length) :
    Inv lib (g.body d params.length outside n) 0 ⟨d.lines ++ [.plain (.jump 0)], .nil, none⟩
      (outside.openFrame.addArguments 0 params) := by
  have hslots : SlotsOk params.length outside.openFrame.frame outside.openFrame.slots :=
    h.slots.openNew params.length
  have hslots : SlotsOk params.length outside.openFrame.frame
      (outside.openFrame.addArguments 0 params).slots :=
    hslots.addArguments (Nat.le_of_eq (Nat.zero_add _))
  have hsubroutines := h.subroutines.openNew
  obtain ⟨inner, hopened, -⟩ := frame_addArguments outside.openFrame 0 params
  rw [hopened] at hslots ⊢
  have hafter : (g.body d params.length outside n).after ⟨d.lines ++ [.plain (.jump 0)], .nil, none⟩ =
      known := by
    rw [Setting.after, Code.definitions, withDefinitions_nil, hknown]
    rfl
  refine ⟨Draft.follows_start hended, ?_, by rw [Code.Sound]; trivial, ?_⟩
  · rw [Draft.lines_start]
    exact hblocks
  rw [hafter]
  have hstrings := h.strings
  exact
    { subroutines := hsubroutines
      slots := hslots
      outerSlots := rfl
      outerSubroutines := rfl
      outerLocals := rfl
      tables := h.tables
      growth := .refl _
      strings := by
        change outside.out.strings.size + outside.reader.rest.length + 0 ≤ g.bound - n
        omega }

/-- A compilation in which a subroutine is known that starts at the next instruction. -/
def Compilation.withSubroutine (c : Compilation) (name : String) (arity : Nat) : Compilation :=
  { c with subroutines := c.subroutines.add name ⟨c.out.position, arity⟩ }

theorem Part.withSubroutine (h : Part lib g d [.plain (.jump 0)] [] (fun _ => True) n c) (name : String)
    (harity : arity < 256) : Around lib g (g.withBody d arity) n (c.withSubroutine name arity) := by
  have hposition : c.out.position = d.finish + 5 := by
    rw [h.position]
    rfl
  have haround := h.around
  rw [withDefinitions_nil] at haround
  exact
    { haround with
      subroutines := (haround.subroutines.mono fun s hs => ⟨.inl hs.1, hs.2⟩).add
        ⟨.inr ⟨hposition, rfl⟩, harity⟩ }

/-- The body starts behind a jump around it. -/
theorem Part.openBody (h : Part lib g d [.plain (.jump 0)] [] (fun _ => True) n c)
    (hended : c.out.Ended (d.lines ++ [.plain (.jump 0)])) (name : String) {params : List String}
    (hparams : params.length < 256) :
    InBody lib g d params.length n (c.withSubroutine name params.length)
      ((c.withSubroutine name params.length).openFrame.addArguments 0 params) := by
  have houtside := h.withSubroutine name hparams
  exact ⟨h.code, houtside, _, rfl, houtside.openFrame hended h.blocks rfl⟩

theorem Tag.define_yields (h : Drafted lib g n front c) :
    Yields Tag.define c fun tag c' => ∃ (d : Draft) (arity : Nat) (outside : Compilation),
      d.front = front ∧ tag.action = .define d.finish ∧ tag.min = 1 ∧ tag.max = 1 ∧
      InBody lib g d arity n outside c' := by
  obtain ⟨d, rfl, hinv⟩ := h
  have hrest : ∀ (name : Token) (params : List String) (c : Compilation), Inv lib g n d c →
      Yields (Tag.beginBody name params) c fun tag c' =>
        ∃ (d' : Draft) (arity : Nat) (outside : Compilation),
          d'.front = d.front ∧ tag.action = .define d'.finish ∧ tag.min = 1 ∧ tag.max = 1 ∧
          InBody lib g d' arity n outside c' := by
    intro name params c hinv
    unfold Tag.beginBody
    refine .bind (.expectLoose fun _ r hr => ?_)
    have hinv := (hinv.reader hr).spare (Nat.le_add_right n 1)
    split
    · exact .bind .fail
    · rename_i hparams
      have hposition : c.out.position = d.finish := by
        rw [hinv.part.position, Line.sizes_nil, Nat.add_zero]
      refine .bind (.emitAt (.bind (.get (.bind (.set (.pure ?_))))))
      have hbody := (hinv.part.emit (i := .jump 0) rfl).openBody
        (hinv.part.ended_emit rfl) name.text (Nat.lt_succ_of_le (Nat.le_of_not_lt hparams))
      exact ⟨d, params.length, _, rfl, congrArg _ hposition, rfl, rfl, hbody⟩
  refine .bind (.expectLoose fun name r hr => .bind (.takeLoose fun taken r' hr' => ?_))
  have hinv := ((hinv.reader hr).reader hr').spare (Nat.le_add_right n (1 + 0))
  split
  · refine .bind (.tokensLeft (.bind ((skimming_parameters _ _).mono fun params c' hc' => ?_)))
    exact hrest name params c' (hinv.skims hc')
  · exact .bind (.pure (hrest name [] _ hinv))

/-! ## The end -/

theorem closeFrame_of {l : Nat} {ls : List Nat} {s : Scope Slot} {ss : List (Scope Slot)}
    {p : Scope Subroutine} {ps : List (Scope Subroutine)} (hlocals : c.outerLocals = l :: ls)
    (hslots : c.slots.outer = s :: ss) (hsubroutines : c.subroutines.outer = p :: ps) :
    c.closeFrame =
      { c with slots := ⟨s, ss⟩, subroutines := ⟨p, ps⟩, locals := l, outerLocals := ls } := by
  simp only [Compilation.closeFrame, hlocals, Scopes.closeInner, hslots, hsubroutines, List.headD_cons,
    List.tail_cons]

/-- When the frame of the body is closed, names are those outside. -/
theorem Inv.closeFrame {d' : Draft} {m : Nat} (h : Inv lib (g.body d arity outside n) m d' c)
    (e : Emitter) :
    ({ c with out := e } : Compilation).closeFrame =
      { outside with reader := c.reader, out := e } :=
  closeFrame_of h.around.outerLocals h.around.outerSlots h.around.outerSubroutines

/-- The frame is closed behind the body. -/
theorem Inv.closeBody {d' : Draft}
    (hcode : d.code.Sound lib ⟨outside.out.tables, g.after d, g.arity⟩ d.base)
    (haround : Around lib g (g.withBody d arity) n outside)
    (hfront : d'.front = d.lines ++ [.plain (.jump 0)])
    (hinv : Inv lib (g.body d arity outside n) 0 d' c) :
    Inv lib g 0 (d.add (.define arity d'.closed .nil))
      ({ c with out := (c.out.emit .return).patchHere d.finish } : Compilation).closeFrame := by
  have hbase : d'.base = d.finish + 5 := by
    rw [Draft.base, hfront, Line.sizes_append, d.sizes_lines]
    rfl
  have hended : ((c.out.emit .return).patchHere d.finish).Ended
      (d.lines ++ (Code.define arity d'.closed .nil).lines d.finish) := by
    have hspells := ((d'.spells hinv.follows).emit (i := .return) rfl).spells
    rw [Draft.lines, hfront, hbase, List.append_assoc, List.append_assoc, List.singleton_append]
      at hspells
    have hland := hspells.land (i := .jump 0) rfl d.sizes_lines.symm
    have hsize : Line.sizes (d.lines ++ Line.plain (.jump 0) ::
        (d'.closed.lines (d.finish + 5) ++ [.plain .return])) =
        d.finish + 5 + d'.closed.size + 1 := by
      rw [Line.sizes_append, d.sizes_lines, Line.sizes_cons, Line.sizes_append, Code.sizes_lines,
        ← Nat.add_assoc, ← Nat.add_assoc]
      rfl
    rw [hsize] at hland
    rw [Code.lines, Code.lines, List.append_nil]
    exact hland
  have hdefinitions : ∀ address count, (g.body d arity outside n).after d' address count →
      withDefinitions (g.after d) ((Code.define arity d'.closed .nil).definitions d.finish)
        address count := by
    rintro address count (hknown | ⟨e, he, hfound⟩)
    · obtain hknown | ⟨rfl, rfl⟩ := hknown
      · exact .inl hknown
      · exact .inr ⟨⟨d.finish + 5, count, d'.closed⟩, by simp [Code.definitions], rfl, rfl⟩
    · rw [← d'.definitions_closed, hbase] at he
      exact .inr ⟨e, by simp [Code.definitions, he], hfound⟩
  rw [hinv.closeFrame]
  have htables : ((c.out.emit .return).patchHere d.finish).tables = c.out.tables :=
    Emitter.tables_patch _ _ _
  refine Part.finish (n := 0) ⟨hended.spells, ?_, ?_, ?_, ?_⟩ hended
  · intro i hi
    have hblocks : ((c.out.emit .return).patchHere d.finish).blocks = c.out.blocks :=
      congrArg Tables.blocks htables
    have hmem := hinv.blocks i (hblocks ▸ hi)
    rw [Draft.lines, hfront, hbase] at hmem
    rw [Code.lines]
    simp only [List.mem_append, List.mem_cons, List.not_mem_nil, or_false] at hmem ⊢
    obtain (hmem | hmem) | hmem := hmem
    · exact .inl hmem
    · cases hmem
    · exact .inr (.inl (.inl (.inr hmem)))
  · rw [htables]
    refine hcode.mono ?_
    exact ⟨hinv.around.growth.le, fun _ _ hknown => hknown, rfl⟩
  · rw [htables, Code.Sound, Code.Sound]
    refine ⟨?_, trivial⟩
    have hsound := Draft.sound_closed.2 hinv.sound
    rw [hbase] at hsound
    refine hsound.mono ?_
    exact ⟨.refl _, hdefinitions, rfl⟩
  · have hemitted := (hinv.around.emit .return).land d.finish
    exact
      { subroutines := haround.subroutines.mono fun s hs =>
          ⟨hdefinitions _ _ (.inl hs.1), hs.2⟩
        slots := haround.slots
        outerSlots := haround.outerSlots
        outerSubroutines := haround.outerSubroutines
        outerLocals := haround.outerLocals
        tables := hemitted.tables
        growth := haround.growth.trans hemitted.growth
        strings := Nat.le_trans hemitted.strings (Nat.sub_le _ _) }

theorem InBody.finish (h : InBody lib g d arity n outside c) :
    Drafted lib g 0 d.front
      ({ c with out := (c.out.emit .return).patchHere d.finish } : Compilation).closeFrame := by
  obtain ⟨d', hfront, hinv⟩ := h.drafted
  exact (hinv.closeBody h.code h.around hfront).drafted

end Wordloom.Compile
