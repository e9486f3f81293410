import Wordloom.Proofs.Queries

/-!
# Wordloom.Proofs.CompileBlocks

Blocks while they are compiled. The entry of a block in its table stays empty until the block is
complete, so nothing can refer to it before; what stands before the body of an item is either nothing
or the code of its weight.
-/

namespace Wordloom.Compile

variable {lib : Option Registry} {g : Setting} {n : Nat} {c c' : Compilation}

/-! ## Items -/

/-- What stands before the body of an item. -/
inductive Head where
  | plain (weight : Option UInt64)
  /-- the code of the weight -/
  | weighted (code : Code)

namespace Head

variable {lib : Option Registry} {s : Reach}

def lines (offset : Nat) : Head → List Line
  | plain _ => []
  | weighted code =>
    .plain .newOutput :: code.lines (offset + 1) ++ [.plain .returnOutput, .plain .return]

def definitions (offset : Nat) : Head → List Definition
  | plain _ => []
  | weighted code => code.definitions (offset + 1)

def Sound (lib : Option Registry) (s : Reach) (offset : Nat) : Head → Prop
  | plain _ => True
  | weighted code => code.Sound lib s (offset + 1)

/-- The entry of the item in the table of the block. -/
def entry (offset : Nat) : Head → BlockItem
  | plain weight => ⟨offset.toUInt32, weight.elim .none .constant⟩
  | weighted code => ⟨(offset + 1 + code.size + 2).toUInt32, .interpreted offset.toUInt32⟩

/-- The item with its body. -/
def choice (body : Code) : Head → Choices
  | plain weight => .item weight body .nil
  | weighted code => .weighted code body .nil

theorem sizes_weighted (code : Code) (offset : Nat) :
    offset + Line.sizes ((weighted code).lines offset) = offset + 1 + code.size + 2 := by
  simp only [lines, Line.sizes_append, Line.sizes_cons, Line.sizes_nil, Code.sizes_lines]
  have hopen : (Line.plain Instr.newOutput).size = 1 := rfl
  have hclose : (Line.plain Instr.returnOutput).size = 1 := rfl
  have hreturn : (Line.plain Instr.return).size = 1 := rfl
  omega

theorem lines_choice (h : Head) (offset : Nat) (body : Code) :
    (h.choice body).lines offset =
      h.lines offset ++ body.lines (offset + Line.sizes (h.lines offset)) ++ [.plain .blockEnd] := by
  cases h with
  | plain weight => simp [lines, choice, Choices.lines]
  | weighted code =>
    rw [sizes_weighted]
    simp [lines, choice, Choices.lines]

theorem definitions_choice (h : Head) (offset : Nat) (body : Code) :
    (h.choice body).definitions offset =
      h.definitions offset ++ body.definitions (offset + Line.sizes (h.lines offset)) := by
  cases h with
  | plain weight => simp [lines, choice, definitions, Choices.definitions]
  | weighted code =>
    rw [sizes_weighted]
    simp [choice, definitions, Choices.definitions]

/-- An item is sound if its head and its body are. -/
theorem sound_choice {h : Head} {offset : Nat} {body : Code} :
    (h.choice body).Sound lib s offset ↔
      h.Sound lib s offset ∧ body.Sound lib s (offset + Line.sizes (h.lines offset)) := by
  cases h with
  | plain weight => simp [lines, choice, Sound, Choices.Sound]
  | weighted code =>
    rw [sizes_weighted]
    simp [choice, Sound, Choices.Sound]

theorem entries_choice (h : Head) (offset : Nat) (body : Code) :
    (h.choice body).entries offset = [h.entry offset] := by
  cases h <;> rfl

theorem Sound.mono {h : Head} {s' : Reach} {offset : Nat} (hs : s.Le s') (hh : h.Sound lib s offset) :
    h.Sound lib s' offset := by
  cases h with
  | plain weight => trivial
  | weighted code => exact Code.Sound.mono hs hh

end Head

/-! ## Blocks that are not complete -/

/-- The lines of a block with its first items, behind a draft. -/
def openLines (d : Draft) (index : Nat) (choices : Choices) : List Line :=
  .plain (.block (Int32.ofNat index)) :: choices.lines (d.finish + 5)

theorem sizes_openLines (d : Draft) (index : Nat) (choices : Choices) :
    Line.sizes (openLines d index choices) = 5 + choices.size := by
  rw [openLines, Line.sizes_cons, Choices.sizes_lines]
  rfl

/-- The first items are sound, and nothing is in the table yet. -/
def Unfinished (lib : Option Registry) (d : Draft) (index : Nat) (choices : Choices) (s : Reach) :
    Prop :=
  choices.Sound lib s (d.finish + 5) ∧ s.tables.blocks[index]? = some ⟨0, []⟩

theorem Unfinished.mono {d : Draft} {index : Nat} {choices : Choices} {s s' : Reach}
    (hs : s.Grows s') (h : Unfinished lib d index choices s) : Unfinished lib d index choices s' := by
  refine ⟨h.1.mono hs.le, ?_⟩
  rw [hs.tables.blocks index (Array.getElem?_eq_some_iff.1 h.2).1]
  exact h.2

/-- The entry is one that the pattern around the block does not have. -/
structure OpenBlock.Fresh (g : Setting) (d : Draft) (b : OpenBlock) : Prop where
  small : b.index ≤ d.finish
  fresh : g.tables.blocks.size ≤ b.index

/-- A block waits for the code of a weight. -/
def WaitsForWeight (lib : Option Registry) (g : Setting) (front : List Line) (b : OpenBlock)
    (offset : Nat) (c : Compilation) : Prop :=
  ∃ (d : Draft) (choices : Choices), d.front = front ∧ b.Fresh g d ∧
    b.items = choices.entries (d.finish + 5) ∧ offset = d.finish + 5 + choices.size ∧
    Inside lib g d (openLines d b.index choices ++ [.plain .newOutput])
      (choices.definitions (d.finish + 5)) (Unfinished lib d b.index choices) 0 c

/-- A block waits for the body of an item. -/
def WaitsForItem (lib : Option Registry) (g : Setting) (front : List Line) (b : OpenBlock)
    (c : Compilation) : Prop :=
  ∃ (d : Draft) (choices : Choices) (head : Head), d.front = front ∧ b.Fresh g d ∧
    b.items = choices.entries (d.finish + 5) ++ [head.entry (d.finish + 5 + choices.size)] ∧
    Inside lib g d (openLines d b.index choices ++ head.lines (d.finish + 5 + choices.size))
      (choices.definitions (d.finish + 5) ++ head.definitions (d.finish + 5 + choices.size))
      (fun s => Unfinished lib d b.index choices s ∧
        head.Sound lib s (d.finish + 5 + choices.size)) 0 c

/-- What a step of a block leads to. -/
inductive Block.Continues (lib : Option Registry) (g : Setting) (front : List Line) :
    Step → Compilation → Prop where
  | done {c : Compilation} (h : Drafted lib g 0 front c) : Continues lib g front .done c
  | weight {b : OpenBlock} {offset : Nat} {stop : Terminator} {c : Compilation}
    (h : WaitsForWeight lib g front b offset c) :
    Continues lib g front (.push (.weight b offset) (.pattern stop)) c
  | item {b : OpenBlock} {stop : Terminator} {c : Compilation} (h : WaitsForItem lib g front b c) :
    Continues lib g front (.push (.item b) (.pattern stop)) c

/-- A block of which some items are complete. -/
structure Itemized (lib : Option Registry) (g : Setting) (d : Draft) (b : OpenBlock)
    (choices : Choices) (n : Nat) (c : Compilation) : Prop where
  fresh : b.Fresh g d
  items : b.items = choices.entries (d.finish + 5)
  part : Part lib g d (openLines d b.index choices) (choices.definitions (d.finish + 5))
    (Unfinished lib d b.index choices) n c
  ended : c.out.Ended (d.lines ++ openLines d b.index choices)

/-- Behind these items there is all that stands before the body of the next one. -/
structure Headed (lib : Option Registry) (g : Setting) (d : Draft) (b : OpenBlock)
    (choices : Choices) (head : Head) (weight : Weight) (n : Nat) (c : Compilation) : Prop where
  fresh : b.Fresh g d
  items : b.items = choices.entries (d.finish + 5)
  part : Part lib g d (openLines d b.index choices ++ head.lines (d.finish + 5 + choices.size))
    (choices.definitions (d.finish + 5) ++ head.definitions (d.finish + 5 + choices.size))
    (fun s => Unfinished lib d b.index choices s ∧
      head.Sound lib s (d.finish + 5 + choices.size)) n c
  ended : c.out.Ended (d.lines ++
    (openLines d b.index choices ++ head.lines (d.finish + 5 + choices.size)))
  entry : (⟨c.out.position.toUInt32, weight⟩ : BlockItem) =
    head.entry (d.finish + 5 + choices.size)

section

variable {d : Draft} {choices : Choices} {b : OpenBlock} {front : List Line}

theorem Itemized.reader {k : Nat} {r : Token.Reader} (h : Itemized lib g d b choices n c)
    (hr : c.reader.Passes k r) : Itemized lib g d b choices (n + k) { c with reader := r } :=
  ⟨h.fresh, h.items, h.part.reader hr, h.ended⟩

theorem Itemized.spare {k : Nat} (h : Itemized lib g d b choices n c) (hk : k ≤ n) :
    Itemized lib g d b choices k c := ⟨h.fresh, h.items, h.part.spare hk, h.ended⟩

theorem Itemized.position (h : Itemized lib g d b choices n c) :
    c.out.position = d.finish + 5 + choices.size := by
  rw [h.part.position, sizes_openLines, Nat.add_assoc]

/-- The item is one without a weight, or one that has a constant weight. -/
theorem Itemized.headed (h : Itemized lib g d b choices n c) (weight : Option UInt64) :
    Headed lib g d b choices (.plain weight) (weight.elim .none .constant) n c := by
  have hpart := h.part.imp (T := fun s => Unfinished lib d b.index choices s ∧
    (Head.plain weight).Sound lib s (d.finish + 5 + choices.size)) fun s hs => ⟨hs, trivial⟩
  refine ⟨h.fresh, h.items, ?_, ?_, ?_⟩
  · simpa only [Head.lines, Head.definitions, List.append_nil] using hpart
  · simpa only [Head.lines, List.append_nil] using h.ended
  · rw [h.position, Head.entry]

theorem Block.beginItem_continues {head : Head} {weight : Weight}
    (h : Headed lib g d b choices head weight n c) :
    Yields (Block.beginItem b weight) c (Block.Continues lib g d.front) := by
  refine .bind (.offset (.pure (.item
    ⟨d, choices, head, rfl, ⟨h.fresh.small, h.fresh.fresh⟩, ?_, ?_⟩)))
  · rw [← h.entry, ← h.items]
  · exact (h.part.spare (Nat.zero_le n)).enter h.ended fun _ _ hs hS =>
      ⟨hS.1.mono hs, hS.2.mono hs.le⟩

theorem Block.readWeight_continues (h : Itemized lib g d b choices n c) :
    Yields (Block.readWeight b) c (Block.Continues lib g d.front) := by
  refine .bind (.take fun taken r hr => ?_)
  have h := h.reader hr
  split
  · refine .bind (.position (.bind (.constantUntil fun text r' hr' => ?_)))
    have h := h.reader hr'
    split
    · split
      · exact .fail
      · rename_i bits hbits
        exact .bind (.read fun _ _ hread =>
          Block.beginItem_continues ((h.reader hread).headed (some bits)))
    · refine .bind (.emitAt (.pure (.weight ⟨d, choices, rfl, h.fresh, h.items, h.position, ?_⟩)))
      exact ((h.part.emit rfl).spare (Nat.zero_le _)).enter (h.part.ended_emit rfl) fun _ _ hs hS =>
        hS.mono hs
  · exact Block.beginItem_continues (h.headed none)

theorem finish_newOutput (d : Draft) (index : Nat) (choices : Choices) :
    d.finish + Line.sizes (openLines d index choices ++ [.plain .newOutput]) =
      d.finish + 5 + choices.size + 1 := by
  rw [Line.sizes_append, sizes_openLines, ← Nat.add_assoc, ← Nat.add_assoc]
  rfl

/-- The code of a weight is complete. -/
theorem Part.closeWeight {code : Code} (hfresh : b.Fresh g d)
    (hitems : b.items = choices.entries (d.finish + 5))
    (h : Part lib g d (openLines d b.index choices ++ [.plain .newOutput] ++
        code.lines (d.finish + 5 + choices.size + 1))
      (choices.definitions (d.finish + 5) ++ code.definitions (d.finish + 5 + choices.size + 1))
      (fun s => Unfinished lib d b.index choices s ∧
        code.Sound lib s (d.finish + 5 + choices.size + 1)) n c) :
    Headed lib g d b choices (.weighted code) (.interpreted (d.finish + 5 + choices.size).toUInt32) n
      { c with out := (c.out.emit .returnOutput).emit .return } := by
  have hlines : openLines d b.index choices ++ [.plain .newOutput] ++
        code.lines (d.finish + 5 + choices.size + 1) ++ [.plain .returnOutput] ++ [.plain .return] =
      openLines d b.index choices ++ (Head.weighted code).lines (d.finish + 5 + choices.size) := by
    simp [Head.lines]
  have hpart := h.emit (i := .returnOutput) rfl
  have hended := hpart.ended_emit (i := .return) rfl
  have hpart := hpart.emit (i := .return) rfl
  rw [hlines] at hended hpart
  refine ⟨hfresh, hitems, hpart, hended, ?_⟩
  rw [hpart.position, Line.sizes_append, sizes_openLines, Head.entry, ← Head.sizes_weighted]
  simp only [Nat.add_assoc]

theorem Block.afterWeight_continues {offset : Nat} (h : WaitsForWeight lib g front b offset c) :
    Yields (Block.afterWeight b offset) c (Block.Continues lib g front) := by
  obtain ⟨d, choices, rfl, hfresh, hitems, rfl, hinside⟩ := h
  obtain ⟨code, hpart⟩ := hinside.leave
  rw [finish_newOutput] at hpart
  refine .bind (.read fun _ r hr => .bind (.output (.bind (.output ?_))))
  exact Block.beginItem_continues ((hpart.reader hr).closeWeight hfresh hitems)

/-- The entry of a block is set when its items are complete. -/
theorem Itemized.finishBlock (hitemized : Itemized lib g d b choices n c) (hne : b.items ≠ []) :
    Inv lib g n (d.add (.block b.index choices .nil))
      { c with out := c.out.setBlock b.index ⟨c.out.position.toUInt32, b.items⟩ } := by
  have hposition := hitemized.position
  obtain ⟨hfresh, hitems, h, hended⟩ := hitemized
  have hlines : (Code.block b.index choices .nil).lines d.finish =
      openLines d b.index choices := by
    simp [Code.lines, openLines]
  have hdefinitions : (Code.block b.index choices .nil).definitions d.finish =
      choices.definitions (d.finish + 5) := by
    simp [Code.definitions]
  have hempty : c.out.blocks[b.index]? = some ⟨0, []⟩ := h.sound.2
  have hset : ∀ i, i ≠ b.index →
      (c.out.blocks.setIfInBounds b.index ⟨c.out.position.toUInt32, b.items⟩)[i]? =
        c.out.blocks[i]? := fun i hi => by
    rw [Array.getElem?_setIfInBounds, if_neg hi.symm]
  have hle : c.out.tables.Le
      (c.out.setBlock b.index ⟨c.out.position.toUInt32, b.items⟩).tables := by
    refine ⟨fun i block hblock hi => ?_, Nat.le_refl _, fun _ _ hp => hp⟩
    by_cases hindex : i = b.index
    · subst hindex
      have hsame : some block = some ⟨0, []⟩ := hi.symm.trans hempty
      cases hsame
      exact absurd rfl hblock
    · exact (hset i hindex).trans hi
  have hreach : ∀ known : Nat → Nat → Prop, Reach.Le ⟨c.out.tables, known, g.arity⟩
      ⟨(c.out.setBlock b.index ⟨c.out.position.toUInt32, b.items⟩).tables, known, g.arity⟩ :=
    fun _ => ⟨hle, fun _ _ hknown => hknown, rfl⟩
  have haround := h.around
  apply Part.finish
  · rw [hlines, hdefinitions]
    refine ⟨?_, ?_, h.code.mono (hreach _), ?_, ?_⟩
    · obtain ⟨s, hs, hall⟩ := h.spells
      exact ⟨s, hs.congr rfl, hall⟩
    · intro i hi
      change i < (c.out.blocks.setIfInBounds _ _).size at hi
      rw [Array.size_setIfInBounds] at hi
      exact h.blocks i hi
    · rw [Code.Sound, Code.Sound]
      refine ⟨⟨hfresh.small, hitems ▸ hne, ?_⟩, h.sound.1.mono (hreach _), trivial⟩
      change (c.out.blocks.setIfInBounds b.index ⟨c.out.position.toUInt32, b.items⟩)[b.index]? = _
      rw [Array.getElem?_setIfInBounds, if_pos rfl,
        if_pos (Array.getElem?_eq_some_iff.1 hempty).1, hposition, hitems]
    · exact
        { haround with
          tables := ⟨by
            change (c.out.blocks.setIfInBounds _ _).size ≤ c.out.position
            rw [Array.size_setIfInBounds]
            exact haround.tables.blocks, haround.tables.queries, haround.tables.filters,
            haround.tables.names, haround.tables.imports⟩
          growth := ⟨by
            change _ ≤ (c.out.blocks.setIfInBounds _ _).size
            rw [Array.size_setIfInBounds]
            exact haround.growth.size, fun i hi =>
              (hset i (Nat.ne_of_lt (Nat.lt_of_lt_of_le hi hfresh.fresh))).trans
                (haround.growth.blocks i hi), haround.growth.queries, haround.growth.references⟩ }
  · rw [hlines]
    exact Emitter.Follows.congr hended rfl

theorem finish_head (d : Draft) (index : Nat) (choices : Choices) (head : Head) :
    d.finish + Line.sizes (openLines d index choices ++
        head.lines (d.finish + 5 + choices.size)) =
      d.finish + 5 + choices.size + Line.sizes (head.lines (d.finish + 5 + choices.size)) := by
  rw [Line.sizes_append, sizes_openLines]
  omega

/-- The body of an item is complete. -/
theorem Part.closeItem {head : Head} {body : Code} (hfresh : b.Fresh g d)
    (hitems : b.items =
      choices.entries (d.finish + 5) ++ [head.entry (d.finish + 5 + choices.size)])
    (h : Part lib g d (openLines d b.index choices ++ head.lines (d.finish + 5 + choices.size) ++
        body.lines (d.finish + 5 + choices.size +
          Line.sizes (head.lines (d.finish + 5 + choices.size))))
      (choices.definitions (d.finish + 5) ++ head.definitions (d.finish + 5 + choices.size) ++
        body.definitions (d.finish + 5 + choices.size +
          Line.sizes (head.lines (d.finish + 5 + choices.size))))
      (fun s => (Unfinished lib d b.index choices s ∧
          head.Sound lib s (d.finish + 5 + choices.size)) ∧
        body.Sound lib s (d.finish + 5 + choices.size +
          Line.sizes (head.lines (d.finish + 5 + choices.size)))) n c) :
    Itemized lib g d b (choices.append (head.choice body)) n
      { c with out := c.out.emit .blockEnd } := by
  have hlines : openLines d b.index choices ++ head.lines (d.finish + 5 + choices.size) ++
        body.lines (d.finish + 5 + choices.size +
          Line.sizes (head.lines (d.finish + 5 + choices.size))) ++ [.plain .blockEnd] =
      openLines d b.index (choices.append (head.choice body)) := by
    rw [openLines, openLines, Choices.lines_append, Head.lines_choice]
    simp only [List.cons_append, List.append_assoc]
  have hended := h.ended_emit (i := .blockEnd) rfl
  have hpart := h.emit (i := .blockEnd) rfl
  rw [hlines] at hended hpart
  rw [List.append_assoc, ← Head.definitions_choice, ← Choices.definitions_append] at hpart
  refine ⟨hfresh, ?_, hpart.imp fun s hs => ?_, hended⟩
  · rw [hitems, Choices.entries_append, Head.entries_choice]
  · exact ⟨Choices.sound_append.2 ⟨hs.1.1.1, Head.sound_choice.2 ⟨hs.1.2, hs.2⟩⟩, hs.1.1.2⟩

/-- Behind an item comes another one, or the block ends. -/
theorem Block.afterItem_continues (h : WaitsForItem lib g front b c) :
    Yields (Block.afterItem b) c (Block.Continues lib g front) := by
  obtain ⟨d, choices, head, rfl, hfresh, hitems, hinside⟩ := h
  obtain ⟨body, hpart⟩ := hinside.leave
  have hne : b.items ≠ [] := by
    rw [hitems]
    exact List.append_ne_nil_of_right_ne_nil _ (List.cons_ne_nil _ _)
  rw [finish_head] at hpart
  refine .bind (.output (.bind (.read fun token r hr => ?_)))
  have hitemized := (hpart.closeItem hfresh hitems).reader hr
  split
  · exact .bind (.offset (.bind (.output (.pure (.done (hitemized.finishBlock hne).drafted)))))
  · exact Block.readWeight_continues hitemized

/-- A block is entered in the table and has no items yet. -/
theorem Inv.openBlock (h : Inv lib g n d c) :
    Itemized lib g d ⟨c.out.blocks.size, []⟩ .nil n
      { c with out := c.out.reserveBlock.2.emit (.block (Int32.ofNat c.out.blocks.size)) } := by
  have hposition : c.out.position = d.finish := by
    rw [h.part.position, Line.sizes_nil, Nat.add_zero]
  have htables := h.around.tables
  have hemit := c.out.reserveBlock.2.position_emit (.block (Int32.ofNat c.out.blocks.size))
  have hsize : (Instr.block (Int32.ofNat c.out.blocks.size)).size = 5 := rfl
  have hkept : c.out.reserveBlock.2.position = c.out.position := rfl
  have hblocks : (c.out.blocks.push ⟨0, []⟩).size = c.out.blocks.size + 1 := Array.size_push _
  have hextends : c.out.tables.Extends c.out.reserveBlock.2.tables := by
    refine ⟨?_, fun i hi => ?_, Nat.le_refl _, fun _ _ hp => hp⟩
    · change c.out.blocks.size ≤ (c.out.blocks.push ⟨0, []⟩).size
      omega
    · change (c.out.blocks.push ⟨0, []⟩)[i]? = c.out.blocks[i]?
      exact Array.getElem?_push_lt hi |>.trans (Array.getElem?_eq_getElem hi).symm
  have hok : TablesOk lib
      (c.out.reserveBlock.2.emit (.block (Int32.ofNat c.out.blocks.size))) := by
    refine ⟨?_, ?_, htables.filters, htables.names, htables.imports⟩
    · have hle := htables.blocks
      rw [hemit]
      change (c.out.blocks.push ⟨0, []⟩).size ≤ _
      omega
    · have hle := htables.queries
      rw [hemit]
      change c.out.queries.size ≤ _
      omega
  have hnew : ∀ j < (c.out.blocks.push ⟨0, []⟩).size,
      j < c.out.blocks.size ∨
        Instr.block (Int32.ofNat c.out.blocks.size) = .block (Int32.ofNat j) := by
    intro j hj
    obtain hlt | heq := Nat.lt_succ_iff_lt_or_eq.1 (hblocks ▸ hj)
    · exact .inl hlt
    · exact .inr (by rw [heq])
  obtain ⟨hpart, hended⟩ := h.part.emitTo (fun _ _ _ _ => trivial) c.out.reserveBlock.2
    (.block (Int32.ofNat c.out.blocks.size)) rfl rfl hextends hnew hok
  have hlines : ([] : List Line) ++ [.plain (.block (Int32.ofNat c.out.blocks.size))] =
      openLines d c.out.blocks.size .nil := by
    simp [openLines, Choices.lines]
  rw [hlines] at hpart hended
  refine ⟨⟨?_, h.around.growth.size⟩, rfl,
    ⟨hpart.spells, hpart.blocks, hpart.code, ⟨?_, ?_⟩, ?_⟩, hended⟩
  · have hle := htables.blocks
    change c.out.blocks.size ≤ d.finish
    omega
  · rw [Choices.Sound]
    trivial
  · change (c.out.blocks.push ⟨0, []⟩)[c.out.blocks.size]? = _
    exact Array.getElem?_push_size
  · rw [Choices.definitions]
    exact hpart.around

/-- A block is opened behind the draft. -/
theorem Block.start_continues (h : Drafted lib g n front c) :
    Yields Block.start c (Block.Continues lib g front) := by
  obtain ⟨d, rfl, hinv⟩ := h
  exact .bind (.get (.bind (.set (Block.readWeight_continues hinv.openBlock))))

end

end Wordloom.Compile
