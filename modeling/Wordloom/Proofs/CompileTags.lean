import Wordloom.Proofs.CompileArguments

/-!
# Wordloom.Proofs.CompileTags

Tags from their names to their closing brackets: what a tag does is sound when its arguments are
there.
-/

namespace Wordloom.Compile

variable {ctx : Context} {lib : Option Registry} {g : Setting} {front : List Line} {d : Draft}
  {os : Operands} {test : Test} {n : Nat} {t : OpenTag} {c : Compilation} {name : String}

/-- Where there is a library, it is that of the context, and what a pattern may refer to beside itself
is sound, and small enough to be referred to. -/
structure Context.Ok (lib : Option Registry) (ctx : Context) : Prop where
  imports : ∀ (name : String) (p : Program), ctx.imports[name]? = some p → ImportsOk lib p
  registry : ∀ r ∈ lib, r = ctx.registry
  size : ∀ r ∈ lib, r.size ≤ 2 ^ 16
  params : ∀ r ∈ lib, ∀ (id : Nat) (f : Function), r.get? id = some f → f.params.length < 2 ^ 8

/-! ## What tags do -/

/-- The act is one instruction. -/
theorem HasOperands.emit_act (h : HasOperands lib g d os n c) (a : Act) {i : Instr}
    (hlines : a.lines = [.plain i]) (hi : i.namesString = false) (harity : os.length = a.arity)
    (hsound : a.Sound c.out.tables g.arity (d.finish + os.size)) :
    Inv lib g n (d.add (.act os a .nil)) { c with out := c.out.emit i } := by
  have hended := Part.ended_emit h hi
  have hpart := Part.emit h hi
  rw [← hlines] at hended hpart
  exact hpart.finishAct hended harity hsound

/-- The act is one instruction whose value is printed. -/
theorem HasOperands.emit_print (h : HasOperands lib g d os n c) (a : Act) {i : Instr}
    (hlines : a.lines = [.plain i, .plain .print]) (hi : i.namesString = false)
    (harity : os.length = a.arity)
    (hsound : a.Sound c.out.tables g.arity (d.finish + os.size)) :
    Inv lib g n (d.add (.act os a .nil)) { c with out := (c.out.emit i).emit .print } := by
  have hfirst := Part.emit h hi
  have hended := hfirst.ended_emit (i := .print) rfl
  have hpart := hfirst.emit (i := .print) rfl
  rw [List.append_assoc, List.singleton_append, ← hlines] at hended hpart
  exact hpart.finishAct hended harity hsound

/-- A local is added. -/
theorem HasOperands.addLocal (h : HasOperands lib g d os n c) (name : String) :
    HasOperands lib g d os n (c.addLocal name) := by
  have haround := h.around
  refine ⟨h.spells, h.blocks, h.code, h.sound, ?_⟩
  exact { haround with slots := haround.slots.add rfl fun _ _ harg => by cases harg }

theorem HasOperands.declareLocal_yields (h : HasOperands lib g d os n c) (name : String)
    (place : Position) :
    Yields (Compiling.declareLocal name place) c fun _ c' => HasOperands lib g d os n c' := by
  refine .bind (.get ?_)
  split
  · exact .pure h
  · split
    · exact .bind (.set (.pure (h.addLocal name)))
    · exact .fail

theorem HasOperands.localIndex_yields (h : HasOperands lib g d os n c) (name : String) :
    Yields (t.localIndex name) c fun _ c' => HasOperands lib g d os n c' := by
  refine .bind (.get ?_)
  split
  · exact .pure h
  · exact .fail

theorem HasOperands.visibility_yields (h : HasOperands lib g d os n c) (names : List String) :
    Yields (t.visibility names) c fun _ c' => HasOperands lib g d os n c' := by
  unfold OpenTag.visibility
  split
  · exact .pure h
  · exact .pure h
  · split
    · exact .pure h
    · exact .fail

/-- A channel is opened. -/
theorem HasOperands.openChannel (h : HasOperands lib g d os (n + 1) c) (hnone : os.length = 0)
    (visibility : Visibility) (name : String) :
    Drafted lib g 0 d.front { c with out := c.out.emitString (.openChannel visibility) name } := by
  have huse : StringUse.openChannel visibility ≠ .print := fun huse => by cases huse
  exact ((Part.emitString h huse name).finishAct (a := .openChannel visibility name)
    (Part.ended_emitString h huse name) hnone trivial).drafted

/-- A subroutine is called. -/
theorem HasOperands.call (h : HasOperands lib g d os n c) {s : Subroutine}
    (hs : Callable (g.after d) s) (hlength : os.length = s.arity) :
    Inv lib g n (d.add (.call os s.address s.arity.toUInt8 .nil))
      { c with out := c.out.emit (.call (Int32.ofNat s.address) s.arity.toUInt8) } := by
  have hcount : s.arity.toUInt8.toNat = s.arity := by
    have hlt := hs.2
    simp only [Nat.toUInt8_eq, UInt8.toNat_ofNat']
    exact Nat.mod_eq_of_lt hlt
  have hpart := Part.emit h (i := .call (Int32.ofNat s.address) s.arity.toUInt8) rfl
  refine hpart.finishAs (Part.ended_emit h rfl) ?_ ?_ ?_
  · rw [Code.lines, Code.lines, List.append_nil]
  · rw [Code.definitions, Code.definitions, List.append_nil]
  · rw [Code.Sound, Code.Sound, hcount]
    exact ⟨hpart.sound, hlength, .inl hs.1, trivial⟩

/-- A function is called. -/
theorem HasOperands.native (h : HasOperands lib g d os n c) {id : Nat} {params : List ParamKind}
    (hlib : ∀ r ∈ lib, (∃ f, r.get? id = some f ∧ f.params = params) ∧ id < 2 ^ 16 ∧
      params.length < 2 ^ 8)
    (hprovides : os.Provides params) :
    Inv lib g n (d.add (.native os id.toUInt16 params.length.toUInt8 .nil))
      { c with out := c.out.emit (.nativeCall id.toUInt16 params.length.toUInt8) } := by
  have hpart := Part.emit h (i := .nativeCall id.toUInt16 params.length.toUInt8) rfl
  refine hpart.finishAs (Part.ended_emit h rfl) ?_ ?_ ?_
  · rw [Code.lines, Code.lines, List.append_nil]
  · rw [Code.definitions, Code.definitions, List.append_nil]
  · rw [Code.Sound, Code.Sound]
    refine ⟨hpart.sound, fun r hr => ?_, trivial⟩
    obtain ⟨⟨f, hf, rfl⟩, hid, hparams⟩ := hlib r hr
    have hnumber : id.toUInt16.toNat = id := by
      simp only [Nat.toUInt16_eq, UInt16.toNat_ofNat']
      exact Nat.mod_eq_of_lt hid
    have hcount : f.params.length.toUInt8.toNat = f.params.length := by
      simp only [Nat.toUInt8_eq, UInt8.toNat_ofNat']
      exact Nat.mod_eq_of_lt hparams
    rw [hcount, hnumber]
    exact ⟨hprovides.length, f, hf, hprovides⟩

/-- A reference that is added, or that was there under the name, is to a sound program. -/
theorem TablesOk.addReference {e : Emitter} (h : TablesOk lib e) {p : Program} (hp : ImportsOk lib p)
    (name : String) :
    ∃ (index : Nat) (references : Array Program) (table : NameTable),
      e.addReference name p =
        (index.toUInt16, { e with references := references, referenceTable := table }) ∧
      table.names.size = references.size ∧
      (∀ (i : Nat) (q : Program), e.references[i]? = some q → references[i]? = some q) ∧
      (∀ (i : Nat) (q : Program), references[i]? = some q → ImportsOk lib q) ∧
      ∃ q, references[index]? = some q := by
  unfold Emitter.addReference
  rw [NameTable.index?_eq]
  split
  · rename_i i hi
    have hlt : i < e.references.size := by
      rw [← h.names]
      exact (Array.findIdx?_eq_some_iff_getElem.1 hi).1
    exact ⟨i, e.references, e.referenceTable, rfl, h.names, fun _ _ hq => hq, h.imports, _,
      Array.getElem?_eq_getElem hlt⟩
  · refine ⟨e.references.size, e.references.push p, e.referenceTable.push name, rfl, ?_, ?_, ?_, p,
      Array.getElem?_push_size⟩
    · rw [NameTable.push, Array.size_push, Array.size_push, h.names]
    · intro i q hq
      have hlt := (Array.getElem?_eq_some_iff.1 hq).1
      rw [Array.getElem?_push_lt hlt, ← Array.getElem?_eq_getElem hlt]
      exact hq
    · intro i q hq
      rw [Array.getElem?_push] at hq
      split at hq
      · cases hq
        exact hp
      · exact h.imports i q hq

theorem toUInt16_mod (n : Nat) : (n % 2 ^ 16).toUInt16 = n.toUInt16 :=
  UInt16.toNat.inj (Nat.mod_mod n (2 ^ 16))

/-- Another program is run: the one that the operand stands for, which has 16 bits of the index. -/
theorem HasOperands.program (h : HasOperands lib g d .nil n c) {p : Program} (hp : ImportsOk lib p)
    {operand : UInt16} {e : Emitter} (hadd : c.out.addReference name p = (operand, e)) :
    Drafted lib g 0 d.front { c with out := e.emit (.callProgram operand) } := by
  have htables := h.around.tables
  obtain ⟨index, references, table, hadd', hnames, hkept, himports, target, htarget⟩ :=
    htables.addReference hp name
  cases hadd.symm.trans hadd'
  obtain ⟨called, hcalled⟩ : ∃ called, references[index % 2 ^ 16]? = some called := by
    have hlt := (Array.getElem?_eq_some_iff.1 htarget).1
    exact ⟨_, Array.getElem?_eq_getElem (Nat.lt_of_le_of_lt (Nat.mod_le _ _) hlt)⟩
  obtain ⟨code, hloaded⟩ : ∃ code, lib.isSome →
      (⟨called, code, [], false⟩ : Activation).Loaded lib := by
    by_cases hlib : lib.isSome
    · obtain ⟨code, hloaded⟩ := himports _ called hcalled hlib
      exact ⟨code, fun _ => hloaded⟩
    · exact ⟨.nil, fun hsome => absurd hsome hlib⟩
  have hposition := Emitter.position_emit_le
    { c.out with references := references, referenceTable := table }
    (.callProgram index.toUInt16)
  obtain ⟨hpart, hended⟩ := Part.emitTo h (fun _ _ hs hS => Operands.Sound.mono hs.le hS)
    { c.out with references := references, referenceTable := table }
    (.callProgram index.toUInt16) rfl rfl
    ⟨Nat.le_refl _, fun _ _ => rfl, Nat.le_refl _, hkept⟩ (fun _ hj => .inl hj)
    ⟨Nat.le_trans htables.blocks hposition, Nat.le_trans htables.queries hposition,
      htables.filters, hnames, himports⟩
  have hindex : index % 2 ^ 16 < 2 ^ 16 := Nat.mod_lt _ (by decide)
  refine Inv.drafted (d := d.add (.program (index % 2 ^ 16) called code .nil))
    (hpart.finishAs hended ?_ ?_ ?_)
  · rw [Code.lines, Code.lines, Operands.lines, toUInt16_mod]
    rfl
  · rw [Code.definitions, Code.definitions, Operands.definitions]
  · rw [Code.Sound, Code.Sound]
    exact ⟨⟨hindex, hcalled⟩, fun hlib => ⟨(hloaded hlib).reads, (hloaded hlib).small,
      (hloaded hlib).sound⟩, trivial⟩

/-- A tag with operands behind the draft compiles what it performs. -/
theorem Gathered.perform_yields (hctx : ctx.Ok lib) (hcompares : Compares t)
    (hmin : t.tag.min ≤ t.index) (hmax : t.index ≤ t.tag.max)
    (h : Gathered lib g d t t.index os (n + 1) c) :
    Yields (t.perform ctx) c fun _ => Drafted lib g 0 d.front := by
  have hok := h.gathers.ok
  have hlength (hother : ∀ op, t.tag.action ≠ .arithmetic op) := h.gathers.length_eq (.inr hother)
  have hcode := h.code
  rw [Tag.Ok] at hok
  unfold OpenTag.perform
  cases haction : t.tag.action with
  | openChannel =>
    have hnone : os.length = 0 := by rw [hlength (by simp [haction]), haction]; rfl
    cases t.names with
    | nil => exact .fail
    | cons name rest =>
      exact .bind ((hcode.visibility_yields rest).mono fun visibility c' hcode =>
        .output (hcode.openChannel hnone visibility name))
  | closeChannel =>
    have hnone : os.length = 0 := by rw [hlength (by simp [haction]), haction]; rfl
    exact .output (hcode.emit_act .closeChannel rfl rfl hnone trivial).drafted
  | setLocal =>
    rw [haction] at hok
    have hone : os.length = 1 := by
      rw [hlength (by simp [haction]), haction]
      change t.index - 1 = 1
      omega
    cases t.names with
    | nil => exact .fail
    | cons name rest =>
      exact .bind ((hcode.declareLocal_yields name t.start).mono fun index c' hcode =>
        .output (hcode.emit_act (.setLocal index.toUInt16) rfl rfl hone trivial).drafted)
  | getLocal =>
    have hnone : os.length = 0 := by rw [hlength (by simp [haction]), haction]; rfl
    cases t.names with
    | nil => exact .fail
    | cons name rest =>
      exact .bind ((hcode.localIndex_yields name).mono fun index c' hcode =>
        .bind (.output (.output
          (hcode.emit_print (.getLocal index) rfl rfl hnone trivial).drafted)))
  | swapLocals =>
    have hnone : os.length = 0 := by rw [hlength (by simp [haction]), haction]; rfl
    cases t.names with
    | nil => exact .fail
    | cons a rest =>
      cases rest with
      | nil => exact .fail
      | cons b rest =>
        exact .bind ((hcode.localIndex_yields a).mono fun i c' hcode =>
          .bind ((hcode.localIndex_yields b).mono fun j c'' hcode =>
            .output (hcode.emit_act (.swap i j) rfl rfl hnone trivial).drafted))
  | arithmetic op =>
    rw [haction] at hok
    have htwo : os.length = 2 := by
      rw [h.gathers.length_eq (.inl (by omega)), haction]
      change t.index = 2
      omega
    simp only [h.gathers.folded, Bool.not_false, if_true]
    refine .bind (.output (.output ?_))
    exact (hcode.emit_print (.arithmetic op) rfl (by cases op <;> rfl) htwo trivial).drafted
  | concat =>
    rw [haction] at hok
    have htwo : os.length = 2 := by
      rw [hlength (by simp [haction]), haction]
      change t.index = 2
      omega
    exact .bind (.output (.output (hcode.emit_print .concat rfl rfl htwo trivial).drafted))
  | compare jump numeric =>
    have hlt := hcompares 2 (by rw [haction]; rfl)
    rw [haction] at hok
    obtain ⟨-, hthree, -⟩ := hok
    omega
  | compareZero jump =>
    have hlt := hcompares 1 (by rw [haction]; rfl)
    rw [haction] at hok
    obtain ⟨-, htwo, -⟩ := hok
    omega
  | getArgument =>
    have hnone : os.length = 0 := by rw [hlength (by simp [haction]), haction]; rfl
    cases t.names with
    | nil => exact .fail
    | cons name rest =>
      refine .bind (.get ?_)
      split
      · rename_i index hindex
        have hlt := hcode.around.slots.argument?_lt hindex
        refine .bind (.output (.output
          (hcode.emit_print (.argument index.toUInt8) rfl rfl hnone ?_).drafted))
        have hle : index.toUInt8.toNat ≤ index := by
          simp only [Nat.toUInt8_eq, UInt8.toNat_ofNat']
          exact Nat.mod_le _ _
        exact Nat.lt_of_le_of_lt hle hlt
      · exact .bind .fail
  | call s =>
    rw [haction] at hok
    obtain ⟨hs, hlow, hhigh⟩ := hok
    have hindex : t.index = s.arity := by omega
    have hcount : os.length = s.arity := by
      rw [hlength (by simp [haction]), haction, ← hindex]
      rfl
    rw [hindex]
    exact .output (hcode.call hs hcount).drafted
  | define skip =>
    rw [haction] at hok
    exact hok.elim
  | callProgram =>
    have hnone : os = .nil := by
      apply Operands.eq_nil_of_length
      rw [hlength (by simp [haction]), haction]
      rfl
    subst hnone
    cases t.names with
    | nil => exact .fail
    | cons name rest =>
      dsimp only
      split
      · exact .fail
      · rename_i p hp
        exact .bind (.get (.set (hcode.program (hctx.imports name p hp) rfl)))
  | native id params =>
    have hprovides := h.gathers.provides id params haction
    rw [haction] at hok
    obtain ⟨hlib, hlow, hhigh⟩ := hok
    have hindex : t.index = params.length := by omega
    rw [hindex, List.take_length] at hprovides
    rw [hindex]
    exact .output (hcode.native hlib hprovides).drafted

/-! ## The end of a tag -/

/-- A comparison with one branch. -/
theorem Part.finishThen {yes : Code} (hlength : os.length = 2)
    (h : HasFirst lib g d os test yes n c) :
    Inv lib g n (d.add (.ifThen os test yes .nil))
      { c with out := c.out.patchHere (d.finish + os.size + 6) } := by
  have htarget : d.finish + os.size + 11 + yes.size = d.finish + os.size + 11 +
      Line.sizes (yes.lines (d.finish + os.size + 11)) := by rw [Code.sizes_lines]
  obtain ⟨hland, hended⟩ := h.landElse htarget
  refine hland.finishAs hended ?_ ?_ ?_
  · simp only [Code.lines, List.append_nil, branchLines]
  · simp only [Code.definitions, List.append_nil, secondDefinitions]
  · rw [Code.Sound, Code.Sound]
    exact ⟨hland.sound.1, hlength, hland.sound.2, trivial⟩

/-- A comparison with two branches. -/
theorem Part.finishElse {yes no : Code} (hlength : os.length = 2)
    (h : HasSecond lib g d os test yes no n c) :
    Inv lib g n (d.add (.ifElse os test yes no .nil))
      { c with out := c.out.patchHere (d.finish + os.size + 11 + yes.size) } := by
  have hsplit : ∀ target, secondLines d os test yes target ++
      no.lines (d.finish + os.size + 11 + yes.size + 5) =
      (branchLines d.finish os test (Int32.ofNat (d.finish + os.size + 11 + yes.size + 5)) ++
        yes.lines (d.finish + os.size + 11)) ++
        .plain (.jump target) :: no.lines (d.finish + os.size + 11 + yes.size + 5) := by
    intro target
    simp only [secondLines, List.append_assoc, List.cons_append, List.nil_append]
  have hoffset : d.finish + os.size + 11 + yes.size = d.finish + Line.sizes
      (branchLines d.finish os test (Int32.ofNat (d.finish + os.size + 11 + yes.size + 5)) ++
        yes.lines (d.finish + os.size + 11)) := by
    rw [Line.sizes_append, sizes_branchLines, Code.sizes_lines]
    omega
  have hsize : d.finish + Line.sizes
      ((branchLines d.finish os test (Int32.ofNat (d.finish + os.size + 11 + yes.size + 5)) ++
        yes.lines (d.finish + os.size + 11)) ++
        .plain (.jump 0) :: no.lines (d.finish + os.size + 11 + yes.size + 5)) =
      d.finish + os.size + 11 + yes.size + 5 + no.size := by
    rw [← hsplit, Line.sizes_append, sizes_secondLines, Code.sizes_lines]
    omega
  rw [HasSecond, hsplit] at h
  have hended := h.ended_land (i := .jump 0) rfl hoffset
  have hland := h.land (i := .jump 0) rfl hoffset
  rw [hsize, Instr.withTarget, ← hsplit] at hended hland
  refine hland.finishAs hended ?_ ?_ ?_
  · simp only [Code.lines, List.append_nil, secondLines, branchLines]
  · simp only [Code.definitions, List.append_nil, secondDefinitions]
  · rw [Code.Sound, Code.Sound]
    exact ⟨hland.sound.1.1, hlength, hland.sound.1.2, hland.sound.2, trivial⟩

theorem OpenTag.perform_yields_of_asks {k : Nat} {Q : Unit → Compilation → Prop}
    (h : Asks t.tag test k)
    (hlands : Yields (do
      let t ← t.landElse
      match t.endJump with
      | some jump => Compiling.land jump
      | none => pure ()) c Q) :
    Yields (t.perform ctx) c Q := by
  unfold OpenTag.perform
  obtain ⟨⟨numeric, haction⟩, -⟩ | ⟨haction, -⟩ := h.action <;> (simp only [haction]; exact hlands)

/-- So does a comparison whose branches are complete. -/
theorem Complete.perform_yields (hctx : ctx.Ok lib) (hmin : t.tag.min ≤ t.index) (hmax : t.index ≤ t.tag.max)
    (h : Complete lib g front (n + 1) t c) :
    Yields (t.perform ctx) c fun _ => Drafted lib g 0 front := by
  cases h with
  | operands hfront h hcompares =>
    subst hfront
    exact h.perform_yields hctx hcompares hmin hmax
  | folded hfront haction hfolded h =>
    unfold OpenTag.perform
    simp only [haction, hfolded, Bool.not_true, Bool.false_eq_true, if_false]
    exact .pure (hfront ▸ h.drafted)
  | yes hfront hbranch h =>
    subst hfront
    refine OpenTag.perform_yields_of_asks hbranch.asks ?_
    simp only [OpenTag.landElse, hbranch.elseJump, hbranch.endJump]
    exact .bind (.bind (.output (.pure (.pure (h.finishThen hbranch.length).drafted))))
  | no hfront hbranch h =>
    subst hfront
    refine OpenTag.perform_yields_of_asks hbranch.asks ?_
    simp only [OpenTag.landElse, hbranch.elseJump, hbranch.endJump]
    exact .bind (.bind (.pure (.pure (.output (h.finishElse hbranch.length).drafted))))
  | body hfront haction h =>
    subst hfront
    unfold OpenTag.perform
    simp only [haction]
    exact .bind (.output (.bind (.output (.modify h.finish))))
  | short h => omega

/-- A tag with a number of arguments it takes ends; others are refused. -/
theorem Complete.finish_yields (hctx : ctx.Ok lib) (h : Complete lib g front (n + 1) t c) :
    Yields (t.finish ctx) c fun _ => Drafted lib g 0 front := by
  unfold OpenTag.finish
  split
  · exact .bind .fail
  · rename_i hcount
    simp only [Bool.or_eq_true, decide_eq_true_eq, not_or, Nat.not_lt] at hcount
    exact h.perform_yields hctx hcount.1 hcount.2

/-! ## All of a tag -/

/-- What a step of a tag leads to. -/
inductive Tag.Continues (lib : Option Registry) (g : Setting) (front : List Line) :
    Step → Compilation → Prop where
  | done {c : Compilation} (h : Drafted lib g 0 front c) : Continues lib g front .done c
  | argument {t : OpenTag} {after : After} {stop : Terminator} {c : Compilation}
    (h : WaitsForArgument lib g front t after c) :
    Continues lib g front (.push (.argument t after) (.pattern stop)) c

theorem Filled.endArgument_yields (hctx : ctx.Ok lib) (h : Filled lib g front n t c) :
    Yields (t.endArgument ctx) c fun next c' =>
      match next with
      | some t' => Ready lib g front (n + 1) t' c'
      | none => Drafted lib g 0 front c' := by
  refine .bind (.read fun terminator r hr => ?_)
  have hread := h.reader hr
  refine .bind (hread.betweenArguments_yields.mono fun t' c' hbetween => ?_)
  unfold Between at hbetween
  split at hbetween
  · rename_i hmore
    simp only [of_decide_eq_true hmore, if_true]
    exact .pure hbetween
  · rename_i hmore
    have hmore : ¬ terminator.kind = .semicolon := fun hkind => hmore (decide_eq_true hkind)
    simp only [hmore, if_false]
    exact .bind ((hbetween.finish_yields hctx).mono fun _ c'' hdrafted => .pure hdrafted)

theorem Ready.arguments_yields (hctx : ctx.Ok lib) {tokens : List Token} (h : Ready lib g front (n + 1) t c) :
    Yields (t.arguments ctx tokens) c (Tag.Continues lib g front) := by
  induction tokens generalizing n t c with
  | nil => exact .bind (.position .fail)
  | cons _ tokens ih =>
    refine .bind (h.beginArgument_yields.mono fun (t', after) c' hbegan => ?_)
    cases after with
    | some after => exact .pure (.argument hbegan)
    | none =>
      refine .bind ((Filled.endArgument_yields hctx hbegan).mono fun next c'' hnext => ?_)
      cases next with
      | some t'' => exact ih hnext
      | none => exact .pure (.done hnext)

theorem WaitsForArgument.resume_yields (hctx : ctx.Ok lib) {after : After}
    (h : WaitsForArgument lib g front t after c) :
    Yields (t.resume ctx after) c (Tag.Continues lib g front) := by
  refine .bind (h.afterArgument_yields.mono fun _ c' hfilled => .bind (.tokens ?_))
  refine .bind ((hfilled.endArgument_yields hctx).mono fun next c'' hnext => ?_)
  cases next with
  | some t' => exact hnext.arguments_yields hctx
  | none => exact .pure (.done hnext)

theorem get?_of_lookup? {r : Registry} {id : Nat} {f : Function} (h : r.lookup? name = some (id, f)) :
    r.get? id = some f := by
  obtain ⟨⟨f', id'⟩, hfind, heq⟩ := Option.map_eq_some_iff.1 h
  cases heq
  have hmem := List.mem_reverse.1 (List.mem_of_find?_eq_some hfind)
  rw [List.mem_zipIdx_iff_getElem?] at hmem
  simpa [Registry.get?] using hmem

/-- Every tag of the language is well-formed. -/
theorem Tag.ok_of_intrinsic? {known : Nat → Nat → Prop} {tag : Tag} (h : Tag.intrinsic? name = some tag) :
    tag.Ok lib known := by
  have hcompare : ∀ (test : Test) (numeric : Bool),
      (⟨name, .compare (test.jump 0) numeric, 3, 4⟩ : Tag).Ok lib known :=
    fun test _ => ⟨⟨test, rfl⟩, rfl, rfl⟩
  have hzero : ∀ test : Test, (⟨name, .compareZero (test.jump 0), 2, 3⟩ : Tag).Ok lib known :=
    fun test => ⟨⟨test, rfl⟩, rfl, rfl⟩
  unfold Tag.intrinsic? at h
  split at h
  all_goals cases h
  all_goals first
    | exact trivial
    | exact ⟨rfl, rfl⟩
    | exact hcompare .equal false
    | exact hcompare .notEqual false
    | exact hcompare .greater true
    | exact hcompare .greaterEqual true
    | exact hcompare .less true
    | exact hcompare .lessEqual true
    | exact hzero .zero
    | exact hzero .notZero

/-- A tag whose name has been read. -/
inductive Resolved (lib : Option Registry) (g : Setting) (front : List Line) (n : Nat) (tag : Tag)
    (c : Compilation) : Prop where
  | tag {d : Draft} (hfront : d.front = front) (hok : tag.Ok lib (g.after d)) (h : Inv lib g n d c)
  | define {d : Draft} {arity m : Nat} {outside : Compilation} (hfront : d.front = front)
    (haction : tag.action = .define d.finish) (hmin : tag.min = 1) (hmax : tag.max = 1)
    (h : InBody lib g d arity m outside c)

/-- A name stands for a tag that is well-formed, or begins a definition. -/
theorem Tag.resolve_yields (hctx : ctx.Ok lib) (place : Position) (h : Drafted lib g n front c) :
    Yields (Tag.resolve ctx place) c fun tag c' => Resolved lib g front n tag c' := by
  obtain ⟨d, rfl, hinv⟩ := h
  refine .bind (.readLoose fun first r hr => ?_)
  have hinv := (hinv.reader hr).spare (Nat.le_add_right n 1)
  split
  · refine .bind (.take fun taken r' hr' => ?_)
    have hinv := hinv.reader hr'
    split
    · exact (Tag.define_yields ⟨d, rfl, hinv⟩).mono
        fun tag c' ⟨d', arity, outside, hfront, haction, hmin, hmax, hbody⟩ =>
          .define hfront haction hmin hmax hbody
    · refine .bind (.expect fun name r'' hr'' hkind => .bind (.get ?_))
      have hinv := (hinv.reader hr'').spare (Nat.le_add_right n 1)
      split
      · rename_i s hs
        exact .pure (.tag rfl ⟨hinv.around.subroutines.find? hs, rfl, rfl⟩ hinv)
      · exact .fail
  · split
    · rename_i tag htag
      exact .pure (.tag rfl (Tag.ok_of_intrinsic? htag) hinv)
    · rename_i id f hnone hlookup
      have hf := get?_of_lookup? hlookup
      have hid : id < ctx.registry.size := (Array.getElem?_eq_some_iff.1 hf).1
      refine .pure (.tag rfl ⟨fun r hr => ?_, rfl, rfl⟩ hinv)
      have hsize := hctx.size r hr
      have hparams := hctx.params r hr id f
      rw [hctx.registry r hr] at hsize hparams ⊢
      exact ⟨⟨f, hf, rfl⟩, Nat.lt_of_lt_of_le hid hsize, hparams hf⟩
    · exact .fail
  · exact .fail

theorem compares_start (tag : Tag) (place : Position) :
    Compares { tag := tag, start := place } := by
  intro k hk
  change tag.action.compared? = some k at hk
  cases haction : tag.action with
  | compare _ _ | compareZero _ =>
    rw [haction] at hk
    cases hk
    exact Nat.succ_pos _
  | _ =>
    rw [haction] at hk
    cases hk

theorem Tag.start_yields (hctx : ctx.Ok lib) (place : Position) (h : Drafted lib g 1 front c) :
    Yields (Tag.start ctx place) c (Tag.Continues lib g front) := by
  refine .bind ((Tag.resolve_yields hctx place h).mono fun tag c' hresolved => .bind (.tokens ?_))
  refine .bind (.takeLoose fun taken r hr => ?_)
  split
  · refine Ready.arguments_yields (n := 0) hctx ?_
    cases hresolved with
    | tag hfront hok h =>
      exact .operands hfront ⟨.start hok, (h.reader hr).operands⟩ (compares_start tag place)
    | define hfront haction hmin hmax h => exact .body hfront haction hmin hmax rfl (h.reader hr)
  · refine .bind (.expectLoose fun _ r' hr' => ?_)
    refine .bind ((Complete.finish_yields (n := 0) hctx ?_).mono fun _ _ hdrafted =>
      .pure (.done hdrafted))
    cases hresolved with
    | tag hfront hok h =>
      refine .operands hfront ⟨.start hok, ?_⟩ (compares_start tag place)
      exact (((h.reader hr).reader hr').operands).spare (Nat.le_add_left 1 _)
    | define hfront haction hmin hmax h => exact .short (hmin ▸ Nat.one_pos)

end Wordloom.Compile
