import Wordloom.Proofs.Outcomes

/-!
# Wordloom.Proofs.StaticCode

Code that only prints and chooses: texts, and blocks whose items are such code and have weights that
are known beforehand. It calls nothing and leaves the stack alone, so that without a limit on the time
or on the characters nothing can end its run early. The steps are counted: such code takes at most as
many as it has bytes, and a block that is repeated takes that often the steps of its longest item.
-/

namespace Wordloom

variable {env : Environment} {m : Machine} {p : Program} {w : World} {c : Control} {position : Nat}
  {t : Trace} {a : Activation} {lower : Option Runner} {lib : Option Registry}
  {bodies : List (Evaluating Unit)} {y : Evaluating Unit}

/-! ## Counted runs -/

/-- The machine gets to a state with `Q` in at most so many steps. -/
inductive Gets (env : Environment) (Q : Machine → Prop) : Nat → Machine → Prop where
  | here {n : Nat} {m : Machine} (h : Q m) : Gets env Q n m
  | step {n : Nat} {m m' : Machine} (h : Running.step env m = .ok .running m')
    (next : Gets env Q n m') : Gets env Q (n + 1) m

namespace Gets

variable {P Q : Machine → Prop} {k n : Nat}

theorem mono (h : Gets env Q k m) (hn : k ≤ n) : Gets env Q n m := by
  induction h generalizing n with
  | here h => exact .here h
  | step h _ ih =>
    obtain ⟨n, rfl⟩ := Nat.exists_eq_add_of_le' (Nat.le_trans (Nat.le_add_left 1 _) hn)
    exact .step h (ih (by omega))

theorem trans (h : Gets env P k m) (hnext : ∀ m, P m → Gets env Q n m) : Gets env Q (k + n) m := by
  induction h with
  | here h => exact (hnext _ h).mono (Nat.le_add_left _ _)
  | @step k _ _ h _ ih =>
    rw [Nat.add_right_comm]
    exact .step h ih

theorem halts {seed : UInt64} {R : Outcome → Prop} (h : Gets env Q k m)
    (hQ : ∀ m, Q m → m.Halts env seed R) : m.Halts env seed R := by
  induction h with
  | here h => exact hQ _ h
  | step h _ ih => exact .step h ih

/-- With more steps than it takes to get to states from which one step is left, the run ends. -/
theorem run {seed : UInt64} {o : Outcome} (h : Gets env Q k m)
    (hQ : ∀ m, Q m → ∀ steps, m.run env seed (steps + 1) = o) {steps : Nat} (hsteps : k < steps) :
    m.run env seed steps = o := by
  induction h generalizing steps with
  | here h =>
    obtain ⟨steps, rfl⟩ := Nat.exists_eq_add_of_le' (Nat.lt_of_le_of_lt (Nat.zero_le _) hsteps)
    exact hQ _ h steps
  | step h _ ih =>
    obtain ⟨steps, rfl⟩ := Nat.exists_eq_add_of_le' (Nat.lt_of_le_of_lt (Nat.zero_le _) hsteps)
    rw [Machine.run, h]
    exact ih (by omega)

end Gets

/-- Neither the time that a run takes is limited nor how much it prints. -/
structure Options.Unlimited (options : Options) : Prop where
  timeout : options.timeout = none
  charLimit : options.charLimit = none

theorem tick_of_unlimited (hfree : env.options.Unlimited) (w : World) (c : Control) (position : Nat)
    (t : Trace) :
    ∃ t', Running.tick env (.of w c position t) = .ok () (.of w c position t') := by
  simp only [Running.tick, Environment.isLate, run_bind, run_get, run_set, hfree.timeout]
  exact ⟨{ t with executed := t.executed + 1 }, by simp [run_pure, Machine.of]⟩

namespace Gets

variable {Q : Machine → Prop} {n : Nat} {ls : List Line} (hfree : env.options.Unlimited)

include hfree

/-- A step is the execution of the next instruction. -/
theorem line {l : Line} {k : Nat} (hm : m.At w c position) (hhas : p.Has position (l :: ls))
    (hprogram : c.frame.program = p)
    (h : ∀ i t, Line.ofInstr? p.strings i = some l →
      ∃ m', Running.execute env i (.of w c (position + l.size) t) = .ok .running m' ∧
        Gets env Q k m') : Gets env Q (k + 1) m := by
  obtain ⟨t, rfl⟩ := hm
  obtain ⟨i, hi, hstep⟩ := step_line (w := w) (t := t) hhas hprogram
  obtain ⟨t', htick⟩ := tick_of_unlimited hfree w c (position + l.size)
    { t with current := ⟨p, position⟩ }
  obtain ⟨m', hexecute, hgets⟩ := h i t' hi
  rw [run_bind_of_ok htick, hexecute] at hstep
  exact .step hstep hgets

theorem plain (x : Running Unit) {i : Instr} (hm : m.At w c position)
    (hhas : p.Has position (.plain i :: ls)) (hprogram : c.frame.program = p)
    (hexecute : Running.execute env i = (do x; return .running))
    (h : ∀ t, ∃ m', x (.of w c (position + i.size) t) = .ok () m' ∧ Gets env Q n m') :
    Gets env Q (n + 1) m := by
  refine line hfree hm hhas hprogram fun j t hj => ?_
  obtain ⟨m', hx, hgets⟩ := h t
  rw [Line.eq_of_ofInstr?_plain hj, hexecute]
  exact ⟨m', run_bind_of_ok hx, hgets⟩

/-- An instruction that refers to a string. -/
theorem text (x : Int32 → Running Unit) {use : StringUse} {s : String} (hm : m.At w c position)
    (hhas : p.Has position (.text use s :: ls)) (hprogram : c.frame.program = p)
    (hexecute : ∀ i, Running.execute env (use.instr i) = (do x i; return .running))
    (h : ∀ i t, p.string? i = some s →
      ∃ m', x i (.of w c (position + (use.instr 0).size) t) = .ok () m' ∧ Gets env Q n m') :
    Gets env Q (n + 1) m := by
  refine line hfree hm hhas hprogram fun j t hj => ?_
  obtain ⟨i, rfl, hi⟩ := Line.eq_instr_of_ofInstr?_text hj
  obtain ⟨m', hx, hgets⟩ := h i t hi
  rw [hexecute i]
  exact ⟨m', run_bind_of_ok hx, hgets⟩

end Gets

/-! ## What succeeds -/

/-- An evaluation comes to a world without failing, and from an offset to another one the machine comes
to it too, in at most so many steps. -/
structure Performs (env : Environment) (k : Nat) (y : Evaluating Unit) (c : Control)
    (start finish : Nat) (w w' : World) : Prop where
  eval : y w = .ok ((), w')
  gets : ∀ m, m.At w c start → Gets env (Machine.At w' c finish) k m

namespace Performs

variable {k n : Nat} {y z : Evaluating Unit} {start middle finish : Nat} {w₁ w' : World}

theorem nil : Performs env 0 (pure ()) c position position w w := ⟨rfl, fun _ hm => .here hm⟩

theorem mono (h : Performs env k y c start finish w w') (hn : k ≤ n) :
    Performs env n y c start finish w w' := ⟨h.eval, fun m hm => (h.gets m hm).mono hn⟩

theorem bind (h : Performs env k y c start middle w w₁) (h' : Performs env n z c middle finish w₁ w') :
    Performs env (k + n) (do y; z) c start finish w w' :=
  ⟨by rw [bind_of_ok h.eval, h'.eval], fun m hm => (h.gets m hm).trans h'.gets⟩

end Performs

/-- An evaluation and the machine come to the same from wherever no repeater is set, and none is set
then. -/
def Does (env : Environment) (k : Nat) (y : Evaluating Unit) (c : Control) (start finish : Nat) : Prop :=
  ∀ w, w.repeater = {} → ∃ w', w'.repeater = {} ∧ Performs env k y c start finish w w'

theorem Does.mono {k n : Nat} {start finish : Nat} (h : Does env k y c start finish) (hn : k ≤ n) :
    Does env n y c start finish := by
  intro w hw
  obtain ⟨w', hw', hperforms⟩ := h w hw
  exact ⟨w', hw', hperforms.mono hn⟩

theorem Does.bind {k n : Nat} {y z : Evaluating Unit} {start middle finish : Nat}
    (h : Does env k y c start middle) (h' : Does env n z c middle finish) :
    Does env (k + n) (do y; z) c start finish := by
  intro w hw
  obtain ⟨w₁, hw₁, hperforms⟩ := h w hw
  obtain ⟨w₂, hw₂, hperforms'⟩ := h' w₁ hw₁
  exact ⟨w₂, hw₂, hperforms.bind hperforms'⟩

/-- Printing succeeds where the characters are not limited, and leaves the repeater alone. -/
theorem print_of_unlimited (hfree : env.options.Unlimited) (hfits : c.Fits a) (text : String)
    (w : World) (position : Nat) :
    ∃ w', Evaluating.print env.options a.captured text w = .ok ((), w') ∧
      w'.repeater = w.repeater ∧
      ∀ t, Running.print env.options text (.of w c position t) = .ok () (.of w' c position t) := by
  obtain ⟨w', hprint, hrepeater⟩ : ∃ w', Evaluating.print env.options a.captured text w =
      .ok ((), w') ∧ w'.repeater = w.repeater := by
    unfold Evaluating.print
    cases a.captured with
    | true => exact ⟨_, rfl, rfl⟩
    | false =>
      rw [hfree.charLimit]
      exact ⟨_, rfl, rfl⟩
  refine ⟨w', hprint, hrepeater, fun t => ?_⟩
  have hmirrors := mirrors_print (a := a) env.options text w c position t hfits
  rwa [hprint] at hmirrors

theorem separate_of_unlimited (hfree : env.options.Unlimited) (hfits : c.Fits a)
    (separator : Option String) (w : World) (position : Nat) :
    ∃ w', Evaluating.separate env.options a.captured separator w = .ok ((), w') ∧
      w'.repeater = w.repeater ∧ ∀ t, separator.forM (Running.print env.options)
        (.of w c position t) = .ok () (.of w' c position t) := by
  cases separator with
  | some text => exact print_of_unlimited hfree hfits text w position
  | none => exact ⟨w, rfl, rfl, fun _ => rfl⟩

/-! ## Static code -/

/-- The weights of items that have no code for them. -/
def Choices.knownWeights : Choices → List Float
  | .nil => []
  | .item weight _ next => constantWeight weight :: next.knownWeights
  | .weighted _ _ next => next.knownWeights

theorem Act.does (hfree : env.options.Unlimited) {act : Act} (hact : act.isStatic = true)
    (hfits : c.Fits a) (hhas : a.program.Has position act.lines) :
    Does env 1 (act.perform env a []) c position (position + Line.sizes act.lines) := by
  intro w hw
  cases act with
  | print s =>
    obtain ⟨w', hprint, hw', hrun⟩ := print_of_unlimited hfree hfits s w
      (position + ((StringUse.print).instr 0).size)
    refine ⟨w', hw'.trans hw, hprint, fun m hm => ?_⟩
    refine Gets.text hfree (fun n => do Running.print env.options (← Running.string n)) hm hhas
      hfits.program (fun _ => by simp [Running.execute, StringUse.instr]) fun n t hn => ?_
    refine ⟨_, ?_, .here (Machine.at_of w' c _ t)⟩
    rw [run_bind_of_ok (string_of hfits.program hn)]
    exact hrun t
  | mark place =>
    refine ⟨w, hw, rfl, fun m hm => ?_⟩
    exact Gets.plain hfree (Running.markPlace _ _) hm hhas hfits.program rfl fun t =>
      ⟨_, rfl, .here ⟨{ t with marker := some ⟨t.current.program.id, _, _⟩ }, rfl⟩⟩
  | _ => cases hact

theorem Act.one_le_sizes {act : Act} (hact : act.isStatic = true) : 1 ≤ Line.sizes act.lines := by
  cases act with
  | print _ | mark _ =>
    rw [Act.lines, Line.sizes_cons]
    exact Nat.le_add_right_of_le (Line.size_pos _)
  | _ => cases hact

/-! ### Choices -/

/-- Weights that are known need not be found. -/
theorem Choices.weigh_eq (block : Block) (entered : Option ActiveBlock) : ∀ (cs : Choices)
    (base : Nat) (ws : List Float), cs.isStatic = true →
    Running.weigh env block entered ws (cs.entries base) =
      Running.chooseItem block entered (ws ++ cs.knownWeights)
  | .nil, base, ws, _ => by
    rw [Choices.entries, Running.weigh, Choices.knownWeights, List.append_nil]
  | .item weight body next, base, ws, hstatic => by
    rw [Choices.isStatic, Bool.and_eq_true] at hstatic
    have ih := next.weigh_eq block entered (base + body.size + 1) (ws ++ [constantWeight weight]) hstatic.2
    rw [List.append_assoc, List.singleton_append] at ih
    rw [Choices.entries, Choices.knownWeights, ← ih]
    cases weight <;> rfl
  | .weighted .., _, _, hstatic => by
    rw [Choices.isStatic] at hstatic
    cases hstatic

theorem Choices.mapM_weights : ∀ (cs : Choices) (base : Nat), cs.isStatic = true →
    (cs.weights env lower a base).mapM id = pure cs.knownWeights
  | .nil, base, _ => by
    rw [Choices.weights, Choices.knownWeights, List.mapM_nil]
  | .item weight body next, base, hstatic => by
    rw [Choices.isStatic, Bool.and_eq_true] at hstatic
    rw [Choices.weights, Choices.knownWeights, List.mapM_cons, id, pure_bind,
      next.mapM_weights _ hstatic.2, pure_bind]
  | .weighted .., _, hstatic => by
    rw [Choices.isStatic] at hstatic
    cases hstatic

theorem Choices.length_knownWeights : ∀ cs : Choices, cs.isStatic = true →
    cs.knownWeights.length = cs.count
  | .nil, _ => rfl
  | .item _ _ next, hstatic => by
    rw [Choices.isStatic, Bool.and_eq_true] at hstatic
    rw [Choices.knownWeights, List.length_cons, next.length_knownWeights hstatic.2, Choices.count]
  | .weighted .., hstatic => by
    rw [Choices.isStatic] at hstatic
    cases hstatic

theorem Choices.choose_eq {cs : Choices} (hstatic : cs.isStatic = true) (base : Nat)
    (bodies : List (Evaluating Unit)) :
    Evaluating.choose (cs.weights env lower a base) bodies =
      Evaluating.pick bodies cs.knownWeights := by
  rw [Evaluating.choose, cs.mapM_weights base hstatic, pure_bind]

/-- An item of a block with its end. -/
def DoesItem (env : Environment) (k : Nat) (p : Program) (c : Control) (offset : Nat)
    (y : Evaluating Unit) : Prop :=
  ∃ finish, p.Has finish [.plain .blockEnd] ∧ Does env k y c offset finish

/-- The items of a block do what these bodies say. -/
def DoesItems (env : Environment) (k : Nat) (p : Program) (c : Control) (items : List BlockItem)
    (bodies : List (Evaluating Unit)) : Prop :=
  ∀ (i : Nat) (item : BlockItem), items[i]? = some item → item.offset.toNat ≤ p.code.size ∧
    ∃ y, bodies[i]? = some y ∧ DoesItem env k p c item.offset.toNat y

theorem DoesItems.cons {k base : Nat} {body : Code} {weight : Weight} {items : List BlockItem}
    (hhas : p.Has base (body.lines base ++ [.plain .blockEnd])) (hsmall : p.code.size < 2 ^ 31)
    (hy : Does env k y c base (base + body.size)) (h : DoesItems env k p c items bodies) :
    DoesItems env k p c (⟨base.toUInt32, weight⟩ :: items) (y :: bodies) := by
  have hle := hhas.le_size
  have hbase : base.toUInt32.toNat = base := toNat_toUInt32 (by omega)
  have hend := hhas.right
  rw [Code.sizes_lines] at hend
  intro i item hitem
  cases i with
  | zero =>
    cases hitem
    exact ⟨by rw [hbase]; omega, y, rfl, base + body.size, hend, by rwa [hbase]⟩
  | succ i => exact h i item hitem

theorem DoesItems.mono {k n : Nat} {items : List BlockItem} (h : DoesItems env k p c items bodies)
    (hn : k ≤ n) : DoesItems env n p c items bodies := by
  intro i item hitem
  obtain ⟨hoffset, y, hy, finish, hfinish, hdoes⟩ := h i item hitem
  exact ⟨hoffset, y, hy, finish, hfinish, hdoes.mono hn⟩

/-- An item is chosen and run. -/
theorem DoesItems.pick {active : ActiveBlock} {us : List Float} {k : Nat}
    (h : DoesItems env k a.program (c.inBlock active) active.block.items bodies) (hfits : c.Fits a)
    (hne : 0 < active.block.items.length) (hlength : us.length = active.block.items.length)
    (hw : w.repeater = {}) :
    ∃ w' finish, Evaluating.pick bodies us w = .ok ((), w') ∧ w'.repeater = {} ∧
      a.program.Has finish [.plain .blockEnd] ∧
      ∀ {entered c₀}, Entering c active entered c₀ → ∀ position t, ∃ m',
        Running.chooseItem active.block entered us (.of w c₀ position t) = .ok () m' ∧
        Gets env (Machine.At w' (c.inBlock active) finish) k m' := by
  obtain ⟨item, hitem⟩ := exists_chosen hne hlength w.rng
  obtain ⟨hoffset, y, hy, finish, hfinish, hdoes⟩ := h _ item hitem
  obtain ⟨w', hw', hrun, hgets⟩ := hdoes { w with rng := (w.rng.weightedChoice us).2 } hw
  refine ⟨w', finish, ?_, hw', hfinish, fun hentering position t => ⟨_,
    chooseItem_of hentering hfits hitem hoffset, hgets _ (Machine.at_of _ _ _ t)⟩⟩
  rw [Evaluating.pick_of_getElem? hy, hrun]

/-! ### Repetition -/

section

variable {choices : Choices} {base k : Nat} {bodies : List (Evaluating Unit)} {finish : UInt32}
  (lower : Option Runner) (hfree : env.options.Unlimited) (hstatic : choices.isStatic = true)
  (hfits : c.Fits a) (hne : choices.entries base ≠ []) (hend : finish.toNat ≤ a.program.code.size)
  (h : ∀ active, DoesItems env k a.program (c.inBlock active) (choices.entries base) bodies)

include hfree hstatic hfits hne hend h

/-- The invariant of the repetition: a choice, made before the block is entered or while it is being
run, is followed by as many others as the block has left. Each takes the steps of an item and the one
that ends it. -/
theorem DoesItems.repeatChoice (separator : Option String) (more : Nat) (hw : w.repeater = {}) :
    ∃ w', Evaluating.repeatChoice env.options a.captured (choices.weights env lower a base) bodies
        separator more w = .ok ((), w') ∧ w'.repeater = {} ∧
      ∀ {entered c₀}, Entering c ⟨⟨finish, choices.entries base⟩, more, separator⟩ entered c₀ →
        ∀ position t, ∃ m', Running.weigh env ⟨finish, choices.entries base⟩ entered []
          (choices.entries base) (.of w c₀ position t) = .ok () m' ∧
          Gets env (Machine.At w' c finish.toNat) ((more + 1) * (k + 1)) m' := by
  have hlength : choices.knownWeights.length = (choices.entries base).length := by
    rw [choices.length_knownWeights hstatic, choices.length_entries]
  have hweigh (entered : Option ActiveBlock) :
      Running.weigh env ⟨finish, choices.entries base⟩ entered [] (choices.entries base) =
        Running.chooseItem ⟨finish, choices.entries base⟩ entered choices.knownWeights :=
    choices.weigh_eq _ entered base [] hstatic
  induction more generalizing w with
  | zero =>
    obtain ⟨w', place, hpick, hw', hplace, hchoose⟩ :=
      (h ⟨⟨finish, choices.entries base⟩, 0, separator⟩).pick hfits (List.length_pos_iff.2 hne) hlength
        hw
    refine ⟨w', ?_, hw', fun hentering position t => ?_⟩
    · rw [Evaluating.repeatChoice, Choices.choose_eq hstatic, hpick]
    · obtain ⟨m', hm', hgets⟩ := hchoose hentering position t
      refine ⟨m', by rw [hweigh, hm'], ?_⟩
      rw [Nat.zero_add, Nat.one_mul]
      refine hgets.trans fun m hm => ?_
      exact Gets.plain hfree (Running.endBlock env) hm hplace hfits.program rfl fun t =>
        ⟨_, endBlock_of_last hfits hend, .here (Machine.at_of w' c _ t)⟩
  | succ more ih =>
    obtain ⟨w₁, place, hpick, hw₁, hplace, hchoose⟩ :=
      (h ⟨⟨finish, choices.entries base⟩, more + 1, separator⟩).pick hfits (List.length_pos_iff.2 hne)
        hlength hw
    obtain ⟨w₂, hseparate, hw₂, hprint⟩ := separate_of_unlimited hfree
      (hfits.inBlock ⟨⟨finish, choices.entries base⟩, more, separator⟩) separator w₁
      (place + Instr.blockEnd.size)
    obtain ⟨w', hrepeat, hw', hagain⟩ := ih (hw₂.trans hw₁)
    refine ⟨w', ?_, hw', fun hentering position t => ?_⟩
    · rw [Evaluating.repeatChoice, Choices.choose_eq hstatic, bind_of_ok hpick, bind_of_ok hseparate,
        hrepeat]
    · obtain ⟨m', hm', hgets⟩ := hchoose hentering position t
      refine ⟨m', by rw [hweigh, hm'], ?_⟩
      have hsteps : (more + 1 + 1) * (k + 1) = k + ((more + 1) * (k + 1) + 1) := by
        rw [Nat.add_one_mul (more + 1)]
        omega
      rw [hsteps]
      refine hgets.trans fun m hm => ?_
      refine Gets.plain hfree (Running.endBlock env) hm hplace hfits.program rfl fun t => ?_
      obtain ⟨m', hm', hgets⟩ := hagain .again (place + Instr.blockEnd.size) t
      refine ⟨m', ?_, hgets⟩
      rw [endBlock_of_more hfits, run_bind_of_ok (hprint t), hm']

/-- A block is run as the repeater says, which is used up by it. -/
theorem DoesItems.block {index : Nat}
    (hlength : bodies.length = (choices.entries base).length) (hindex : index < 2 ^ 31)
    (hblock : a.program.blocks[index]? = some ⟨finish, choices.entries base⟩) {ls : List Line}
    (hhas : a.program.Has position (.plain (.block (Int32.ofNat index)) :: ls)) (w : World) :
    ∃ w', w'.repeater = {} ∧ Performs env (w.repeater.count.getD 1 * (k + 1) + 1)
      (Evaluating.block env.options a.captured (choices.weights env lower a base) bodies) c position
      finish.toNat w w' := by
  have hbodies : bodies.isEmpty = false := by
    rw [List.isEmpty_eq_false_iff, ← List.length_pos_iff, hlength]
    exact List.length_pos_iff.2 hne
  by_cases hzero : w.repeater.count.getD 1 = 0
  · refine ⟨{ w with repeater := {} }, rfl, by rw [block_eq hbodies, if_pos hzero]; rfl, fun m hm => ?_⟩
    refine Gets.plain hfree (Running.startBlock env (Int32.ofNat index)) hm hhas hfits.program rfl
      fun t => ⟨_, ?_, .here (Machine.at_of { w with repeater := {} } c finish.toNat t)⟩
    rw [startBlock_of hfits hne hend hindex hblock, if_pos hzero]
  · obtain ⟨more, hmore⟩ := Nat.exists_eq_add_one_of_ne_zero hzero
    obtain ⟨w', hrepeat, hw', hweigh⟩ := DoesItems.repeatChoice lower hfree hstatic hfits hne
      hend h w.repeater.separator more (w := { w with repeater := {} }) rfl
    refine ⟨w', hw', ?_, fun m hm => ?_⟩
    · rw [block_eq hbodies, if_neg hzero, hmore, Nat.add_sub_cancel, hrepeat]
    rw [hmore]
    refine Gets.plain hfree (Running.startBlock env (Int32.ofNat index)) hm hhas hfits.program rfl
      fun t => ?_
    obtain ⟨m', hm', hgets⟩ := hweigh .first _ t
    refine ⟨m', ?_, hgets⟩
    rw [startBlock_of hfits hne hend hindex hblock, if_neg hzero, hmore, Nat.add_sub_cancel]
    exact hm'

end

/-! ### Trees -/

theorem Choices.widest_le_size : ∀ cs : Choices, cs.widest ≤ cs.size
  | .nil => Nat.le_refl _
  | .item _ _ next | .weighted _ _ next => by
    have ih := next.widest_le_size
    simp only [Choices.widest, Choices.size]
    omega

/-- There is more to an item than its body. -/
theorem Choices.widest_lt_size {cs : Choices} (hne : cs ≠ .nil) : cs.widest < cs.size := by
  cases cs with
  | nil => exact absurd rfl hne
  | item _ _ next | weighted _ _ next =>
    have hle := next.widest_le_size
    simp only [Choices.widest, Choices.size]
    omega

/-- The code of a block, when its items do what they should. -/
theorem Code.performs_block (lower : Option Runner) {index base : Nat} {choices : Choices} {next : Code}
    (hfree : env.options.Unlimited) (hstatic : choices.isStatic = true)
    (hsmall : a.program.code.size < 2 ^ 31)
    (hhas : a.program.Has base ((Code.block index choices next).lines base))
    (hsound : (Code.block index choices next).Sound lib a.reach base) (hfits : c.Fits a)
    (hitems : ∀ active, DoesItems env choices.widest a.program (c.inBlock active)
      (choices.entries (base + 5)) (choices.bodies env lower a (base + 5))) (w : World) :
    ∃ w', w'.repeater = {} ∧ Performs env (w.repeater.count.getD 1 * (choices.widest + 1) + 1)
      (Evaluating.block env.options a.captured (choices.weights env lower a (base + 5))
        (choices.bodies env lower a (base + 5))) c base (base + 5 + choices.size) w w' := by
  obtain ⟨hblock, -, hhasNext⟩ := Code.has_block hhas
  rw [Code.Sound] at hsound
  obtain ⟨⟨hindex, hne, htable⟩, -⟩ := hsound
  have hle := hhasNext.le_size
  have hend : (base + 5 + choices.size).toUInt32.toNat = base + 5 + choices.size :=
    toNat_toUInt32 (by omega)
  have hperforms := DoesItems.block lower hfree hstatic hfits hne (by omega) hitems
    ((choices.length_bodies _).trans (choices.length_entries _).symm) (by omega) htable hblock w
  rwa [hend] at hperforms

mutual

/-- Static code does what it means, in at most as many steps as it has bytes. -/
theorem Code.does (hfree : env.options.Unlimited) : ∀ (code : Code) {a : Activation} {base : Nat}
    {c : Control}, code.isStatic = true → a.program.code.size < 2 ^ 31 →
    a.program.Has base (code.lines base) → code.Sound lib a.reach base → c.Fits a →
    Does env code.size (code.run env lower a base) c base (base + code.size)
  | .nil, a, base, c, _, _, _, _, _ => by
    rw [Code.run]
    exact fun w hw => ⟨w, hw, .nil⟩
  | .act operands act next, a, base, c, hstatic, hsmall, hhas, hsound, hfits => by
    rw [Code.isStatic, Bool.and_eq_true, Bool.and_eq_true] at hstatic
    obtain ⟨⟨hnil, hact⟩, hnext⟩ := hstatic
    obtain rfl := Operands.eq_nil hnil
    obtain ⟨-, hhasAct, hhasNext⟩ := Code.has_act hhas
    rw [Code.Sound] at hsound
    have hsize : (Code.act .nil act next).size = Line.sizes act.lines + next.size := by
      rw [Code.size, Operands.size, Nat.zero_add]
    have hrun : (Code.act .nil act next).run env lower a base =
        (do act.perform env a []; next.run env lower a (base + Line.sizes act.lines)) := by
      simp [Code.run, Operands.run, Operands.size]
    rw [hrun, hsize, ← Nat.add_assoc]
    refine Does.bind ((Act.does hfree hact hfits hhasAct).mono (Act.one_le_sizes hact)) ?_
    exact next.does hfree hnext hsmall hhasNext hsound.2.2.2 hfits
  | .block index choices next, a, base, c, hstatic, hsmall, hhas, hsound, hfits => by
    rw [Code.isStatic, Bool.and_eq_true] at hstatic
    have hblock := Code.performs_block lower hfree hstatic.1 hsmall hhas hsound hfits
    obtain ⟨-, hhasChoices, hhasNext⟩ := Code.has_block hhas
    rw [Code.Sound] at hsound
    obtain ⟨⟨-, hne, -⟩, hsoundChoices, hsoundNext⟩ := hsound
    have hsize : (Code.block index choices next).size = 5 + choices.size + next.size := by
      rw [Code.size]
    rw [Code.run, hsize, ← Nat.add_assoc, ← Nat.add_assoc]
    refine Does.bind (fun w hw => ?_)
      (next.does hfree hstatic.2 hsmall hhasNext hsoundNext hfits)
    obtain ⟨w', hw', hperforms⟩ := hblock (fun active => choices.doesItems hfree hstatic.1 hsmall
      hhasChoices hsoundChoices (hfits.inBlock active)) w
    have hwidest : choices.widest < choices.size := by
      refine Choices.widest_lt_size ?_
      rintro rfl
      exact hne rfl
    rw [hw] at hperforms
    exact ⟨w', hw', hperforms.mono (by simp only [Option.getD_none]; omega)⟩
  | .ifThen .., _, _, _, hstatic, _, _, _, _ | .ifElse .., _, _, _, hstatic, _, _, _, _
  | .define .., _, _, _, hstatic, _, _, _, _ | .call .., _, _, _, hstatic, _, _, _, _
  | .native .., _, _, _, hstatic, _, _, _, _ | .program .., _, _, _, hstatic, _, _, _, _ => by
    rw [Code.isStatic] at hstatic
    cases hstatic

/-- The items of a block do what their bodies mean. -/
theorem Choices.doesItems (hfree : env.options.Unlimited) : ∀ (choices : Choices) {a : Activation}
    {base : Nat} {c : Control}, choices.isStatic = true → a.program.code.size < 2 ^ 31 →
    a.program.Has base (choices.lines base) → choices.Sound lib a.reach base → c.Fits a →
    DoesItems env choices.widest a.program c (choices.entries base) (choices.bodies env lower a base)
  | .nil, a, base, c, _, _, _, _, _ => by
    intro i item hitem
    rw [Choices.entries] at hitem
    cases hitem
  | .item weight body next, a, base, c, hstatic, hsmall, hhas, hsound, hfits => by
    rw [Choices.isStatic, Bool.and_eq_true] at hstatic
    obtain ⟨hbody, hnext⟩ := Choices.has_item hhas
    rw [Choices.Sound] at hsound
    rw [Choices.entries, Choices.bodies, Choices.widest]
    exact DoesItems.cons hbody hsmall
      ((body.does hfree hstatic.1 hsmall hbody.left hsound.1 hfits).mono (Nat.le_max_left _ _))
      ((next.doesItems hfree hstatic.2 hsmall hnext hsound.2 hfits).mono (Nat.le_max_right _ _))
  | .weighted .., _, _, _, hstatic, _, _, _, _ => by
    rw [Choices.isStatic] at hstatic
    cases hstatic

end

/-! ## Programs -/

/-- A program that is run to its end without a fault puts out what it has printed. -/
theorem Performs.outcome {k : Nat} {seed : UInt64} {w' : World}
    (h : Performs env k y (.start env.options p) 0 p.code.size (.start env.options seed) w') :
    (Machine.start env.options p seed).Halts env seed (· = .output (w'.out.finish seed)) ∧
      (k < stepLimit → p.run env seed = .output (w'.out.finish seed)) := by
  have hend : ∀ m : Machine, m.At w' (.start env.options p) p.code.size → ∀ steps,
      m.run env seed (steps + 1) = .output (w'.out.finish seed) := by
    rintro m ⟨t, rfl⟩ steps
    obtain ⟨m', hstep, hroot⟩ := step_at_end p w' env.options t
    rw [Machine.run, hstep, ← hroot]
  have hgets := h.gets _ (Machine.at_start env.options p seed)
  exact ⟨hgets.halts fun m hm => .last (hend m hm) rfl, fun hlt => hgets.run hend hlt⟩

end Wordloom
