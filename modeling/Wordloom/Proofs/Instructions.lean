import Wordloom.Proofs.Leads

/-!
# Wordloom.Proofs.Instructions

Instructions that do what acts and constant operands mean.
-/

namespace Wordloom

variable {env : Environment} {α : Type} {result : Except Fault (α × World)}
  {Q : α → World → Machine → Prop} {p : Program} {w : World} {c : Control} {m : Machine}
  {position : Nat} {t : Trace} {a : Activation} {ls : List Line} {v : Value}

/-! ## Steps -/

/-- An instruction without a string. -/
theorem Ends.plain (x : Running Unit) {i : Instr} (hm : m.At w c position)
    (hhas : p.Has position (.plain i :: ls)) (hprogram : c.frame.program = p)
    (hexecute : Running.execute env i = (do x; return .running))
    (h : ∀ t, Goes env (x (.of w c (position + i.size) t)) result Q) : Ends env result Q m := by
  refine Ends.line hm hhas hprogram fun j t hj => ?_
  rw [Line.eq_of_ofInstr?_plain hj, hexecute]
  exact (h t).settles

/-- An instruction that refers to a string. -/
theorem Ends.text (x : Int32 → Running Unit) {use : StringUse} {s : String} (hm : m.At w c position)
    (hhas : p.Has position (.text use s :: ls)) (hprogram : c.frame.program = p)
    (hexecute : ∀ n, Running.execute env (use.instr n) = (do x n; return .running))
    (h : ∀ n t, p.string? n = some s → Goes env (x n (.of w c (position + (use.instr 0).size) t)) result Q) :
    Ends env result Q m := by
  refine Ends.line hm hhas hprogram fun j t hj => ?_
  obtain ⟨n, rfl, hn⟩ := Line.eq_instr_of_ofInstr?_text hj
  rw [hexecute n]
  exact (h n t hn).settles

/-! ## The stack -/

theorem Goes.push (h : ∀ m, m.At w (c.pushAll [v]) position → Ends env result Q m) :
    Goes env (Running.push v (.of w c position t)) result Q := by
  unfold Running.push Stack.push
  split
  · rename_i stack hstack
    split at hstack
    · cases hstack
    · cases hstack
      exact h _ ⟨t, by simp [Machine.of, Control.pushAll]⟩
  · rename_i fault hfault
    split at hfault
    · cases hfault
      exact .inl trivial
    · cases hfault

theorem pop_of (vs : List Value) (v : Value) (hfloor : c.frame.floor ≤ c.stack.size) :
    Running.pop (.of w (c.pushAll (vs ++ [v])) position t) =
      .ok v (.of w (c.pushAll vs) position t) := by
  have hsize : ¬ (c.pushAll (vs ++ [v])).stack.size ≤ c.frame.floor := by
    simp only [Control.pushAll, Stack.size, Array.size_append, List.size_toArray,
      List.length_append, List.length_singleton] at hfloor ⊢
    omega
  have hpop : (Machine.of w (c.pushAll (vs ++ [v])) position t).stack.popAbove
      (Machine.of w (c.pushAll (vs ++ [v])) position t).frame.floor =
      .ok (v, (c.pushAll vs).stack) := by
    change (c.pushAll (vs ++ [v])).stack.popAbove c.frame.floor = _
    rw [Stack.popAbove, if_neg hsize]
    simp [Control.pushAll]
  rw [Running.pop, hpop]
  rfl

theorem pop_one (hfloor : c.frame.floor ≤ c.stack.size) :
    Running.pop (.of w (c.pushAll [v]) position t) = .ok v (.of w c position t) := by
  have hpop : Running.pop (.of w (c.pushAll ([] ++ [v])) position t) =
      .ok v (.of w (c.pushAll []) position t) := pop_of [] v hfloor
  rwa [Control.pushAll_nil] at hpop

theorem pop_two {x y : Value} (hfloor : c.frame.floor ≤ c.stack.size) :
    Running.pop (.of w (c.pushAll [x, y]) position t) =
      .ok y (.of w (c.pushAll [x]) position t) :=
  pop_of [x] y hfloor

/-- The two topmost values are replaced by the result of an operation. -/
theorem Goes.binary {op : Value → Value → Except DivisionByZero Value} {x y : Value}
    (hfloor : c.frame.floor ≤ c.stack.size)
    (hok : ∀ v m, op x y = .ok v → m.At w (c.pushAll [v]) position → Ends env result Q m)
    (herror : ∀ e, op x y = .error e → result = .error (.divideByZero e)) :
    Goes env (Running.binary op (.of w (c.pushAll [x, y]) position t)) result Q := by
  rw [Running.binary, run_bind_of_ok (pop_two hfloor), run_bind_of_ok (pop_one hfloor)]
  cases hop : op x y with
  | ok v => exact Goes.push fun m hm => hok v m hop hm
  | error e => exact .inr ⟨trivial, herror e hop⟩

/-! ## Printing -/

theorem onWriter_of (f : Writer → Writer) :
    (Machine.of w c position t).onWriter f = .of (w.onWriter f) c position t := by
  unfold Machine.onWriter World.onWriter
  cases houter : c.outer with
  | none => simp only [Machine.of, houter, Option.elim]
  | some outer => simp only [Machine.of, houter, Option.elim]

/-- A change of the machine that is one of the world. -/
theorem mirrors_modify {f : Machine → Machine} {g : World → World}
    (h : ∀ w c position t, f (.of w c position t) = .of (g w) c position t) :
    Mirrors a (modify f) (modify g) := by
  intro w c position t _
  change (modify f : Running Unit) (.of w c position t) = .ok () _
  rw [run_modify, h]

theorem mirrors_modifyWriter (f : Writer → Writer) :
    Mirrors a (modify (·.onWriter f)) (modify (·.onWriter f)) :=
  mirrors_modify fun _ _ _ _ => onWriter_of f

theorem isEmpty_nested (hfits : c.Fits a) :
    (Machine.of w c position t).nested.isEmpty = !a.captured := by
  rw [← hfits.captured]
  cases houter : c.outer <;> simp [Machine.of, houter]

theorem mirrors_print (options : Options) (text : String) :
    Mirrors a (Running.print options text) (Evaluating.print options a.captured text) := by
  intro w c position t hfits
  unfold Evaluating.print
  simp only [Running.print, run_bind, run_get, isEmpty_nested hfits]
  by_cases hcaptured : a.captured
  · simp only [hcaptured, Bool.not_true, Bool.false_eq_true, if_false, if_true, run_modify]
    rw [onWriter_of]
  · cases hlimit : options.charLimit with
    | none =>
      simp only [hcaptured, Bool.not_false, if_true, Bool.false_eq_true, if_false, run_bind,
        run_set, run_modify]
      exact congrArg _ (onWriter_of (w := { w with charsPrinted := w.charsPrinted + text.length }) _)
    | some limit =>
      by_cases hlt : limit < w.charsPrinted + text.length
      · simp only [hcaptured, Bool.not_false, if_true, Bool.false_eq_true, if_false, run_bind,
          run_set, hlt, run_throw, Machine.of]
        exact ⟨trivial, _, rfl⟩
      · simp only [hcaptured, Bool.not_false, if_true, Bool.false_eq_true, if_false, run_bind,
          run_set, hlt, Machine.of, run_modify]
        exact congrArg _ (onWriter_of (w := { w with charsPrinted := w.charsPrinted + text.length }) _)

theorem string_of {n : Int32} {s : String} (hprogram : c.frame.program = p)
    (h : p.string? n = some s) :
    Running.string n (.of w c position t) = .ok s (.of w c position t) := by
  have hfound : (Machine.of w c position t).frame.program.string? n = some s := by
    simpa [Machine.of, hprogram] using h
  simp only [Running.string, run_bind, run_get, hfound, Running.entry, run_pure]

theorem Ends.pushText {s : String} (hm : m.At w c position)
    (hhas : p.Has position (.text .push s :: ls)) (hprogram : c.frame.program = p)
    (h : ∀ m, m.At w (c.pushAll [.string s]) (position + 5) → Ends env result Q m) :
    Ends env result Q m := by
  refine Ends.text (fun n => do Running.push (.string (← Running.string n))) hm hhas hprogram
    (fun _ => by simp [Running.execute, StringUse.instr]) fun n t hn => ?_
  rw [run_bind_of_ok (string_of hprogram hn)]
  exact Goes.push h

theorem mirrors_printChars (options : Options) {letter : Char} {chars : String}
    (h : Running.charClass? letter = some chars) (count : Int32) :
    Mirrors a (Running.printChars options letter count)
      (Evaluating.printChars options a.captured letter count) := by
  intro w c position t hfits
  have hprint := mirrors_print (a := a) options
    (Running.drawChars chars.toList.toArray "" w.rng count.toInt.toNat).1
    { w with rng := (Running.drawChars chars.toList.toArray "" w.rng count.toInt.toNat).2 } c
    position t hfits
  simp only [Running.printChars, Evaluating.printChars, h, run_bind, run_get, run_set]
  exact hprint

theorem mirrors_answerQuery {index : Nat} {q : Query} (hindex : index < 2 ^ 31)
    (hq : a.program.queries[index]? = some q) :
    Mirrors a (Running.answerQuery env (Int32.ofNat index))
      (Evaluating.answerQuery env a.captured a.program index) := by
  intro w c position t hfits
  have hfound : a.program.query? (Int32.ofNat index) = some q := by
    rw [Program.query?, Program.lookup?_ofNat _ hindex, hq]
  have hprogram : (Machine.of w c position t).frame.program = a.program := hfits.program
  simp only [Running.answerQuery, Evaluating.answerQuery, hq, run_bind, run_get, hprogram, hfound,
    Running.entry, run_pure]
  cases htable : q.table with
  | none => rfl
  | some table =>
    cases hdictionary : env.dictionary with
    | none => exact ⟨trivial, _, rfl⟩
    | some dictionary =>
      have hprint := mirrors_print (a := a) env.options
        ((dictionary.query q a.program.regexes w.carriers w.rng).1.getD s!"<missing: {table}>")
        { w with
          carriers := (dictionary.query q a.program.regexes w.carriers w.rng).2.1
          rng := (dictionary.query q a.program.regexes w.carriers w.rng).2.2 } c position t hfits
      exact hprint

theorem mirrors_printValue (options : Options) (v : Value) :
    Mirrors a (do Running.print options (v.text (← get).numberFormat))
      (Evaluating.printValue options a.captured v) := by
  intro w c position t hfits
  have hprint := mirrors_print (a := a) options (v.text w.numberFormat) w c position t hfits
  simp only [run_bind, run_get]
  exact hprint

/-- The value on top of the stack is printed. -/
theorem ends_print (hm : m.At w (c.pushAll [v]) position)
    (hhas : a.program.Has position (.plain .print :: ls)) (hfits : c.Fits a) :
    Ends env (Evaluating.printValue env.options a.captured v w)
      (fun _ w' => Machine.At w' c (position + 1)) m := by
  refine Ends.plain (do let v ← Running.pop
                        Running.print env.options (v.text (← get).numberFormat))
    hm hhas hfits.program (by simp [Running.execute]) fun t => ?_
  rw [run_bind_of_ok (pop_one hfits.floor)]
  exact (mirrors_printValue env.options v).goes hfits fun w' => ⟨t, rfl⟩

/-! ## Jumps -/

theorem checkedAddress_of {address : Nat} (hprogram : c.frame.program = p)
    (h : address ≤ p.code.size) :
    Running.checkedAddress address (.of w c position t) = .ok address (.of w c position t) := by
  have hle : ¬ (Machine.of w c position t).frame.program.code.size < address := by
    simp only [Machine.of, hprogram]
    omega
  rw [Running.checkedAddress, run_bind_of_ok (run_get _), if_neg hle]
  rfl

theorem address_of {n : Nat} (hprogram : c.frame.program = p) (hsmall : p.code.size < 2 ^ 31)
    (h : n ≤ p.code.size) :
    Running.address (Int32.ofNat n) (.of w c position t) = .ok n (.of w c position t) := by
  have hint : (Int32.ofNat n).toInt = n := Int32.toInt_ofNat_of_lt (by omega)
  have hnonneg : ¬ Int32.ofNat n < 0 := by
    rw [Int32.lt_iff_toInt_lt, hint]
    simp
  rw [Running.address, if_neg hnonneg, hint, Int.toNat_natCast]
  exact checkedAddress_of hprogram h

theorem jump_of (offset : Nat) :
    Running.jump offset (.of w c position t) = .ok () (.of w c offset t) := rfl

theorem Ends.jump {n : Nat} (hm : m.At w c position)
    (hhas : p.Has position (.plain (.jump (Int32.ofNat n)) :: ls)) (hprogram : c.frame.program = p)
    (hsmall : p.code.size < 2 ^ 31) (hn : n ≤ p.code.size) (h : ∀ m, m.At w c n → Ends env result Q m) :
    Ends env result Q m := by
  refine Ends.plain (do Running.jump (← Running.address (Int32.ofNat n))) hm hhas hprogram
    (by simp [Running.execute]) fun t => ?_
  rw [run_bind_of_ok (address_of hprogram hsmall hn), jump_of]
  exact h _ (Machine.at_of w c n t)

theorem execute_testJump (test : Test) (target : Int32) :
    Running.execute env (test.jump target) =
      (do Running.jumpIf test.holds target; return .running) := by
  cases test <;> rfl

/-- Two values are compared, and one of two ways is taken. -/
theorem Ends.branch {test : Test} {x y : Value} {i j : Nat} (hm : m.At w (c.pushAll [x, y]) position)
    (hhas : p.Has position [.plain .compare, .plain (test.jump (Int32.ofNat i)),
      .plain (.jump (Int32.ofNat j))])
    (hprogram : c.frame.program = p) (hfloor : c.frame.floor ≤ c.stack.size)
    (hsmall : p.code.size < 2 ^ 31) (hi : i ≤ p.code.size) (hj : j ≤ p.code.size)
    (hyes : test.holds (x.compare y) → ∀ m, m.At w c i → Ends env result Q m)
    (hno : ¬ test.holds (x.compare y) → ∀ m, m.At w c j → Ends env result Q m) :
    Ends env result Q m := by
  refine Ends.plain (do let b ← Running.pop
                        let a ← Running.pop
                        modify fun m => { m with comparison := a.compare b })
    hm hhas hprogram (by simp [Running.execute]) fun t => ?_
  rw [run_bind_of_ok (pop_two hfloor), run_bind_of_ok (pop_one hfloor), run_modify]
  have hjumps := hhas.tail_plain
  refine Ends.line_of (t := { t with comparison := x.compare y }) hjumps hprogram
    fun instr t' hinstr hcomparison => ?_
  have hcompared : (Machine.of w c (position + Instr.compare.size +
      (Line.plain (test.jump (Int32.ofNat i))).size) t').comparison = x.compare y := hcomparison
  rw [Line.eq_of_ofInstr?_plain hinstr, execute_testJump]
  refine Goes.settles ?_
  rw [Running.jumpIf, run_bind_of_ok (run_get _), hcompared]
  by_cases htest : test.holds (x.compare y)
  · rw [if_pos htest, run_bind_of_ok (address_of hprogram hsmall hi), jump_of]
    exact hyes htest _ (Machine.at_of w c i t')
  · rw [if_neg htest]
    exact Ends.jump (Machine.at_of w c _ t') hjumps.tail hprogram hsmall hj (hno htest)

/-! ## Acts -/

/-- What an act at an offset refers to is there, for an activation with so many arguments. -/
def Act.Sound (t : Tables) (arity offset : Nat) : Act → Prop
  | .chars charClass _ => ∃ chars, Running.charClass? (Char.ofNat charClass.toNat) = some chars
  | .query index => index ≤ offset ∧ index < t.queries.size
  | .argument index => index.toNat < arity
  | _ => True

theorem execute_arithmetic (op : Arithmetic) :
    Running.execute env (Compile.arithmeticInstr op) =
      (do Running.binary (op.apply · ·); return .running) := by
  cases op <;> rfl

theorem add_sizes_print (i : Instr) :
    position + Line.sizes [.plain i, .plain .print] = position + i.size + 1 := by
  simp only [Line.sizes_cons, Line.sizes_nil, Line.size]
  have hsize : Instr.print.size = 1 := rfl
  omega

theorem exists_pair {vs : List Value} (h : vs.length = 2) : ∃ x y, vs = [x, y] :=
  match vs, h with
  | [x, y], _ => ⟨x, y, rfl⟩

theorem swapLocals_of (i j : Nat) :
    Running.swapLocals i j (.of w c position t) =
      .ok () (.of (w.swapLocals i j) c position t) := by
  rw [Running.swapLocals, run_modify]
  simp only [Frame.setLocal, Frame.reserve, Frame.getLocal, Machine.of, World.swapLocals,
    World.update, World.reserve, World.getLocal]

theorem argument_of {i : Nat} (hfits : c.Fits a) (hv : a.args[i]? = some v) :
    Running.argument i (.of w c position t) = .ok v (.of w c position t) := by
  have hlt : ¬ (Machine.of w c position t).frame.argCount ≤ i := by
    have hcount : (Machine.of w c position t).frame.argCount = a.args.length := hfits.argCount
    have := (List.getElem?_eq_some_iff.1 hv).1
    omega
  have hget : (Machine.of w c position t).stack.get?
      ((Machine.of w c position t).frame.argBase + i) = some v := hfits.args i v hv
  rw [Running.argument, run_bind_of_ok (run_get _), if_neg hlt, hget]
  rfl

/-- The instructions of an act do what it means. -/
theorem Act.ends (act : Act) {vs : List Value}
    (harity : vs.length = act.arity) (hsound : act.Sound a.program.tables a.args.length position)
    (hsize : a.program.code.size < 2 ^ 31) (hfits : c.Fits a) (hhas : a.program.Has position act.lines)
    (hm : m.At w (c.pushAll vs) position) :
    Ends env (act.perform env a vs w)
      (fun _ w' => Machine.At w' c (position + Line.sizes act.lines)) m := by
  have hprogram := hfits.program
  cases act with
  | print s =>
    obtain rfl := List.length_eq_zero_iff.1 harity
    rw [Control.pushAll_nil] at hm
    refine Ends.text (fun n => do Running.print env.options (← Running.string n)) hm hhas hprogram
      (fun _ => by simp [Running.execute, StringUse.instr]) fun n t hn => ?_
    rw [run_bind_of_ok (string_of hprogram hn)]
    exact (mirrors_print env.options s).goes hfits fun w' => ⟨t, rfl⟩
  | number bits =>
    obtain rfl := List.length_eq_zero_iff.1 harity
    rw [Control.pushAll_nil] at hm
    refine Ends.plain (do Running.print env.options ((← get).numberFormat.text (.ofBits bits)))
      hm hhas hprogram rfl fun t => ?_
    exact (mirrors_printValue env.options (.number (.ofBits bits))).goes hfits
      fun w' => ⟨t, rfl⟩
  | openChannel visibility name =>
    obtain rfl := List.length_eq_zero_iff.1 harity
    rw [Control.pushAll_nil] at hm
    refine Ends.text (Running.openChannel · visibility.toByte) hm hhas hprogram (fun _ => rfl)
      fun n t hn => ?_
    rw [Running.openChannel, run_bind_of_ok (string_of hprogram hn), Visibility.ofByte?_toByte]
    exact (mirrors_modifyWriter (·.openChannel name visibility)).goes hfits fun w' => ⟨t, rfl⟩
  | closeChannel =>
    obtain rfl := List.length_eq_zero_iff.1 harity
    rw [Control.pushAll_nil] at hm
    exact Ends.plain (modify (·.onWriter (·.closeChannel.2))) hm hhas hprogram rfl fun t =>
      (mirrors_modifyWriter (·.closeChannel.2)).goes hfits fun w' => ⟨t, rfl⟩
  | chars charClass count =>
    obtain rfl := List.length_eq_zero_iff.1 harity
    rw [Control.pushAll_nil] at hm
    obtain ⟨chars, hchars⟩ := hsound
    exact Ends.plain _ hm hhas hprogram rfl fun t =>
      (mirrors_printChars env.options hchars count).goes hfits fun w' => ⟨t, rfl⟩
  | article =>
    obtain rfl := List.length_eq_zero_iff.1 harity
    rw [Control.pushAll_nil] at hm
    exact Ends.plain (modify (·.onWriter (·.edit .article))) hm hhas hprogram rfl fun t =>
      (mirrors_modifyWriter (·.edit .article)).goes hfits fun w' => ⟨t, rfl⟩
  | mark place =>
    obtain rfl := List.length_eq_zero_iff.1 harity
    rw [Control.pushAll_nil] at hm
    exact Ends.plain (Running.markPlace _ _) hm hhas hprogram rfl fun t => Leads.here
      ⟨(), w, rfl, { t with marker := some ⟨t.current.program.id, _, _⟩ }, rfl⟩
  | query index =>
    obtain rfl := List.length_eq_zero_iff.1 harity
    rw [Control.pushAll_nil] at hm
    have hq : a.program.queries[index]? = some _ := Array.getElem?_eq_getElem hsound.2
    have hindex : index < 2 ^ 31 := by
      have hle := hhas.le_size
      have hoffset := hsound.1
      omega
    exact Ends.plain _ hm hhas hprogram rfl fun t =>
      (mirrors_answerQuery hindex hq).goes hfits fun w' => ⟨t, rfl⟩
  | setLocal index =>
    obtain ⟨v, rfl⟩ := List.length_eq_one_iff.1 harity
    refine Ends.plain (do let v ← Running.pop
                          modify fun m => { m with frame := m.frame.setLocal index.toNat v })
      hm hhas hprogram (by simp [Running.execute]) fun t => ?_
    rw [run_bind_of_ok (pop_one hfits.floor)]
    exact Leads.here ⟨(), _, rfl, t, rfl⟩
  | getLocal index =>
    obtain rfl := List.length_eq_zero_iff.1 harity
    rw [Control.pushAll_nil] at hm
    refine Ends.plain (do Running.push ((← get).frame.getLocal index.toNat)) hm hhas hprogram
      (by simp [Running.execute]) fun t => ?_
    rw [run_bind_of_ok (run_get _), Act.lines, add_sizes_print]
    exact Goes.push fun m hm => ends_print hm hhas.tail_plain hfits
  | swap i j =>
    obtain rfl := List.length_eq_zero_iff.1 harity
    rw [Control.pushAll_nil] at hm
    exact Ends.plain (Running.swapLocals i.toNat j.toNat) hm hhas hprogram rfl fun t =>
      Goes.of_ends (swapLocals_of i.toNat j.toNat) (Ends.here ⟨t, rfl⟩)
  | arithmetic op =>
    obtain ⟨x, y, rfl⟩ := exists_pair harity
    refine Ends.plain _ hm hhas hprogram (execute_arithmetic op) fun t => ?_
    rw [Act.lines, add_sizes_print]
    refine Goes.binary hfits.floor (fun v m hv hm => ?_) (fun e he => ?_)
    · rw [Act.perform, hv]
      exact ends_print hm hhas.tail_plain hfits
    · rw [Act.perform, he]
      rfl
  | concat =>
    obtain ⟨x, y, rfl⟩ := exists_pair harity
    refine Ends.plain (Running.binary fun a b => .ok (a.concat b)) hm hhas hprogram rfl fun t => ?_
    rw [Act.lines, add_sizes_print]
    refine Goes.binary hfits.floor (fun v m hv hm => ?_) (fun e he => by cases he)
    cases hv
    exact ends_print hm hhas.tail_plain hfits
  | argument index =>
    obtain rfl := List.length_eq_zero_iff.1 harity
    rw [Control.pushAll_nil] at hm
    obtain ⟨v, hv⟩ : ∃ v, a.args[index.toNat]? = some v :=
      ⟨_, List.getElem?_eq_getElem hsound⟩
    refine Ends.plain (do Running.push (← Running.argument index.toNat)) hm hhas hprogram
      (by simp [Running.execute]) fun t => ?_
    rw [run_bind_of_ok (argument_of hfits hv), Act.lines, add_sizes_print, Act.perform, hv]
    exact Goes.push fun m hm => ends_print hm hhas.tail_plain hfits

end Wordloom
