import Wordloom.Proofs.CompileTags
import Wordloom.Proofs.Scoping
import Wordloom.Proofs.StaticCode

/-!
# Wordloom.Proofs.RepeatedBlocks

Blocks behind calls of `rep` and `sep`. The calls set the repeater, and the next block uses it up: it
makes as many choices as the repeater says, with the separator between them.
-/

namespace Wordloom

/-! ## Evaluation -/

namespace Direct

/-- An evaluation and so many more of it, with a text between them. -/
def again (separator : String) (y : Direct Unit) : (more : Nat) → Direct Unit
  | 0 => y
  | more + 1 => do
    y
    print separator
    again separator y more

/-- So many evaluations, with a text between them. -/
def repeats (separator : String) (y : Direct Unit) : (count : Nat) → Direct Unit
  | 0 => pure ()
  | more + 1 => again separator y more

end Direct

/-- So many evaluations inside a call. -/
def Sense.repeats (count : Nat) (separator : String) (y : Sense Unit) : Sense Unit := fun call =>
  Direct.repeats separator (y call) count

section

variable {names : String → Option Nat} {options : Options} {captured : Bool}
  {weights : List (Evaluating Float)} {bodies : List (Evaluating Unit)} {y : Direct Unit}

theorem Tracks.repeatChoice (h : Tracks names (Evaluating.choose weights bodies) y)
    (separator : String) (more : Nat) :
    Tracks names
      (Evaluating.repeatChoice options captured weights bodies (some separator) more)
      (Direct.again separator y more) := by
  induction more with
  | zero => exact h
  | succ more ih => exact h.seq ((Tracks.print options captured separator).seq ih)

/-- A block for which the repeater is set makes so many choices, and leaves no repeater. -/
theorem Tracks.repeats (h : Tracks names (Evaluating.choose weights bodies) y)
    (hbodies : bodies.isEmpty = false) (count : Nat) (separator : String) {w : World} {s : Scene}
    (hshows : w.Shows names s) :
    Alike names
      (Evaluating.block options captured weights bodies
        { w with repeater := ⟨some count, some separator⟩ })
      (Direct.repeats separator y count s) := by
  have hstart : World.Shows names { w with repeater := {} } s :=
    ⟨hshows.out, hshows.rng, hshows.format, rfl, hshows.vars⟩
  rw [block_eq hbodies]
  cases count with
  | zero => exact ⟨s, rfl, hstart⟩
  | succ more => exact h.repeatChoice separator more _ s hstart

end

/-! ## Texts -/

/-- What is chosen by so many choices, and the random numbers behind them. -/
def Rng.picks (weights : List Float) : (count : Nat) → Rng → List Nat × Rng
  | 0, r => ([], r)
  | count + 1, r =>
    let rest := picks weights count (r.weightedChoice weights).2
    ((r.weightedChoice weights).1 :: rest.1, rest.2)

theorem Rng.picks_succ (weights : List Float) (count : Nat) (r : Rng) :
    r.picks weights (count + 1) = ((r.weightedChoice weights).1 ::
      ((r.weightedChoice weights).2.picks weights count).1,
        ((r.weightedChoice weights).2.picks weights count).2) := rfl

/-- Prints one of some texts, which is chosen by weights. -/
def Direct.printOne (weights : List Float) (texts : List String) : Direct Unit := do
  print (texts.getD (← choose weights) "")

section

variable (weights : List Float) (texts : List String) (separator : String)

theorem Direct.printOne_apply (s : Scene) :
    printOne weights texts s = .ok ((), { s with
      text := s.text ++ texts.getD (s.rng.weightedChoice weights).1 ""
      rng := (s.rng.weightedChoice weights).2 }) := rfl

theorem Direct.again_printOne (more : Nat) (s : Scene) :
    again separator (printOne weights texts) more s = .ok ((), { s with
      text := s.text ++ separator.intercalate
        ((s.rng.picks weights (more + 1)).1.map (texts.getD · ""))
      rng := (s.rng.picks weights (more + 1)).2 }) := by
  induction more generalizing s with
  | zero =>
    rw [again, printOne_apply, Rng.picks_succ, Rng.picks, List.map_cons, List.map_nil,
      String.intercalate_singleton]
  | succ more ih =>
    have hprint (s : Scene) : print separator s = .ok ((), { s with text := s.text ++ separator }) := rfl
    have hne (r : Rng) : (r.picks weights (more + 1)).1.map (texts.getD · "") ≠ [] := by
      rw [Rng.picks_succ]
      exact List.cons_ne_nil _ _
    rw [again, bind_of_ok (printOne_apply weights texts s), bind_of_ok (hprint _), ih,
      Rng.picks_succ weights (more + 1), List.map_cons, String.intercalate_cons_of_ne_nil (hne _)]
    simp only [String.append_assoc]

/-- Texts that are chosen one after the other are joined by the separator. -/
theorem Direct.repeats_printOne (count : Nat) (s : Scene) :
    repeats separator (printOne weights texts) count s = .ok ((), { s with
      text := s.text ++ separator.intercalate ((s.rng.picks weights count).1.map (texts.getD · ""))
      rng := (s.rng.picks weights count).2 }) := by
  cases count with
  | zero =>
    rw [repeats, Rng.picks, List.map_nil, String.intercalate_nil, String.append_empty]
    rfl
  | succ more => exact again_printOne weights texts separator more s

end

/-- What is printed by a pattern that is text. -/
def Pattern.text : Pattern → String
  | .leaf l next => l.prints ++ next.text
  | .nil | .block .. | .define .. | .tag .. => ""

/-- What is printed by items that are text. -/
def Items.texts : Items → List String
  | .nil => []
  | .plain body rest | .weighted _ body rest => body.text :: rest.texts

/-- The weights of items: 1 where there is none, and 0 for one that is not positive or not finite. -/
def Items.odds : Items → List Float
  | .nil => []
  | .plain _ rest => 1 :: rest.odds
  | .weighted weight _ rest => spelledWeight (weight.constant?.getD "") :: rest.odds

section

variable {interpreter : Option Interpreter} {params : Parameters} {known : List Procedure}

theorem Pattern.eval_of_isText : ∀ {p : Pattern}, p.isText = true →
    p.eval interpreter params known = Direct.print p.text
  | .nil, _ => by rw [eval, text, Direct.print_empty]
  | .leaf l next, h => by
    rw [isText] at h
    rw [eval, eval_of_isText h, Direct.print_print, text]

theorem Pattern.known_of_isText : ∀ {p : Pattern}, p.isText = true → p.known known = known
  | .nil, _ => rfl
  | .leaf _ next, h => by
    rw [isText] at h
    rw [Pattern.known, known_of_isText h]

theorem Items.isText_weighted {weight body : Pattern} {rest : Items}
    (h : (Items.weighted weight body rest).isText = true) :
    (∃ text, weight.constant? = some text) ∧ body.isText = true ∧ rest.isText = true := by
  rw [isText, Bool.and_eq_true, Bool.and_eq_true] at h
  exact ⟨Option.isSome_iff_exists.1 h.1.1, h.1.2, h.2⟩

theorem Items.known_of_isText : ∀ {items : Items}, items.isText = true → items.known known = known
  | .nil, _ => rfl
  | .plain body rest, h => by
    rw [isText, Bool.and_eq_true] at h
    rw [Items.known, Pattern.known_of_isText h.1, known_of_isText h.2]
  | .weighted weight body rest, h => by
    obtain ⟨⟨text, htext⟩, hbody, hrest⟩ := isText_weighted h
    rw [Items.known, Pattern.known_of_constant htext, Pattern.known_of_isText hbody,
      known_of_isText hrest]

theorem Items.weights_of_isText : ∀ {items : Items}, items.isText = true →
    items.weights interpreter params known = pure items.odds
  | .nil, _ => by rw [weights, odds]
  | .plain body rest, h => by
    rw [isText, Bool.and_eq_true] at h
    rw [weights, Pattern.known_of_isText h.1, weights_of_isText h.2, pure_bind, odds]
  | .weighted weight body rest, h => by
    obtain ⟨⟨text, htext⟩, hbody, hrest⟩ := isText_weighted h
    rw [weights, Pattern.eval_of_constant htext, Direct.capture_print, pure_bind,
      Pattern.known_of_constant htext, Pattern.known_of_isText hbody, weights_of_isText hrest, pure_bind,
      odds, htext, Option.getD_some]

theorem Items.run_of_isText : ∀ {items : Items} (index : Nat), items.isText = true →
    items.run interpreter params known index = Direct.print (items.texts.getD index "")
  | .nil, index, _ => by simp [run, texts, Direct.print_empty]
  | .plain body rest, index, h => by
    rw [isText, Bool.and_eq_true] at h
    cases index with
    | zero => rw [run, Pattern.eval_of_isText h.1, texts, List.getD_cons_zero]
    | succ index =>
      rw [run, Pattern.known_of_isText h.1, run_of_isText index h.2, texts, List.getD_cons_succ]
  | .weighted weight body rest, index, h => by
    obtain ⟨⟨text, htext⟩, hbody, hrest⟩ := isText_weighted h
    cases index with
    | zero => rw [run, Pattern.eval_of_isText hbody, texts, List.getD_cons_zero]
    | succ index =>
      rw [run, Pattern.known_of_constant htext, Pattern.known_of_isText hbody,
        run_of_isText index hrest, texts, List.getD_cons_succ]

end

/-! ## Calls -/

/-- The numbers of the functions that set the repeater. -/
structure Registry.Repeats (r : Registry) (rep sep : Nat) : Prop where
  hasRep : r.lookup? "rep" = some (rep, ⟨"rep", [.number], Standard.rep⟩)
  hasSep : r.lookup? "sep" = some (sep, ⟨"sep", [.text], Standard.sep⟩)
  rep_lt : rep < 2 ^ 16
  sep_lt : sep < 2 ^ 16

/-- The bits of a number that says how often something is done. -/
structure IsCount (bits : UInt64) (count : Nat) : Prop where
  finite : (Float.ofBits bits).isFinite = true
  not_neg : ¬ Float.ofBits bits < 0
  value : (Float.ofBits bits).toUInt64.toNat = count

theorem Standard.rep_of_isCount {bits : UInt64} {count : Nat} (h : IsCount bits count) :
    rep [.number (.ofBits bits)] = .setRepeat count .done := by
  simp [rep, unary, withNumber, h.finite, h.not_neg, h.value]

/-- A call of a function with a constant. -/
def Code.calls (constant : Constant) (id : Nat) : Code :=
  .native (.constant constant .nil) id.toUInt16 1 .nil

/-- A mark of the source, if there is one. -/
def Code.marks : Option Position → Code
  | none => .nil
  | some place => .act .nil (.mark place) .nil

/-- What stands before a block that is repeated: two calls and the block, each behind its mark. -/
structure Setup where
  rep : Nat
  sep : Nat
  bits : UInt64
  separator : String
  first : Option Position
  second : Option Position
  third : Option Position

/-- With these functions, the repeater is set to so many times and this text. -/
structure Setup.Sets (registry : Registry) (times : Nat) (text : String) (u : Setup) : Prop where
  repeats : registry.Repeats u.rep u.sep
  count : IsCount u.bits times
  separator : u.separator = text

def Setup.code (u : Setup) : Code :=
  (Code.marks u.first).append ((Code.calls (.number u.bits) u.rep).append
    ((Code.marks u.second).append ((Code.calls (.string u.separator) u.sep).append
      (Code.marks u.third))))

variable {env : Environment} {lower : Option Runner} {a : Activation} {base times : Nat}
  {text : String} {u : Setup}

theorem Code.run_marks (place : Option Position) :
    (Code.marks place).run env lower a base = pure () := by
  cases place <;> simp [Code.marks, Code.run, Operands.run, Act.perform]

theorem Code.run_calls {constant : Constant} {id : Nat} {f : Function} (hid : id < 2 ^ 16)
    (hf : env.registry.get? id = some f) :
    (Code.calls constant id).run env lower a base =
      (f.routine [constant.value]).run env a.captured [] := by
  have hnumber : id.toUInt16.toNat = id := Nat.mod_eq_of_lt hid
  simp [Code.calls, Code.run, Operands.run, Operands.codes, hnumber, hf]

/-- The calls set the repeater. -/
theorem Setup.Sets.run_code (h : u.Sets env.registry times text) (w : World) :
    u.code.run env lower a base w = .ok ((), { w with repeater := ⟨some times, some text⟩ }) := by
  obtain ⟨hrepeats, hcount, rfl⟩ := h
  have hrep := Compile.get?_of_lookup? hrepeats.hasRep
  have hsep := Compile.get?_of_lookup? hrepeats.hasSep
  simp only [Setup.code, Code.run_append, Code.run_marks, pure_bind,
    Code.run_calls hrepeats.rep_lt hrep, Code.run_calls hrepeats.sep_lt hsep, Constant.value,
    Standard.rep_of_isCount hcount]
  rfl

/-- The calls define nothing, so what the block defines is all there is. -/
theorem Setup.definitions_block (u : Setup) (base index : Nat) (choices : Choices) :
    (u.code.append (.block index choices .nil)).definitions base =
      choices.definitions (base + u.code.size + 5) := by
  have hmarks : ∀ (place : Option Position) (base : Nat),
      (Code.marks place).definitions base = [] := by
    intro place base
    cases place <;> simp [Code.marks, Code.definitions, Operands.definitions]
  have hcode : u.code.definitions base = [] := by
    simp [Setup.code, Code.definitions_append, hmarks, Code.calls, Code.definitions,
      Operands.definitions]
  rw [Code.definitions_append, hcode, List.nil_append, Code.definitions, Code.definitions,
    List.append_nil]

/-- The block behind the calls stands for so many choices. -/
theorem Code.Means.repeats {before after : List Link} {locals : List String} {index : Nat}
    {choices : Choices} {weights : Sense (List Float)} {bodies : Nat → Sense Unit}
    (hsets : u.Sets env.registry times text) (hpos : 0 < choices.count)
    (h : choices.Means env before after locals (base + u.code.size + 5) weights bodies) :
    (u.code.append (.block index choices .nil)).Means env before after locals base
      (Sense.repeats times text do
        let weights ← weights
        let choice ← (Direct.choose weights : Sense Nat)
        bodies choice) where
  runs {a names depth limit} hserves hfinds := by
    rw [u.definitions_block] at hfinds
    have hlength : (choices.weights env (Runner.below env depth) a (base + u.code.size + 5)).length =
        (choices.bodies env (Runner.below env depth) a (base + u.code.size + 5)).length := by
      rw [Choices.length_weights, Choices.length_bodies]
    have hne : 0 < (choices.bodies env (Runner.below env depth) a (base + u.code.size + 5)).length := by
      rw [Choices.length_bodies]
      exact hpos
    have hchoose := Tracks.choose hlength hne (h.weights hserves hfinds) (h.bodies hserves hfinds)
    intro w s hshows
    rw [Code.run_append, bind_of_ok (hsets.run_code w), Code.run, Code.run,
      bind_pure_unit]
    exact hchoose.repeats (List.isEmpty_eq_false_iff.2 (List.ne_nil_of_length_pos hne)) times text
      hshows
  links hfinds hlinked := by
    rw [u.definitions_block] at hfinds
    exact h.links hfinds hlinked

/-! ## Runs -/

section

variable {c : Control} {m : Machine} {w w' : World} {position : Nat} {t : Trace}

theorem push_of_room (hroom : c.stack.size < c.stack.limit) (v : Value) :
    Running.push v (.of w c position t) = .ok () (.of w (c.pushAll [v]) position t) := by
  simp [Running.push, Stack.push, Machine.of, Control.pushAll, Nat.not_le.2 hroom]

/-- A constant is pushed where there is room for it. -/
theorem Constant.gets (hfree : env.options.Unlimited) (hfits : c.Fits a)
    (hroom : c.stack.size < c.stack.limit) {constant : Constant}
    (hhas : a.program.Has position constant.lines) (hm : m.At w c position) :
    Gets env (Machine.At w (c.pushAll [constant.value]) (position + Line.sizes constant.lines)) 2 m := by
  cases constant with
  | string s =>
    refine .mono (Gets.text (n := 0) hfree (fun n => do Running.push (.string (← Running.string n))) hm
      hhas hfits.program (fun _ => by simp [Running.execute, StringUse.instr]) fun n t hn => ?_)
      (Nat.le_succ 1)
    refine ⟨_, ?_, .here (Machine.at_of w _ _ t)⟩
    rw [run_bind_of_ok (string_of hfits.program hn)]
    exact push_of_room hroom _
  | number bits =>
    refine .mono (Gets.plain (n := 0) hfree (Running.push (.number (.ofBits bits))) hm hhas hfits.program
      rfl fun t => ?_) (Nat.le_succ 1)
    exact ⟨_, push_of_room hroom _, .here (Machine.at_of w _ _ t)⟩
  | spelled s =>
    refine Gets.text hfree (fun n => do Running.push (.string (← Running.string n))) hm hhas
      hfits.program (fun _ => by simp [Running.execute, StringUse.instr]) fun n t hn => ?_
    refine ⟨_, by rw [run_bind_of_ok (string_of hfits.program hn)]; exact push_of_room hroom _, ?_⟩
    refine Gets.plain hfree (do Running.push (← Running.pop).toNumber) (Machine.at_of w _ _ t)
      hhas.tail hfits.program (by simp [Running.execute]) fun t => ?_
    refine ⟨_, ?_, .here (Machine.at_of w _ _ t)⟩
    rw [run_bind_of_ok (pop_one hfits.floor)]
    exact push_of_room hroom _

/-- A function is called with a constant. -/
theorem Code.gets_calls (hfree : env.options.Unlimited) (hfits : c.Fits a)
    (hroom : c.stack.size < c.stack.limit) {constant : Constant} {id : Nat} {f : Function}
    (hid : id < 2 ^ 16) (hf : env.registry.get? id = some f)
    (hhas : a.program.Has base ((Code.calls constant id).lines base))
    (hroutine : ∀ position t, Running.routine env (f.routine [constant.value])
      (.of w c position t) = .ok () (.of w' c position t)) (hm : m.At w c base) :
    Gets env (Machine.At w' c (base + (Code.calls constant id).size)) 3 m := by
  have hnumber : id.toUInt16.toNat = id := Nat.mod_eq_of_lt hid
  have hsize : (Operands.constant constant .nil).size = Line.sizes constant.lines := by
    simp [Operands.size]
  obtain ⟨hconstant, hcall, -⟩ := Code.has_native hhas
  rw [hsize] at hcall
  have hpushed := Constant.gets hfree hfits hroom (Operands.has_constant hconstant).1 hm
  refine hpushed.trans (n := 1) fun m hm => ?_
  refine Gets.plain hfree (Running.nativeCall env id.toUInt16 1) hm hcall hfits.program rfl fun t => ?_
  have hfinish : base + (Code.calls constant id).size =
      base + Line.sizes constant.lines + (Instr.nativeCall id.toUInt16 1).size := by
    rw [Code.calls, Code.size, Code.size, hsize, Nat.add_assoc]
    rfl
  have hpop : Running.popArguments (1 : UInt8).toNat (.of w (c.pushAll [constant.value])
      (base + (Code.calls constant id).size) t) = _ := popArguments_of hfits.floor rfl
  refine ⟨_, ?_, .here (Machine.at_of w' c _ t)⟩
  rw [← hfinish, Running.nativeCall, hnumber, hf, Running.entry, run_bind_of_ok (run_pure _ _),
    run_bind_of_ok hpop, hroutine]

theorem Code.gets_marks (hfree : env.options.Unlimited) (hfits : c.Fits a) {place : Option Position}
    (hhas : a.program.Has base ((Code.marks place).lines base)) (hm : m.At w c base) :
    Gets env (Machine.At w c (base + (Code.marks place).size)) 1 m := by
  cases place with
  | none => exact .here hm
  | some place =>
    exact Gets.plain hfree (Running.markPlace _ _) hm hhas hfits.program rfl fun t =>
      ⟨_, rfl, .here ⟨{ t with marker := some ⟨t.current.program.id, _, _⟩ }, rfl⟩⟩

/-- The machine sets the repeater as the calls say. -/
theorem Setup.Sets.performs (lower : Option Runner) (h : u.Sets env.registry times text)
    (hfree : env.options.Unlimited) (hfits : c.Fits a) (hroom : c.stack.size < c.stack.limit)
    (hhas : a.program.Has base (u.code.lines base)) (w : World) :
    Performs env 9 (u.code.run env lower a base) c base (base + u.code.size) w
      { w with repeater := ⟨some times, some text⟩ } := by
  refine ⟨h.run_code w, fun m hm => ?_⟩
  obtain ⟨hrepeats, hcount, rfl⟩ := h
  have hrep := Compile.get?_of_lookup? hrepeats.hasRep
  have hsep := Compile.get?_of_lookup? hrepeats.hasSep
  simp only [Setup.code, Code.lines_append] at hhas
  obtain ⟨hfirst, hhas⟩ := hhas.split (by rw [Code.sizes_lines])
  obtain ⟨hcalls, hhas⟩ := hhas.split (by rw [Code.sizes_lines])
  obtain ⟨hsecond, hhas⟩ := hhas.split (by rw [Code.sizes_lines])
  obtain ⟨hcalls', hthird⟩ := hhas.split (by rw [Code.sizes_lines])
  simp only [Setup.code, Code.size_append, ← Nat.add_assoc]
  refine (Code.gets_marks hfree hfits hfirst hm).trans (n := 8) fun m hm => ?_
  have hcounted : ∀ position t, Running.routine env (Standard.rep [.number (.ofBits u.bits)])
      (.of w c position t) = .ok ()
        (.of { w with repeater := { w.repeater with count := some times } } c position t) := by
    intro position t
    rw [Standard.rep_of_isCount hcount]
    rfl
  have hcalled := Code.gets_calls hfree hfits hroom hrepeats.rep_lt hrep hcalls hcounted hm
  refine hcalled.trans (n := 5) fun m hm => ?_
  refine (Code.gets_marks hfree hfits hsecond hm).trans (n := 4) fun m hm => ?_
  have hseparated : ∀ position t, Running.routine env (Standard.sep [.string u.separator])
      (.of { w with repeater := { w.repeater with count := some times } } c position t) = .ok ()
        (.of { w with repeater := ⟨some times, some u.separator⟩ } c position t) := fun _ _ => rfl
  have hcalled := Code.gets_calls hfree hfits hroom hrepeats.sep_lt hsep hcalls' hseparated hm
  exact hcalled.trans fun m hm => Code.gets_marks hfree hfits hthird hm

end

end Wordloom
