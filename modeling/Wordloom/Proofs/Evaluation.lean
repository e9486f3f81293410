import Wordloom.Proofs.Sound

/-!
# Wordloom.Proofs.Evaluation

Code that is run on behalf of a step: captured text, code that a function or a block asks for, and
the functions themselves. What such code does is assumed here of the runner for the next depth.
-/

namespace Wordloom

variable {env : Environment} {α β : Type} {result : Except Fault (α × World)}
  {Q : α → World → Machine → Prop} {p : Program} {w w' : World} {c : Control} {m : Machine}
  {position : Nat} {t : Trace} {a : Activation} {codes : List (Nat × Evaluating Unit)}
  {next : Continuation}

/-! ## Captured text -/

/-- With an output of its own for text to be captured, the current one being that of `w`. -/
def Control.capturing (c : Control) (w : World) : Control :=
  { c with outer := some (c.outer.elim ([], w.out) fun o => (w.out :: o.1, o.2)) }

theorem Control.Fits.capturing (h : c.Fits a) (w : World) :
    (c.capturing w).Fits { a with captured := true } where
  program := h.program
  floor := h.floor
  blocks := h.blocks
  argCount := h.argCount
  args := h.args
  captured := rfl

theorem openOutput_of (options : Options) :
    Running.openOutput options (.of w c position t) =
      .ok () (.of { w with out := .new options.capitals } (c.capturing w) position t) := by
  rw [Running.openOutput, run_modify]
  cases houter : c.outer <;> simp [Machine.of, Control.capturing, houter]

theorem closeOutput_of :
    Running.closeOutput (.of w' (c.capturing w) position t) =
      .ok w'.out.mainText (.of { w' with out := w.out } c position t) := by
  have hnested : (Machine.of w' (c.capturing w) position t).nested =
      w'.out :: c.outer.elim [] (w.out :: ·.1) := by
    cases houter : c.outer <;> simp [Machine.of, Control.capturing, houter]
  rw [Running.closeOutput, run_bind_of_ok (run_get _), hnested]
  cases houter : c.outer <;>
    simp [Machine.of, Control.capturing, houter, run_bind, run_set, run_pure]

theorem capture_apply (options : Options) (x : Evaluating Unit) (w : World) :
    Evaluating.capture options x w =
      (x >>= fun _ w' => .ok (w'.out.mainText, { w' with out := w.out }))
        { w with out := .new options.capitals } := rfl

/-- Code between an instruction that opens an output and one that pushes its text. -/
theorem Ends.capture {x : Evaluating Unit} {finish : Nat} {ls ms : List Line}
    (hm : m.At w c position) (hopen : p.Has position (.plain .newOutput :: ls))
    (hclose : p.Has finish (.plain .returnOutput :: ms)) (hprogram : c.frame.program = p)
    (hx : ∀ w' m, m.At w' (c.capturing w) (position + 1) →
      Ends env (x w') (fun _ w'' => Machine.At w'' (c.capturing w) finish) m) :
    Ends env (Evaluating.capture env.options x w)
      (fun text w' => Machine.At w' (c.pushAll [.string text]) (finish + 1)) m := by
  refine Ends.plain (Running.openOutput env.options) hm hopen hprogram rfl fun t => ?_
  refine Goes.of_ends (openOutput_of env.options) ?_
  rw [capture_apply]
  refine Ends.bind (hx _ _ ⟨t, rfl⟩) fun _ w' m' _ hm' => ?_
  refine Ends.plain (do Running.push (.string (← Running.closeOutput))) hm' hclose hprogram
    (by simp [Running.execute]) fun t => ?_
  rw [run_bind_of_ok closeOutput_of]
  exact Goes.push fun m hm => Ends.here hm

/-! ## Returning -/

theorem execute_return : Running.execute env .return = Running.leave env := rfl

/-- Evaluated code that is done hands its value to what asked for it. -/
theorem Ends.return_evaluating {back : Place} {v : Option Value} {q : Nat} {ls : List Line}
    (hm : m.At w' ((c.evaluating w position back next).pushAll v.toList) q)
    (hhas : p.Has q (.plain .return :: ls)) (hprogram : c.frame.program = p)
    (h : ∀ t, Goes env (Running.continueWith env (v.getD .undefined) next (.of w' c position t)) result Q) :
    Ends env result Q m := by
  refine Ends.line hm hhas hprogram fun i t hi => ?_
  rw [Line.eq_of_ofInstr?_plain hi, execute_return, leave_evaluating]
  exact (h _).settles

/-- A subroutine that is done. -/
theorem Ends.return_calling {args : List Value} {q : Nat} {ls : List Line}
    (hm : m.At w' (c.calling w position p args) q) (hhas : p.Has q (.plain .return :: ls))
    (h : ∀ m, m.At { w' with locals := w.locals } c position → Ends env result Q m) :
    Ends env result Q m := by
  refine Ends.line hm hhas rfl fun i t hi => ?_
  rw [Line.eq_of_ofInstr?_plain hi, execute_return, leave_calling]
  exact h _ ⟨t, rfl⟩

/-- A called program that is at its end. -/
theorem Ends.end_calling {target : Program} {args : List Value}
    (hm : m.At w' (c.calling w position target args) target.code.size)
    (h : ∀ m, m.At { w' with locals := w.locals } c position → Ends env result Q m) :
    Ends env result Q m := by
  obtain ⟨t, rfl⟩ := hm
  have hstep : Running.step env (.of w' (c.calling w position target args) target.code.size t) =
      Running.leave env (.of w' (c.calling w position target args) target.code.size t) := by
    rw [Running.step, run_bind_of_ok (run_get _)]
    exact congrFun (if_pos (Nat.le_refl _)) _
  rw [leave_calling] at hstep
  exact Leads.step hstep (h _ ⟨t, rfl⟩)

/-! ## Runners -/

/-- A runner does what the machine does with so many more frames to go. -/
def Runner.Faithful (env : Environment) (depth : Nat) (run : Runner) : Prop :=
  ∀ ⦃a : Activation⦄ ⦃base : Nat⦄ ⦃code : Code⦄, a.Loaded env.registry →
    a.program.Has base (code.lines base) → code.Sound env.registry a.reach base →
    ∀ ⦃c : Control⦄ ⦃w : World⦄ ⦃m : Machine⦄, c.Fits a → c.remaining env.options = depth →
      m.At w c base →
      Ends env (run a base code w) (fun _ w' => Machine.At w' c (base + code.size)) m

/-- What runs code one level deeper, when there are so many levels. -/
inductive Handles (env : Environment) : (depth : Nat) → Option Runner → Prop where
  | none : Handles env 0 none
  | some {depth : Nat} {run : Runner} (h : run.Faithful env depth) :
    Handles env (depth + 1) (some run)

theorem Activation.Loaded.captured {lib : Option Registry} (h : a.Loaded lib) (captured : Bool) :
    ({ a with captured := captured } : Activation).Loaded lib := ⟨h.reads, h.small, h.sound⟩

theorem Activation.Loaded.withArgs {lib : Option Registry} (h : a.Loaded lib) (args : List Value) :
    ({ a with args := args } : Activation).Loaded lib := ⟨h.reads, h.small, h.sound⟩

variable {depth : Nat} {lower : Option Runner}

/-- Code that an operand points to is evaluated, and what asked for it goes on. -/
theorem Goes.evaluate_pointer {address : Nat} {body : Code} {g : Unit → Evaluating α}
    (hlower : Handles env depth lower) (hloaded : a.Loaded env.registry)
    (hhas : a.program.Has address (body.lines address ++ [.plain .return]))
    (hsound : body.Sound env.registry a.reach address) (hfits : c.Fits a)
    (hdepth : c.remaining env.options = depth)
    (h : ∀ w' t, Goes env (Running.continueWith env .undefined next (.of w' c position t)) (g () w') Q) :
    Goes env (Running.evaluate env.options address next (.of w c position t))
      ((Evaluating.enter env lower a address body >>= g) w) Q := by
  have haddress : address ≤ a.program.code.size := by
    have hle := hhas.le_size
    omega
  cases hlower with
  | none =>
    have hevaluate : ∃ m, Running.evaluate env.options address next (.of w c position t) = _ :=
      evaluate_of_zero hdepth hfits.program haddress next
    obtain ⟨m, hm⟩ := hevaluate
    rw [hm]
    exact .inr ⟨trivial, rfl⟩
  | some hrun =>
    rw [evaluate_of_succ hdepth hfits.program haddress]
    have hbody := hrun hloaded hhas.left hsound (hfits.evaluating w position t.current next)
      (Control.remaining_evaluating hdepth w position t.current next) (Machine.at_of w _ _ t)
    refine Ends.bind hbody fun _ w' m' _ hm' => ?_
    have hreturn := hhas.right
    rw [Code.sizes_lines] at hreturn
    have hdone : m'.At w' ((c.evaluating w position t.current next).pushAll (none : Option Value).toList)
        (address + body.size) := by simpa using hm'
    exact Ends.return_evaluating hdone hreturn hfits.program fun t => h w' t

/-- The code of a weight is evaluated, and the choice goes on with the text that it leaves. -/
theorem Goes.evaluate_weight {base : Nat} {weight : Code} {g : String → Evaluating α}
    (hlower : Handles env depth lower) (hloaded : a.Loaded env.registry)
    (hopen : a.program.Has base [.plain .newOutput])
    (hhas : a.program.Has (base + 1) (weight.lines (base + 1) ++ [.plain .returnOutput, .plain .return]))
    (hsound : weight.Sound env.registry a.reach (base + 1)) (hfits : c.Fits a)
    (hdepth : c.remaining env.options = depth)
    (h : ∀ text w' t, Goes env (Running.continueWith env (.string text) next (.of w' c position t)) (g text w') Q) :
    Goes env (Running.evaluate env.options base next (.of w c position t))
      ((Evaluating.capture env.options
        (Evaluating.enter env lower { a with captured := true } (base + 1) weight) >>= g) w) Q := by
  have haddress : base ≤ a.program.code.size := by
    have hle := hopen.le_size
    omega
  cases hlower with
  | none =>
    have hevaluate : ∃ m, Running.evaluate env.options base next (.of w c position t) = _ :=
      evaluate_of_zero hdepth hfits.program haddress next
    obtain ⟨m, hm⟩ := hevaluate
    rw [hm]
    exact .inr ⟨trivial, rfl⟩
  | some hrun =>
    rw [evaluate_of_succ hdepth hfits.program haddress]
    have hfits' := hfits.evaluating w position t.current next
    have hclose := hhas.right
    rw [Code.sizes_lines] at hclose
    have hcapture := Ends.capture (Machine.at_of w _ base t) hopen hclose hfits'.program
      fun w' m hm => hrun (hloaded.captured true) hhas.left hsound (hfits'.capturing w)
        (Control.remaining_evaluating hdepth w position t.current next) hm
    refine Ends.bind hcapture fun text w' m' _ hm' => ?_
    have hdone : m'.At w' ((c.evaluating w position t.current next).pushAll
        (some (Value.string text)).toList) (base + 1 + weight.size + 1) := hm'
    exact Ends.return_evaluating hdone hclose.tail_plain hfits.program fun t => h text w' t

/-! ## Functions -/

/-- An evaluation is that of sound code at an address, on behalf of the activation. -/
def Pointed (env : Environment) (lower : Option Runner) (a : Activation) (address : Nat)
    (y : Evaluating Unit) : Prop :=
  ∃ body : Code, y = Evaluating.enter env lower a address body ∧
    a.program.Has address (body.lines address ++ [.plain .return]) ∧
    body.Sound env.registry a.reach address

theorem mem_of_lookup {address : Nat} (h : address ∈ codes.map (·.1)) :
    ∃ y, codes.lookup address = some y ∧ (address, y) ∈ codes := by
  induction codes with
  | nil => simp at h
  | cons code codes ih =>
    obtain ⟨first, x⟩ := code
    by_cases hfirst : address = first
    · subst hfirst
      exact ⟨x, by simp, by simp⟩
    · have hrest : address ∈ codes.map (·.1) := by simpa [hfirst] using h
      obtain ⟨y, hy, hmem⟩ := ih hrest
      have hne : (address == first) = false := by simpa using hfirst
      exact ⟨y, by rw [List.lookup_cons, hne, hy], List.mem_cons_of_mem _ hmem⟩

/-- The machine carries out the requests of a function. -/
theorem Goes.routine {Q : Unit → World → Machine → Prop} (hlower : Handles env depth lower)
    (hloaded : a.Loaded env.registry) (hfits : c.Fits a) (hdepth : c.remaining env.options = depth)
    (hcodes : ∀ address y, (address, y) ∈ codes → Pointed env lower a address y)
    (hQ : ∀ w t, Q () w (.of w c position t)) (r : Routine) (hsafe : r.Safe (codes.map (·.1)))
    (w : World) (t : Trace) :
    Goes env (Running.routine env r (.of w c position t)) (r.run env a.captured codes w) Q := by
  induction r generalizing w t with
  | done => exact Ends.here (hQ w t)
  | fail fault => exact .inr ⟨hsafe, rfl⟩
  | print text next ih =>
    exact (mirrors_print env.options text).goes_bind hfits fun _ w' => ih hsafe w' t
  | textOf v next ih => exact ih _ (hsafe _) w t
  | edit e next ih =>
    exact (mirrors_modifyWriter (·.edit e)).goes_bind hfits fun _ w' => ih hsafe w' t
  | setRepeat _ _ ih | setSeparator _ _ ih | setNumberFormat _ _ ih | setRng _ _ ih =>
    exact (mirrors_modify fun _ _ _ _ => rfl).goes_bind hfits fun _ w' => ih hsafe w' t
  | getRng next ih => exact ih _ (hsafe _) w t
  | getPool name next ih =>
    cases hpool : env.pools[name]? with
    | some pool =>
      simp only [Running.routine, Routine.run, hpool]
      exact ih pool (hsafe pool) w t
    | none =>
      simp only [Running.routine, Routine.run, hpool]
      exact .inr ⟨trivial, rfl⟩
  | evaluate address next ih =>
    obtain ⟨y, hlookup, hmem⟩ := mem_of_lookup hsafe.1
    obtain ⟨body, rfl, hhas, hsound⟩ := hcodes address y hmem
    rw [Running.routine, Routine.run, hlookup]
    exact Goes.evaluate_pointer hlower hloaded hhas hsound hfits hdepth
      fun w' t => ih .undefined hsafe.2 w' t

end Wordloom
