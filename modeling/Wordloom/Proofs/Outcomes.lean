import Wordloom.Proofs.Simulation

/-!
# Wordloom.Proofs.Outcomes

How the run of a program ends: as the evaluation of its code says, unless a limit that evaluation
knows nothing of is reached first. It always ends.
-/

namespace Wordloom

variable {env : Environment} {seed : UInt64} {m : Machine} {R : Outcome → Prop}

/-! ## Ends of runs -/

/-- From some number of steps on, a run with so many ends with an outcome that has `R`; with fewer it
is not finished. -/
def Machine.Halts (env : Environment) (seed : UInt64) (R : Outcome → Prop) (m : Machine) : Prop :=
  ∃ n, (∀ steps, steps < n → m.run env seed steps = .unfinished) ∧
    ∀ steps, n ≤ steps → R (m.run env seed steps)

theorem Machine.Halts.step {m' : Machine} (hstep : Running.step env m = .ok .running m')
    (h : m'.Halts env seed R) : m.Halts env seed R := by
  have hrun : ∀ steps, m.run env seed (steps + 1) = m'.run env seed steps := by
    intro steps
    rw [Machine.run, hstep]
  obtain ⟨n, hbefore, hafter⟩ := h
  refine ⟨n + 1, fun steps hsteps => ?_, fun steps hsteps => ?_⟩
  · cases steps with
    | zero => rfl
    | succ steps =>
      rw [hrun]
      exact hbefore steps (by omega)
  · cases steps with
    | zero => omega
    | succ steps =>
      rw [hrun]
      exact hafter steps (by omega)

theorem Machine.Halts.mono {S : Outcome → Prop} (h : m.Halts env seed R) (hRS : ∀ o, R o → S o) :
    m.Halts env seed S := by
  obtain ⟨n, hbefore, hafter⟩ := h
  exact ⟨n, hbefore, fun steps hsteps => hRS _ (hafter steps hsteps)⟩

/-- However many steps are allowed, the run ends as it should or not yet. -/
theorem Machine.Halts.run (h : m.Halts env seed R) (steps : Nat) :
    m.run env seed steps = .unfinished ∨ R (m.run env seed steps) := by
  obtain ⟨n, hbefore, hafter⟩ := h
  obtain hsteps | hsteps := Nat.lt_or_ge steps n
  · exact .inl (hbefore steps hsteps)
  · exact .inr (hafter steps hsteps)

/-- More steps than a run takes change nothing. -/
theorem Machine.run_of_le {n : Nat} (h : m.run env seed n ≠ .unfinished) {steps : Nat}
    (hle : n ≤ steps) : m.run env seed steps = m.run env seed n := by
  induction n generalizing m steps with
  | zero => exact absurd rfl h
  | succ n ih =>
    obtain ⟨steps, rfl⟩ : ∃ k, steps = k + 1 := ⟨steps - 1, by omega⟩
    rw [Machine.run] at h ⊢
    rw [Machine.run]
    split at h
    · exact ih h (by omega)
    · rfl
    · rfl

theorem Machine.Halts.outcome (h : m.Halts env seed (· ≠ .unfinished)) :
    ∃ n outcome, outcome ≠ .unfinished ∧ ∀ steps, n ≤ steps → m.run env seed steps = outcome := by
  obtain ⟨n, -, hafter⟩ := h
  have hend := hafter n (Nat.le_refl n)
  exact ⟨n, _, hend, fun steps hle => Machine.run_of_le hend hle⟩

/-- A step after which there is no other. -/
theorem Machine.Halts.last {o : Outcome} (hrun : ∀ steps, m.run env seed (steps + 1) = o) (h : R o) :
    m.Halts env seed R := by
  refine ⟨1, fun steps hsteps => ?_, fun steps hsteps => ?_⟩
  · obtain rfl : steps = 0 := by omega
    rfl
  · obtain ⟨k, rfl⟩ : ∃ k, steps = k + 1 := ⟨steps - 1, by omega⟩
    rw [hrun]
    exact h

/-- A run that leads to states from which it ends, or to a fault, ends. -/
theorem Leads.halts {Q : Machine → Prop} {E : Fault → Prop} (h : Leads env Q E m)
    (hQ : ∀ m, Q m → m.Halts env seed R) (hE : ∀ e : RuntimeError, E e.fault → R (.failure e)) :
    m.Halts env seed R := by
  induction h with
  | here h => exact hQ _ h
  | step hstep _ ih => exact .step hstep ih
  | fail hstep hf =>
    exact .last (fun steps => by rw [Machine.run, hstep]) (hE _ hf)

/-! ## Programs -/

/-- Where a run starts. -/
def Control.start (options : Options) (p : Program) : Control where
  frame := .new p 0 0 0
  callers := []
  stack := .withLimit options.maxStackSize
  blocks := #[]
  outer := none

theorem Control.fits_start (options : Options) (p : Program) (code : Code) :
    (Control.start options p).Fits ⟨p, code, [], false⟩ where
  program := rfl
  floor := Nat.zero_le _
  blocks := Nat.zero_le _
  argCount := rfl
  args i v hv := by simp at hv
  captured := rfl

theorem Machine.at_start (options : Options) (p : Program) (seed : UInt64) :
    (Machine.start options p seed).At (.start options seed) (.start options p) 0 :=
  ⟨⟨0, .incomparable, ⟨p, 0⟩, none⟩, rfl⟩

/-- What the evaluation of a program's code comes to. -/
def Code.result (env : Environment) (p : Program) (code : Code) (seed : UInt64) :
    Except Fault (Unit × World) :=
  Code.runner env (env.options.maxCallDepth - 1) ⟨p, code, [], false⟩ 0 code
    (.start env.options seed)

/-- The outcome of a run is that of an evaluation, or a limit was reached that evaluation does not
have. -/
def Outcome.Agrees (seed : UInt64) (result : Except Fault (Unit × World)) : Outcome → Prop
  | .output o => ∃ w, result = .ok ((), w) ∧ o = w.out.finish seed
  | .failure e => e.fault.Cuts ∨ e.fault.Expected ∧ result = .error e.fault
  | .unfinished => False

theorem step_at_end (p : Program) (w : World) (options : Options) (t : Trace) :
    ∃ m, Running.step env (.of w (.start options p) p.code.size t) = .ok .finished m ∧
      m.root = w.out := by
  have hstep : Running.step env (.of w (.start options p) p.code.size t) =
      Running.leave env (.of w (.start options p) p.code.size t) := by
    rw [Running.step, run_bind_of_ok (run_get _)]
    exact congrFun (if_pos (Nat.le_refl _)) _
  rw [hstep, Running.leave, run_bind_of_ok (run_get _)]
  exact ⟨_, rfl, rfl⟩

/-- A program of sound code runs as its code is evaluated, and the run ends. -/
theorem Program.halts {p : Program} {code : Code} (hregistry : env.registry.Sound)
    (hloaded : (⟨p, code, [], false⟩ : Activation).Loaded env.registry) (seed : UInt64) :
    (Machine.start env.options p seed).Halts env seed
      (Outcome.Agrees seed (code.result env p seed)) := by
  have hruns := Code.faithful_runner hregistry (env.options.maxCallDepth - 1) hloaded
    hloaded.reads.has hloaded.sound (Control.fits_start env.options p code) rfl
    (Machine.at_start env.options p seed)
  have hend : 0 + code.size = p.code.size := by
    rw [hloaded.reads.size, Code.sizes_lines, Nat.zero_add]
  rw [hend] at hruns
  refine Leads.halts hruns ?_ fun e he => he
  rintro m ⟨_, w, hresult, t, rfl⟩
  obtain ⟨m, hstep, hroot⟩ := step_at_end p w env.options t
  have hagrees : Outcome.Agrees seed (code.result env p seed) (.output (m.root.finish seed)) :=
    ⟨w, hresult, by rw [hroot]⟩
  exact .last (fun steps => by rw [Machine.run, hstep]) hagrees

end Wordloom
