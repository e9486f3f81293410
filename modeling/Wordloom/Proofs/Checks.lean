import Wordloom.Engine

/-!
# Wordloom.Proofs.Checks

What a compilation, a step and a run come to, as options. With `Option.any` a property of what comes out
is checked by computing it, and the lemmas here turn such a check into what has come out.
-/

namespace Wordloom

theorem toOption_eq_some {ε α : Type} {x : Except ε α} {a : α} : x.toOption = some a ↔ x = .ok a := by
  cases x with
  | ok b => simp [Except.toOption]
  | error e => simp [Except.toOption]

/-- What is printed in the end. -/
def Outcome.output? : Outcome → Option Output
  | .output o => some o
  | .failure _ | .unfinished => none

theorem Outcome.output?_eq_some {x : Outcome} {o : Output} : x.output? = some o ↔ x = .output o := by
  cases x with
  | output o' => simp [output?]
  | failure e => simp [output?]
  | unfinished => simp [output?]

/-- A run that has been computed. -/
theorem Engine.exists_output (e : Engine) (source : String) (debug : Bool) (seed : UInt64)
    (options : Options) (text : String)
    (h : (e.compile "main" source debug).toOption.any fun p =>
      (e.run p seed options).output?.any fun o => o.main = text) :
    ∃ p o, e.compile "main" source debug = .ok p ∧ e.run p seed options = .output o ∧ o.main = text := by
  simp only [Option.any_eq_true, toOption_eq_some, Outcome.output?_eq_some, decide_eq_true_eq] at h
  obtain ⟨p, hp, o, ho, htext⟩ := h
  exact ⟨p, o, hp, ho, htext⟩

/-- The machine behind the next step, if it is still running. -/
def Machine.next? (env : Environment) (m : Machine) : Option Machine :=
  match Running.step env m with
  | .ok .running m' => some m'
  | _ => none

theorem Machine.step_of_next? {env : Environment} {m m' : Machine} (h : m.next? env = some m') :
    Running.step env m = .ok .running m' := by
  unfold next? at h
  split at h
  · rename_i hstep
    cases h
    exact hstep
  · cases h

end Wordloom
