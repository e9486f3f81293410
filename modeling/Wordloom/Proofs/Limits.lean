import Wordloom.Proofs.Lockstep

/-!
# Wordloom.Proofs.Limits

A run may be limited in the characters it prints, in the calls that are nested and in the values on its
stack. These limits do nothing but cut runs off: a run that none of them has ended goes the same way
under higher ones.
-/

namespace Wordloom

/-- A run has been cut off by one of its limits. -/
def Fault.OfLimit : Fault → Prop
  | .charLimitExceeded _ => True
  | .callStackOverflow _ => True
  | .stackOverflow _ => True
  | _ => False

/-- The same options with limits that are not lower. No limit at all is the highest one for the number of
characters. -/
structure Options.Raises (options options' : Options) : Prop where
  capitals : options'.capitals = options.capitals
  numberFormat : options'.numberFormat = options.numberFormat
  timeout : options'.timeout = options.timeout
  charLimit : ∀ limit' ∈ options'.charLimit, ∃ limit ∈ options.charLimit, limit ≤ limit'
  maxCallDepth : options.maxCallDepth ≤ options'.maxCallDepth
  maxStackSize : options.maxStackSize ≤ options'.maxStackSize

variable {env : Environment} {options' : Options}

theorem Options.Raises.lifts (h : env.options.Raises options') :
    env.Lifts Fault.OfLimit { env with options := options' } where
  registry := rfl
  pools := rfl
  dictionary := rfl
  clock := rfl
  capitals := h.capitals
  timeout := h.timeout
  chars := by
    have hchars := h.charLimit
    cases hnew : options'.charLimit with
    | none =>
      cases env.options.charLimit with
      | none => trivial
      | some limit => exact fun _ => trivial
    | some limit' =>
      obtain ⟨limit, hlimit, hle⟩ := hchars limit' hnew
      rw [hlimit]
      exact .inr ⟨fun _ => trivial, hle⟩
  depth := .inr ⟨fun _ => trivial, h.maxCallDepth⟩

theorem Options.Raises.start (h : env.options.Raises options') (p : Program) (seed : UInt64) :
    (Machine.start env.options p seed).Alike Fault.OfLimit (fun _ => Eq) (Machine.start options' p seed) := by
  have hstart : Machine.start options' p seed =
      (Machine.start env.options p seed).varied none [] options'.maxStackSize := by
    unfold Machine.start
    rw [h.capitals, h.numberFormat]
    rfl
  rw [hstart]
  exact ⟨.none, .nil, .inr ⟨fun _ => trivial, h.maxStackSize⟩⟩

variable {E : Fault → Prop} {env' : Environment} {m n : Machine}

/-- Alike machines stay so, step by step, until the first of them is cut off. -/
theorem Machine.Alike.run (henv : env.Lifts E env') (h : m.Alike E (fun _ => Eq) n)
    (seed : UInt64) (steps : Nat) :
    (∃ e, m.run env seed steps = .failure e ∧ E e.fault) ∨
      n.run env' seed steps = m.run env seed steps := by
  induction steps generalizing m n with
  | zero => exact .inr rfl
  | succ steps ih =>
    have hstep := Running.parallel_step (T := fun _ => Machine.Alike E fun _ => Eq) henv
      (fun _ _ => rfl) h (fun _ _ _ => id) fun _ a b hab _ _ v m' n' h' => by
        rw [← hab.next]
        exact Running.lockstep_continueWith henv (fun _ _ => rfl) v a.next m' n' h'
    unfold Running.Parallel at hstep
    unfold Machine.run
    cases hm : Running.step env m with
    | ok status m' =>
      rw [hm] at hstep
      obtain ⟨n', hn, h'⟩ := hstep
      rw [hn]
      cases status with
      | running => exact ih h'
      | finished =>
        cases h'
        exact .inr rfl
    | error fault m' =>
      rw [hm] at hstep
      obtain hcut | ⟨n', hn, hfailure⟩ := hstep
      · exact .inl ⟨_, rfl, hcut⟩
      · rw [hn]
        exact .inr (congrArg Outcome.failure hfailure)

/-- **Limits only cut runs off.** Unless a limit has ended a run, it has the same output, or fails at the
same place for the same reason, under any higher limits. -/
theorem Machine.run_of_raises (p : Program) (seed : UInt64) (steps : Nat)
    (h : env.options.Raises options')
    (hcut : ∀ e, (start env.options p seed).run env seed steps = .failure e → ¬ e.fault.OfLimit) :
    (start options' p seed).run { env with options := options' } seed steps =
      (start env.options p seed).run env seed steps := by
  obtain ⟨e, hfailure, hlimit⟩ | hsame := (h.start p seed).run h.lifts seed steps
  · exact absurd hlimit (hcut e hfailure)
  · exact hsame

/-- An environment with room for two frames and two values, where nothing may be printed. -/
def Environment.tight : Environment :=
  { registry := Standard.registry
    options := { charLimit := some 0, maxCallDepth := 2, maxStackSize := 2 } }

/-- That is just enough for a subroutine that returns its argument, and more makes no difference. -/
theorem Machine.run_of_raises_echo :
    ∃ o, (start Environment.tight.options .echo 7).run .tight 7 stepLimit = .output o ∧
      (start {} .echo 7).run { Environment.tight with options := {} } 7 stepLimit = .output o := by
  have hraises : Environment.tight.options.Raises {} :=
    ⟨rfl, rfl, rfl, nofun, by decide, by decide⟩
  have hends : (match (start Environment.tight.options .echo 7).run .tight 7 stepLimit with
      | .output _ => true
      | _ => false) = true := by
    decide +kernel
  split at hends
  · rename_i o ho
    refine ⟨o, ho, ?_⟩
    rw [← ho]
    refine run_of_raises .echo 7 stepLimit hraises ?_
    rw [ho]
    nofun
  · cases hends

end Wordloom
