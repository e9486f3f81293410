import Wordloom.Proofs.Traversal

/-!
# Wordloom.Proofs.StepBound

How often constructs are gone on with while a source is compiled. Each open construct is charged a
fixed amount, and each token that is left to read another. A step of the innermost construct always
spends some of this, whether it reads, opens a construct or closes one. So there are at most as many
steps as the charge at the start, which is linear in the number of tokens, and the bound that `run` is
given is never what ends it.
-/

namespace Wordloom.Compile

variable {ctx : Context} {c : Compilation}

/-! ## The charge -/

theorem Construct.charge_pos (k : Construct) : 0 < k.charge := by
  cases k <;> simp [charge]

theorem Construct.charge_le (k : Construct) : k.charge ≤ 3 := by
  cases k <;> simp [charge]

/-- The charge of constructs that are open and of the tokens that are left to read. -/
def Compilation.charge (c : Compilation) (ks : List Construct) : Nat :=
  4 * c.reader.rest.length + (ks.map (·.charge)).sum

/-- If an action succeeds, what it leaves is charged less than the tokens that were left before and
`n`. -/
def Spends (n : Nat) (x : Compiling Step) (c : Compilation) : Prop :=
  Yields x c fun step c' => 4 * c'.reader.rest.length + step.charge < 4 * c.reader.rest.length + n

/-! ## Steps -/

/-- A pattern reads a token for every construct it opens. -/
theorem pattern_spends {stop : Terminator} {tokens : List Token} :
    Spends 1 (pattern stop tokens) c := by
  induction tokens generalizing c with
  | nil =>
    unfold pattern
    split
    · exact .pure (Nat.lt_succ_self _)
    · exact .bind (.position .fail)
  | cons token tokens ih =>
    unfold pattern
    split
    · exact .pure (Nat.lt_succ_self _)
    · refine .bind (.read fun _ r hr => ?_)
      unfold Token.Reader.Passes at hr
      have henter (child : Construct) : Yields (enter stop token child) { c with reader := r }
          fun step c' => 4 * c'.reader.rest.length + step.charge < 4 * c.reader.rest.length + 1 := by
        refine .bind (.output (.pure ?_))
        have hself : (Construct.pattern stop).charge = 1 := rfl
        have hchild := child.charge_le
        simp only [Step.charge]
        omega
      split
      · exact .fail
      · exact .fail
      · exact .fail
      · exact henter _
      · exact henter _
      · exact henter _
      · exact henter _
      · exact .fail
      · refine .bind (.output (ih.mono fun step c' hc' => ?_))
        dsimp only at hc'
        omega

/-- A step of a construct spends some of the charge. -/
theorem Construct.resume_spends (k : Construct) : Spends k.charge (k.resume ctx) c := by
  by_cases hk : ∃ stop, k = .pattern stop
  · obtain ⟨stop, rfl⟩ := hk
    exact .bind (.get pattern_spends)
  · have hplaces : k.At fun _ => True := by cases k <;> trivial
    obtain ⟨d, n, hn, hsteps⟩ := steps_resume ctx (c.reader.rest.length + 1) hplaces
      fun stop hstop => hk ⟨stop, hstop⟩
    refine (hsteps c ⟨fun _ _ => trivial, trivial⟩ (Nat.lt_succ_self _)).yields.mono fun step c' harrives => ?_
    have hpasses := harrives.passes
    have hcharge := harrives.value.2
    unfold Token.Reader.Passes at hpasses
    omega

/-! ## All steps -/

/-- Constructs are gone on with for `n` steps, the innermost first, until none is left or one of them
fails. -/
inductive Drives (ctx : Context) :
    Nat → List Construct → Compilation → EStateM.Result Error Compilation Unit → Prop where
  | nil {c : Compilation} : Drives ctx 0 [] c (.ok () c)
  | fail {k : Construct} {ks : List Construct} {c c' : Compilation} {e : Error}
    (h : k.resume ctx c = .error e c') : Drives ctx 1 (k :: ks) c (.error e c')
  | done {k : Construct} {ks : List Construct} {c c' : Compilation} {n : Nat}
    {r : EStateM.Result Error Compilation Unit} (h : k.resume ctx c = .ok .done c')
    (hrest : Drives ctx n ks c' r) : Drives ctx (n + 1) (k :: ks) c r
  | push {k self child : Construct} {ks : List Construct} {c c' : Compilation} {n : Nat}
    {r : EStateM.Result Error Compilation Unit} (h : k.resume ctx c = .ok (.push self child) c')
    (hrest : Drives ctx n (child :: self :: ks) c' r) : Drives ctx (n + 1) (k :: ks) c r

variable {ks : List Construct} {r : EStateM.Result Error Compilation Unit} {n : Nat}

/-- The steps come to an end: there are at most as many as the charge. -/
theorem exists_drives (ctx : Context) (ks : List Construct) (c : Compilation) :
    ∃ n r, n ≤ c.charge ks ∧ Drives ctx n ks c r := by
  induction hcharge : c.charge ks using Nat.strongRecOn generalizing ks c with
  | _ charge ih =>
    cases ks with
    | nil => exact ⟨0, _, Nat.zero_le _, .nil⟩
    | cons k ks =>
      cases hstep : k.resume ctx c with
      | error e c' =>
        have hpos := k.charge_pos
        simp only [Compilation.charge, List.map_cons, List.sum_cons] at hcharge
        exact ⟨1, _, by omega, .fail hstep⟩
      | ok step c' =>
        have hspends := k.resume_spends step c' hstep
        simp only [Compilation.charge, List.map_cons, List.sum_cons] at hcharge
        cases step with
        | done =>
          have hlt : c'.charge ks < charge := by
            simp only [Compilation.charge, Step.charge] at hspends ⊢
            omega
          obtain ⟨n, r, hn, hdrives⟩ := ih _ hlt ks c' rfl
          exact ⟨n + 1, r, by omega, .done hstep hdrives⟩
        | push self child =>
          have hlt : c'.charge (child :: self :: ks) < charge := by
            simp only [Compilation.charge, Step.charge, List.map_cons, List.sum_cons] at hspends ⊢
            omega
          obtain ⟨n, r, hn, hdrives⟩ := ih _ hlt _ c' rfl
          exact ⟨n + 1, r, by omega, .push hstep hdrives⟩

/-- With at least as many rounds as there are steps, `run` takes all of them. -/
theorem Drives.run (h : Drives ctx n ks c r) {fuel : Nat} (hfuel : n ≤ fuel) :
    Compile.run ctx fuel ks c = r := by
  induction h generalizing fuel with
  | nil => cases fuel <;> rfl
  | fail h =>
    obtain ⟨fuel, rfl⟩ := Nat.exists_eq_add_of_le' hfuel
    exact run_bind_of_error h
  | done h hrest ih | push h hrest ih =>
    obtain ⟨fuel, rfl⟩ := Nat.exists_eq_add_of_le' (Nat.le_trans (Nat.le_add_left 1 _) hfuel)
    rw [Compile.run, run_bind_of_ok h]
    exact ih (by omega)

/-- Where the steps end in an error, it is one that a construct has been found to have. -/
theorem Drives.definite {e : Error} {c' : Compilation} (h : Drives ctx n ks c r)
    (hr : r = .error e c') : e.Definite := by
  induction h with
  | nil => cases hr
  | fail h =>
    cases hr
    exact (Construct.ensures_resume _ _).raises _ _ h
  | done h hrest ih | push h hrest ih => exact ih hr

/-- A source is compiled in steps whose number is linear in that of its tokens. They end in a result or
in an error that is not one of a loop that goes on for too long, and a larger bound on the number of
steps makes no difference. -/
theorem drives_source (ctx : Context) (source : String) :
    ∃ n r, n ≤ 4 * (Token.scan source).length + 2 ∧
      Drives ctx n [.pattern .root] (.start ctx source) r ∧
      (∀ fuel, n ≤ fuel → run ctx fuel [.pattern .root] (.start ctx source) = r) ∧
      ∀ e c, r = .error e c → e.Definite := by
  obtain ⟨n, r, hn, hdrives⟩ := exists_drives ctx [.pattern .root] (.start ctx source)
  refine ⟨n, r, ?_, hdrives, fun fuel hfuel => hdrives.run hfuel, fun e c => hdrives.definite⟩
  simp only [Compilation.charge, Compilation.start, List.map_cons, List.map_nil, List.sum_cons,
    List.sum_nil, Construct.charge] at hn
  omega

end Wordloom.Compile
