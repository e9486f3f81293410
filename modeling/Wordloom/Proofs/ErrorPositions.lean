import Wordloom.Proofs.Traversal

/-!
# Wordloom.Proofs.ErrorPositions

Where errors of a compilation are: every error is where a token of the source starts or at its end
(`compile_error_position`).
-/

namespace Wordloom

namespace Compile

variable {ctx : Context} {P : Position → Prop}

/-- Going on with constructs, until there is none left, names such places only. -/
theorem ensures_run (fuel : Nat) {ks : List Construct} (h : ∀ k ∈ ks, k.At P) (c : Compilation)
    (hc : c.reader.Within P) :
    Ensures (fun e => P e.position) (run ctx fuel ks) c fun _ c' => c'.reader.Within P := by
  induction fuel generalizing ks c with
  | zero =>
    cases ks with
    | nil => exact .ok rfl hc
    | cons k ks => exact .error rfl hc.position
  | succ fuel ih =>
    cases ks with
    | nil => exact .ok rfl hc
    | cons k ks =>
      have hks : ∀ k ∈ ks, k.At P := fun k hk => h k (List.mem_cons_of_mem _ hk)
      have hstep := Construct.walks_resume ctx (h k List.mem_cons_self) c hc (Nat.lt_succ_self _)
      refine .bind (hstep.mono (fun _ he => he.1) fun step c' harrives => ?_)
      cases step with
      | done => exact ih hks c' harrives.within
      | push self child =>
        refine ih (fun k hk => ?_) c' harrives.within
        rcases hk with _ | ⟨_, _ | ⟨_, hk⟩⟩
        · exact harrives.value.2
        · exact harrives.value.1
        · exact hks k hk

theorem raises_source (c : Compilation) (hc : c.reader.Within P) (e : Error) (c' : Compilation)
    (h : source ctx c = .error e c') : P e.position := by
  have hplaces : ∀ k ∈ [Construct.pattern .root], k.At P := List.forall_mem_singleton.2 trivial
  have hsource : Ensures (fun e => P e.position) (source ctx) c fun _ _ => True := by
    refine .bind (.ok rfl (.bind ((ensures_run _ hplaces c hc).imp fun _ c' hc' => .bind (.ok rfl ?_))))
    split
    · exact .error rfl hc'.position
    · exact .pure trivial
  exact hsource.raises e c' h

/-- **Errors point into the source.** An error is where a token of the source starts, or at its end. -/
theorem compile_error_position (ctx : Context) (name source : String) (e : Error)
    (h : compile ctx name source = .error e) :
    (∃ t ∈ Token.scan source, e.position = t.position) ∨ e.position = .endOf source := by
  have hstart : (Compilation.start ctx source).reader.Within
      fun p => (∃ t ∈ Token.scan source, p = t.position) ∨ p = .endOf source :=
    ⟨fun t ht => .inl ⟨t, ht, rfl⟩, .inr rfl⟩
  unfold compile at h
  split at h
  · cases h
  · next e' c hsource =>
    cases h
    exact raises_source _ hstart _ _ hsource

/-- Whether a compilation fails with an error can be found out by compiling. -/
instance (result : Except Error Program) (e : Error) : Decidable (result = .error e) :=
  match result with
  | .ok _ => isFalse nofun
  | .error found => decidable_of_iff (found = e) (by rw [Except.error.injEq])

/-- A place that is kept while other tokens are read: that of a bracket in an argument on the second line. -/
theorem compile_error_position_second_line :
    compile { registry := Standard.registry } "main" "a\n[cat:x;[$f:2]]" =
      .error ⟨⟨2, 8, 9⟩, .unknownSubroutine "f"⟩ ∧
    ((∃ t ∈ Token.scan "a\n[cat:x;[$f:2]]", (⟨2, 8, 9⟩ : Position) = t.position) ∨
      (⟨2, 8, 9⟩ : Position) = .endOf "a\n[cat:x;[$f:2]]") := by
  have h : compile { registry := Standard.registry } "main" "a\n[cat:x;[$f:2]]" =
      .error ⟨⟨2, 8, 9⟩, .unknownSubroutine "f"⟩ := by
    decide +kernel
  exact ⟨h, compile_error_position _ _ _ _ h⟩

end Compile

end Wordloom
