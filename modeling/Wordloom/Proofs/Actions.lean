import Mathlib.Algebra.GroupWithZero.Nat

/-!
# Wordloom.Proofs.Actions

What actions with a state that may fail do, one after the other. Readers and evaluations have no
state once they have failed; the compiler and the machine keep theirs.
-/

namespace Wordloom

/-! ## Actions that lose their state -/

variable {σ ε α β : Type}

/-- An action that succeeds hands its value and its state to the next one. -/
theorem bind_of_ok {get : StateT σ (Except ε) α} {next : α → StateT σ (Except ε) β} {s s' : σ} {a : α}
    (h : get s = .ok (a, s')) : (get >>= next) s = next a s' := by
  change (get s >>= fun p => next p.1 p.2) = _
  rw [h]
  rfl

theorem pure_apply (a : α) (s : σ) :
    (pure a : StateT σ (Except ε) α) s = .ok (a, s) := rfl

/-- An action that fails ends it all. -/
theorem bind_of_error {get : StateT σ (Except ε) α} {next : α → StateT σ (Except ε) β} {s : σ} {e : ε}
    (h : get s = .error e) : (get >>= next) s = .error e := by
  change (get s >>= fun p => next p.1 p.2) = _
  rw [h]
  rfl

/-- Two actions succeed one after the other if each of them does. -/
theorem bind_eq_ok {get : StateT σ (Except ε) α} {next : α → StateT σ (Except ε) β} {s s' : σ} {b : β} :
    (get >>= next) s = .ok (b, s') ↔ ∃ a s₁, get s = .ok (a, s₁) ∧ next a s₁ = .ok (b, s') := by
  cases h : get s with
  | ok r =>
    obtain ⟨a, s₁⟩ := r
    rw [bind_of_ok h]
    constructor
    · intro hnext
      exact ⟨a, s₁, rfl, hnext⟩
    · rintro ⟨_, _, ⟨⟩, hnext⟩
      exact hnext
  | error e =>
    rw [bind_of_error h]
    simp

/-! ## Actions that keep their state -/

section

variable {σ ε α β : Type}

theorem run_bind (x : EStateM ε σ α) (f : α → EStateM ε σ β) (s : σ) :
    (x >>= f) s =
      match x s with
      | .ok a s => f a s
      | .error e s => .error e s := by
  change EStateM.bind x f s = _
  unfold EStateM.bind
  cases x s <;> rfl

theorem run_pure (a : α) (s : σ) : (pure a : EStateM ε σ α) s = .ok a s := rfl

theorem run_get (s : σ) : (get : EStateM ε σ σ) s = .ok s s := rfl

theorem run_set (s s' : σ) : (set s' : EStateM ε σ PUnit) s = .ok ⟨⟩ s' := rfl

theorem run_modify (f : σ → σ) (s : σ) : (modify f : EStateM ε σ PUnit) s = .ok ⟨⟩ (f s) := rfl

theorem run_throw (e : ε) (s : σ) : (throw e : EStateM ε σ α) s = .error e s := rfl

/-- What an action does after another that succeeds. -/
theorem run_bind_of_ok {x : EStateM ε σ α} {f : α → EStateM ε σ β} {s s' : σ} {a : α}
    (h : x s = .ok a s') : (x >>= f) s = f a s' := by
  rw [run_bind, h]

theorem run_bind_of_error {x : EStateM ε σ α} {f : α → EStateM ε σ β} {s s' : σ} {e : ε}
    (h : x s = .error e s') : (x >>= f) s = .error e s' := by
  rw [run_bind, h]

/-- Two actions succeed one after the other if each of them does. -/
theorem run_bind_eq_ok {x : EStateM ε σ α} {f : α → EStateM ε σ β} {s s' : σ} {b : β} :
    (x >>= f) s = .ok b s' ↔ ∃ a s₁, x s = .ok a s₁ ∧ f a s₁ = .ok b s' := by
  rw [run_bind]
  cases h : x s with
  | ok a s₁ =>
    constructor
    · intro hf
      exact ⟨a, s₁, rfl, hf⟩
    · rintro ⟨_, _, ⟨⟩, hf⟩
      exact hf
  | error e s₁ => simp

/-! ### What holds after an action -/

/-- What holds after an action, if it succeeds. -/
def Yields (x : EStateM ε σ α) (s : σ) (Q : α → σ → Prop) : Prop := ∀ a s', x s = .ok a s' → Q a s'

/-- The same, with what holds of the error, if it fails. -/
structure Ensures (E : ε → Prop) (x : EStateM ε σ α) (s : σ) (Q : α → σ → Prop) : Prop where
  yields : Yields x s Q
  raises : ∀ e s', x s = .error e s' → E e

variable {E : ε → Prop} {x : EStateM ε σ α} {f : α → EStateM ε σ β} {s s' : σ} {Q : α → σ → Prop}

namespace Yields

theorem ok {a : α} (hx : x s = .ok a s') (h : Q a s') : Yields x s Q := by
  intro a' s'' h'
  cases hx.symm.trans h'
  exact h

theorem error {e : ε} (hx : x s = .error e s') : Yields x s Q := by
  intro a s'' h
  cases hx.symm.trans h

theorem mono {P : α → σ → Prop} (h : Yields x s P) (hPQ : ∀ a s', P a s' → Q a s') : Yields x s Q :=
  fun a s' hx => hPQ a s' (h a s' hx)

theorem bind {Q : β → σ → Prop} (h : Yields x s fun a s' => Yields (f a) s' Q) :
    Yields (x >>= f) s Q := by
  intro b s' hb
  obtain ⟨a, s₁, hx, hf⟩ := run_bind_eq_ok.1 hb
  exact h a s₁ hx b s' hf

theorem pure {a : α} (h : Q a s) : Yields (pure a : EStateM ε σ α) s Q := ok rfl h

theorem throw {e : ε} : Yields (throw e : EStateM ε σ α) s Q := error rfl

theorem get {Q : σ → σ → Prop} (h : Q s s) : Yields (get : EStateM ε σ σ) s Q := ok rfl h

theorem set {Q : PUnit → σ → Prop} (h : Q ⟨⟩ s') : Yields (set s' : EStateM ε σ PUnit) s Q :=
  ok rfl h

theorem modify {g : σ → σ} {Q : PUnit → σ → Prop} (h : Q ⟨⟩ (g s)) :
    Yields (modify g : EStateM ε σ PUnit) s Q := ok rfl h

end Yields

namespace Ensures

theorem of_run (h : match x s with | .ok a s' => Q a s' | .error e _ => E e) : Ensures E x s Q := by
  constructor
  · intro a s' hx
    rwa [hx] at h
  · intro e s' hx
    rwa [hx] at h

theorem ok {a : α} (hx : x s = .ok a s') (h : Q a s') : Ensures E x s Q := of_run (by rwa [hx])

theorem error {e : ε} (hx : x s = .error e s') (h : E e) : Ensures E x s Q := of_run (by rwa [hx])

theorem congr {y : EStateM ε σ α} (h : Ensures E y s' Q) (hx : x s = y s') : Ensures E x s Q :=
  ⟨fun a s'' ha => h.yields a s'' (hx ▸ ha), fun e s'' he => h.raises e s'' (hx ▸ he)⟩

theorem mono {F : ε → Prop} {R : α → σ → Prop} (h : Ensures E x s Q) (hE : ∀ e, E e → F e)
    (hQ : ∀ a s', Q a s' → R a s') : Ensures F x s R :=
  ⟨h.yields.mono hQ, fun e s' he => hE e (h.raises e s' he)⟩

theorem imp {R : α → σ → Prop} (h : Ensures E x s Q) (hQ : ∀ a s', Q a s' → R a s') : Ensures E x s R :=
  h.mono (fun _ => id) hQ

theorem bind {Q : β → σ → Prop} (h : Ensures E x s fun a s' => Ensures E (f a) s' Q) :
    Ensures E (x >>= f) s Q := by
  cases hx : x s with
  | ok a s' => exact (h.yields a s' hx).congr (run_bind_of_ok hx)
  | error e s' => exact error (run_bind_of_error hx) (h.raises e s' hx)

theorem pure {a : α} (h : Q a s) : Ensures E (pure a) s Q := ok rfl h

theorem throw {e : ε} (h : E e) : Ensures E (throw e) s Q := error rfl h

theorem get {Q : σ → σ → Prop} (h : Q s s) : Ensures E get s Q := ok rfl h

theorem set {Q : PUnit → σ → Prop} (h : Q ⟨⟩ s') : Ensures E (set s') s Q := ok rfl h

theorem modify {g : σ → σ} {Q : PUnit → σ → Prop} (h : Q ⟨⟩ (g s)) : Ensures E (modify g) s Q := ok rfl h

end Ensures

end

end Wordloom
