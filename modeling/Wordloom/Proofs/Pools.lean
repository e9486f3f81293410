import Wordloom.Engine
import Wordloom.Proofs.Limits
import Wordloom.Proofs.PoolSource

/-!
# Wordloom.Proofs.Pools

Seed pools. A call of `pool` runs its pattern with the random numbers of a key and then goes on with
those of the run, whatever the pattern has drawn. So a source that is nothing but such a call has the
same output for all seeds: two runs of it, side by side, differ only in the numbers that are kept for
when the call is over.
-/

namespace Wordloom

/-- The same outcome, but for the seed. -/
def Outcome.Matches : Outcome → Outcome → Prop
  | .output o, .output o' => o.channels = o'.channels
  | .failure e, .failure e' => e = e'
  | .unfinished, .unfinished => True
  | _, _ => False

/-- The same machine with other random numbers to come. -/
def Machine.reseeded (m : Machine) (rng : Rng) : Machine := { m with rng }

namespace Running

variable {env : Environment} {α β : Type} {m m' : Machine}

/-! ## The function -/

/-- What goes on behind the pattern of a call. -/
def restore (own : Rng) : Continuation := .routine fun _ => .setRng own .done

/-- Whatever random numbers are to come, a call fails in the same way, or runs the same code with the
same numbers, and then goes on with those that it found. -/
theorem pool_cases (env : Environment) (args : List Value) (m : Machine) :
    (∃ fault, ∀ rng, routine env (Standard.pool args) (m.reseeded rng) =
      .error fault (m.reseeded rng)) ∨
    ∃ (name key : String) (pool : SeedPool) (address : Nat), env.pools[name]? = some pool ∧
      ∀ rng, routine env (Standard.pool args) (m.reseeded rng) =
        evaluate env.options address (restore rng) (m.reseeded (pool.rngFor key)) := by
  unfold Standard.pool Standard.ternary
  split
  · rename_i name key pattern
    dsimp only
    split
    · rename_i address
      cases hpool : env.pools[name.text m.numberFormat]? with
      | none =>
        refine .inl ⟨.unknownPool (name.text m.numberFormat), fun rng => ?_⟩
        simp only [routine, run_bind, run_get]
        simp only [Machine.reseeded, hpool]
        rfl
      | some pool =>
        refine .inr ⟨_, key.text m.numberFormat, pool, address, hpool, fun rng => ?_⟩
        simp only [routine, run_bind, run_get]
        simp only [Machine.reseeded, hpool]
        rfl
    · exact .inl ⟨_, fun _ => rfl⟩
  · exact .inl ⟨_, fun _ => rfl⟩

/-! ## Random numbers that are not looked at -/

/-- An action that leaves the random numbers to come alone. -/
def Blind (x : Running α) : Prop :=
  ∀ m rng, Parallel (fun _ => False) (fun _ m' n' => n' = m'.reseeded rng) x x m (m.reseeded rng)

theorem Blind.bind {x : Running α} {f : α → Running β} (hx : Blind x) (hf : ∀ a, Blind (f a)) :
    Blind (x >>= f) := by
  intro m rng
  refine (hx m rng).bind ?_
  rintro a m' _ rfl
  exact hf a m' rng

theorem Blind.pure (a : α) : Blind (pure a) := fun _ _ => ⟨_, rfl, rfl⟩

theorem Blind.throw (fault : Fault) : Blind (throw fault : Running α) :=
  fun _ _ => .inr ⟨_, rfl, rfl⟩

/-- Nothing is read off the machine that depends on them. -/
theorem Blind.get {f : Machine → Running α} (hf : ∀ m, Blind (f m))
    (hsame : ∀ m rng, f (m.reseeded rng) = f m) : Blind (get >>= f) := by
  intro m rng
  change Parallel _ _ (f m) (f (m.reseeded rng)) m (m.reseeded rng)
  rw [hsame]
  exact hf m m rng

theorem blind_entry (table : String) (index : Int) (found : Option α) :
    Blind (entry table index found) := by
  unfold entry
  split
  · exact .pure _
  · exact .throw _

theorem blind_string (index : Int32) : Blind (string index) :=
  .get (fun _ => blind_entry _ _ _) fun _ _ => rfl

theorem blind_push (v : Value) : Blind (push v) := by
  intro m rng
  have hstack : (m.reseeded rng).stack = m.stack := rfl
  unfold Parallel push
  rw [hstack]
  cases m.stack.push v with
  | ok stack => exact ⟨_, rfl, rfl⟩
  | error fault => exact .inr ⟨_, rfl, rfl⟩

theorem blind_address (a : Int32) : Blind (address a) := by
  unfold address
  split
  · exact .throw _
  · refine .get (fun m => ?_) fun _ _ => rfl
    split
    · exact .throw _
    · exact .pure _

theorem blind_popArguments (n : Nat) : Blind (popArguments n) := by
  refine .bind ?_ fun _ => ?_
  · refine .get (fun m => ?_) fun _ _ => rfl
    dsimp only
    split
    · exact .throw _
    · exact .pure _
  · exact fun m rng => ⟨_, rfl, rfl⟩

/-- Instructions that only lead to the next one. -/
def IsStraight : Instr → Prop
  | .debug .. | .pushString _ | .pushAddress _ => True
  | _ => False

theorem blind_of_straight {i : Instr} (h : IsStraight i) : Blind (execute env i) := by
  unfold IsStraight at h
  split at h
  · exact fun m rng => ⟨_, rfl, rfl⟩
  · exact .bind (blind_string _) fun _ => .bind (blind_push _) fun _ => .pure _
  · exact .bind (blind_address _) fun _ => .bind (blind_push _) fun _ => .pure _
  · exact h.elim

theorem blind_jump (target : Int32) : Blind (execute env (.jump target)) := by
  refine .bind (blind_address _) fun _ => .bind ?_ fun _ => .pure _
  exact fun m rng => ⟨_, rfl, rfl⟩

theorem push_eq_ok {v : Value} (h : push v m = .ok () m') :
    m'.frame = m.frame ∧ m'.callers = m.callers := by
  unfold push at h
  split at h
  · cases h
    exact ⟨rfl, rfl⟩
  · cases h

theorem string_eq_ok {index : Int32} {s : String} (h : string index m = .ok s m') : m' = m := by
  simp only [string, run_bind, run_get] at h
  cases hs : m.frame.program.string? index with
  | none =>
    rw [hs] at h
    cases h
  | some s =>
    rw [hs] at h
    cases h
    rfl

/-- Instructions that only lead to the next one stay in their frame. -/
theorem straight_eq_ok {i : Instr} (hi : IsStraight i) {status : Status}
    (h : execute env i m = .ok status m') : m'.frame = m.frame ∧ m'.callers = m.callers := by
  unfold IsStraight at hi
  split at hi
  · cases h
    exact ⟨rfl, rfl⟩
  · obtain ⟨s, m₁, hstring, h⟩ := run_bind_eq_ok.1 h
    obtain ⟨_, m₂, hpush, ⟨⟩⟩ := run_bind_eq_ok.1 h
    obtain rfl := string_eq_ok hstring
    exact push_eq_ok hpush
  · obtain ⟨a, m₁, haddress, h⟩ := run_bind_eq_ok.1 h
    obtain ⟨_, m₂, hpush, ⟨⟩⟩ := run_bind_eq_ok.1 h
    obtain ⟨rfl, -⟩ := (address_gives env m _).yields _ _ haddress
    exact push_eq_ok hpush
  · exact hi.elim

theorem jump_eq_ok {target : Int32} {status : Status} (h : execute env (.jump target) m = .ok status m') :
    m'.frame = { m.frame with position := target.toInt.toNat } ∧ m'.callers = m.callers := by
  obtain ⟨offset, m₁, haddress, h⟩ := run_bind_eq_ok.1 h
  obtain ⟨_, _, ⟨⟩, ⟨⟩⟩ := run_bind_eq_ok.1 h
  obtain ⟨rfl, rfl⟩ := (address_gives env m target).yields _ _ haddress
  exact ⟨rfl, rfl⟩

theorem parallel_step_of_decode {E : Fault → Prop} {T : Status → Machine → Machine → Prop} {i : Instr}
    {position : Nat} {rng : Rng}
    (hdecode : Instr.decodeAt m.frame.program.code m.frame.position = .ok (i, position))
    (hlt : m.frame.position < m.frame.program.code.size)
    (h : Parallel E T (execute env i) (execute env i) (m.fetched position)
      ((m.fetched position).reseeded rng)) :
    Parallel E T (step env) (step env) m (m.reseeded rng) := by
  have hstep := step_of_decode env hdecode hlt
  have hstep' : step env (m.reseeded rng) = _ := step_of_decode env hdecode hlt
  unfold Parallel at h ⊢
  rw [hstep, hstep']
  by_cases hlate : env.isLate (m.executed + 1)
  · have hlate' : env.isLate ((m.reseeded rng).executed + 1) := hlate
    rw [if_pos hlate, if_pos hlate']
    exact .inr ⟨_, rfl, rfl⟩
  · have hlate' : ¬ env.isLate ((m.reseeded rng).executed + 1) := hlate
    rw [if_neg hlate, if_neg hlate']
    exact h

end Running

/-! ## Two runs -/

/-- Straight code leads from an offset to a call of the function of that number, with which the program
ends. -/
inductive Program.Approaches (p : Program) (id : UInt16) : Nat → Prop where
  | call {position : Nat} {count : UInt8} (hlt : position < p.code.size)
    (h : Instr.decodeAt p.code position = .ok (.nativeCall id count, p.code.size)) :
    Approaches p id position
  | straight {i : Instr} {position next : Nat} (hi : Running.IsStraight i) (hlt : position < p.code.size)
    (h : Instr.decodeAt p.code position = .ok (i, next)) (hnext : Approaches p id next) :
    Approaches p id position
  | jump {target : Int32} {position next : Nat} (hlt : position < p.code.size)
    (h : Instr.decodeAt p.code position = .ok (.jump target, next))
    (hnext : Approaches p id target.toInt.toNat) : Approaches p id position

namespace Machine

/-- What goes on behind the pattern may be different where the call was made. -/
def Restores (height : Nat) (own own' : Rng) (h : Nat) (k k' : Continuation) : Prop :=
  k = k' ∨ h = height ∧ k = Running.restore own ∧ k' = Running.restore own'

/-- Two runs of a call, the random numbers of which are their own before it and behind it, and the same
inside. -/
inductive PoolRuns (env : Environment) (id : UInt16) : Machine → Machine → Prop where
  | before {m : Machine} (rng : Rng) (hm : m.Bounded env) (hcallers : m.callers = [])
    (hframe : m.frame.evaluation = none)
    (h : m.frame.program.Approaches id m.frame.position) : PoolRuns env id m (m.reseeded rng)
  | inside {base m n : Machine} {own own' : Rng} {inner : List Frame} {ws : List LocalWrite}
    {back : Return} {parent : Frame} (hbase : base.Bounded env) (hfresh : base.Fresh)
    (hback : base.frame.evaluation = some back) (hnext : back.next = Running.restore own)
    (hcallers : base.callers = [parent]) (hparent : parent.evaluation = none)
    (hend : parent.program.code.size ≤ parent.position) (hongoing : Ongoing env base m inner ws)
    (h : m.Alike (fun _ => False) (Restores 1 own own') n) : PoolRuns env id m n
  | after {m : Machine} (rng : Rng) (hcallers : m.callers = [])
    (hend : m.frame.program.code.size ≤ m.frame.position) : PoolRuns env id m (m.reseeded rng)

theorem Restores.refl {height : Nat} {own own' : Rng} (h : Nat) (k : Continuation) :
    Restores height own own' h k k := .inl rfl

end Machine

theorem Environment.Lifts.refl (E : Fault → Prop) (env : Environment) : env.Lifts E env where
  registry := rfl
  pools := rfl
  dictionary := rfl
  clock := rfl
  capitals := rfl
  timeout := rfl
  chars := by
    cases env.options.charLimit with
    | none => trivial
    | some limit => exact .inl rfl
  depth := .inl rfl

section

variable {E : Fault → Prop} {K : Nat → Continuation → Continuation → Prop} {m n : Machine}

theorem Return.rel_refl (hK : ∀ height k, K height k k) (height : Nat) (back : Option Return) :
    Option.Rel (Return.Alike K height) back back := by
  cases back with
  | none => exact .none
  | some back => exact .some ⟨rfl, hK _ _⟩

theorem Frame.Alike.refl (hK : ∀ height k, K height k k) (fs : List Frame) : Frame.Alike K fs fs := by
  induction fs with
  | nil => exact .nil
  | cons f fs ih => exact .cons (Return.rel_refl hK _ f.evaluation) ih

theorem Machine.Alike.refl (hK : ∀ height k, K height k k) (m : Machine) : m.Alike E K m :=
  ⟨Return.rel_refl hK _ m.frame.evaluation, .refl hK m.callers, .inl rfl⟩

/-- In the outermost frame there is nothing in which alike machines can differ. -/
theorem Machine.Alike.eq_of_outermost (h : m.Alike (fun _ => False) K n) (hcallers : m.callers = [])
    (hframe : m.frame.evaluation = none) : n = m := by
  obtain @⟨back, callers, limit, hback, hcallers', hlimit⟩ := h
  rw [hframe] at hback
  rw [hcallers] at hcallers'
  cases hback
  cases hcallers'
  obtain rfl | ⟨hcut, -⟩ := hlimit
  · unfold varied Frame.returning
    rw [← hframe, ← hcallers]
  · exact (hcut 0).elim

theorem Machine.Alike.root (h : m.Alike E K n) : n.root = m.root := by
  cases h
  rfl

end

namespace Running

variable {env : Environment} {E : Fault → Prop} {α : Type} {m n m' : Machine}

/-- What the first machine has done is known. -/
theorem Parallel.with_ok {T : α → Machine → Machine → Prop} {x y : Running α}
    (h : Parallel E T x y m n) : Parallel E (fun a m' n' => T a m' n' ∧ x m = .ok a m') x y m n := by
  unfold Parallel at h ⊢
  cases hx : x m with
  | ok a m' =>
    rw [hx] at h
    obtain ⟨n', hy, hT⟩ := h
    exact ⟨n', hy, hT, rfl⟩
  | error fault m' =>
    rw [hx] at h
    exact h

theorem Parallel.running {T : Machine → Machine → Prop} {x y : Running Unit}
    (h : Parallel E (fun _ => T) x y m n) :
    Parallel E (fun _ => T) (do x; return Status.running) (do y; return Status.running) m n :=
  h.bind fun _ _ n' hT => ⟨n', rfl, hT⟩

/-- The code of a pattern is entered on behalf of the frame of `m`, and the numbers `own` are kept for
what comes after it. -/
def Enters (env : Environment) (own : Rng) (m m' : Machine) : Prop :=
  ∃ address m₀, evaluate env.options address (restore own) m₀ = .ok () m' ∧ m₀.frame = m.frame ∧
    m₀.callers = m.callers

/-- Two calls lead to the same code with the same random numbers, and keep what comes after it
apart. -/
theorem parallel_pool (env : Environment) (args : List Value) (m : Machine) (rng : Rng) :
    Parallel (fun _ => False)
      (fun _ m' n' => m'.Alike (fun _ => False) (Machine.Restores m.depth m.rng rng) n' ∧
        Enters env m.rng m m')
      (routine env (Standard.pool args)) (routine env (Standard.pool args)) m (m.reseeded rng) := by
  obtain ⟨fault, hfault⟩ | ⟨name, key, pool, address, -, hroutine⟩ := pool_cases env args m
  · unfold Parallel
    rw [show routine env (Standard.pool args) m = _ from hfault m.rng, hfault rng]
    exact .inr ⟨_, rfl, rfl⟩
  · have hrestore : Machine.Restores m.depth m.rng rng (m.reseeded (pool.rngFor key)).depth
        (restore m.rng) (restore rng) := .inr ⟨rfl, rfl, rfl⟩
    have hevaluate := (parallel_evaluate (.refl (fun _ => False) env) address hrestore
      (.refl Machine.Restores.refl (m.reseeded (pool.rngFor key)))).with_ok.mono
      (U := fun _ m' n' => m'.Alike (fun _ => False) (Machine.Restores m.depth m.rng rng) n' ∧
        Enters env m.rng m m') fun _ m' n' ⟨halike, hok⟩ => ⟨halike, address, _, hok, rfl, rfl⟩
    unfold Parallel at hevaluate ⊢
    rw [show routine env (Standard.pool args) m = _ from hroutine m.rng, hroutine rng]
    exact hevaluate

theorem popArguments_rng (env : Environment) {count : Nat} {args : List Value}
    (h : popArguments count m = .ok args m') :
    m'.frame = m.frame ∧ m'.callers = m.callers ∧ m'.rng = m.rng := by
  obtain ⟨_, m₁, hneed, hrest⟩ := run_bind_eq_ok.1 h
  obtain ⟨rfl, -⟩ := (need_gives env m count).yields _ _ hneed
  cases hrest
  exact ⟨rfl, rfl, rfl⟩

theorem parallel_poolCall {id : UInt16} {f : Function} (hf : env.registry.get? id.toNat = some f)
    (hpool : f.routine = Standard.pool) (count : UInt8) (m : Machine) (rng : Rng) :
    Parallel (fun _ => False)
      (fun _ m' n' => m'.Alike (fun _ => False) (Machine.Restores m.depth m.rng rng) n' ∧
        Enters env m.rng m m')
      (nativeCall env id count) (nativeCall env id count) m (m.reseeded rng) := by
  unfold nativeCall
  rw [hf]
  refine ((blind_popArguments count.toNat) m rng).with_ok.bind ?_
  rintro args m₁ _ ⟨rfl, hpop⟩
  obtain ⟨hframe, hcallers, hrng⟩ := popArguments_rng env hpop
  have hcall := parallel_pool env args m₁ rng
  have hdepth : m₁.depth = m.depth := congrArg (·.length + 1) hcallers
  unfold Enters at hcall ⊢
  rw [hdepth, hframe, hcallers, hrng] at hcall
  rw [hpool]
  exact hcall

end Running

namespace Machine

variable {env : Environment} {id : UInt16} {m n m' : Machine} {f : Function}

/-- What one step of the two runs leads to. -/
def StepsTo (env : Environment) (id : UInt16) (status : Status) (m n : Machine) : Prop :=
  n.root = m.root ∧ (status = .running → PoolRuns env id m n)

/-- Both runs go on to another offset. -/
theorem PoolRuns.step_ahead {i : Instr} {position next : Nat} (rng : Rng) (hm : m.Bounded env)
    (hcallers : m.callers = []) (hframe : m.frame.evaluation = none)
    (hdecode : Instr.decodeAt m.frame.program.code m.frame.position = .ok (i, position))
    (hlt : m.frame.position < m.frame.program.code.size) (hblind : Running.Blind (Running.execute env i))
    (hmoves : ∀ status m', Running.execute env i (m.fetched position) = .ok status m' →
      m'.frame = { m.frame with position := next } ∧ m'.callers = m.callers)
    (hnext : m.frame.program.Approaches id next) :
    Running.Parallel (fun _ => False) (StepsTo env id) (Running.step env) (Running.step env) m
      (m.reseeded rng) := by
  refine (Running.parallel_step_of_decode hdecode hlt (hblind _ rng).with_ok).with_ok.mono ?_
  rintro status m' _ ⟨⟨rfl, hok⟩, hstep⟩
  obtain ⟨hframe', hcallers'⟩ := hmoves _ _ hok
  refine ⟨rfl, ?_⟩
  rintro rfl
  refine .before rng (hm.step hstep) (hcallers'.trans hcallers) ?_ ?_
  · rw [hframe']
    exact hframe
  · rw [hframe']
    exact hnext

/-- Both runs enter the pattern. -/
theorem PoolRuns.step_call {count : UInt8} (hf : env.registry.get? id.toNat = some f)
    (hpool : f.routine = Standard.pool) (rng : Rng) (hm : m.Bounded env) (hcallers : m.callers = [])
    (hframe : m.frame.evaluation = none) (hlt : m.frame.position < m.frame.program.code.size)
    (hdecode : Instr.decodeAt m.frame.program.code m.frame.position =
      .ok (.nativeCall id count, m.frame.program.code.size)) :
    Running.Parallel (fun _ => False) (StepsTo env id) (Running.step env) (Running.step env) m
      (m.reseeded rng) := by
  refine (Running.parallel_step_of_decode hdecode hlt
    (Running.parallel_poolCall hf hpool count _ rng).running).with_ok.mono ?_
  rintro status m' n' ⟨⟨halike, address, m₀, hevaluate, hframe₀, hcallers₀⟩, hstep⟩
  refine ⟨halike.root, ?_⟩
  rintro rfl
  have hbase := hm.step hstep
  have hdepth : (m.fetched m.frame.program.code.size).depth = 1 := congrArg (·.length + 1) hcallers
  rw [hdepth] at halike
  obtain ⟨-, rfl⟩ := (Running.evaluate_gives _ _).yields _ _ hevaluate
  have hparent : m₀.frame :: m₀.callers = [m₀.frame] :=
    congrArg (m₀.frame :: ·) (hcallers₀.trans hcallers)
  refine .inside hbase ⟨rfl, rfl⟩ rfl rfl hparent ?_ ?_ (.start hbase) halike
  · rw [hframe₀]
    exact hframe
  · rw [hframe₀]
    exact Nat.le_refl _

/-- Up to the call of the pool, both runs take the same step. -/
theorem PoolRuns.step_before (hf : env.registry.get? id.toNat = some f) (hpool : f.routine = Standard.pool)
    (rng : Rng) (hm : m.Bounded env) (hcallers : m.callers = []) (hframe : m.frame.evaluation = none)
    (h : m.frame.program.Approaches id m.frame.position) :
    Running.Parallel (fun _ => False) (StepsTo env id) (Running.step env) (Running.step env) m
      (m.reseeded rng) := by
  generalize hposition : m.frame.position = position at h
  cases h with
  | straight hi hlt h hnext =>
    rw [← hposition] at hlt h
    exact step_ahead rng hm hcallers hframe h hlt (Running.blind_of_straight hi)
      (fun _ _ => Running.straight_eq_ok hi) hnext
  | jump hlt h hnext =>
    rw [← hposition] at hlt h
    exact step_ahead rng hm hcallers hframe h hlt (Running.blind_jump _)
      (fun _ _ => Running.jump_eq_ok) hnext
  | call hlt h =>
    rw [← hposition] at hlt h
    exact step_call hf hpool rng hm hcallers hframe hlt h

/-- Both runs go on inside the pattern, or leave it for what each of them has kept. -/
theorem PoolRuns.step_inside {base : Machine} {own own' : Rng} {inner : List Frame}
    {ws : List LocalWrite} {back : Return} {parent : Frame} (hbase : base.Bounded env)
    (hfresh : base.Fresh) (hback : base.frame.evaluation = some back)
    (hnext : back.next = Running.restore own) (hcallers : base.callers = [parent])
    (hparent : parent.evaluation = none) (hend : parent.program.code.size ≤ parent.position)
    (hongoing : Ongoing env base m inner ws) (h : m.Alike (fun _ => False) (Restores 1 own own') n) :
    Running.Parallel (fun _ => False) (StepsTo env id) (Running.step env) (Running.step env) m n := by
  have hdepth : base.depth = 2 := congrArg (·.length + 1) hcallers
  refine (Running.parallel_step (.refl _ env) Restores.refl h
    (T := fun _ m' n' => m'.Alike (fun _ => False) (Restores 1 own own') n' ∨
      (m.depth = base.depth ∧ m.Leaving) ∧ ∃ m₀ n₀ : Machine,
        m₀.Alike (fun _ => False) (Restores 1 own own') n₀ ∧
          m' = m₀.reseeded own ∧ n' = n₀.reseeded own')
    (fun _ _ _ => .inl) ?_).with_ok.mono ?_
  · intro hleaving a b hab _ _ v m' n' h'
    obtain hsame | ⟨hheight, ha, hb⟩ := hab.next
    · rw [← hsame]
      exact (Running.lockstep_continueWith (.refl _ env) Restores.refl v a.next m' n' h').mono
        fun _ _ _ => .inl
    · rw [ha, hb]
      have hm : m.depth = base.depth := by rw [hdepth, Machine.depth, hheight]
      exact ⟨_, rfl, .inr ⟨⟨hm, hleaving⟩, m', n', h', rfl, rfl⟩⟩
  · rintro status m' n' ⟨hafter, hstep⟩
    have hroot : n'.root = m'.root := by
      obtain halike | ⟨-, m₀, n₀, halike, rfl, rfl⟩ := hafter
      · exact halike.root
      · exact halike.root
    refine ⟨hroot, ?_⟩
    rintro rfl
    by_cases hleave : m.depth = base.depth ∧ m.Leaving
    · obtain ⟨m₂, hresume, -, -, hcallers₂, hframe₂⟩ | ⟨m₂, htime⟩ :=
        hongoing.leave_evaluation hbase hfresh hback hcallers hleave.1 hleave.2
      · rw [hresume, hnext] at hstep
        have hm' : m₂.reseeded own = m' := (EStateM.Result.ok.inj hstep).2
        have hcallers' : m'.callers = [] := by
          rw [← hm']
          exact hcallers₂
        have hframe' : m'.frame.evaluation = none ∧
            m'.frame.program.code.size ≤ m'.frame.position := by
          rw [← hm']
          change m₂.frame.evaluation = none ∧ m₂.frame.program.code.size ≤ m₂.frame.position
          rw [hframe₂]
          exact ⟨hparent, hend⟩
        obtain halike | ⟨-, m₀, n₀, halike, rfl, rfl⟩ := hafter
        · rw [halike.eq_of_outermost hcallers' hframe'.1]
          exact .after m'.rng hcallers' hframe'.2
        · rw [halike.eq_of_outermost hcallers' hframe'.1]
          exact .after own' hcallers' hframe'.2
      · rw [htime] at hstep
        cases hstep
    · obtain halike | ⟨hleave', -⟩ := hafter
      · obtain ⟨inner', hongoing'⟩ := hongoing.step hleave hstep
        exact .inside hbase hfresh hback hnext hcallers hparent hend hongoing' halike
      · exact absurd hleave' hleave

/-- Behind the call, both runs are at their end. -/
theorem PoolRuns.step_after (rng : Rng) (hcallers : m.callers = [])
    (hend : m.frame.program.code.size ≤ m.frame.position) :
    Running.Parallel (fun _ => False) (StepsTo env id) (Running.step env) (Running.step env) m
      (m.reseeded rng) := by
  have hstep (m : Machine) (hcallers : m.callers = [])
      (hend : m.frame.program.code.size ≤ m.frame.position) :
      Running.step env m = .ok .finished (Running.dropFrameState m).2 := by
    simp only [Running.step, run_bind, run_get, if_pos hend]
    exact Running.leave_outermost hcallers
  unfold Running.Parallel
  rw [hstep m hcallers hend]
  exact ⟨_, hstep (m.reseeded rng) hcallers hend, rfl, fun hmore => by cases hmore⟩

/-- One step of the two runs. -/
theorem PoolRuns.step (hf : env.registry.get? id.toNat = some f) (hpool : f.routine = Standard.pool)
    (h : PoolRuns env id m n) :
    Running.Parallel (fun _ => False) (StepsTo env id) (Running.step env) (Running.step env) m n := by
  cases h with
  | before rng hm hcallers hframe h => exact step_before hf hpool rng hm hcallers hframe h
  | inside hbase hfresh hback hnext hcallers hparent hend hongoing h =>
    exact step_inside hbase hfresh hback hnext hcallers hparent hend hongoing h
  | after rng hcallers hend => exact step_after rng hcallers hend

/-- The two runs take the same steps. -/
theorem PoolRuns.run (hf : env.registry.get? id.toNat = some f) (hpool : f.routine = Standard.pool)
    (h : PoolRuns env id m n) (seed seed' : UInt64) (steps : Nat) :
    (m.run env seed steps).Matches (n.run env seed' steps) := by
  induction steps generalizing m n with
  | zero => trivial
  | succ steps ih =>
    have hstep := h.step hf hpool
    unfold Running.Parallel at hstep
    unfold Machine.run
    cases hm : Running.step env m with
    | ok status m' =>
      rw [hm] at hstep
      obtain ⟨n', hn, hroot, hruns⟩ := hstep
      rw [hn]
      cases status with
      | running => exact ih (hruns rfl)
      | finished =>
        change m'.root.channels = n'.root.channels
        rw [hroot]
    | error fault m' =>
      rw [hm] at hstep
      obtain hcut | ⟨n', hn, hfailure⟩ := hstep
      · exact hcut.elim
      · rw [hn]
        exact hfailure.symm

end Machine

/-! ## The program of a call -/

/-- Lines that only lead to the next one. -/
def Line.IsStraight : Line → Prop
  | .plain i => Running.IsStraight i
  | .text use _ => use = .push

namespace Program

variable {p : Program} {offset : Nat} {ls ms : List Line}

theorem Has.lt_size {l : Line} (h : p.Has offset (l :: ls)) : offset < p.code.size := by
  have hle := h.le_size
  have hpos := l.size_pos
  rw [Line.sizes_cons] at hle
  omega

/-- Lines that lead to the next ones lead to the call behind them. -/
theorem Has.approaches {id : UInt16} (hls : ∀ l ∈ ls, l.IsStraight) (h : p.Has offset (ls ++ ms))
    (hnext : p.Approaches id (offset + Line.sizes ls)) : p.Approaches id offset := by
  induction ls generalizing offset with
  | nil => exact hnext
  | cons l ls ih =>
    obtain ⟨i, hdecode, hi⟩ := Has.decodeAt h
    have hstraight : Running.IsStraight i := by
      have hl := hls l List.mem_cons_self
      cases l with
      | plain j =>
        obtain rfl := Line.eq_of_ofInstr?_plain hi
        exact hl
      | text use s =>
        obtain ⟨n, rfl, -⟩ := Line.eq_instr_of_ofInstr?_text hi
        obtain rfl : use = .push := hl
        trivial
    refine .straight hstraight h.lt_size hdecode (ih (fun l hl => hls l (List.mem_cons_of_mem _ hl)) h.tail ?_)
    rwa [Line.sizes_cons, ← Nat.add_assoc] at hnext

/-- The program of a call gets to it, whatever the code of its pattern is. -/
theorem Reads.approaches {marks : List Line} {name key : String} {id : Nat} {code : Code}
    (hmarks : Compile.IsMark marks) (h : p.Reads (Compile.poolLines marks name key id code))
    (hsize : p.code.size < 2 ^ 31) : p.Approaches id.toUInt16 0 := by
  have hoperands : ∀ l ∈ Compile.poolOperands marks name key, l.IsStraight := by
    obtain rfl | ⟨line, column, place, rfl⟩ := hmarks <;>
      simp [Compile.poolOperands, Line.IsStraight, Running.IsStraight]
  have hhas := h.has
  refine hhas.approaches hoperands ?_
  have hjump := hhas.right
  have hreturn := (Has.tail hjump).right
  rw [Code.sizes_lines] at hreturn
  have haddress := hreturn.tail
  have hcall := haddress.tail
  obtain ⟨i, hdecode, hi⟩ := Has.decodeAt hjump
  obtain rfl := Line.eq_of_ofInstr?_plain hi
  obtain ⟨i, hdecodeCall, hi⟩ := Has.decodeAt hcall
  obtain rfl := Line.eq_of_ofInstr?_plain hi
  -- the jump leads around the code of the pattern
  have hstart : 0 + Line.sizes (Compile.poolOperands marks name key) +
      (Line.plain (.jump (Int32.ofNat (Compile.poolStart marks name key + code.size +
        Instr.return.size)))).size + code.size + (Line.plain .return).size =
      Compile.poolStart marks name key + code.size + Instr.return.size := by
    rw [Nat.zero_add]
    rfl
  have htarget : (Int32.ofNat (Compile.poolStart marks name key + code.size +
      Instr.return.size)).toInt.toNat =
      Compile.poolStart marks name key + code.size + Instr.return.size := by
    have hle := haddress.lt_size
    rw [hstart] at hle
    rw [Int32.toInt_ofNat_of_lt (by omega), Int.toNat_natCast]
  have hlast : p.code.size = Compile.poolStart marks name key + code.size + Instr.return.size +
      (Instr.pushAddress 0).size + (Instr.nativeCall 0 0).size := by
    have hjumpSize (target : Int32) : (Line.plain (.jump target)).size = (Instr.jump 0).size := rfl
    have haddressSize (target : Int32) :
        (Line.plain (.pushAddress target)).size = (Instr.pushAddress 0).size := rfl
    have hcallSize : (Line.plain (.nativeCall id.toUInt16 3)).size = (Instr.nativeCall 0 0).size := rfl
    have hreturnSize : (Line.plain .return).size = Instr.return.size := rfl
    have hstart : Compile.poolStart marks name key =
      Line.sizes (Compile.poolOperands marks name key) + (Instr.jump 0).size := rfl
    rw [h.size, Compile.poolLines, Line.sizes_append, Line.sizes_cons, Line.sizes_append,
      Code.sizes_lines, Line.sizes_cons, Line.sizes_cons, Line.sizes_cons, Line.sizes_nil, hjumpSize,
      haddressSize, hcallSize, hreturnSize]
    omega
  rw [hstart] at haddress hcall hdecodeCall
  have hdecodeLast : Instr.decodeAt p.code (Compile.poolStart marks name key + code.size +
      Instr.return.size + (Instr.pushAddress 0).size) =
      .ok (.nativeCall id.toUInt16 3, p.code.size) := by
    rw [hlast]
    exact hdecodeCall
  have hcalled : p.Has _
      ([.plain (.pushAddress (Int32.ofNat (Compile.poolStart marks name key)))] ++ _) := haddress
  refine .jump hjump.lt_size hdecode ?_
  rw [htarget]
  refine hcalled.approaches ?_ (.call hcall.lt_size hdecodeLast)
  intro l hl
  rw [List.mem_singleton.1 hl]
  trivial

end Program

/-! ## Seeds -/

namespace Machine

variable {env : Environment} {m m' base : Machine} {ws : List LocalWrite}

/-- When the pattern of a call is over, the random numbers to come are those that were to come before
the call. -/
theorem rng_of_pool (hm : m.Bounded env) {id : UInt16} {count : UInt8} {f : Function}
    (hnext : m.nextInstr? = some (.nativeCall id count)) (hf : env.registry.get? id.toNat = some f)
    (hpool : f.routine = Standard.pool) (hstep : Running.step env m = .ok .running base)
    (hwithin : Within env base m' ws) (hdepth : m'.depth = base.depth) (hleaving : m'.Leaving) :
    (∃ m₂, Running.step env m' = .ok .running m₂ ∧ m₂.rng = m.rng ∧ m₂.callers = m.callers) ∨
      ∃ m₂, Running.step env m' = .error .timeout m₂ := by
  have hbase := hm.step hstep
  obtain ⟨inner, hongoing⟩ := hwithin.ongoing hbase
  unfold nextInstr? at hnext
  split at hnext
  · rename_i i position hdecode
    by_cases hend : m.frame.program.code.size ≤ m.frame.position
    · simp [hend] at hnext
    · rw [if_neg hend] at hnext
      obtain rfl := Option.some.inj hnext
      rw [Running.step_of_decode env hdecode (Nat.not_le.1 hend)] at hstep
      split at hstep
      · cases hstep
      · obtain ⟨_, m₁, hcall, ⟨⟩⟩ := run_bind_eq_ok.1 hstep
        have henters := Running.parallel_poolCall hf hpool count (m.fetched position) m.rng
        unfold Running.Parallel at henters
        rw [hcall] at henters
        obtain ⟨_, -, -, address, m₀, hevaluate, hframe₀, hcallers₀⟩ := henters
        obtain ⟨-, rfl⟩ := (Running.evaluate_gives _ _).yields _ _ hevaluate
        obtain ⟨m₂, hresume, -, -, hcallers₂, -⟩ | htime :=
          hongoing.leave_evaluation hbase ⟨rfl, rfl⟩ rfl rfl hdepth hleaving
        · exact .inl ⟨m₂.reseeded m.rng, hresume, rfl, hcallers₂.trans hcallers₀⟩
        · exact .inr htime
  · cases hnext

end Machine

/-- **A run's seed makes no difference inside seed pools.** A call of `pool` gives the same output for
every seed, or fails alike. The name of the pool and the key are constant: without square, curly or
angle brackets, escapes, semicolons and regular expressions, so that nothing in them depends on the seed
or ends the operand. The pattern may be anything that closes the square brackets it opens, and no others,
and that has no broken token: otherwise the call would not end where it is written to end. Sources have
at most `2 ^ 31` characters, as many as there are strings that an operand can name.

In any program, the random numbers behind a call go on where they were before it, unless the time is
over. -/
theorem Engine.pool_seed_independent (e : Engine) {id : Nat} (hpool : e.registry.HasPool id)
    (options : Options) :
    (∀ (title name key pattern : String) (debug : Bool) (p : Program), Token.IsConstant name →
      Token.IsConstant key → Token.IsBalanced pattern → (poolCall name key pattern).length ≤ 2 ^ 31 →
      e.compile title (poolCall name key pattern) debug = .ok p →
      ∀ seed seed', (e.run p seed options).Matches (e.run p seed' options)) ∧
    ∀ (p : Program) (seed : UInt64) (m base : Machine) (n : UInt16) (count : UInt8) (f : Function),
      (Machine.start options p seed).Reaches (e.environment options) m →
      m.nextInstr? = some (.nativeCall n count) → e.registry.get? n.toNat = some f →
      f.routine = Standard.pool → Running.step (e.environment options) m = .ok .running base →
      ∀ m' ws, Machine.Within (e.environment options) base m' ws → m'.depth = base.depth →
        m'.Leaving →
        (∃ m₂, Running.step (e.environment options) m' = .ok .running m₂ ∧ m₂.rng = m.rng ∧
          m₂.callers = m.callers) ∨
        ∃ m₂, Running.step (e.environment options) m' = .error .timeout m₂ := by
  constructor
  · intro title name key pattern debug p hname hkey hpattern hlength hp seed seed'
    obtain ⟨marks, n, k, code, hmarks, hreads, hsize⟩ :=
      Compile.compile_poolCall hpool hname hkey hpattern hlength hp
    have hid : id.toUInt16.toNat = id := Nat.mod_eq_of_lt hpool.2
    have hget := Compile.get?_of_lookup? hpool.1
    rw [← hid] at hget
    have hstart : Machine.PoolRuns (e.environment options) id.toUInt16
        (Machine.start options p seed) (Machine.start options p seed') :=
      .before (.ofSeed seed') (Machine.bounded_start (e.environment options) p seed) rfl rfl
        (hreads.approaches hmarks hsize)
    exact hstart.run hget rfl seed seed' stepLimit
  · intro p seed m base n count f hreaches hnext hf hroutine hstep m' ws hwithin hdepth hleaving
    have hm := (Machine.bounded_start (e.environment options) p seed).reaches hreaches
    exact Machine.rng_of_pool hm hnext hf hroutine hstep hwithin hdepth hleaving

/-- An engine with a pool of three seeds. -/
def Engine.dice : Engine := ({} : Engine).addPool "dice" ⟨#[5, 6, 7]⟩

/-- The machine after so many steps, if it is still running. -/
def Machine.after (env : Environment) : (steps : Nat) → Machine → Option Machine
  | 0, m => some m
  | steps + 1, m =>
    match Running.step env m with
    | .ok .running m' => m'.after env steps
    | _ => none

theorem Machine.Reaches.after {env : Environment} {m m₁ m' : Machine} {steps : Nat}
    (h : m.Reaches env m₁) (hsteps : m₁.after env steps = some m') : m.Reaches env m' := by
  induction steps generalizing m₁ with
  | zero =>
    cases hsteps
    exact h
  | succ steps ih =>
    unfold Machine.after at hsteps
    split at hsteps
    · rename_i hstep
      exact ih (h.step hstep) hsteps
    · cases hsteps

/-- Three digits, which are the same for both seeds; drawing them takes nothing from the numbers of the
run. -/
theorem Engine.pool_seed_independent_digits :
    ∃ p, Engine.dice.compile "main" (poolCall "dice" "k" "\\3,d") false = .ok p ∧
      (∃ o, Engine.dice.run p 1 {} = .output o) ∧
      (Engine.dice.run p 1 {}).Matches (Engine.dice.run p 2 {}) ∧
      ∃ m base m' m₂, (Machine.start {} p 1).Reaches (Engine.dice.environment {}) m ∧
        Running.step (Engine.dice.environment {}) m = .ok .running base ∧
        Running.step (Engine.dice.environment {}) base = .ok .running m' ∧ m'.rng ≠ base.rng ∧
        Running.step (Engine.dice.environment {}) m' = .ok .running m₂ ∧ m₂.rng = m.rng := by
  have hpool : Engine.dice.registry.HasPool 4 := ⟨rfl, by decide⟩
  have hends : (Engine.dice.compile "main" (poolCall "dice" "k" "\\3,d") false).toOption.any fun p =>
      (Engine.dice.run p 1 {}).output?.isSome &&
      ((Machine.start {} p 1).after (Engine.dice.environment {}) 4).any fun m =>
        (m.next? (Engine.dice.environment {})).any fun base =>
          (base.next? (Engine.dice.environment {})).any fun m' =>
            (m'.next? (Engine.dice.environment {})).isSome &&
            decide (m.nextInstr? = some (.nativeCall 4 3) ∧ ¬ base.Leaving ∧
              m'.depth = base.depth ∧ m'.Leaving ∧ m'.rng ≠ base.rng) := by
    decide +kernel
  simp only [Option.any_eq_true, Option.isSome_iff_exists, toOption_eq_some, Outcome.output?_eq_some,
    Bool.and_eq_true, decide_eq_true_eq] at hends
  obtain ⟨p, hp, ⟨o, ho⟩, m, hm, base, hbase, m', hm', ⟨m₂, hm₂⟩, hnext, hstay, hdepth, hleaving,
    hdrawn⟩ := hends
  have hbase := Machine.step_of_next? hbase
  have hm' := Machine.step_of_next? hm'
  have hm₂ := Machine.step_of_next? hm₂
  have hreaches := Machine.Reaches.refl.after hm
  have hwithin := Machine.Within.enter.step (fun h => hstay h.2) hm'
  obtain ⟨hseeds, hrestores⟩ := Engine.pool_seed_independent Engine.dice hpool {}
  have hsame := hseeds "main" "dice" "k" "\\3,d" false p (by decide +kernel)
    (by decide +kernel) (by decide +kernel) (by decide) hp 1 2
  refine ⟨p, hp, ⟨o, ho⟩, hsame, m, base, m', m₂, hreaches, hbase, hm', hdrawn, hm₂, ?_⟩
  obtain ⟨m₃, hm₃, hrng, -⟩ | ⟨m₃, htime⟩ := hrestores p 1 m base 4 3 _ hreaches hnext rfl
    rfl hbase m' _ hwithin hdepth hleaving
  · rw [hm₂] at hm₃
    cases hm₃
    exact hrng
  · rw [hm₂] at htime
    cases htime

end Wordloom
