import Wordloom.Proofs.Isolation

/-!
# Wordloom.Proofs.Lockstep

Two runs of the same code, side by side. The machines may differ in their limits and in what goes on
when frames are left; as long as neither makes a difference, one does step by step what the other does.
Each part of a step is described once, for both machines together.
-/

namespace Wordloom

/-! ## Limits -/

/-- One limit is the other one, or it is not lower and a run may be cut off by it. -/
def Lifts (cut : Prop) (limit limit' : Nat) : Prop := limit' = limit ∨ cut ∧ limit ≤ limit'

/-- The same for a number of characters, where there may be no limit at all. -/
def LiftsChars (cut : Prop) : Option Nat → Option Nat → Prop
  | some limit, some limit' => Lifts cut limit limit'
  | none, some _ => False
  | some _, none => cut
  | none, none => True

/-- What the two runs go by: `E` are the faults by which the first one may be cut off. -/
structure Environment.Lifts (E : Fault → Prop) (env env' : Environment) : Prop where
  registry : env'.registry = env.registry
  pools : env'.pools = env.pools
  dictionary : env'.dictionary = env.dictionary
  clock : env'.clock = env.clock
  capitals : env'.options.capitals = env.options.capitals
  timeout : env'.options.timeout = env.options.timeout
  chars : LiftsChars (∀ limit, E (.charLimitExceeded limit)) env.options.charLimit
    env'.options.charLimit
  depth : Wordloom.Lifts (∀ limit, E (.callStackOverflow limit)) env.options.maxCallDepth
    env'.options.maxCallDepth

/-! ## Machines -/

section

variable (E : Fault → Prop) (K : Nat → Continuation → Continuation → Prop)

/-- Evaluations that were asked for at the same place, with so many frames below. -/
structure Return.Alike (height : Nat) (a b : Return) : Prop where
  place : b.place = a.place
  next : K height a.next b.next

/-- The same frame with another return. -/
def Frame.returning (f : Frame) (back : Option Return) : Frame := { f with evaluation := back }

/-- Frames, innermost first, that differ only in what goes on when they are left. -/
inductive Frame.Alike : List Frame → List Frame → Prop where
  | nil : Alike [] []
  | cons {f : Frame} {back : Option Return} {fs gs : List Frame}
    (h : Option.Rel (Return.Alike K fs.length) f.evaluation back) (hs : Alike fs gs) :
    Alike (f :: fs) (f.returning back :: gs)

/-- The same machine with other returns and another limit. -/
def Machine.varied (m : Machine) (back : Option Return) (callers : List Frame) (limit : Nat) :
    Machine :=
  { m with frame := m.frame.returning back, callers := callers, stack := ⟨m.stack.values, limit⟩ }

/-- Machines that differ only in the limit of their stacks and in what goes on when frames are
left. -/
inductive Machine.Alike (m : Machine) : Machine → Prop where
  | intro {back : Option Return} {callers : List Frame} {limit : Nat}
    (hback : Option.Rel (Return.Alike K m.callers.length) m.frame.evaluation back)
    (hcallers : Frame.Alike K m.callers callers)
    (hlimit : Lifts (∀ limit, E (.stackOverflow limit)) m.stack.limit limit) :
    Alike m (m.varied back callers limit)

end

variable {E : Fault → Prop} {K : Nat → Continuation → Continuation → Prop} {env env' : Environment}
  {m n : Machine} {α β : Type}

theorem Frame.Alike.length_eq {fs gs : List Frame} (h : Frame.Alike K fs gs) :
    gs.length = fs.length := by
  induction h with
  | nil => rfl
  | cons _ _ ih => rw [List.length_cons, List.length_cons, ih]

theorem Machine.Alike.failure (h : m.Alike E K n) (fault : Fault) :
    n.failure fault = m.failure fault := by
  cases h
  rfl

namespace Running

/-! ## Parts of a step -/

/-- The second machine does with `y` what the first one does with `x`, unless that is cut off. -/
def Parallel (E : Fault → Prop) (T : α → Machine → Machine → Prop) (x y : Running α)
    (m n : Machine) : Prop :=
  match x m with
  | .ok a m' => ∃ n', y n = .ok a n' ∧ T a m' n'
  | .error fault m' => E fault ∨ ∃ n', y n = .error fault n' ∧ n'.failure fault = m'.failure fault

variable {T : α → Machine → Machine → Prop} {x y : Running α}

/-- One part of a step after the other. -/
theorem Parallel.bind {U : β → Machine → Machine → Prop} {f g : α → Running β}
    (hx : Parallel E T x y m n) (hf : ∀ a m' n', T a m' n' → Parallel E U (f a) (g a) m' n') :
    Parallel E U (x >>= f) (y >>= g) m n := by
  unfold Parallel at hx ⊢
  rw [run_bind]
  cases hxm : x m with
  | ok a m' =>
    rw [hxm] at hx
    obtain ⟨n', hy, hT⟩ := hx
    have hnext := hf a m' n' hT
    unfold Parallel at hnext
    simp only [run_bind_of_ok hy]
    exact hnext
  | error fault m' =>
    rw [hxm] at hx
    refine hx.imp_right ?_
    rintro ⟨n', hy, hfailure⟩
    exact ⟨n', run_bind_of_error hy, hfailure⟩

theorem Parallel.mono {U : α → Machine → Machine → Prop} (h : Parallel E T x y m n)
    (hTU : ∀ a m' n', T a m' n' → U a m' n') : Parallel E U x y m n := by
  unfold Parallel at h ⊢
  cases hxm : x m with
  | ok a m' =>
    rw [hxm] at h
    obtain ⟨n', hy, hT⟩ := h
    exact ⟨n', hy, hTU a m' n' hT⟩
  | error fault m' =>
    rw [hxm] at h
    exact h

theorem Parallel.get {f g : Machine → Running α} (h : Parallel E T (f m) (g n) m n) :
    Parallel E T (get >>= f) (get >>= g) m n := h

/-- What is known of either machine alone. -/
theorem Parallel.also {P Q : α → Machine → Prop} (h : Parallel E T x y m n) (hx : Yields x m P)
    (hy : Yields y n Q) : Parallel E (fun a m' n' => T a m' n' ∧ P a m' ∧ Q a n') x y m n := by
  unfold Parallel at h ⊢
  cases hxm : x m with
  | ok a m' =>
    rw [hxm] at h
    obtain ⟨n', hyn, hT⟩ := h
    exact ⟨n', hyn, hT, hx a m' hxm, hy a n' hyn⟩
  | error fault m' =>
    rw [hxm] at h
    exact h

theorem Parallel.ite {x' y' : Running α} {c : Prop} [Decidable c] (h : c → Parallel E T x y m n)
    (h' : ¬ c → Parallel E T x' y' m n) :
    Parallel E T (if c then x else x') (if c then y else y') m n := by
  split
  · exact h ‹c›
  · exact h' ‹¬ c›

/-- Alike machines stay alike. -/
def Lockstep (E : Fault → Prop) (K : Nat → Continuation → Continuation → Prop) (x y : Running α) : Prop :=
  ∀ m n, m.Alike E K n → Parallel E (fun _ => Machine.Alike E K) x y m n

namespace Lockstep

theorem bind {f g : α → Running β} (hx : Lockstep E K x y) (hf : ∀ a, Lockstep E K (f a) (g a)) :
    Lockstep E K (x >>= f) (y >>= g) :=
  fun m n h => (hx m n h).bind fun a m' n' h' => hf a m' n' h'

theorem pure (a : α) : Lockstep E K (pure a) (pure a) := fun _ n h => ⟨n, rfl, h⟩

theorem throw (fault : Fault) : Lockstep E K (throw fault : Running α) (throw fault) :=
  fun _ n h => .inr ⟨n, rfl, h.failure fault⟩

/-- What is read off the machines may be different, but leads to the same. -/
theorem get {f g : Machine → Running β}
    (h : ∀ m n, m.Alike E K n → Parallel E (fun _ => Machine.Alike E K) (f m) (g n) m n) :
    Lockstep E K (get >>= f) (get >>= g) := fun m n hmn => h m n hmn

theorem modify {f : Machine → Machine} (h : ∀ m n, m.Alike E K n → (f m).Alike E K (f n)) :
    Lockstep E K (modify f) (modify f) := fun m n hmn => ⟨f n, rfl, h m n hmn⟩

end Lockstep

/-- A change that neither depends on the limits nor on where frames return to, and leaves them as they
are. -/
theorem lockstep_update {f : Machine → Machine}
    (h : ∀ m back callers limit, f (m.varied back callers limit) = (f m).varied back callers limit ∧
      (f m).frame.evaluation = m.frame.evaluation ∧ (f m).callers = m.callers ∧
      (f m).stack.limit = m.stack.limit) : Lockstep E K (modify f) (modify f) := by
  refine .modify ?_
  rintro m _ @⟨back, callers, limit, hback, hcallers, hlimit⟩
  obtain ⟨hvaried, hevaluation, hsame, hkept⟩ := h m back callers limit
  rw [hvaried]
  rw [← hevaluation, ← hsame] at hback
  rw [← hsame] at hcallers
  rw [← hkept] at hlimit
  exact ⟨hback, hcallers, hlimit⟩

theorem lockstep_entry (table : String) (index : Int) (found : Option α) :
    Lockstep E K (entry table index found) (entry table index found) := by
  unfold entry
  split
  · exact .pure _
  · exact .throw _

theorem lockstep_checkedAddress (address : Nat) :
    Lockstep E K (checkedAddress address) (checkedAddress address) := by
  refine .get ?_
  rintro m n h
  cases id h
  exact .ite (fun _ => Lockstep.throw _ _ _ h) fun _ => Lockstep.pure _ _ _ h

theorem lockstep_address (a : Int32) : Lockstep E K (address a) (address a) := by
  unfold address
  split
  · exact .throw _
  · exact lockstep_checkedAddress _

theorem lockstep_jump (offset : Nat) : Lockstep E K (jump offset) (jump offset) :=
  lockstep_update fun _ _ _ _ => ⟨rfl, rfl, rfl, rfl⟩

theorem lockstep_string (index : Int32) : Lockstep E K (string index) (string index) := by
  refine .get ?_
  rintro m n h
  cases id h
  exact lockstep_entry _ _ _ _ _ h

theorem lockstep_onWriter (f : Writer → Writer) :
    Lockstep E K (modify (·.onWriter f)) (modify (·.onWriter f)) := by
  refine .modify ?_
  rintro m _ ⟨hback, hcallers, hlimit⟩
  unfold Machine.onWriter
  dsimp only [Machine.varied]
  split <;> exact ⟨hback, hcallers, hlimit⟩

theorem lockstep_closeOutput : Lockstep E K closeOutput closeOutput := by
  refine .get ?_
  rintro m _ ⟨hback, hcallers, hlimit⟩
  dsimp only [Machine.varied]
  cases m.nested with
  | nil => exact .inr ⟨_, rfl, rfl⟩
  | cons w ws => exact ⟨_, rfl, hback, hcallers, hlimit⟩

theorem lockstep_fetch : Lockstep E K fetch fetch := by
  rintro m _ ⟨hback, hcallers, hlimit⟩
  unfold Parallel fetch
  dsimp only [Machine.varied, Frame.returning]
  cases Instr.decodeAt m.frame.program.code m.frame.position with
  | ok r => exact ⟨_, rfl, hback, hcallers, hlimit⟩
  | error e => exact .inr ⟨_, rfl, rfl⟩

/-! ### The stack -/

theorem lockstep_push (v : Value) : Lockstep E K (push v) (push v) := by
  rintro m _ @⟨back, callers, limit, hback, hcallers, hlimit⟩
  unfold Parallel push
  by_cases hfull : m.stack.limit ≤ m.stack.size
  · have hpush : m.stack.push v = .error (.stackOverflow m.stack.limit) := if_pos hfull
    rw [hpush]
    obtain rfl | ⟨hcut, -⟩ := hlimit
    · have hpush' : (m.varied back callers m.stack.limit).stack.push v =
          .error (.stackOverflow m.stack.limit) := if_pos hfull
      rw [hpush']
      exact .inr ⟨_, rfl, rfl⟩
    · exact .inl (hcut _)
  · have hroom : ¬ limit ≤ m.stack.size := by
      obtain rfl | ⟨-, hle⟩ := hlimit
      · exact hfull
      · omega
    have hpush : m.stack.push v = .ok ⟨m.stack.values.push v, m.stack.limit⟩ := if_neg hfull
    have hpush' : (m.varied back callers limit).stack.push v = .ok ⟨m.stack.values.push v, limit⟩ :=
      if_neg hroom
    rw [hpush, hpush']
    exact ⟨_, rfl, hback, hcallers, hlimit⟩

theorem isSome_of_rel {height : Nat} {a b : Option Return}
    (h : Option.Rel (Return.Alike K height) a b) :
    b.isSome = a.isSome := by
  cases h <;> rfl

/-- The floor of a frame does not depend on what it returns to. -/
theorem floor_returning {f : Frame} {back : Option Return} {height : Nat}
    (h : Option.Rel (Return.Alike K height) f.evaluation back) : (f.returning back).floor = f.floor := by
  unfold Frame.floor
  rw [← isSome_of_rel h]
  rfl

theorem lockstep_pop : Lockstep E K pop pop := by
  rintro m _ @⟨back, callers, limit, hback, hcallers, hlimit⟩
  have hfloor : (m.varied back callers limit).frame.floor = m.frame.floor := floor_returning hback
  have hvalues : (m.varied back callers limit).stack.values = m.stack.values := rfl
  unfold Parallel pop Stack.popAbove
  rw [hfloor]
  by_cases hlow : m.stack.size ≤ m.frame.floor
  · have hlow' : (m.varied back callers limit).stack.size ≤ m.frame.floor := hlow
    rw [if_pos hlow, if_pos hlow']
    exact .inr ⟨_, rfl, rfl⟩
  · have hlow' : ¬ (m.varied back callers limit).stack.size ≤ m.frame.floor := hlow
    rw [if_neg hlow, if_neg hlow', hvalues]
    cases m.stack.values.back? with
    | some v => exact ⟨_, rfl, hback, hcallers, hlimit⟩
    | none => exact .inr ⟨_, rfl, rfl⟩

theorem lockstep_need (count : Nat) : Lockstep E K (need count) (need count) := by
  refine .get ?_
  rintro m n h
  obtain @⟨back, callers, limit, hback, -, -⟩ := id h
  have hheight : (m.varied back callers limit).stack.heightAbove
      (m.varied back callers limit).frame.floor = m.stack.heightAbove m.frame.floor :=
    congrArg m.stack.heightAbove (floor_returning hback)
  dsimp only
  rw [hheight]
  exact .ite (fun _ => Lockstep.throw _ _ _ h) fun _ => Lockstep.pure _ _ _ h

theorem lockstep_popArguments (count : Nat) :
    Lockstep E K (popArguments count) (popArguments count) := by
  refine .bind (lockstep_need count) fun _ => .get ?_
  rintro m _ ⟨hback, hcallers, hlimit⟩
  exact ⟨_, rfl, hback, hcallers, hlimit⟩

theorem lockstep_argument (i : Nat) : Lockstep E K (argument i) (argument i) := by
  refine .get ?_
  rintro m n h
  obtain @⟨back, callers, limit, -, -, -⟩ := id h
  refine .ite (fun _ => .inr ⟨_, rfl, rfl⟩) fun _ => ?_
  have hget : (m.varied back callers limit).stack.get?
      ((m.varied back callers limit).frame.argBase + i) = m.stack.get? (m.frame.argBase + i) := rfl
  rw [hget]
  cases m.stack.get? (m.frame.argBase + i) with
  | some v => exact Lockstep.pure _ _ _ h
  | none => exact Lockstep.throw _ _ _ h

theorem lockstep_binary (op : Value → Value → Except DivisionByZero Value) :
    Lockstep E K (binary op) (binary op) := by
  refine .bind lockstep_pop fun b => .bind lockstep_pop fun a => ?_
  split
  · exact lockstep_push _
  · exact .throw _

/-! ### Blocks and jumps -/

theorem lockstep_chooseItem (block : Block) (entered : Option ActiveBlock) (weights : List Float) :
    Lockstep E K (chooseItem block entered weights) (chooseItem block entered weights) := by
  refine .get ?_
  rintro m _ ⟨hback, hcallers, hlimit⟩
  refine .bind (T := fun _ => Machine.Alike E K) ⟨_, rfl, hback, hcallers, hlimit⟩ ?_
  intro _ m' n' h
  dsimp only [Machine.varied]
  split
  · exact Lockstep.throw _ _ _ h
  · refine (lockstep_checkedAddress _ _ _ h).bind fun offset m n h => ?_
    cases entered with
    | some active =>
      have hpush : Lockstep E K (modify fun m => { m with blocks := m.blocks.push active })
          (modify fun m => { m with blocks := m.blocks.push active }) :=
        lockstep_update fun _ _ _ _ => ⟨rfl, rfl, rfl, rfl⟩
      exact Lockstep.bind hpush (fun _ => lockstep_jump offset) _ _ h
    | none => exact lockstep_jump offset _ _ h

theorem lockstep_openChannel (name : Int32) (visibility : UInt8) :
    Lockstep E K (openChannel name visibility) (openChannel name visibility) := by
  refine .bind (lockstep_string name) fun _ => ?_
  split
  · exact lockstep_onWriter _
  · exact .throw _

theorem lockstep_jumpIf (holds : Comparison → Bool) (target : Int32) :
    Lockstep E K (jumpIf holds target) (jumpIf holds target) := by
  refine .get ?_
  rintro m n h
  cases id h
  refine .ite (fun _ => ?_) fun _ => Lockstep.pure _ _ _ h
  exact Lockstep.bind (lockstep_address target) (fun _ => lockstep_jump _) _ _ h

theorem lockstep_write (w : LocalWrite) :
    Lockstep E K (modify (·.write w)) (modify (·.write w)) :=
  lockstep_update fun _ _ _ _ => ⟨rfl, rfl, rfl, rfl⟩

theorem Lockstep.last {x y : Running Unit} (h : Lockstep E K x y) :
    Lockstep E K (do x; return Status.running) (do y; return Status.running) :=
  .bind h fun _ => .pure _

/-! ### Frames that are left -/

/-- What a frame leaves does not depend on what it returns to. -/
theorem result?_varied {back : Option Return} (callers : List Frame) (limit : Nat)
    (h : Option.Rel (Return.Alike K m.callers.length) m.frame.evaluation back) :
    (m.varied back callers limit).result? = m.result? := by
  unfold Machine.result?
  have hfloor : (m.varied back callers limit).frame.floor = m.frame.floor := floor_returning h
  rw [hfloor]
  rfl

/-- A frame is left. What goes on then is up to what it returns to. -/
theorem parallel_leave {T : Status → Machine → Machine → Prop} (h : m.Alike E K n)
    (hT : ∀ status m' n', m'.Alike E K n' → T status m' n')
    (hnext : ∀ a b, a.Alike K m.callers.length b → m.frame.evaluation = some a →
      n.frame.evaluation = some b → ∀ v m' n', m'.Alike E K n' →
        Parallel E (fun _ => T .running) (continueWith env v a.next) (continueWith env' v b.next)
          m' n') :
    Parallel E T (leave env) (leave env') m n := by
  obtain @⟨back, callers, limit, hback, hcallers, hlimit⟩ := id h
  have hresult := result?_varied callers limit hback
  generalize hm : m.callers = callers₀ at hcallers
  cases hcallers with
  | nil =>
    have hdropped : (dropFrameState m).2.Alike E K (dropFrameState (m.varied back [] limit)).2 :=
      ⟨hback, by rw [show (dropFrameState m).2.callers = [] from hm]; exact .nil, hlimit⟩
    unfold Parallel
    rw [leave_outermost hm]
    exact ⟨_, leave_outermost rfl, hT _ _ _ hdropped⟩
  | @cons parent back' rest rest' hparent hrest =>
    generalize hm' : m.frame.evaluation = back₀ at hback
    unfold Parallel
    cases hback with
    | none =>
      rw [leave_subroutine hm hm', leave_subroutine (m := m.varied _ _ _) rfl rfl, hresult]
      have hleft : (m.leaveTo parent rest).Alike E K ((m.varied none (parent.returning back' :: rest')
          limit).leaveTo (parent.returning back') rest') := ⟨hparent, hrest, hlimit⟩
      cases m.result? with
      | some v =>
        exact (lockstep_push v _ _ hleft).bind fun _ m' n' h' => ⟨_, rfl, hT _ _ _ h'⟩
      | none => exact ⟨_, rfl, hT _ _ _ hleft⟩
    | @some a b hab =>
      rw [leave_evaluation hm hm', leave_evaluation (m := m.varied _ _ _) rfl rfl, hresult]
      have hresumed : (m.resumeTo a parent rest).Alike E K ((m.varied (some b)
          (parent.returning back' :: rest') limit).resumeTo b (parent.returning back') rest') := by
        unfold Machine.resumeTo
        rw [hab.place]
        exact ⟨hparent, hrest, hlimit⟩
      exact (hnext a b hab hm' rfl _ _ _ hresumed).bind fun _ m' n' h' => ⟨_, rfl, h'⟩

/-! ### Limits -/

variable (henv : env.Lifts E env')
include henv

theorem lockstep_print (text : String) :
    Lockstep E K (print env.options text) (print env'.options text) := by
  refine .get ?_
  rintro m n hmn
  obtain ⟨hback, hcallers, hlimit⟩ := id hmn
  refine .ite (fun _ => ?_) fun _ => lockstep_onWriter _ _ _ hmn
  refine .bind (T := fun _ => Machine.Alike E K) ⟨_, rfl, hback, hcallers, hlimit⟩ ?_
  intro _ m' n' h
  have hchars := henv.chars
  cases hold : env.options.charLimit with
  | none =>
    cases hnew : env'.options.charLimit with
    | none => exact lockstep_onWriter _ _ _ h
    | some limit' =>
      rw [hold, hnew] at hchars
      exact hchars.elim
  | some limit =>
    dsimp only
    by_cases hover : limit < m.charsPrinted + text.length
    · rw [if_pos hover]
      cases hnew : env'.options.charLimit with
      | none =>
        rw [hold, hnew] at hchars
        exact .inl (hchars limit)
      | some limit' =>
        rw [hold, hnew] at hchars
        obtain rfl | ⟨hcut, -⟩ := hchars
        · refine .inr ⟨n', ?_, h.failure _⟩
          exact congrFun (if_pos hover) n'
        · exact .inl (hcut limit)
    · rw [if_neg hover]
      cases hnew : env'.options.charLimit with
      | none => exact lockstep_onWriter _ _ _ h
      | some limit' =>
        rw [hold, hnew] at hchars
        have hle : limit ≤ limit' := by
          obtain rfl | ⟨-, hle⟩ := hchars
          · exact Nat.le_refl _
          · exact hle
        dsimp only
        rw [if_neg (by exact Nat.not_lt.2 (Nat.le_trans (Nat.not_lt.1 hover) hle))]
        exact lockstep_onWriter _ _ _ h

theorem lockstep_openOutput : Lockstep E K (openOutput env.options) (openOutput env'.options) := by
  unfold openOutput
  rw [henv.capitals]
  exact lockstep_update fun _ _ _ _ => ⟨rfl, rfl, rfl, rfl⟩

theorem lockstep_tick : Lockstep E K (tick env) (tick env') := by
  have hlate : env'.isLate = env.isLate := by
    funext executed
    rw [Environment.isLate, henv.timeout, henv.clock, Environment.isLate]
  unfold tick
  rw [hlate]
  refine .get ?_
  rintro m _ ⟨hback, hcallers, hlimit⟩
  refine .bind (T := fun _ => Machine.Alike E K) ⟨_, rfl, hback, hcallers, hlimit⟩ ?_
  exact fun _ m' n' h =>
    .ite (fun _ => Lockstep.throw _ _ _ h) fun _ => Lockstep.pure _ _ _ h

/-- A frame is entered unless the calls are too deep, for either machine. -/
theorem parallel_enter {f : Frame} {return' : Option Return}
    (hf : Option.Rel (Return.Alike K m.depth) f.evaluation return') (h : m.Alike E K n) :
    Parallel E (fun _ => Machine.Alike E K) (enter env.options f)
      (enter env'.options (f.returning return')) m n := by
  obtain @⟨back, callers, limit, hback, hcallers, hlimit⟩ := id h
  have hdepth : (m.varied back callers limit).depth = m.depth :=
    congrArg (· + 1) hcallers.length_eq
  have hentered : Frame.Alike K (m.frame :: m.callers) (m.frame.returning back :: callers) :=
    .cons hback hcallers
  unfold Parallel enter
  simp only [run_bind, run_get]
  rw [hdepth]
  by_cases hfull : env.options.maxCallDepth ≤ m.depth
  · rw [if_pos hfull]
    obtain heq | ⟨hcut, -⟩ := henv.depth
    · rw [heq, if_pos hfull]
      exact .inr ⟨_, rfl, rfl⟩
    · exact .inl (hcut _)
  · have hroom : ¬ env'.options.maxCallDepth ≤ m.depth := by
      obtain heq | ⟨-, hle⟩ := henv.depth
      · rwa [heq]
      · omega
    rw [if_neg hfull, if_neg hroom]
    exact ⟨_, rfl, hf, hentered, hlimit⟩

theorem lockstep_call (address count : Nat) :
    Lockstep E K (call env.options address count) (call env'.options address count) := by
  refine .bind (lockstep_need count) fun _ => .get ?_
  rintro m n h
  cases id h
  exact parallel_enter henv .none h

theorem lockstep_callProgram (index : UInt16) :
    Lockstep E K (callProgram env.options index) (callProgram env'.options index) := by
  refine .get ?_
  rintro m n h
  cases id h
  refine (lockstep_entry _ _ _ _ _ h).bind fun target m' n' h' => ?_
  exact parallel_enter henv .none h'

theorem parallel_evaluate (address : Nat) {k k' : Continuation} (hk : K m.depth k k')
    (h : m.Alike E K n) :
    Parallel E (fun _ => Machine.Alike E K) (evaluate env.options address k)
      (evaluate env'.options address k') m n := by
  have hquiet : Quiet env (checkedAddress address) := quiet_checkedAddress address
  refine ((lockstep_checkedAddress address m n h).also (hquiet m).yields (hquiet n).yields).bind
    fun address m' n' ⟨h', hsame, _⟩ => ?_
  rw [hsame.depth] at hk
  cases id h'
  exact parallel_enter henv (.some ⟨rfl, hk⟩) h'

theorem lockstep_printChars (letter : Char) (count : Int32) :
    Lockstep E K (printChars env.options letter count) (printChars env'.options letter count) := by
  unfold printChars
  split
  · exact .throw _
  · refine .get ?_
    rintro m _ ⟨hback, hcallers, hlimit⟩
    refine .bind (T := fun _ => Machine.Alike E K) ⟨_, rfl, hback, hcallers, hlimit⟩ ?_
    exact fun _ => lockstep_print henv _

theorem lockstep_answerQuery (index : Int32) :
    Lockstep E K (answerQuery env index) (answerQuery env' index) := by
  unfold answerQuery
  rw [henv.dictionary]
  refine .get ?_
  rintro m n h
  obtain ⟨hback, hcallers, hlimit⟩ := id h
  refine (lockstep_entry _ _ _ _ _ h).bind fun q m' n' h' => ?_
  dsimp only [Machine.varied]
  split
  · exact ⟨_, rfl, hback, hcallers, hlimit⟩
  · exact Lockstep.throw _ _ _ h'
  · refine .bind (T := fun _ => Machine.Alike E K) ⟨_, rfl, hback, hcallers, hlimit⟩ ?_
    exact fun _ => lockstep_print henv _

/-! ### Continuations -/

variable (hK : ∀ height k, K height k k)
include hK

theorem lockstep_evaluate (address : Nat) (k : Continuation) :
    Lockstep E K (evaluate env.options address k) (evaluate env'.options address k) :=
  fun _ _ h => parallel_evaluate henv address (hK _ k) h

/-- A function does the same to both machines. -/
theorem lockstep_routine (r : Routine) : Lockstep E K (routine env r) (routine env' r) := by
  induction r with
  | done => exact .pure _
  | fail fault => exact .throw fault
  | print text next ih => exact .bind (lockstep_print henv text) fun _ => ih
  | textOf v next ih =>
    refine .get fun m n h => ?_
    cases id h
    exact ih _ _ _ h
  | edit e next ih => exact .bind (lockstep_onWriter _) fun _ => ih
  | setRepeat count next ih | setSeparator text next ih | setNumberFormat format next ih =>
    exact .bind (lockstep_update fun _ _ _ _ => ⟨rfl, rfl, rfl, rfl⟩) fun _ => ih
  | getRng next ih =>
    refine .get fun m n h => ?_
    cases id h
    exact ih _ _ _ h
  | setRng rng next ih => exact .bind (lockstep_update fun _ _ _ _ => ⟨rfl, rfl, rfl, rfl⟩) fun _ => ih
  | getPool name next ih =>
    unfold routine
    rw [henv.pools]
    split
    · exact ih _
    · exact .throw _
  | evaluate address next ih => exact lockstep_evaluate henv hK address _

theorem lockstep_nativeCall (id : UInt16) (count : UInt8) :
    Lockstep E K (nativeCall env id count) (nativeCall env' id count) := by
  unfold nativeCall
  rw [henv.registry]
  exact .bind (lockstep_entry _ _ _) fun f => .bind (lockstep_popArguments _) fun args =>
    lockstep_routine henv hK _

theorem lockstep_weigh (block : Block) (entered : Option ActiveBlock) (weights : List Float)
    (rest : List BlockItem) :
    Lockstep E K (weigh env block entered weights rest) (weigh env' block entered weights rest) := by
  induction rest generalizing weights with
  | nil => exact lockstep_chooseItem block entered weights
  | cons item rest ih =>
    unfold weigh
    split
    · exact ih _
    · exact ih _
    · exact lockstep_evaluate henv hK _ _

theorem lockstep_startBlock (index : Int32) :
    Lockstep E K (startBlock env index) (startBlock env' index) := by
  refine .get ?_
  rintro m n h
  obtain ⟨hback, hcallers, hlimit⟩ := id h
  refine (lockstep_entry _ _ _ _ _ h).bind fun block m' n' h' => ?_
  refine .bind (T := fun _ => Machine.Alike E K) ⟨_, rfl, hback, hcallers, hlimit⟩ ?_
  intro _ m₁ n₁ h₁
  refine .ite (fun _ => ?_) fun _ => lockstep_weigh henv hK _ _ _ _ _ _ h₁
  exact Lockstep.bind (lockstep_checkedAddress _) (fun _ => lockstep_jump _) _ _ h₁

theorem lockstep_endBlock : Lockstep E K (endBlock env) (endBlock env') := by
  refine .get ?_
  rintro m n h
  obtain ⟨hback, hcallers, hlimit⟩ := id h
  dsimp only [Machine.varied]
  cases m.blocks.back? with
  | none => exact .inr ⟨_, rfl, rfl⟩
  | some active =>
    dsimp only
    refine .ite (fun _ => .inr ⟨_, rfl, rfl⟩) fun _ => ?_
    refine .ite (fun _ => ?_) fun _ => ?_
    · refine .bind (T := fun _ => Machine.Alike E K) ⟨_, rfl, hback, hcallers, hlimit⟩ ?_
      exact fun _ => Lockstep.bind (lockstep_checkedAddress _) fun _ => lockstep_jump _
    · refine .bind (T := fun _ => Machine.Alike E K) ⟨_, rfl, hback, hcallers, hlimit⟩ ?_
      intro _ m₁ n₁ h₁
      cases active.separator with
      | some text =>
        exact Lockstep.bind (lockstep_print henv text)
          (fun _ => lockstep_weigh henv hK _ _ _ _) _ _ h₁
      | none => exact lockstep_weigh henv hK _ _ _ _ _ _ h₁

theorem lockstep_continueWith (v : Value) (next : Continuation) :
    Lockstep E K (continueWith env v next) (continueWith env' v next) := by
  cases next with
  | routine next => exact lockstep_routine henv hK _
  | choice block entered weights rest => exact lockstep_weigh henv hK _ _ _ _

/-! ### Instructions -/

/-- Instructions that leave no frame. -/
theorem lockstep_execute {i : Instr} (hi : i ≠ .return) :
    Lockstep E K (execute env i) (execute env' i) := by
  cases i with
  | «return» => exact absurd rfl hi
  | debug line column offset => exact .last (lockstep_update fun _ _ _ _ => ⟨rfl, rfl, rfl, rfl⟩)
  | printString index =>
    exact .bind (lockstep_string index) fun _ => .last (lockstep_print henv _)
  | printNumber bits =>
    refine .get fun m n h => ?_
    cases id h
    exact Lockstep.last (lockstep_print henv _) _ _ h
  | openChannel name visibility => exact .last (lockstep_openChannel name visibility)
  | closeChannel => exact .last (lockstep_onWriter _)
  | block index => exact .last (lockstep_startBlock henv hK index)
  | blockEnd => exact .last (lockstep_endBlock henv hK)
  | print =>
    refine .bind lockstep_pop fun v => .get fun m n h => ?_
    cases id h
    exact Lockstep.last (lockstep_print henv _) _ _ h
  | printChars charClass count => exact .last (lockstep_printChars henv _ count)
  | nativeCall id count => exact .last (lockstep_nativeCall henv hK id count)
  | newOutput => exact .last (lockstep_openOutput henv)
  | returnOutput => exact .bind lockstep_closeOutput fun _ => .last (lockstep_push _)
  | pushString index => exact .bind (lockstep_string index) fun _ => .last (lockstep_push _)
  | pushNumber bits => exact .last (lockstep_push _)
  | pop => exact .bind lockstep_pop fun _ => .pure _
  | call target count =>
    exact .bind (lockstep_address target) fun _ => .last (lockstep_call henv _ _)
  | loadArgument index => exact .bind (lockstep_argument _) fun _ => .last (lockstep_push _)
  | query index => exact .last (lockstep_answerQuery henv index)
  | jump target => exact .bind (lockstep_address target) fun _ => .last (lockstep_jump _)
  | add | subtract | multiply | divide | modulo | concat => exact .last (lockstep_binary _)
  | swap a b =>
    intro m n h
    unfold Parallel
    rw [execute_swap, execute_swap]
    exact lockstep_write (.swap a.toNat b.toNat) |>.last m n h
  | loadLocal index =>
    refine .get fun m n h => ?_
    cases id h
    exact Lockstep.last (lockstep_push _) _ _ h
  | setLocal index =>
    exact .bind lockstep_pop fun v => .last (lockstep_write (.set index.toNat v))
  | compare =>
    exact .bind lockstep_pop fun _ => .bind lockstep_pop fun _ =>
      .last (lockstep_update fun _ _ _ _ => ⟨rfl, rfl, rfl, rfl⟩)
  | jumpEqual target | jumpNotEqual target | jumpGreater target | jumpGreaterEqual target
  | jumpLess target | jumpLessEqual target | jumpZero target | jumpNotZero target =>
    exact .last (lockstep_jumpIf _ target)
  | pushNull => exact .last (lockstep_push _)
  | pushAddress target => exact .bind (lockstep_address target) fun _ => .last (lockstep_push _)
  | article => exact .last (lockstep_onWriter _)
  | toNumber => exact .bind lockstep_pop fun _ => .last (lockstep_push _)
  | callProgram index => exact .last (lockstep_callProgram henv index)

/-! ### Steps -/

/-- One step of both machines. What follows the end of the evaluation of code is left open. -/
theorem parallel_step {T : Status → Machine → Machine → Prop} (h : m.Alike E K n)
    (hT : ∀ status m' n', m'.Alike E K n' → T status m' n')
    (hnext : m.Leaving → ∀ a b, a.Alike K m.callers.length b → m.frame.evaluation = some a →
      n.frame.evaluation = some b → ∀ v m' n', m'.Alike E K n' →
        Parallel E (fun _ => T .running) (continueWith env v a.next) (continueWith env' v b.next)
          m' n') :
    Parallel E T (step env) (step env') m n := by
  refine .get ?_
  have hframe : n.frame.program = m.frame.program ∧ n.frame.position = m.frame.position := by
    cases h
    exact ⟨rfl, rfl⟩
  dsimp only
  rw [hframe.1, hframe.2]
  refine .ite (fun hend => parallel_leave h hT (hnext (.inl hend))) fun hend => ?_
  have hfetch (m : Machine) : Gives env fetch m _ := fetch_gives m
  refine ((lockstep_fetch m n h).also (hfetch m).yields (hfetch n).yields).bind
    fun i m₁ n₁ ⟨h₁, ⟨hsame₁, position, hdecode⟩, hsame₁', _⟩ => ?_
  have htick (timed : Environment) : Quiet env (tick timed) := quiet_tick timed
  refine ((lockstep_tick henv m₁ n₁ h₁).also (htick _ m₁).yields (htick _ n₁).yields).bind
    fun _ m₂ n₂ ⟨h₂, hsame₂, hsame₂'⟩ => ?_
  by_cases hreturn : i = .return
  · subst hreturn
    have hleaving : m.Leaving := by
      refine .inr ?_
      unfold Machine.nextInstr?
      rw [hdecode]
      exact if_neg hend
    have hsame := hsame₁.trans hsame₂
    refine parallel_leave h₂ hT fun a b hab ha hb => hnext hleaving a b ?_ ?_ ?_
    · rwa [hsame.callers] at hab
    · rw [← ha, hsame.evaluation]
    · rw [← hb, (hsame₁'.trans hsame₂').evaluation]
  · exact (lockstep_execute henv hK hreturn m₂ n₂ h₂).mono fun _ _ _ => hT _ _ _

end Running

end Wordloom
