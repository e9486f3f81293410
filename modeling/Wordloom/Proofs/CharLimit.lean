import Wordloom.Proofs.Channels
import Wordloom.Proofs.Printing
import Wordloom.Proofs.Reachable

/-!
# Wordloom.Proofs.CharLimit

What the limit of characters is a limit of: the characters that are printed. What a slot of an article or
of a target shows is not printed, and so it is not counted either. Apart from that the main text of a run
keeps within the limit, as long as no function changes the capitalization.
-/

namespace Wordloom

/-! ## Text and slots -/

/-- The characters of a segment that have been printed. -/
def Segment.printed : Segment → Nat
  | .text s => s.length
  | .article _ _ => 0
  | .target _ => 0

/-- An edit that makes a slot or fills a target: it neither prints nor changes the capitalization. -/
def Edit.isSlot : Edit → Bool
  | .print _ | .setCase _ => false
  | _ => true

/-- What an edit prints. -/
def Edit.text : Edit → String
  | .print text => text
  | _ => ""

namespace Chain

/-- The number of characters that have been printed to a channel. -/
def printed (chain : Chain) : Nat := (chain.sealed.map Segment.printed).sum + chain.current.length

/-- The number of characters that the slots of a channel show. -/
def slotLength (chain : Chain) : Nat :=
  (chain.sealed.map fun
    | .text _ => 0
    | slot => (chain.segmentText slot).length).sum

/-- Texts in a row are as long as all of them together. -/
theorem length_foldl_append {α : Type} (f : α → String) (xs : List α) (out : String) :
    (xs.foldl (fun out x => out ++ f x) out).length = out.length + (xs.map fun x => (f x).length).sum := by
  induction xs generalizing out with
  | nil => simp
  | cons x xs ih =>
    rw [List.foldl_cons, ih, String.length_append, List.map_cons, List.sum_cons, Nat.add_assoc]

/-- The text of a channel is what has been printed to it and what its slots show. -/
theorem length_render (chain : Chain) : chain.render.length = chain.printed + chain.slotLength := by
  have hsegments (segments : List Segment) :
      (segments.map fun s => (chain.segmentText s).length).sum =
        (segments.map Segment.printed).sum + (segments.map fun
          | .text _ => 0
          | slot => (chain.segmentText slot).length).sum := by
    induction segments with
    | nil => rfl
    | cons s segments ih =>
      simp only [List.map_cons, List.sum_cons, ih]
      cases s <;> simp only [Segment.printed, segmentText] <;> omega
  rw [render, String.length_append, ← Array.foldl_toList, length_foldl_append, hsegments, printed, slotLength,
    ← Array.sum_toList, ← Array.sum_toList, Array.toList_map, Array.toList_map, String.length_empty]
  omega

/-- To finish a text prints nothing. -/
theorem printed_finishText (chain : Chain) : chain.finishText.printed = chain.printed := by
  unfold finishText
  split
  · rfl
  · simp [printed, Segment.printed]

/-- Deciding an article prints nothing. -/
theorem sum_printed_decide (sealed : Array Segment) (i : Nat) (article : Article) :
    ((sealed.modify i (decideSegment article)).map Segment.printed).sum =
      (sealed.map Segment.printed).sum := by
  rw [map_modify_of_eq]
  intro s
  cases s <;> rfl

/-- Without capitalization, an edit adds to a channel just what it prints. -/
theorem edit_of_none {chain : Chain} (h : chain.case.mode = .none) {e : Edit}
    (he : ∀ mode, e ≠ .setCase mode) :
    (chain.edit e).case.mode = .none ∧ (chain.edit e).printed = chain.printed + e.text.length := by
  cases e with
  | print text =>
    simp only [edit, print, Capitalizer.apply_of_none h, Edit.text]
    split
    · refine ⟨h, ?_⟩
      simp only [printed, sum_printed_decide, String.length_append]
      omega
    · refine ⟨h, ?_⟩
      simp only [printed, String.length_append]
      omega
  | article =>
    have hupper : chain.case.mode ≠ .upper := by simp [h]
    simp only [edit, insertArticle, if_neg hupper, Capitalizer.apply_of_none h, case_finishText]
    refine ⟨h, ?_⟩
    have hfinish := printed_finishText { chain with case := chain.case }
    simp only [printed] at hfinish
    simp only [printed, Array.map_push, Array.sum_push, Segment.printed, Edit.text, String.length_empty]
    omega
  | setCase mode => exact absurd rfl (he mode)
  | target name =>
    have hfinish := printed_finishText chain
    simp only [printed] at hfinish
    simp only [edit, insertTarget, case_finishText]
    refine ⟨h, ?_⟩
    simp only [printed, Array.map_push, Array.sum_push, Segment.printed, Edit.text, String.length_empty]
    omega
  | write name text overwrite => exact ⟨h, rfl⟩
  | clear name =>
    simp only [edit, clearTarget]
    split <;> exact ⟨h, rfl⟩

end Chain

/-! ## Outputs -/

namespace Writer

/-- Main is written without capitalization, and at most `n` characters have been printed to it. -/
structure Within (w : Writer) (n : Nat) : Prop where
  valid : w.Valid
  plain : ∀ chain ∈ w.chains[0]?, chain.case.mode = .none
  printed : ∀ chain ∈ w.chains[0]?, chain.printed ≤ n

variable {w : Writer} {n : Nat}

theorem within_new : (new .none).Within 0 := by
  refine ⟨valid_new _, ?_, ?_⟩
  · rintro chain ⟨⟩
    rfl
  · rintro chain ⟨⟩
    simp [new, Chain.new, Chain.printed]

theorem Within.mono {n' : Nat} (h : w.Within n) (hle : n ≤ n') : w.Within n' :=
  ⟨h.valid, h.plain, fun chain hchain => Nat.le_trans (h.printed chain hchain) hle⟩

/-- Only the main chain counts. -/
theorem Within.of_main {w' : Writer} (h : w.Within n) (hvalid : w'.Valid)
    (hmain : w'.chains[0]? = w.chains[0]?) : w'.Within n := by
  refine ⟨hvalid, ?_, ?_⟩ <;> rw [hmain]
  · exact h.plain
  · exact h.printed

/-- An edit adds its text to what is printed, unless it sets a case. -/
theorem Within.onTargets (h : w.Within n) {e : Edit} (he : ∀ mode, e ≠ .setCase mode) :
    (w.onTargets (·.edit e)).Within (n + e.text.length) := by
  have hvalid := h.valid.of_sameChannels (w.onTargets_sameChannels fun c => c.label_edit e)
  have hmain := h.valid.main_onTargets (·.edit e)
  split at hmain
  · have hedited (chain : Chain) (hchain : chain ∈ (w.onTargets (·.edit e)).chains[0]?) :
        chain.case.mode = .none ∧ chain.printed ≤ n + e.text.length := by
      rw [hmain] at hchain
      obtain ⟨old, hold, rfl⟩ := Option.map_eq_some_iff.1 hchain
      obtain ⟨hmode, hprinted⟩ := Chain.edit_of_none (h.plain old hold) he
      rw [hprinted]
      exact ⟨hmode, Nat.add_le_add_right (h.printed old hold) _⟩
    exact ⟨hvalid, fun chain hchain => (hedited chain hchain).1, fun chain hchain => (hedited chain hchain).2⟩
  · exact (h.of_main hvalid hmain).mono (Nat.le_add_right _ _)

/-- The same of an edit of the writer. -/
theorem Within.edit (h : w.Within n) {e : Edit} (he : ∀ mode, e ≠ .setCase mode) :
    (w.edit e).Within (n + e.text.length) := by
  unfold Writer.edit
  split
  · split
    · exact h.mono (Nat.le_add_right _ _)
    · next text _ =>
      have hcounted : ({ w with charsWritten := w.charsWritten + text.length } : Writer).Within n :=
        h.of_main (h.valid.withCount _) rfl
      exact hcounted.onTargets he
  · exact h.onTargets he

/-- To open a channel prints nothing. -/
theorem Within.openChannel (h : w.Within n) (name : String) (visibility : Visibility) :
    (w.openChannel name visibility).Within n := by
  have hvalid := h.valid.openChannel name visibility
  have hsize : 0 < w.chains.size := by
    simpa [labels] using h.valid.indices 0 h.valid.mem_zero
  refine h.of_main hvalid ?_
  unfold Writer.openChannel
  split
  · next i _ =>
    split
    · rfl
    · next hclosed =>
      have hne : i ≠ 0 := by
        rintro rfl
        exact hclosed (by simpa using h.valid.mem_zero)
      rw [Array.getElem?_modify, if_neg hne]
  · rw [Array.getElem?_push, if_neg (by omega)]

/-- To close a channel prints nothing. -/
theorem Within.closeChannel (h : w.Within n) : w.closeChannel.2.Within n := by
  refine h.of_main h.valid.closeChannel ?_
  unfold Writer.closeChannel
  split <;> rfl

end Writer

/-! ## Runs -/

/-- Whatever it is answered, the routine edits nothing but slots and targets: it does not change the
capitalization, and it prints only what is counted. -/
def Routine.Calm (r : Routine) : Prop := r.Keeps (·.isSlot) fun _ => True

/-- The functions that the next instruction may call are such routines. -/
def Machine.CallsCalm (env : Environment) (m : Machine) : Prop :=
  ∀ id count f, m.nextInstr? = some (.nativeCall id count) → env.registry.get? id.toNat = some f →
    ∀ args, (f.routine args).Calm

/-- All that has been printed to main has been counted, and the count is within the limit. -/
structure Machine.Tallied (env : Environment) (m : Machine) : Prop where
  root : m.root.Within m.charsPrinted
  limit : ∀ limit ∈ env.options.charLimit, m.charsPrinted ≤ limit
  calm : ∀ f ∈ m.frames, ∀ back ∈ f.evaluation, back.next.Fits env.registry (·.isSlot)

namespace Machine

variable {env : Environment} {m m₁ m' : Machine}

namespace Tallied

/-- Nothing is printed, and no frame is entered or left. -/
theorem same (hm : m.Tallied env) (h : m.Same m') : m'.Tallied env := by
  obtain ⟨⟨position, hframe⟩, hcallers, -, -, hroot, hchars⟩ := h
  refine ⟨?_, ?_, ?_⟩
  · rw [hroot, hchars]
    exact hm.root
  · rw [hchars]
    exact hm.limit
  · intro f hf
    rw [frames, hcallers, hframe] at hf
    obtain rfl | hf := List.mem_cons.1 hf
    · exact hm.calm m.frame List.mem_cons_self
    · exact hm.calm f (List.mem_cons_of_mem _ hf)

/-- What is printed is counted, and other edits print nothing. -/
theorem output (hm : m.Tallied env) {root : Writer} {n : Nat} (h : m.Outputs env (·.isSlot) root n) :
    ({ m with root := root, charsPrinted := n } : Machine).Tallied env := by
  have hslot {e : Edit} (he : e.isSlot) : (m.root.edit e).Within m.charsPrinted := by
    cases e with
    | print text => cases he
    | setCase mode => cases he
    | article | target name | write name text overwrite | clear name => exact hm.root.edit nofun
  cases h with
  | print text hlimit => exact ⟨hm.root.edit (e := .print text) nofun, hlimit, hm.calm⟩
  | edit he => exact ⟨hslot (he.elim (· ▸ rfl) id), hm.limit, hm.calm⟩
  | openChannel name visibility => exact ⟨hm.root.openChannel name visibility, hm.limit, hm.calm⟩
  | closeChannel => exact ⟨hm.root.closeChannel, hm.limit, hm.calm⟩

/-- Changes keep the tally. -/
theorem changes (hm : m.Tallied env) (h : m.Changes env (·.isSlot) m') : m'.Tallied env := by
  induction h with
  | refl => exact hm
  | tail _ hchange ih =>
    cases hchange with
    | quiet hsame => exact ih.same hsame
    | output houtput => exact ih.output houtput
    | push | take | enterBlock | repeatBlock | leaveBlock => exact ⟨ih.root, ih.limit, ih.calm⟩

/-- Entering a frame keeps it. -/
theorem enters (hm : m.Tallied env) (h : m.Enters env (·.isSlot) m') : m'.Tallied env := by
  cases h with
  | call =>
    refine ⟨hm.root, hm.limit, fun f hf => ?_⟩
    obtain rfl | hf := List.mem_cons.1 hf
    · nofun
    · exact hm.calm f hf
  | evaluate _ hnext =>
    refine ⟨hm.root, hm.limit, fun f hf => ?_⟩
    obtain rfl | hf := List.mem_cons.1 hf
    · rintro back ⟨⟩
      exact hnext
    · exact hm.calm f hf

/-- Going onward keeps it. -/
theorem onward (hm : m.Tallied env) (h : m.Onward env (·.isSlot) m') : m'.Tallied env := by
  obtain hchanges | ⟨m₁, hchanges, henters⟩ := h
  · exact hm.changes hchanges
  · exact (hm.changes hchanges).enters henters

/-- A frame is left: the output is that of the run, and the callers are as they were. -/
theorem leaveTo (hm : m.Tallied env) {parent : Frame} {callers : List Frame}
    (hcallers : m.callers = parent :: callers) (locals : Array Value) :
    (m.leaveTo { parent with locals := locals } callers).Tallied env := by
  have hcalm (f : Frame) (hf : f ∈ parent :: callers) :=
    hm.calm f (List.mem_cons_of_mem _ (hcallers ▸ hf))
  refine ⟨hm.root, hm.limit, fun f hf => ?_⟩
  obtain rfl | hf := List.mem_cons.1 hf
  · exact hcalm parent List.mem_cons_self
  · exact hcalm f (List.mem_cons_of_mem _ hf)

/-- A step keeps it, whichever it is. -/
theorem next (hm : m.Tallied env) {status : Status} (h : m.Next env (·.isSlot) status m') :
    m'.Tallied env := by
  cases h with
  | onward _ _ honward => exact hm.onward honward
  | @write m₁ w _ _ hchanges =>
    have hm₁ := hm.changes hchanges
    refine ⟨hm₁.root, hm₁.limit, fun f hf => ?_⟩
    obtain rfl | hf := List.mem_cons.1 hf
    · exact hm₁.calm m₁.frame List.mem_cons_self
    · exact hm₁.calm f (List.mem_cons_of_mem _ hf)
  | finish _ _ hsame =>
    have hm₁ := hm.same hsame
    exact ⟨hm₁.root, hm₁.limit, hm₁.calm⟩
  | @back m₁ parent callers _ hcallers _ hsame =>
    have hleft := (hm.same hsame).leaveTo (hsame.callers.trans hcallers) parent.locals
    exact ⟨hleft.root, hleft.limit, hleft.calm⟩
  | @resume m₁ _ parent callers back _ hcallers _ hsame honward =>
    have hleft := (hm.same hsame).leaveTo (hsame.callers.trans hcallers) m₁.frame.locals
    have hresumed : (m₁.resumeTo back parent callers).Tallied env := ⟨hleft.root, hleft.limit, hleft.calm⟩
    exact hresumed.onward honward

end Tallied

/-- The tally holds at the start. -/
theorem tallied_start (hcapitals : env.options.capitals = .none) (p : Program) (seed : UInt64) :
    (start env.options p seed).Tallied env := by
  refine ⟨?_, fun _ _ => Nat.zero_le _, ?_⟩
  · rw [start, hcapitals]
    exact Writer.within_new
  · intro f hf
    obtain rfl := List.mem_singleton.1 hf
    nofun

/-- A step that calls no more than calm functions keeps the tally. -/
theorem Tallied.step (hm : m.Tallied env) (hbounded : m.Bounded env) (hcalm : m.CallsCalm env)
    {status : Status} (h : Running.step env m = .ok status m') : m'.Tallied env :=
  hm.next ((Running.step_gives hbounded ⟨hm.calm m.frame List.mem_cons_self, hcalm⟩).yields status m' h)

/-- So does a run of such steps. -/
theorem Tallied.reaches (hm : m.Tallied env) (hbounded : m.Bounded env)
    (hcalm : ∀ m', m.Reaches env m' → m'.CallsCalm env) (h : m.Reaches env m') : m'.Tallied env := by
  induction h with
  | refl => exact hm
  | step hreaches hstep ih => exact ih.step (hbounded.reaches hreaches) (hcalm _ hreaches) hstep

/-- The state in which a run ends. -/
def EndsIn (env : Environment) (m m' : Machine) : Prop :=
  ∃ m₁, m.Reaches env m₁ ∧ Running.step env m₁ = .ok .finished m'

theorem Reaches.head (hstep : Running.step env m = .ok .running m₁) (h : m₁.Reaches env m') :
    m.Reaches env m' := by
  induction h with
  | refl => exact .step .refl hstep
  | step _ hlast ih => exact ih.step hlast

/-- What a run gives is the output of the state in which it ends. -/
theorem endsIn_of_run {seed : UInt64} {steps : Nat} {o : Output} (h : m.run env seed steps = .output o) :
    ∃ m', m.EndsIn env m' ∧ o = m'.root.finish seed := by
  induction steps generalizing m with
  | zero => cases h
  | succ steps ih =>
    unfold run at h
    split at h
    · next m₁ hstep =>
      obtain ⟨m', ⟨last, hreaches, hlast⟩, ho⟩ := ih h
      exact ⟨m', ⟨last, hreaches.head hstep, hlast⟩, ho⟩
    · next m' hstep =>
      obtain rfl := Outcome.output.inj h
      exact ⟨m', ⟨m, .refl, hstep⟩, rfl⟩
    · cases h

end Machine

/-! ## The standard functions -/

namespace Standard

/-- A routine with a number is calm if it is with every number. -/
theorem calm_withNumber {function : String} {v : Value} {next : Float → Routine}
    (h : ∀ n, (next n).Calm) : (withNumber function v next).Calm := by
  unfold withNumber
  split
  · split
    · exact h _
    · trivial
  · trivial

theorem calm_withMode {α : Type} {function : String} {ofName? : String → Option α} {name : String}
    {next : α → Routine} (h : ∀ a, (next a).Calm) : (withMode function ofName? name next).Calm := by
  unfold withMode
  split
  · exact h _
  · trivial

theorem calm_unary {f : Value → Routine} (h : ∀ a, (f a).Calm) (args : List Value) :
    (unary f args).Calm := by
  unfold unary
  split
  · exact h _
  · trivial

theorem calm_binary {f : Value → Value → Routine} (h : ∀ a b, (f a b).Calm) (args : List Value) :
    (binary f args).Calm := by
  unfold binary
  split
  · exact h _ _
  · trivial

/-- A pool makes no edits of its own. -/
theorem calm_pool (args : List Value) : (pool args).Calm := by
  unfold pool ternary
  split
  · dsimp only
    split
    · exact fun _ _ _ _ _ => trivial
    · trivial
  · trivial

/-- Of the standard functions, only `case` changes the capitalization. -/
theorem calm_of_mem {f : Function} (h : f ∈ functions) (hcase : f.name ≠ "case") (args : List Value) :
    (f.routine args).Calm := by
  simp only [functions, List.mem_cons, List.not_mem_nil, or_false] at h
  rcases h with rfl | rfl | rfl | rfl | rfl | rfl | rfl | rfl | rfl | rfl | rfl | rfl
  · refine calm_unary (fun _ => calm_withNumber fun _ => ?_) args
    trivial
  · refine calm_unary (fun _ => ?_) args
    exact fun _ => trivial
  · exact absurd rfl hcase
  · refine calm_binary (fun _ _ => calm_withNumber fun _ => calm_withNumber fun _ => ?_) args
    exact fun _ _ => trivial
  · exact calm_pool args
  · refine calm_unary (fun _ => ?_) args
    exact fun _ => ⟨rfl, trivial⟩
  · refine calm_binary (fun _ _ => ?_) args
    exact fun _ _ => ⟨rfl, trivial⟩
  · refine calm_binary (fun _ _ => ?_) args
    exact fun _ _ => ⟨rfl, trivial⟩
  · refine calm_unary (fun _ => ?_) args
    exact fun _ => ⟨rfl, trivial⟩
  · refine calm_unary (fun _ => ?_) args
    exact fun _ _ => trivial
  · refine calm_unary (fun _ => ?_) args
    exact fun _ => calm_withMode fun _ => trivial
  · refine calm_unary (fun _ => ?_) args
    exact fun _ => trivial

/-- A state that is not about to call `case`. -/
def sparesCase (m : Machine) : Bool :=
  match m.nextInstr? with
  | some (.nativeCall id _) => (registry.get? id.toNat).all (·.name ≠ "case")
  | _ => true

/-- A machine that calls no function that sets a case calls calm ones. -/
theorem callsCalm_of_sparesCase {env : Environment} {m : Machine} (hregistry : env.registry = registry)
    (h : sparesCase m) : m.CallsCalm env := by
  intro id count f hnext hf
  rw [hregistry] at hf
  have hname : f.name ≠ "case" := by
    simpa [sparesCase, hnext, hf] using h
  refine calm_of_mem (List.mem_of_getElem? (i := id.toNat) ?_) hname
  simpa [registry, Registry.get?] using hf

end Standard

/-! ## The limit -/

/-- **The limit holds for what is printed.** Unless a run changes the capitalization, the main text that
it gives is longer than the limit by no more than what the slots of main show. -/
theorem Program.length_main_le {env : Environment} (p : Program) (seed : UInt64) {limit : Nat}
    (hlimit : env.options.charLimit = some limit) (hcapitals : env.options.capitals = .none)
    (hcalm : ∀ m, (Machine.start env.options p seed).Reaches env m → m.CallsCalm env) {o : Output}
    (h : p.run env seed = .output o) :
    ∃ m main, (Machine.start env.options p seed).EndsIn env m ∧ o = m.root.finish seed ∧
      m.root.chains[0]? = some main ∧ o.main = main.render ∧
      o.main.length ≤ limit + main.slotLength := by
  obtain ⟨m, ⟨last, hreaches, hlast⟩, ho⟩ := Machine.endsIn_of_run h
  have hbounded := Machine.bounded_start env p seed
  have htallied := ((Machine.tallied_start hcapitals p seed).reaches hbounded hcalm hreaches).step
    (hbounded.reaches hreaches) (hcalm last hreaches) hlast
  obtain ⟨main, hmain, -, -⟩ := htallied.root.valid.mainChain
  have htext : o.main = main.render := by
    rw [ho, htallied.root.valid.main_finish, Writer.mainText, hmain]
  refine ⟨m, main, ⟨last, hreaches, hlast⟩, ho, hmain, htext, ?_⟩
  have hprinted := htallied.root.printed main hmain
  have hcount := htallied.limit limit hlimit
  rw [htext, main.length_render]
  omega

/-- An environment in which one character may be printed. -/
def Environment.single : Environment := { registry := Standard.registry, options := { charLimit := some 1 } }

/-- Checks all the states of a run, which has to end within so many steps. -/
def Machine.holdsAlong (env : Environment) (check : Machine → Bool) : (steps : Nat) → Machine → Bool
  | 0, _ => false
  | steps + 1, m =>
    check m && match Running.step env m with
      | .ok .running m' => holdsAlong env check steps m'
      | _ => true

/-- What holds along a run holds of every state it reaches. -/
theorem Machine.check_of_reaches {env : Environment} {check : Machine → Bool} {m m' : Machine} {steps : Nat}
    (h : m.holdsAlong env check steps) (hreaches : m.Reaches env m') : check m' := by
  have hlater : ∃ steps, m'.holdsAlong env check steps := by
    induction hreaches with
    | refl => exact ⟨steps, h⟩
    | step _ hstep ih =>
      obtain ⟨_ | steps, hsteps⟩ := ih
      · cases hsteps
      · rw [holdsAlong, hstep, Bool.and_eq_true] at hsteps
        exact ⟨steps, hsteps.2⟩
  obtain ⟨_ | steps, hsteps⟩ := hlater
  · cases hsteps
  · rw [holdsAlong, Bool.and_eq_true] at hsteps
    exact hsteps.1

/-- The one character of `a` is counted, and the three that the target shows are not. -/
theorem Program.length_main_le_single :
    ∃ p o m main, ({} : Engine).compile "main" "a[target:x][send:x;bcd]" false = .ok p ∧
      p.run .single 0 = .output o ∧ (Machine.start Environment.single.options p 0).EndsIn .single m ∧
      m.root.chains[0]? = some main ∧ o.main = main.render ∧ o.main = "abcd" ∧
      o.main.length ≤ 1 + main.slotLength := by
  have hends : (({} : Engine).compile "main" "a[target:x][send:x;bcd]" false).toOption.any fun p =>
      (Machine.start Environment.single.options p 0).holdsAlong .single Standard.sparesCase 20 &&
        (p.run .single 0).output?.any fun o => o.main = "abcd" := by
    decide +kernel
  simp only [Option.any_eq_true, toOption_eq_some, Outcome.output?_eq_some, Bool.and_eq_true,
    decide_eq_true_eq] at hends
  obtain ⟨p, hp, hcase, o, ho, htext⟩ := hends
  obtain ⟨m, main, hm, -, hmain, hrender, hle⟩ := length_main_le p 0 rfl rfl
    (fun m hm => Standard.callsCalm_of_sparesCase rfl (Machine.check_of_reaches hcase hm)) ho
  exact ⟨p, o, m, main, hp, ho, hm, hmain, hrender, htext, hle⟩

/-- What is sent to a target is not counted. -/
theorem Engine.send_past_limit :
    ∃ p o, ({} : Engine).compile "main" "[target:x][send:x;abcdef]" false = .ok p ∧
      ({} : Engine).run p 0 { charLimit := some 3 } = .output o ∧ o.main = "abcdef" :=
  exists_output _ _ _ _ _ _ (by decide +kernel)

end Wordloom
