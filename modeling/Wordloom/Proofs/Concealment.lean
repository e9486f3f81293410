import Wordloom.Proofs.Channels

/-!
# Wordloom.Proofs.Concealment

What is written to hidden and internal channels is kept from main. Without the edits that are made while
such a channel is the innermost one, the same channels are opened and closed, and main goes through the
same states (`Agrees`). So two outputs that differ in such edits only have the same main text.
-/

namespace Wordloom.Writer

/-! ## Reach -/

/-- The innermost channel is hidden or internal. -/
def conceals (w : Writer) : Bool :=
  match w.active.head?.bind (w.labels[·]?) with
  | some label => label.2 != .visible
  | none => false

variable {w w' : Writer}

/-- What is written while a hidden or internal channel is the innermost one does not reach main. -/
theorem zero_not_mem_targets (h : w.Valid) (hconceals : w.conceals) : 0 ∉ w.targets := by
  obtain ⟨main, hmain, -, hvisible⟩ := h.mainChain
  unfold conceals at hconceals
  unfold targets
  cases hactive : w.active with
  | nil => simp [reach]
  | cons i below =>
    rw [hactive, List.head?_cons, Option.bind_some, labels, Array.getElem?_map] at hconceals
    cases hchain : w.chains[i]? with
    | none => simp [hchain] at hconceals
    | some chain =>
      have hhidden : chain.visibility ≠ .visible := by
        simpa [hchain, Chain.label] using hconceals
      have hne : 0 ≠ i := by
        rintro rfl
        rw [hmain] at hchain
        exact hhidden (Option.some.inj hchain ▸ hvisible)
      rw [reach, if_neg (by simp), hchain]
      cases hvisibility : chain.visibility with
      | visible => exact absurd hvisibility hhidden
      | hidden => simpa [hvisibility] using hne
      | internal => simpa [hvisibility] using ⟨hne, zero_not_mem_reach w.chains below⟩

/-- The channels that are reached depend on names, visibilities and the open channels only. -/
theorem reach_congr {chains chains' : Array Chain} (h : chains.map Chain.label = chains'.map Chain.label)
    (internal : Bool) (active : List Nat) : reach chains internal active = reach chains' internal active := by
  induction active generalizing internal with
  | nil => rfl
  | cons i below ih =>
    have hlabel := congrArg (·[i]?) h
    simp only [Array.getElem?_map] at hlabel
    rw [reach, reach]
    cases hchain : chains[i]? with
    | none =>
      rw [hchain, Option.map_none, eq_comm, Option.map_eq_none_iff] at hlabel
      rw [hlabel]
    | some chain =>
      rw [hchain, Option.map_some, eq_comm, Option.map_eq_some_iff] at hlabel
      obtain ⟨chain', hchain', heq⟩ := hlabel
      have hvisibility : chain'.visibility = chain.visibility := congrArg Prod.snd heq
      rw [hchain']
      simp only [hvisibility, ih]

/-! ## What happens to main -/

/-- Two outputs with the same channels and the same main. -/
structure Agrees (w w' : Writer) : Prop where
  channels : w.SameChannels w'
  main : w.chains[0]? = w'.chains[0]?

theorem Agrees.refl (w : Writer) : w.Agrees w := ⟨⟨rfl, rfl, rfl, rfl⟩, rfl⟩

theorem Agrees.mainText_eq (h : w.Agrees w') : w.mainText = w'.mainText := by
  rw [mainText, mainText, h.main]

theorem Agrees.onTargets (h : w.Agrees w') (hvalid : w.Valid) {f : Chain → Chain}
    (hf : ∀ c, (f c).label = c.label) : (w.onTargets f).Agrees (w'.onTargets f) := by
  have htargets : w.targets = w'.targets := by
    rw [targets, targets, h.channels.active]
    exact reach_congr h.channels.labels _ _
  refine ⟨⟨?_, h.channels.byName, h.channels.active, h.channels.defaultCase⟩, ?_⟩
  · rw [(w.onTargets_sameChannels hf).labels, (w'.onTargets_sameChannels hf).labels, h.channels.labels]
  · rw [hvalid.main_onTargets, (hvalid.of_sameChannels h.channels.symm).main_onTargets, htargets, h.main]

/-- How much has been written is of no account. -/
theorem Agrees.withCount (h : w.Agrees w') (n n' : Nat) :
    ({ w with charsWritten := n } : Writer).Agrees { w' with charsWritten := n' } :=
  ⟨⟨h.channels.labels, h.channels.byName, h.channels.active, h.channels.defaultCase⟩, h.main⟩

theorem Agrees.edit (h : w.Agrees w') (hvalid : w.Valid) (e : Edit) :
    (w.edit e).Agrees (w'.edit e) := by
  unfold Writer.edit
  split
  · split
    · exact h
    · exact (h.withCount _ _).onTargets (hvalid.withCount _) fun c => c.label_edit _
  · exact h.onTargets hvalid fun c => c.label_edit e

theorem Agrees.openChannel (h : w.Agrees w') (name : String) (visibility : Visibility) :
    (w.openChannel name visibility).Agrees (w'.openChannel name visibility) := by
  obtain ⟨⟨hlabels, hbyName, hactive, hcase⟩, hmain⟩ := id h
  have hsize : w.chains.size = w'.chains.size := by
    simpa [labels] using congrArg Array.size hlabels
  unfold Writer.openChannel
  rw [hbyName, hactive, hcase, hsize]
  split
  · next i _ =>
    split
    · exact h
    · refine ⟨⟨?_, rfl, rfl, rfl⟩, ?_⟩
      · dsimp only [labels] at hlabels ⊢
        rw [map_label_reopened, map_label_reopened, hlabels]
      · rw [Array.getElem?_modify, Array.getElem?_modify, hmain]
  · refine ⟨⟨?_, rfl, rfl, rfl⟩, ?_⟩
    · dsimp only [labels] at hlabels ⊢
      rw [Array.map_push, Array.map_push, hlabels]
    · rw [Array.getElem?_push, Array.getElem?_push, hsize, hmain]

theorem Agrees.closeChannel (h : w.Agrees w') : w.closeChannel.2.Agrees w'.closeChannel.2 := by
  obtain ⟨⟨hlabels, hbyName, hactive, hcase⟩, hmain⟩ := id h
  unfold Writer.closeChannel
  rw [hactive]
  split
  · exact ⟨⟨hlabels, hbyName, rfl, hcase⟩, hmain⟩
  · exact h

/-- An edit that is concealed from main does nothing to it. -/
theorem Agrees.edit_concealed (h : w.Agrees w') (hvalid : w.Valid) (hconceals : w.conceals)
    (e : Edit) : (w.edit e).Agrees w' := by
  obtain ⟨hlabels, hbyName, hactive, hcase⟩ := w.edit_sameChannels e
  refine ⟨⟨hlabels.trans h.channels.labels, hbyName.trans h.channels.byName, hactive.trans h.channels.active,
    hcase.trans h.channels.defaultCase⟩, ?_⟩
  have htargets := zero_not_mem_targets hvalid hconceals
  rw [← h.main]
  unfold Writer.edit
  split
  · split
    · rfl
    · exact ((hvalid.withCount _).main_onTargets _).trans (if_neg htargets)
  · exact (hvalid.main_onTargets _).trans (if_neg htargets)

/-! ## What is shown -/

/-- The operations without the edits that are made while the innermost channel is hidden or internal. -/
def shown (w : Writer) : List Op → List Op
  | [] => []
  | .edit e :: ops =>
    if w.conceals then shown (w.edit e) ops else .edit e :: shown (w.edit e) ops
  | op :: ops => op :: shown (w.apply op) ops

/-- Edits that are concealed from main can be left out. -/
theorem Agrees.run_shown (h : w.Agrees w') (hvalid : w.Valid) (ops : List Op) :
    (w.run ops).Agrees (w'.run (w.shown ops)) := by
  induction ops generalizing w w' with
  | nil => exact h
  | cons op ops ih =>
    rw [run_cons]
    cases op with
    | openChannel name visibility => exact ih (h.openChannel name visibility) (hvalid.apply _)
    | closeChannel => exact ih h.closeChannel (hvalid.apply .closeChannel)
    | edit e =>
      rw [shown]
      split
      · next hconceals => exact ih (h.edit_concealed hvalid hconceals e) (hvalid.apply (.edit e))
      · exact ih (h.edit hvalid e) (hvalid.apply (.edit e))

/-- **Hidden and internal text does not influence main.** Two sequences of operations that differ only in
edits made while a hidden or internal channel is the innermost one give the same main text, whatever
channels are opened, closed and opened again. -/
theorem mainText_eq_of_shown_eq (mode : Capitals) {ops ops' : List Op}
    (h : (new mode).shown ops = (new mode).shown ops') :
    ((new mode).run ops).mainText = ((new mode).run ops').mainText := by
  have hagrees := (Agrees.refl (new mode)).run_shown (valid_new mode) ops
  have hagrees' := (Agrees.refl (new mode)).run_shown (valid_new mode) ops'
  rw [h] at hagrees
  rw [hagrees.mainText_eq, hagrees'.mainText_eq]

/-- A channel is hidden at first and visible later; what it holds, and an internal channel above it, are
different in `plots` and `plans`. -/
def plots : List Op :=
  [.edit (.print "a"), .openChannel "x" .hidden, .edit (.setCase .upper), .edit (.print "secret"),
    .edit .article, .openChannel "y" .internal, .edit (.target "t"), .closeChannel, .closeChannel,
    .openChannel "x" .visible, .edit (.print "b"), .closeChannel, .edit (.print "c")]

def plans : List Op :=
  [.edit (.print "a"), .openChannel "x" .hidden, .openChannel "y" .internal,
    .edit (.write "t" "other" true), .closeChannel, .edit (.setCase .lower), .closeChannel,
    .openChannel "x" .visible, .edit (.print "b"), .closeChannel, .edit (.print "c")]

theorem mainText_eq_of_shown_eq_plots :
    (new .first).shown plots = (new .first).shown plans ∧
    ((new .first).run plots).mainText = ((new .first).run plans).mainText := by
  have h : (new .first).shown plots = (new .first).shown plans := by decide +kernel
  exact ⟨h, mainText_eq_of_shown_eq .first h⟩

end Wordloom.Writer
