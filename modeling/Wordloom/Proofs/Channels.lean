import Mathlib.Data.List.Nodup
import Wordloom.Output.Writer

/-!
# Wordloom.Proofs.Channels

The channels of an output, whatever is done to it. Edits change nothing but the text of channels; what
channels are called, who sees them and which of them are open depends on how they are opened and closed
only. Main is there from the start, stays open below all others and stays visible (`Writer.Valid`).
-/

namespace Wordloom

/-! ## Edits -/

/-- What an edit leaves as it is: the name of a channel and who sees it. -/
def Chain.label (chain : Chain) : String × Visibility := (chain.name, chain.visibility)

theorem Chain.label_finishText (chain : Chain) : chain.finishText.label = chain.label := by
  unfold finishText
  split <;> rfl

theorem Chain.case_finishText (chain : Chain) : chain.finishText.case = chain.case := by
  unfold finishText
  split <;> rfl

theorem Chain.label_edit (chain : Chain) (e : Edit) : (chain.edit e).label = chain.label := by
  cases e with
  | print text =>
    simp only [edit, print]
    split <;> rfl
  | article => exact Chain.label_finishText _
  | setCase mode => rfl
  | target name => exact Chain.label_finishText _
  | write name text overwrite => rfl
  | clear name =>
    simp only [edit, clearTarget]
    split <;> rfl

/-- A change of an element that changes something of it in its own way. -/
theorem map_modify {α β : Type} {g : α → β} {f : α → α} {f' : β → β} (h : ∀ a, g (f a) = f' (g a))
    (xs : Array α) (i : Nat) : (xs.modify i f).map g = (xs.map g).modify i f' := by
  refine Array.ext_getElem? fun j => ?_
  rw [Array.getElem?_map, Array.getElem?_modify, Array.getElem?_modify, Array.getElem?_map]
  split
  · cases xs[j]? with
    | none => rfl
    | some a => exact congrArg some (h a)
  · rfl

/-- A change of an element that leaves something of it as it is. -/
theorem map_modify_of_eq {α β : Type} {g : α → β} {f : α → α} (h : ∀ a, g (f a) = g a) (xs : Array α)
    (i : Nat) : (xs.modify i f).map g = xs.map g := by
  have hmap : (xs.modify i f).map g = (xs.map g).modify i id := map_modify h xs i
  rw [hmap]
  refine Array.ext_getElem? fun j => ?_
  rw [Array.getElem?_modify]
  split <;> simp

namespace Writer

/-- Names and visibilities of all channels. -/
def labels (w : Writer) : Array (String × Visibility) := w.chains.map Chain.label

/-- What is left of a writer without the text of its channels. -/
structure SameChannels (w w' : Writer) : Prop where
  labels : w.labels = w'.labels
  byName : w.byName = w'.byName
  active : w.active = w'.active
  defaultCase : w.defaultCase = w'.defaultCase

variable {w : Writer} {f : Chain → Chain}

theorem SameChannels.symm {w' : Writer} (h : w.SameChannels w') : w'.SameChannels w :=
  ⟨h.labels.symm, h.byName.symm, h.active.symm, h.defaultCase.symm⟩

theorem map_label_foldl_modify (h : ∀ c, (f c).label = c.label) (is : List Nat) (chains : Array Chain) :
    (is.foldl (fun chains i => chains.modify i f) chains).map Chain.label = chains.map Chain.label := by
  induction is generalizing chains with
  | nil => rfl
  | cons i is ih => rw [List.foldl_cons, ih, map_modify_of_eq h]

theorem onTargets_sameChannels (w : Writer) (h : ∀ c, (f c).label = c.label) :
    (w.onTargets f).SameChannels w := ⟨map_label_foldl_modify h _ _, rfl, rfl, rfl⟩

theorem edit_sameChannels (w : Writer) (e : Edit) : (w.edit e).SameChannels w := by
  unfold edit
  split
  · split
    · exact ⟨rfl, rfl, rfl, rfl⟩
    · obtain ⟨hlabels, hbyName, hactive, hcase⟩ :=
        onTargets_sameChannels { w with charsWritten := _ } fun c => c.label_edit (.print _)
      exact ⟨hlabels, hbyName, hactive, hcase⟩
  · exact onTargets_sameChannels w fun c => c.label_edit e

/-! ## Opening and closing -/

/-- Opening a channel again changes who sees it. -/
theorem map_label_reopened (chains : Array Chain) (i : Nat) (visibility : Visibility) :
    (chains.modify i fun chain => { chain with visibility := visibility }).map Chain.label =
      (chains.map Chain.label).modify i fun label => (label.1, visibility) := by
  refine map_modify ?_ chains i
  exact fun _ => rfl

/-- What opening a channel does to names, visibilities and the open channels. -/
theorem openChannel_cases (w : Writer) (name : String) (visibility : Visibility) :
    (∃ i, w.byName[name]? = some i ∧ i ∈ w.active ∧ w.openChannel name visibility = w) ∨
    (∃ i, w.byName[name]? = some i ∧ i ∉ w.active ∧
      (w.openChannel name visibility).labels = w.labels.modify i (fun label => (label.1, visibility)) ∧
      (w.openChannel name visibility).byName = w.byName ∧
      (w.openChannel name visibility).active = i :: w.active) ∨
    (w.byName[name]? = none ∧
      (w.openChannel name visibility).labels = w.labels.push (name, visibility) ∧
      (w.openChannel name visibility).byName = w.byName.insert name w.labels.size ∧
      (w.openChannel name visibility).active = w.labels.size :: w.active) := by
  unfold openChannel
  split
  · next i hfind =>
    split
    · next hactive => exact .inl ⟨i, hfind, by simpa using hactive, rfl⟩
    · next hactive =>
      exact .inr (.inl ⟨i, hfind, by simpa using hactive, map_label_reopened .., rfl, rfl⟩)
  · next hfind =>
    refine .inr (.inr ⟨hfind, ?_, ?_, ?_⟩)
    · simp [labels, Chain.label, Chain.new]
    · simp [labels]
    · simp [labels]

/-- Main is the first channel and stays visible, no two channels have the same name, each is found by its
name, and the open channels are channels, none of them open twice, with main below all others. -/
structure Valid (w : Writer) : Prop where
  main : w.labels[0]? = some (mainChannel, .visible)
  names : (w.labels.toList.map (·.1)).Nodup
  byName : ∀ (name : String) (i : Nat), w.byName[name]? = some i ↔ w.labels[i]?.map Prod.fst = some name
  bottom : w.active.getLast? = some 0
  nodup : w.active.Nodup
  indices : ∀ i ∈ w.active, i < w.labels.size

theorem valid_new (mode : Capitals) : (new mode).Valid := by
  refine ⟨by simp [new, labels, Chain.new, Chain.label], by simp [new, labels], fun name i => ?_, rfl,
    by simp [new], by simp [new, labels]⟩
  have hlabels : (new mode).labels = #[(mainChannel, .visible)] := by
    simp [new, labels, Chain.new, Chain.label]
  have hbyName : (new mode).byName[name]? = if mainChannel = name then some 0 else none := by
    simp [new, Std.TreeMap.getElem?_insert, Std.LawfulEqCmp.compare_eq_iff_eq]
  rw [hlabels, hbyName]
  cases i with
  | zero => simp
  | succ i => simp

theorem Valid.of_sameChannels {w' : Writer} (h : w.Valid) (hsame : w'.SameChannels w) :
    w'.Valid := by
  obtain ⟨hmain, hnames, hbyName, hbottom, hnodup, hindices⟩ := h
  rw [← hsame.labels] at hmain hnames hindices hbyName
  rw [← hsame.byName] at hbyName
  rw [← hsame.active] at hbottom hnodup hindices
  exact ⟨hmain, hnames, hbyName, hbottom, hnodup, hindices⟩

theorem Valid.withCount (h : w.Valid) (n : Nat) :
    ({ w with charsWritten := n } : Writer).Valid := h.of_sameChannels ⟨rfl, rfl, rfl, rfl⟩

theorem Valid.ne_nil (h : w.Valid) : w.active ≠ [] := by
  intro hnil
  have := h.bottom
  rw [hnil] at this
  cases this

theorem Valid.mem_zero (h : w.Valid) : 0 ∈ w.active := List.mem_of_getLast? h.bottom

/-- A name that is found is that of a channel. -/
theorem Valid.lt_size (h : w.Valid) {name : String} {i : Nat} (hi : w.byName[name]? = some i) :
    i < w.labels.size := by
  obtain ⟨label, hlabel, -⟩ := Option.map_eq_some_iff.1 ((h.byName name i).1 hi)
  exact (Array.getElem?_eq_some_iff.1 hlabel).1

/-- A name that is not found is not that of any channel. -/
theorem Valid.not_mem_names (h : w.Valid) {name : String} (hname : w.byName[name]? = none) :
    name ∉ w.labels.toList.map (·.1) := by
  intro hmem
  obtain ⟨label, hlabel, rfl⟩ := List.mem_map.1 hmem
  obtain ⟨i, hi⟩ := List.mem_iff_getElem?.1 hlabel
  have hfound := (h.byName label.1 i).2 (by rw [← Array.getElem?_toList, hi]; rfl)
  rw [hname] at hfound
  cases hfound

theorem Valid.openChannel (h : w.Valid) (name : String) (visibility : Visibility) :
    (w.openChannel name visibility).Valid := by
  have hbottom (i : Nat) : (i :: w.active).getLast? = some 0 := by
    rw [List.getLast?_cons_of_ne_nil h.ne_nil, h.bottom]
  obtain ⟨i, -, -, heq⟩ | ⟨i, hfind, hclosed, hlabels, hbyName, hactive⟩ |
      ⟨hfind, hlabels, hbyName, hactive⟩ := w.openChannel_cases name visibility
  · rwa [heq]
  · have hne : i ≠ 0 := fun hi => hclosed (hi ▸ h.mem_zero)
    have hnames : (w.labels.modify i fun label => (label.1, visibility)).map (·.1) =
        w.labels.map (·.1) := by
      refine map_modify_of_eq ?_ w.labels i
      exact fun _ => rfl
    constructor
    · rw [hlabels, Array.getElem?_modify, if_neg hne, h.main]
    · rw [hlabels, ← Array.toList_map, hnames, Array.toList_map]
      exact h.names
    · intro n j
      rw [hlabels, hbyName, ← Array.getElem?_map, hnames, Array.getElem?_map]
      exact h.byName n j
    · rw [hactive, hbottom]
    · rw [hactive]
      exact List.nodup_cons.2 ⟨hclosed, h.nodup⟩
    · intro j hj
      rw [hlabels, Array.size_modify]
      rw [hactive] at hj
      obtain rfl | hj := List.mem_cons.1 hj
      · exact h.lt_size hfind
      · exact h.indices j hj
  · have hnew : w.labels.size ∉ w.active := fun hmem => Nat.lt_irrefl _ (h.indices _ hmem)
    constructor
    · rw [hlabels, Array.getElem?_push_lt (h.indices 0 h.mem_zero), ← Array.getElem?_eq_getElem, h.main]
    · rw [hlabels, Array.toList_push, List.map_append, List.nodup_append]
      refine ⟨h.names, by simp, ?_⟩
      intro a ha b hb
      obtain rfl := List.mem_singleton.1 hb
      exact fun heq => h.not_mem_names hfind (heq ▸ ha)
    · intro n j
      rw [hlabels, hbyName, Std.TreeMap.getElem?_insert, Array.getElem?_push]
      simp only [Std.LawfulEqCmp.compare_eq_iff_eq]
      by_cases hj : j = w.labels.size
      · subst hj
        by_cases hn : name = n
        · simp [hn]
        · have hother := h.byName n w.labels.size
          simpa [hn] using hother
      · by_cases hn : name = n
        · subst hn
          have hother := h.byName name j
          rw [hfind] at hother
          rw [if_pos rfl, if_neg hj, ← hother]
          simpa [eq_comm] using hj
        · rw [if_neg hn, if_neg hj]
          exact h.byName n j
    · rw [hactive, hbottom]
    · rw [hactive]
      exact List.nodup_cons.2 ⟨hnew, h.nodup⟩
    · intro j hj
      rw [hlabels, Array.size_push]
      rw [hactive] at hj
      obtain rfl | hj := List.mem_cons.1 hj
      · omega
      · have := h.indices j hj
        omega

theorem Valid.closeChannel (h : w.Valid) : w.closeChannel.2.Valid := by
  unfold Writer.closeChannel
  split
  · next i next rest hactive =>
    obtain ⟨hmain, hnames, hbyName, hbottom, hnodup, hindices⟩ := h
    rw [hactive] at hbottom hnodup hindices
    refine ⟨hmain, hnames, hbyName, ?_, (List.nodup_cons.1 hnodup).2, ?_⟩
    · rwa [List.getLast?_cons_cons] at hbottom
    · intro j hj
      exact hindices j (List.mem_cons_of_mem _ hj)
  · exact h

theorem Valid.apply (h : w.Valid) (op : Op) : (w.apply op).Valid := by
  cases op with
  | openChannel name visibility => exact h.openChannel name visibility
  | closeChannel => exact h.closeChannel
  | edit e => exact h.of_sameChannels (w.edit_sameChannels e)

/-- Does one operation after the other. -/
def run (w : Writer) (ops : List Op) : Writer := ops.foldl apply w

theorem run_cons (w : Writer) (op : Op) (ops : List Op) : w.run (op :: ops) = (w.apply op).run ops := rfl

theorem Valid.run (h : w.Valid) (ops : List Op) : (w.run ops).Valid := by
  induction ops generalizing w with
  | nil => exact h
  | cons op ops ih => exact ih (h.apply op)

/-! ## Reach -/

theorem Valid.mainChain (h : w.Valid) :
    ∃ chain, w.chains[0]? = some chain ∧ chain.name = mainChannel ∧ chain.visibility = .visible := by
  have hmain := h.main
  rw [labels, Array.getElem?_map, Option.map_eq_some_iff] at hmain
  obtain ⟨chain, hchain, hlabel⟩ := hmain
  exact ⟨chain, hchain, congrArg Prod.fst hlabel, congrArg Prod.snd hlabel⟩

/-- Past an internal channel, main is out of reach. -/
theorem zero_not_mem_reach (chains : Array Chain) (active : List Nat) :
    0 ∉ reach chains true active := by
  induction active with
  | nil => simp [reach]
  | cons i below ih =>
    by_cases hi : i = 0
    · simp [reach, hi]
    · have hne : 0 ≠ i := Ne.symm hi
      rw [reach, if_neg (by simpa using hi)]
      split
      · simpa using hne
      · split <;> simp [hne, ih]

theorem reach_sublist (chains : Array Chain) (active : List Nat) :
    (reach chains true active).Sublist active := by
  induction active with
  | nil => exact .slnil
  | cons i below ih =>
    have hsingle : [i].Sublist (i :: below) := (List.nil_sublist below).cons_cons i
    rw [reach]
    split
    · exact List.nil_sublist _
    · split
      · exact hsingle
      · split
        · simp
        · exact hsingle
        · exact ih.cons_cons i

/-- Nothing is written to a channel twice. -/
theorem Valid.nodup_targets (h : w.Valid) : w.targets.Nodup := by
  have hnodup := h.nodup
  unfold targets
  cases hactive : w.active with
  | nil => simp [reach]
  | cons i below =>
    rw [hactive, List.nodup_cons] at hnodup
    have hbelow := reach_sublist w.chains below
    rw [reach, if_neg (by simp)]
    split
    · simp
    · split
      · split
        · next hi => simpa using hi
        · simp
      · simp
      · exact List.nodup_cons.2 ⟨fun hmem => hnodup.1 (hbelow.subset hmem), hbelow.nodup hnodup.2⟩

/-- What changing some channels does to one of them. -/
theorem getElem?_foldl_modify {is : List Nat} (h : is.Nodup) (j : Nat) (chains : Array Chain) :
    (is.foldl (fun chains i => chains.modify i f) chains)[j]? =
      if j ∈ is then chains[j]?.map f else chains[j]? := by
  induction is generalizing chains with
  | nil => rfl
  | cons i is ih =>
    obtain ⟨hi, his⟩ := List.nodup_cons.1 h
    rw [List.foldl_cons, ih his, Array.getElem?_modify]
    by_cases heq : i = j
    · subst heq
      simp [hi]
    · simp [heq, Ne.symm heq]

/-- What is written either reaches main once or leaves it as it is. -/
theorem Valid.main_onTargets (h : w.Valid) (f : Chain → Chain) :
    (w.onTargets f).chains[0]? =
      if 0 ∈ w.targets then w.chains[0]?.map f else w.chains[0]? :=
  getElem?_foldl_modify h.nodup_targets 0 w.chains

/-! ## The text of main -/

theorem channels_perm (w : Writer) : w.channels.Perm
    (w.chains.toList.map fun chain => ⟨chain.name, chain.visibility, chain.render⟩) :=
  List.mergeSort_perm _ _

/-- The main text of the finished output is the text of main: there is only one channel of that name. -/
theorem Valid.main_finish (h : w.Valid) (seed : UInt64) : (w.finish seed).main = w.mainText := by
  obtain ⟨chain, hchain, hname, -⟩ := h.mainChain
  have hnodup : (w.channels.map (·.name)).Nodup := by
    rw [(w.channels_perm.map (·.name)).nodup_iff, List.map_map]
    have hnames := h.names
    rwa [labels, Array.toList_map, List.map_map] at hnames
  have hmem : (⟨chain.name, chain.visibility, chain.render⟩ : Channel) ∈ w.channels := by
    rw [w.channels_perm.mem_iff]
    exact List.mem_map_of_mem (Array.mem_toList_iff.2 (Array.mem_of_getElem? hchain))
  have hfind : w.channels.find? (·.name == mainChannel) =
      some ⟨chain.name, chain.visibility, chain.render⟩ := by
    obtain ⟨found, hfound⟩ : ∃ found, w.channels.find? (·.name == mainChannel) = some found := by
      rw [← Option.isSome_iff_exists, List.find?_isSome]
      exact ⟨_, hmem, by simpa using hname⟩
    rw [hfound]
    have heq := List.inj_on_of_nodup_map hnodup (List.mem_of_find?_eq_some hfound) hmem
    exact congrArg some (heq (by simpa [hname] using List.find?_some hfound))
  rw [Output.main, Output.get?, finish, hfind, mainText, hchain]

end Writer

end Wordloom
