import Wordloom.Proofs.Channels
import Wordloom.Proofs.Printing

/-!
# Wordloom.Proofs.Delivery

Where what is written goes. Whatever is opened, opened again, closed and written, the channels stay in order
(`Writer.Orderly`): main below all others and visible, every channel found by its name, and the channels a
write reaches headed by the innermost one. So a write gets to a channel once or not at all, and the finished
output holds main and every channel that was ever opened, each of them once (`Writer.delivers_once`).
-/

namespace Wordloom

/-- Printing nothing changes nothing. -/
theorem Chain.print_empty (chain : Chain) : chain.print "" = chain := by
  have hword : Article.firstWord? "" = none := by decide +kernel
  simp [print, Capitalizer.apply_empty, hword]

namespace Writer

/-- The channels, the index of their names, the open ones and those a write reaches fit together. -/
structure Orderly (w : Writer) : Prop where
  /-- main is open below all other channels and nowhere else -/
  bottom : ∃ inner, w.active = inner ++ [0] ∧ 0 ∉ inner
  /-- no channel is open twice -/
  nodup : w.active.Nodup
  main : ∃ chain, w.chains[0]? = some chain ∧ chain.name = mainChannel ∧ chain.visibility = .visible
  active_lt : ∀ i ∈ w.active, i < w.chains.size
  targets_lt : ∀ i ∈ w.targets, i < w.chains.size
  names : (w.chains.toList.map (·.name)).Nodup
  /-- the index finds the channel of a name, and nothing else -/
  byName : ∀ (name : String) (i : Nat),
    w.byName[name]? = some i ↔ ∃ chain, w.chains[i]? = some chain ∧ chain.name = name
  /-- a write reaches the innermost channel first, and main if that is main or visible -/
  innermost : ∃ i below chain rest, w.active = i :: below ∧ w.chains[i]? = some chain ∧
    w.targets = i :: rest ∧ (0 ∈ w.targets ↔ i = 0 ∨ chain.visibility = .visible)
  targets_nodup : w.targets.Nodup

namespace Valid

variable {w : Writer}

/-- Below main there is nothing, and above it there is no main. -/
theorem active_eq_append (h : w.Valid) : ∃ inner, w.active = inner ++ [0] ∧ 0 ∉ inner := by
  obtain ⟨inner, hinner⟩ := List.getLast?_eq_some_iff.1 h.bottom
  refine ⟨inner, hinner, fun hmem => ?_⟩
  have hnodup := h.nodup
  rw [hinner, List.nodup_append] at hnodup
  exact hnodup.2.2 0 hmem 0 (List.mem_singleton_self 0) rfl

theorem lt_size_of_active (h : w.Valid) {i : Nat} (hi : i ∈ w.active) : i < w.chains.size := by
  have hlt := h.indices i hi
  rwa [labels, Array.size_map] at hlt

/-- The walk from the innermost channel down: it starts there, stays among the open channels, and gets to
main from main itself and from a visible channel only. -/
theorem targets_cases (h : w.Valid) :
    ∃ i below chain rest, w.active = i :: below ∧ w.chains[i]? = some chain ∧ w.targets = i :: rest ∧
      (0 ∈ w.targets ↔ i = 0 ∨ chain.visibility = .visible) ∧ ∀ j ∈ rest, j ∈ w.active := by
  obtain ⟨i, below, hactive⟩ := List.exists_cons_of_ne_nil h.ne_nil
  obtain ⟨chain, hchain⟩ : ∃ chain, w.chains[i]? = some chain :=
    ⟨_, Array.getElem?_eq_getElem (h.lt_size_of_active (hactive ▸ List.mem_cons_self))⟩
  have htargets : w.targets = reach w.chains false (i :: below) := by rw [targets, hactive]
  rw [reach, if_neg (by simp), hchain] at htargets
  cases hvisibility : chain.visibility with
  | visible =>
    by_cases hi : i = 0
    · have htargets : w.targets = [i] := by simpa [hvisibility, hi] using htargets
      exact ⟨i, below, chain, [], hactive, hchain, htargets, by simp [htargets, hi], by simp⟩
    · have htargets : w.targets = [i, 0] := by simpa [hvisibility, hi] using htargets
      refine ⟨i, below, chain, [0], hactive, hchain, htargets, by simp [htargets, hvisibility], ?_⟩
      intro j hj
      exact List.mem_singleton.1 hj ▸ h.mem_zero
  | hidden =>
    have htargets : w.targets = [i] := by simpa [hvisibility] using htargets
    exact ⟨i, below, chain, [], hactive, hchain, htargets, by simp [htargets, hvisibility, eq_comm],
      by simp⟩
  | internal =>
    have htargets : w.targets = i :: reach w.chains true below := by simpa [hvisibility] using htargets
    refine ⟨i, below, chain, _, hactive, hchain, htargets, ?_, ?_⟩
    · simp [htargets, hvisibility, zero_not_mem_reach, eq_comm]
    · intro j hj
      rw [hactive]
      exact List.mem_cons_of_mem _ ((reach_sublist w.chains below).subset hj)

theorem orderly (h : w.Valid) : w.Orderly := by
  obtain ⟨i, below, chain, rest, hactive, hchain, htargets, hmain, hrest⟩ := h.targets_cases
  have hopen : ∀ j ∈ w.targets, j ∈ w.active := by
    intro j hj
    rw [htargets] at hj
    obtain rfl | hj := List.mem_cons.1 hj
    · exact hactive ▸ List.mem_cons_self
    · exact hrest j hj
  constructor
  · exact h.active_eq_append
  · exact h.nodup
  · exact h.mainChain
  · exact fun j hj => h.lt_size_of_active hj
  · exact fun j hj => h.lt_size_of_active (hopen j hj)
  · have hnames := h.names
    rwa [labels, Array.toList_map, List.map_map] at hnames
  · intro name j
    have hbyName := h.byName name j
    rwa [labels, Array.getElem?_map, Option.map_map, Option.map_eq_some_iff] at hbyName
  · exact ⟨i, below, chain, rest, hactive, hchain, htargets, hmain⟩
  · exact h.nodup_targets

/-- An edit gets to every channel in its reach, once, and to no other. -/
theorem getElem?_edit (h : w.Valid) (e : Edit) (i : Nat) :
    (w.edit e).chains[i]? = if i ∈ w.targets then w.chains[i]?.map (·.edit e) else w.chains[i]? := by
  have hreached := getElem?_foldl_modify h.nodup_targets i w.chains (f := (·.edit e))
  by_cases hempty : e = .print ""
  · subst hempty
    simp [edit, Chain.edit, Chain.print_empty]
  · have hedit : (w.edit e).chains = (w.onTargets (·.edit e)).chains := by
      cases e with
      | print text => rw [edit, if_neg (by simpa using hempty)]; rfl
      | _ => rfl
    rw [hedit]
    exact hreached

end Valid

/-! ## What is reported -/

/-- The names of all channels. -/
def names (w : Writer) : List String := w.labels.toList.map (·.1)

variable {w : Writer}

theorem mem_names_of_byName (h : w.Valid) {name : String} {i : Nat} (hi : w.byName[name]? = some i) :
    name ∈ w.names := by
  obtain ⟨label, hlabel, rfl⟩ := Option.map_eq_some_iff.1 ((h.byName name i).1 hi)
  exact List.mem_map_of_mem (Array.mem_toList_iff.2 (Array.mem_of_getElem? hlabel))

/-- The channel an operation opens. -/
def Op.opened? : Op → Option String
  | .openChannel name _ => some name
  | _ => none

/-- There is a new name only where a channel of that name is opened. -/
theorem mem_names_apply (h : w.Valid) (op : Op) (name : String) :
    name ∈ (w.apply op).names ↔ name ∈ w.names ∨ op.opened? = some name := by
  cases op with
  | openChannel opened visibility =>
    rw [Op.opened?, Option.some_inj, apply]
    obtain ⟨i, hi, -, heq⟩ | ⟨i, hi, -, hlabels, -⟩ | ⟨-, hlabels, -⟩ :=
      w.openChannel_cases opened visibility
    · have hmem := mem_names_of_byName h hi
      grind
    · have hmem := mem_names_of_byName h hi
      have hmap : (w.labels.modify i fun label => (label.1, visibility)).map Prod.fst =
          w.labels.map Prod.fst := by
        refine map_modify_of_eq ?_ w.labels i
        exact fun _ => rfl
      have hnames : (w.openChannel opened visibility).names = w.names := by
        rw [names, hlabels, ← Array.toList_map, hmap, Array.toList_map, names]
      grind
    · have hnames : (w.openChannel opened visibility).names = w.names ++ [opened] := by
        simp [names, hlabels]
      grind
  | closeChannel =>
    have hlabels : w.closeChannel.2.labels = w.labels := by
      unfold Writer.closeChannel
      split <;> rfl
    simp [apply, names, hlabels, Op.opened?]
  | edit e => simp [apply, names, (w.edit_sameChannels e).labels, Op.opened?]

theorem mem_names_run (h : w.Valid) (ops : List Op) (name : String) :
    name ∈ (w.run ops).names ↔ name ∈ w.names ∨ name ∈ ops.filterMap Op.opened? := by
  induction ops generalizing w with
  | nil => simp [run]
  | cons op ops ih =>
    rw [run_cons, ih (h.apply op), mem_names_apply h, List.mem_filterMap, List.mem_filterMap]
    simp only [List.mem_cons, exists_eq_or_imp, or_assoc]

theorem names_new (mode : Capitals) : (new mode).names = [mainChannel] := by
  simp [new, names, labels, Chain.label, Chain.new]

theorem count_channels (h : w.Valid) (name : String) :
    (w.channels.map (·.name)).count name = if name ∈ w.names then 1 else 0 := by
  have hnames : (w.channels.map (·.name)).Perm w.names := by
    have hperm := w.channels_perm.map (·.name)
    rw [List.map_map] at hperm
    rwa [names, labels, Array.toList_map, List.map_map]
  rw [hnames.count_eq]
  split
  · next hmem => exact List.count_eq_one_of_mem h.names hmem
  · next hmem => exact List.count_eq_zero.2 hmem

/-- Whatever is done to a new output, its channels are in order, an edit gets to every channel once or not at
all, and main and every channel that was opened are reported once, with the text they hold. -/
theorem delivers_once (mode : Capitals) (ops : List Op) (seed : UInt64) :
    ((new mode).run ops).Orderly ∧
    (∀ (e : Edit) (i : Nat), (((new mode).run ops).edit e).chains[i]? =
      if i ∈ ((new mode).run ops).targets then ((new mode).run ops).chains[i]?.map (·.edit e)
      else ((new mode).run ops).chains[i]?) ∧
    (∀ chain ∈ ((new mode).run ops).chains,
      ⟨chain.name, chain.visibility, chain.render⟩ ∈ (((new mode).run ops).finish seed).channels) ∧
    ∀ name, ((((new mode).run ops).finish seed).channels.map (·.name)).count name =
      if name ∈ mainChannel :: ops.filterMap Op.opened? then 1 else 0 := by
  have hvalid := (valid_new mode).run ops
  refine ⟨hvalid.orderly, hvalid.getElem?_edit, ?_, ?_⟩
  · intro chain hchain
    exact (channels_perm _).mem_iff.2 (List.mem_map_of_mem (Array.mem_toList_iff.2 hchain))
  · intro name
    have hnames := mem_names_run (valid_new mode) ops name
    rw [names_new, List.mem_singleton, ← List.mem_cons] at hnames
    rw [finish, count_channels hvalid]
    simp only [hnames]

end Writer

end Wordloom
