import Wordloom.Proofs.Evaluation

/-!
# Wordloom.Proofs.Blocks

Blocks: the weights of the items are found one after the other, an item is chosen by them, and at its
end the block is run again as often as the repeater said. The invariant of the repetition is that the
block is on top of the active ones, with the number of runs that are left.
-/

namespace Wordloom

variable {env : Environment} {α β : Type} {result : Except Fault (α × World)}
  {Q : α → World → Machine → Prop} {p : Program} {w w' : World} {c : Control} {m : Machine}
  {position : Nat} {t : Trace} {a : Activation} {depth : Nat} {lower : Option Runner}
  {entered : Option ActiveBlock} {block : Block} {active : ActiveBlock} {c₀ : Control}
  {separator : Option String} {us : List Float} {bodies : List (Evaluating Unit)}
  {rest : EStateM.Result Fault Machine Unit} {P : α → World → Machine → Prop}

/-! ## The choice by weights -/

theorem Rng.pickFrom_lt {threshold : Float} {n : Nat} :
    ∀ {weights : List Float} {i last : Nat} {sum : Float}, last < n → i + weights.length ≤ n →
      Rng.pickFrom threshold i last sum weights < n
  | [], _, _, _, hlast, _ => hlast
  | weight :: weights, i, last, sum, hlast, hi => by
    rw [List.length_cons] at hi
    rw [Rng.pickFrom]
    split
    · exact Rng.pickFrom_lt hlast (by omega)
    · split
      · omega
      · exact Rng.pickFrom_lt (by omega) (by omega)

/-- The choice is one of the weights. -/
theorem Rng.weightedChoice_lt (r : Rng) {weights : List Float} (h : 0 < weights.length) :
    (r.weightedChoice weights).1 < weights.length := by
  unfold Rng.weightedChoice
  simp only
  split
  · unfold Rng.nextBelow
    rw [if_neg (by omega)]
    exact Nat.mod_lt _ h
  · exact Rng.pickFrom_lt h (by omega)

/-! ## Items -/

def Choices.count : Choices → Nat
  | .nil => 0
  | .item _ _ next | .weighted _ _ next => next.count + 1

theorem Choices.length_entries : ∀ (cs : Choices) (base : Nat), (cs.entries base).length = cs.count
  | .nil => fun _ => rfl
  | .item _ _ next | .weighted _ _ next => fun _ => by
    rw [Choices.entries, List.length_cons, Choices.count, next.length_entries]

theorem Choices.length_bodies : ∀ (cs : Choices) (base : Nat),
    (cs.bodies env lower a base).length = cs.count
  | .nil => fun _ => by rw [Choices.bodies, Choices.count, List.length_nil]
  | .item _ _ next | .weighted _ _ next => fun _ => by
    rw [Choices.bodies, List.length_cons, Choices.count, next.length_bodies]

/-! ## Parts of a step -/

/-- What evaluation goes on with when the middle of a step is done. -/
theorem Goes.bind {y : Evaluating α} {f : α → Evaluating β} {Q : β → World → Machine → Prop}
    (h : Goes env rest (y w) P) (hnext : ∀ x w' m, P x w' m → Ends env (f x w') Q m) :
    Goes env rest ((y >>= f) w) Q := by
  cases rest with
  | ok u m => exact Ends.bind h fun x w' m' _ hm' => hnext x w' m' hm'
  | error fault m =>
    obtain hcuts | ⟨hexpected, hy⟩ := h
    · exact .inl hcuts
    · exact .inr ⟨hexpected, bind_of_error hy⟩

/-- What the machine goes on with where evaluation is done. -/
theorem Goes.after {y : Evaluating α} (h : Goes env rest (y w) P)
    (hnext : ∀ x w' m, P x w' m → Ends env (.ok (x, w')) Q m) : Goes env rest (y w) Q := by
  have hbind : Goes env rest ((y >>= pure) w) Q := h.bind hnext
  rwa [bind_pure] at hbind

/-- With one more block that is being run. -/
def Control.inBlock (c : Control) (active : ActiveBlock) : Control :=
  { c with blocks := c.blocks.push active }

theorem Control.Fits.inBlock (h : c.Fits a) (active : ActiveBlock) : (c.inBlock active).Fits a where
  program := h.program
  floor := h.floor
  blocks := by
    have hblocks := h.blocks
    simp only [Control.inBlock, Array.size_push]
    omega
  argCount := h.argCount
  args := h.args
  captured := h.captured

/-- A choice is made either before the block is entered or while it is being run. -/
inductive Entering (c : Control) (active : ActiveBlock) : Option ActiveBlock → Control → Prop where
  | first : Entering c active (some active) c
  | again : Entering c active none (c.inBlock active)

theorem Entering.fits (h : Entering c active entered c₀) (hfits : c.Fits a) : c₀.Fits a := by
  cases h with
  | first => exact hfits
  | again => exact hfits.inBlock active

theorem Entering.remaining {options : Options} (h : Entering c active entered c₀) :
    c₀.remaining options = c.remaining options := by
  cases h <;> rfl

/-! ## Weights -/

theorem toNat_toUInt32 {n : Nat} (h : n < 2 ^ 31) : n.toUInt32.toNat = n :=
  Nat.mod_eq_of_lt (by omega)

/-- The weights of the items from `base` on are found, behind those that are known. -/
theorem Goes.weigh {k : List Float → Evaluating α} (hlower : Handles env depth lower)
    (hloaded : a.Loaded env.registry) (hfits : c.Fits a) (hdepth : c.remaining env.options = depth) :
    ∀ (cs : Choices) (base : Nat) (ws : List Float)
    (w : World) (t : Trace), a.program.Has base (cs.lines base) →
    cs.Sound env.registry a.reach base →
    (∀ us w' t', us.length = ws.length + cs.count →
      Goes env (Running.chooseItem block entered us (.of w' c position t')) (k us w') Q) →
    Goes env (Running.weigh env block entered ws (cs.entries base) (.of w c position t))
      (((cs.weights env lower a base).mapM id >>= fun us => k (ws ++ us)) w) Q
  | .nil, base, ws, w, t, _, _, h => by
    have hnil : Goes env (Running.chooseItem block entered ws (.of w c position t)) (k ws w) Q :=
      h ws w t rfl
    simpa [Choices.entries, Choices.weights, Running.weigh] using hnil
  | .item weight body next, base, ws, w, t, hhas, hsound, h => by
    obtain ⟨-, hnext⟩ := Choices.has_item hhas
    rw [Choices.Sound] at hsound
    have ih := Goes.weigh hlower hloaded hfits hdepth next _ (ws ++ [constantWeight weight]) w t
      hnext hsound.2 fun us w' t' hus => h us w' t' (by
        rw [hus, List.length_append, Choices.count, List.length_singleton]
        omega)
    cases weight with
    | none | some bits =>
      simpa [Choices.entries, Choices.weights, Running.weigh, constantWeight] using ih
  | .weighted weight body next, base, ws, w, t, hhas, hsound, h => by
    obtain ⟨hopen, hweight, -, hnext⟩ := Choices.has_weighted hhas
    rw [Choices.Sound] at hsound
    have hbase : base < 2 ^ 31 := by
      have hle := hopen.le_size
      have hsmall : a.program.code.size < 2 ^ 31 := hloaded.small
      omega
    have ih := fun text w' t => Goes.weigh hlower hloaded hfits hdepth next _
      (ws ++ [spelledWeight text]) w' t hnext hsound.2.2 fun us w' t' hus => h us w' t' (by
        rw [hus, List.length_append, Choices.count, List.length_singleton]
        omega)
    have hweights : (((Choices.weighted weight body next).weights env lower a base).mapM id >>=
        fun us => k (ws ++ us)) =
        Evaluating.capture env.options
          (Evaluating.enter env lower { a with captured := true } (base + 1) weight) >>= fun text =>
        (next.weights env lower a (base + 1 + weight.size + 2 + body.size + 1)).mapM id >>= fun us =>
        k (ws ++ [spelledWeight text] ++ us) := by
      simp [Choices.weights]
    rw [Choices.entries, Running.weigh, hweights]
    simp only [toNat_toUInt32 hbase]
    exact Goes.evaluate_weight hlower hloaded hopen hweight hsound.1 hfits hdepth ih

/-! ## Choosing an item -/

/-- An evaluation is that of the code of an item: it starts at an offset and gets to an instruction
that ends the item. -/
def IsItem (env : Environment) (p : Program) (c : Control) (offset : Nat) (y : Evaluating Unit) :
    Prop :=
  ∃ finish, p.Has finish [.plain .blockEnd] ∧ ∀ w m, m.At w c offset →
    Ends env (y w) (fun _ w' => Machine.At w' c finish) m

/-- The machine is at the end of an item. -/
def AtItemEnd (p : Program) (c : Control) (_ : Unit) (w : World) (m : Machine) : Prop :=
  ∃ finish, p.Has finish [.plain .blockEnd] ∧ m.At w c finish

/-- The items of a block have these bodies. -/
def HasBodies (env : Environment) (p : Program) (c : Control) (items : List BlockItem)
    (bodies : List (Evaluating Unit)) : Prop :=
  ∀ (i : Nat) (item : BlockItem), items[i]? = some item → item.offset.toNat ≤ p.code.size ∧
    ∃ y, bodies[i]? = some y ∧ IsItem env p c item.offset.toNat y

theorem Evaluating.pick_of_getElem? {y : Evaluating Unit}
    (hy : bodies[(w.rng.weightedChoice us).1]? = some y) :
    Evaluating.pick bodies us w = y { w with rng := (w.rng.weightedChoice us).2 } := by
  simp only [Evaluating.pick, modifyGet, MonadStateOf.modifyGet, bind, StateT.bind,
    StateT.modifyGet, pure, Except.pure, Except.bind, hy]

/-- The item that is chosen is gone on with, in the block. -/
theorem chooseItem_of {item : BlockItem} (hentering : Entering c active entered c₀)
    (hfits : c.Fits a) (hitem : block.items[(w.rng.weightedChoice us).1]? = some item)
    (hoffset : item.offset.toNat ≤ a.program.code.size) :
    Running.chooseItem block entered us (.of w c₀ position t) =
      .ok () (.of { w with rng := (w.rng.weightedChoice us).2 } (c.inBlock active)
        item.offset.toNat t) := by
  have hrng : (Machine.of w c₀ position t).rng = w.rng := rfl
  have hchecked : Running.checkedAddress item.offset.toNat
      (.of { w with rng := (w.rng.weightedChoice us).2 } c₀ position t) = _ :=
    checkedAddress_of (hentering.fits hfits).program hoffset
  rw [Running.chooseItem, run_bind_of_ok (run_get _)]
  simp only [hrng]
  rw [run_bind_of_ok (run_set _ _), hitem]
  simp only []
  refine Eq.trans (run_bind_of_ok hchecked) ?_
  cases hentering with
  | first => rfl
  | again => rfl

/-- There is an item that is chosen. -/
theorem exists_chosen (hne : 0 < block.items.length) (hlength : us.length = block.items.length)
    (r : Rng) : ∃ item, block.items[(r.weightedChoice us).1]? = some item := by
  have hchoice : (r.weightedChoice us).1 < block.items.length := by
    rw [← hlength]
    exact Rng.weightedChoice_lt _ (by omega)
  exact ⟨_, List.getElem?_eq_getElem hchoice⟩

theorem Goes.pick (hentering : Entering c active entered c₀) (hfits : c.Fits a)
    (hne : 0 < block.items.length) (hlength : us.length = block.items.length)
    (hbodies : HasBodies env a.program (c.inBlock active) block.items bodies) :
    Goes env (Running.chooseItem block entered us (.of w c₀ position t))
      (Evaluating.pick bodies us w) (AtItemEnd a.program (c.inBlock active)) := by
  obtain ⟨item, hitem⟩ := exists_chosen hne hlength w.rng
  obtain ⟨hoffset, y, hy, finish, hfinish, hends⟩ := hbodies _ item hitem
  rw [Evaluating.pick_of_getElem? hy]
  refine Goes.of_ends (chooseItem_of hentering hfits hitem hoffset)
    ((hends _ _ (Machine.at_of _ _ _ t)).mono fun _ w' m hm => ?_)
  exact ⟨finish, hfinish, hm⟩

/-! ## Repetition -/

theorem back?_inBlock (active : ActiveBlock) :
    (Machine.of w (c.inBlock active) position t).blocks.back? = some active := by
  simp [Machine.of, Control.inBlock]

theorem not_size_inBlock_le (hfits : c.Fits a) (active : ActiveBlock) :
    ¬ (Machine.of w (c.inBlock active) position t).blocks.size ≤
      (Machine.of w (c.inBlock active) position t).frame.blocks := by
  have hblocks := hfits.blocks
  simp only [Machine.of, Control.inBlock, Array.size_push]
  omega

/-- The last run of a block: the program goes on behind it. -/
theorem endBlock_of_last (hfits : c.Fits a) (hend : block.endAddress.toNat ≤ a.program.code.size) :
    Running.endBlock env (.of w (c.inBlock ⟨block, 0, separator⟩) position t) =
      .ok () (.of w c block.endAddress.toNat t) := by
  have hpop : { Machine.of w (c.inBlock ⟨block, 0, separator⟩) position t with
      blocks := (Machine.of w (c.inBlock ⟨block, 0, separator⟩) position t).blocks.pop } =
      Machine.of w c position t := by
    simp [Machine.of, Control.inBlock]
  have hchecked : Running.checkedAddress block.endAddress.toNat (.of w c position t) = _ :=
    checkedAddress_of hfits.program hend
  rw [Running.endBlock, run_bind_of_ok (run_get _), back?_inBlock]
  simp only [if_neg (not_size_inBlock_le hfits _), if_true]
  rw [run_bind_of_ok (run_set _ _), hpop, run_bind_of_ok hchecked, jump_of]

/-- A block that is to be run again prints its separator and makes another choice. -/
theorem endBlock_of_more {more : Nat} (hfits : c.Fits a) :
    Running.endBlock env (.of w (c.inBlock ⟨block, more + 1, separator⟩) position t) =
      (do
        separator.forM (Running.print env.options)
        Running.weigh env block none [] block.items)
        (.of w (c.inBlock ⟨block, more, separator⟩) position t) := by
  have hpush : { Machine.of w (c.inBlock ⟨block, more + 1, separator⟩) position t with
      blocks := (Machine.of w (c.inBlock ⟨block, more + 1, separator⟩) position t).blocks.pop.push
        ⟨block, more, separator⟩ } =
      Machine.of w (c.inBlock ⟨block, more, separator⟩) position t := by
    simp [Machine.of, Control.inBlock]
  rw [Running.endBlock, run_bind_of_ok (run_get _), back?_inBlock]
  simp only [if_neg (not_size_inBlock_le hfits _), Nat.add_one_ne_zero, if_false,
    Nat.add_sub_cancel]
  rw [run_bind_of_ok (run_set _ _), hpush]
  cases separator <;> rfl

theorem mirrors_separate (options : Options) (separator : Option String) :
    Mirrors a (separator.forM (Running.print options))
      (Evaluating.separate options a.captured separator) := by
  cases separator with
  | some text => exact mirrors_print options text
  | none => exact fun _ _ _ _ _ => rfl

/-- Evaluation of a block with items: as many choices as the repeater says, which counts for no other
block. -/
theorem block_eq {options : Options} {captured : Bool} {weights : List (Evaluating Float)}
    (hbodies : bodies.isEmpty = false) (w : World) :
    Evaluating.block options captured weights bodies w =
      (if w.repeater.count.getD 1 = 0 then pure ()
      else Evaluating.repeatChoice options captured weights bodies w.repeater.separator
        (w.repeater.count.getD 1 - 1)) { w with repeater := {} } := by
  change (if _ then _ else _ : Evaluating Unit) _ = _
  simp [hbodies]

/-- A block that is to be run no more is left, and any other makes a choice. The repeater counts for no
other block. -/
theorem startBlock_of {index : Nat} {finish : UInt32} {items : List BlockItem} (hfits : c.Fits a)
    (hne : items ≠ []) (hend : finish.toNat ≤ a.program.code.size) (hindex : index < 2 ^ 31)
    (hblock : a.program.blocks[index]? = some ⟨finish, items⟩) :
    Running.startBlock env (Int32.ofNat index) (.of w c position t) =
      if w.repeater.count.getD 1 = 0 then .ok () (.of { w with repeater := {} } c finish.toNat t)
      else Running.weigh env ⟨finish, items⟩
        (some ⟨⟨finish, items⟩, w.repeater.count.getD 1 - 1, w.repeater.separator⟩) [] items
        (.of { w with repeater := {} } c position t) := by
  have hfound : (Machine.of w c position t).frame.program.block? (Int32.ofNat index) =
      some ⟨finish, items⟩ := by
    have hprogram : (Machine.of w c position t).frame.program = a.program := hfits.program
    rw [hprogram, Program.block?, Program.lookup?_ofNat _ hindex, hblock]
  have hempty : items.isEmpty = false := by simpa using hne
  have hreset : { Machine.of w c position t with repeater := {} } =
      Machine.of { w with repeater := {} } c position t := rfl
  have hcount : (Machine.of w c position t).repeater = w.repeater := rfl
  rw [Running.startBlock, run_bind_of_ok (run_get _), hfound, hcount]
  simp only [Running.entry]
  rw [run_bind_of_ok (run_pure _ _), run_bind_of_ok (run_set _ _), hreset]
  simp only [hempty, Bool.or_false, decide_eq_true_eq]
  by_cases hzero : w.repeater.count.getD 1 = 0
  · have hchecked : Running.checkedAddress finish.toNat
        (.of { w with repeater := {} } c position t) = _ := checkedAddress_of hfits.program hend
    rw [if_pos hzero, if_pos hzero, run_bind_of_ok hchecked, jump_of]
  · rw [if_neg hzero, if_neg hzero]

section

variable {choices : Choices} {base : Nat} {bodies : List (Evaluating Unit)} {finish : UInt32}
  (hlower : Handles env depth lower) (hloaded : a.Loaded env.registry) (hfits : c.Fits a)
  (hdepth : c.remaining env.options = depth) (hhas : a.program.Has base (choices.lines base))
  (hsound : choices.Sound env.registry a.reach base) (hne : choices.entries base ≠ [])

include hlower hloaded hfits hdepth hhas hsound hne

/-- The choice of an item and its run. -/
theorem Goes.choose (hitems : block.items = choices.entries base)
    (hbodies : HasBodies env a.program (c.inBlock active) (choices.entries base) bodies)
    (hentering : Entering c active entered c₀) (w : World) (t : Trace) :
    Goes env (Running.weigh env block entered [] block.items (.of w c₀ position t))
      (Evaluating.choose (choices.weights env lower a base) bodies w)
      (AtItemEnd a.program (c.inBlock active)) := by
  have hcount : 0 < block.items.length := by
    rw [hitems]
    exact List.length_pos_iff.2 hne
  rw [hitems]
  exact Goes.weigh (k := Evaluating.pick bodies) hlower hloaded (hentering.fits hfits)
    (hentering.remaining.trans hdepth) choices base [] w t hhas hsound fun us w' t' hus =>
      Goes.pick hentering hfits hcount
        (by rw [hus, hitems, choices.length_entries, List.length_nil, Nat.zero_add])
        (by rwa [hitems])

variable (hend : finish.toNat ≤ a.program.code.size)
  (hbodies : ∀ active, HasBodies env a.program (c.inBlock active) (choices.entries base) bodies)

include hend hbodies

/-- The invariant of the repetition: a choice, made before the block is entered or while it is being
run, is followed by as many others as the block has left. -/
theorem Goes.repeatChoice (more : Nat) (position : Nat) (w : World) (t : Trace)
    (hentering : Entering c ⟨⟨finish, choices.entries base⟩, more, separator⟩ entered c₀) :
    Goes env
      (Running.weigh env ⟨finish, choices.entries base⟩ entered [] (choices.entries base)
        (.of w c₀ position t))
      (Evaluating.repeatChoice env.options a.captured (choices.weights env lower a base) bodies
        separator more w)
      (fun _ w' => Machine.At w' c finish.toNat) := by
  induction more generalizing entered c₀ position w t with
  | zero =>
    refine (Goes.choose hlower hloaded hfits hdepth hhas hsound hne rfl (hbodies _) hentering w
      t).after fun _ w' m hm => ?_
    obtain ⟨place, hplace, hm⟩ := hm
    refine Ends.plain (Running.endBlock env) hm hplace hfits.program rfl fun t => ?_
    exact Goes.of_ends (endBlock_of_last hfits hend) (Ends.here (Machine.at_of _ _ _ t))
  | succ more ih =>
    refine (Goes.choose hlower hloaded hfits hdepth hhas hsound hne rfl (hbodies _) hentering w
      t).bind fun _ w' m hm => ?_
    obtain ⟨place, hplace, hm⟩ := hm
    refine Ends.plain (Running.endBlock env) hm hplace hfits.program rfl fun t => ?_
    rw [endBlock_of_more hfits]
    exact (mirrors_separate env.options separator).goes_bind (hfits.inBlock _)
      fun _ w'' => ih _ w'' t .again

/-- A block is run as the repeater says. -/
theorem Goes.startBlock {index : Nat}
    (hlength : bodies.length = (choices.entries base).length) (hindex : index < 2 ^ 31)
    (hblock : a.program.blocks[index]? = some ⟨finish, choices.entries base⟩) (w : World)
    (t : Trace) :
    Goes env (Running.startBlock env (Int32.ofNat index) (.of w c position t))
      (Evaluating.block env.options a.captured (choices.weights env lower a base) bodies w)
      (fun _ w' => Machine.At w' c finish.toNat) := by
  have hbodiesEmpty : bodies.isEmpty = false := by
    rw [List.isEmpty_eq_false_iff, ← List.length_pos_iff, hlength]
    exact List.length_pos_iff.2 hne
  rw [startBlock_of hfits hne hend hindex hblock, block_eq hbodiesEmpty]
  by_cases hzero : w.repeater.count.getD 1 = 0
  · rw [if_pos hzero, if_pos hzero]
    exact Ends.here (Machine.at_of { w with repeater := {} } c finish.toNat t)
  · rw [if_neg hzero, if_neg hzero]
    exact Goes.repeatChoice hlower hloaded hfits hdepth hhas hsound hne hend hbodies _ position _ t
      .first

end

end Wordloom
