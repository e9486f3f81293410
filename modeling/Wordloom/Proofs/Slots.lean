import Wordloom.Proofs.StepEffects

/-!
# Wordloom.Proofs.Slots

The slots of variables. Each frame that is open while a source is compiled has its names, and counts its
locals. A step changes the innermost frame only: it may get another local, it may be left, and a frame
may be opened inside it. So no two locals of a frame share a slot, and a local keeps its slot for as long
as its frame is open, whatever is defined in between.
-/

namespace Wordloom.Compile

/-! ## Frames -/

/-- A frame that is open: its names, and the number of its locals. -/
structure OpenFrame where
  names : Scope Slot
  count : Nat

/-- The slots of the frame of the given number. -/
structure OpenFrame.Allocated (f : OpenFrame) (number : Nat) : Prop where
  inside : ∀ (name : String) frame index, f.names[name]? = some (.var frame index) →
    frame = number ∧ index < f.count
  injective : ∀ (name other : String) frame index, f.names[name]? = some (.var frame index) →
    f.names[other]? = some (.var frame index) → name = other
  small : f.count < UInt16.size

/-- What a step does to the frames, the outermost of which comes first. -/
inductive OpenFrame.Changes : List OpenFrame → List OpenFrame → Prop where
  | keep {fs : List OpenFrame} : Changes fs fs
  | declare {fs : List OpenFrame} {f : OpenFrame} {name : String}
    (hnew : ∀ frame index, f.names[name]? ≠ some (.var frame index))
    (hsmall : f.count + 1 < UInt16.size) : Changes (fs ++ [f])
      (fs ++ [⟨f.names.insert name (.var (fs.length + 1) f.count), f.count + 1⟩])
  | leave {fs : List OpenFrame} {f : OpenFrame} : Changes (fs ++ [f]) fs
  | enter {fs : List OpenFrame} {names : Scope Slot}
    (hargs : ∀ (name : String) frame index, names[name]? ≠ some (.var frame index)) :
    Changes fs (fs ++ [⟨names, 0⟩])

variable {name : String} {index : Nat}

namespace OpenFrame

variable {f : OpenFrame} {fs fs' : List OpenFrame}

theorem Allocated.declare {number : Nat} (h : f.Allocated number) (name : String)
    (hsmall : f.count + 1 < UInt16.size) :
    (⟨f.names.insert name (.var number f.count), f.count + 1⟩ : OpenFrame).Allocated number := by
  have hinsert (other : String) (frame index : Nat)
      (hother : (f.names.insert name (.var number f.count))[other]? = some (.var frame index)) :
      other = name ∧ frame = number ∧ index = f.count ∨ f.names[other]? = some (.var frame index) := by
    rw [Std.TreeMap.getElem?_insert] at hother
    split at hother
    · rename_i heq
      cases hother
      exact .inl ⟨(Std.LawfulEqCmp.eq_of_compare heq).symm, rfl, rfl⟩
    · exact .inr hother
  refine ⟨fun other frame index hother => ?_, fun first second frame index hfirst hsecond => ?_, hsmall⟩
  · obtain ⟨-, hframe, hindex⟩ | hold := hinsert other frame index hother
    · exact ⟨hframe, Nat.lt_succ_of_le (Nat.le_of_eq hindex)⟩
    · exact ⟨(h.inside other frame index hold).1, Nat.lt_succ_of_lt (h.inside other frame index hold).2⟩
  · obtain ⟨hname, -, hindex⟩ | hold := hinsert first frame index hfirst <;>
      obtain ⟨hname', -, hindex'⟩ | hold' := hinsert second frame index hsecond
    · rw [hname, hname']
    · exact absurd hindex (Nat.ne_of_lt (h.inside second frame index hold').2)
    · exact absurd hindex' (Nat.ne_of_lt (h.inside first frame index hold).2)
    · exact h.injective first second frame index hold hold'

/-- All frames, the outermost of which has the number 1. -/
def AllAllocated (fs : List OpenFrame) : Prop := ∀ k (f : OpenFrame), fs[k]? = some f → f.Allocated (k + 1)

theorem allAllocated_concat :
    AllAllocated (fs ++ [f]) ↔ AllAllocated fs ∧ f.Allocated (fs.length + 1) := by
  constructor
  · intro h
    refine ⟨fun k g hk => h k g ?_, h fs.length f List.getElem?_concat_length⟩
    rw [List.getElem?_append_left (List.getElem?_eq_some_iff.1 hk).1]
    exact hk
  · rintro ⟨hfs, hf⟩ k g hk
    rw [List.getElem?_append] at hk
    split at hk
    · exact hfs k g hk
    · obtain ⟨hlt, hg⟩ := List.getElem?_eq_some_iff.1 hk
      have heq : k = fs.length := by
        rw [List.length_singleton] at hlt
        omega
      subst heq
      simp only [Nat.sub_self, List.getElem_cons_zero] at hg
      rwa [← hg]

theorem Changes.allAllocated (h : Changes fs fs') (hfs : AllAllocated fs) : AllAllocated fs' := by
  cases h with
  | keep => exact hfs
  | declare _ hsmall =>
    obtain ⟨hfs, hf⟩ := allAllocated_concat.1 hfs
    exact allAllocated_concat.2 ⟨hfs, hf.declare _ hsmall⟩
  | leave => exact (allAllocated_concat.1 hfs).1
  | enter hargs =>
    exact allAllocated_concat.2 ⟨hfs, fun name frame index h => absurd h (hargs name frame index),
      fun name _ frame index h => absurd h (hargs name frame index), Nat.two_pow_pos 16⟩

/-- A name is a local of the frame of number `k + 1`. -/
def IsLocal (fs : List OpenFrame) (k : Nat) (name : String) (index : Nat) : Prop :=
  ∃ f, fs[k]? = some f ∧ f.names[name]? = some (.var (k + 1) index)

theorem IsLocal.append {k : Nat} (h : IsLocal fs k name index) (more : List OpenFrame) :
    IsLocal (fs ++ more) k name index := by
  obtain ⟨f, hf, hname⟩ := h
  refine ⟨f, ?_, hname⟩
  rw [List.getElem?_append_left (List.getElem?_eq_some_iff.1 hf).1]
  exact hf

theorem isLocal_of_append {k : Nat} {more : List OpenFrame} (hk : k < fs.length)
    (h : IsLocal (fs ++ more) k name index) : IsLocal fs k name index := by
  obtain ⟨f, hf, hname⟩ := h
  rw [List.getElem?_append_left hk] at hf
  exact ⟨f, hf, hname⟩

/-- While its frame is open, a local stays what it is. -/
theorem Changes.isLocal {k : Nat} (h : Changes fs fs') (hk : k < fs'.length)
    (hlocal : IsLocal fs k name index) : IsLocal fs' k name index := by
  cases h with
  | keep => exact hlocal
  | @declare fs f other hnew =>
    obtain hlt | heq := Nat.lt_or_eq_of_le (Nat.le_of_lt_succ (List.length_append ▸ hk))
    · exact (isLocal_of_append hlt hlocal).append _
    · have heq : k = fs.length := heq
      subst heq
      obtain ⟨g, hg, hname⟩ := hlocal
      rw [List.getElem?_concat_length] at hg
      cases hg
      refine ⟨_, List.getElem?_concat_length, ?_⟩
      rw [Std.TreeMap.getElem?_insert, if_neg]
      · exact hname
      · intro heq
        rw [Std.LawfulEqCmp.eq_of_compare heq] at hnew
        exact hnew _ _ hname
  | leave => exact isLocal_of_append hk hlocal
  | enter => exact hlocal.append _

end OpenFrame

/-! ## Compilations -/

variable {ctx : Context} {c c' : Compilation} {ks ks' : List Construct}

namespace Compilation

/-- The open frames, the outermost first. -/
def frames (c : Compilation) : List OpenFrame :=
  (List.zipWith OpenFrame.mk (c.slots.inner :: c.slots.outer) (c.locals :: c.outerLocals)).reverse

/-- The frames around the innermost one. -/
def outerFrames (c : Compilation) : List OpenFrame :=
  (List.zipWith OpenFrame.mk c.slots.outer c.outerLocals).reverse

theorem frames_eq (c : Compilation) : c.frames = c.outerFrames ++ [⟨c.slots.inner, c.locals⟩] :=
  List.reverse_cons

/-- There are as many scopes of slots and of subroutines as frames, and the frames have their slots. -/
structure Aligned (c : Compilation) : Prop where
  slots : c.slots.depth = c.frame
  subroutines : c.subroutines.depth = c.frame
  allocated : OpenFrame.AllAllocated c.frames

theorem Aligned.start (ctx : Context) (source : String) : (Compilation.start ctx source).Aligned where
  slots := rfl
  subroutines := rfl
  allocated := by
    have hnil : OpenFrame.AllAllocated [] := fun _ _ hf => by cases hf
    have hargs (name : String) (frame index : Nat) : (∅ : Scope Slot)[name]? ≠ some (.var frame index) := by
      simp
    exact (OpenFrame.Changes.enter hargs).allAllocated hnil

theorem Aligned.move (h : c.Aligned) (hnames : c.SameNames c') : c'.Aligned := by
  obtain ⟨r, out, rfl⟩ := hnames
  exact ⟨h.slots, h.subroutines, h.allocated⟩

theorem Aligned.length_outerFrames (h : c.Aligned) : c.outerFrames.length + 1 = c.frame := by
  have hslots : c.slots.outer.length + 1 = c.outerLocals.length + 1 := h.slots
  rw [outerFrames, List.length_reverse, List.length_zipWith, frame]
  omega

theorem local?_of_inner (h : c.slots.inner[name]? = some (.var c.frame index)) :
    c.local? name = some index := by
  have hfind : c.slots.find? name = some (.var c.frame index) := by
    unfold Scopes.find?
    rw [List.findSome?_cons, h]
  rw [local?, hfind]
  exact if_pos rfl

/-- A local of the innermost frame is found. -/
theorem Aligned.local?_eq (h : c.Aligned) {k : Nat} (hk : c.frame = k + 1)
    (hlocal : OpenFrame.IsLocal c.frames k name index) : c.local? name = some index := by
  obtain ⟨f, hf, hname⟩ := hlocal
  have hlength : k = c.outerFrames.length := Nat.succ.inj (hk.symm.trans h.length_outerFrames.symm)
  subst hlength
  rw [frames_eq, List.getElem?_concat_length] at hf
  cases hf
  exact local?_of_inner (hk ▸ hname)

/-- What is not found is no local of the innermost frame. -/
theorem Aligned.inner_ne (h : c.Aligned) (hnone : c.local? name = none) (frame index : Nat) :
    c.slots.inner[name]? ≠ some (.var frame index) := by
  intro hname
  have hallocated := h.allocated
  rw [frames_eq, OpenFrame.allAllocated_concat] at hallocated
  rw [(hallocated.2.inside name frame index hname).1, h.length_outerFrames] at hname
  rw [local?_of_inner hname] at hnone
  cases hnone

/-! ### Steps -/

theorem Aligned.of_changes (h : c.Aligned) (hslots : c'.slots.depth = c'.frame)
    (hsubroutines : c'.subroutines.depth = c'.frame) (hchanges : OpenFrame.Changes c.frames c'.frames) :
    c'.Aligned ∧ OpenFrame.Changes c.frames c'.frames :=
  ⟨⟨hslots, hsubroutines, hchanges.allAllocated h.allocated⟩, hchanges⟩

theorem Aligned.addLocal (h : c.Aligned) (hnew : c.local? name = none)
    (hsmall : c.locals + 1 < UInt16.size) :
    (c.addLocal name).Aligned ∧ OpenFrame.Changes c.frames (c.addLocal name).frames := by
  refine h.of_changes h.slots h.subroutines ?_
  rw [frames_eq, frames_eq]
  have hdeclare : OpenFrame.Changes (c.outerFrames ++ [⟨c.slots.inner, c.locals⟩]) _ :=
    .declare (h.inner_ne hnew) hsmall
  rw [h.length_outerFrames] at hdeclare
  exact hdeclare

theorem Aligned.closeFrame (h : c.Aligned) :
    c.closeFrame.Aligned ∧ OpenFrame.Changes c.frames c.closeFrame.frames := by
  obtain ⟨reader, out, ⟨inner, slots⟩, ⟨procedures, subroutines⟩, locals, outerLocals⟩ := c
  have hslots := h.slots
  have hsubroutines := h.subroutines
  cases outerLocals with
  | nil =>
    obtain rfl := List.length_eq_zero_iff.1 (Nat.succ.inj hslots)
    obtain rfl := List.length_eq_zero_iff.1 (Nat.succ.inj hsubroutines)
    exact ⟨h, .keep⟩
  | cons count counts =>
    obtain _ | ⟨scope, slots⟩ := slots
    · cases hslots
    obtain _ | ⟨scope', subroutines⟩ := subroutines
    · cases hsubroutines
    refine h.of_changes (Nat.succ.inj hslots) (Nat.succ.inj hsubroutines) ?_
    rw [frames_eq]
    exact .leave

theorem Aligned.enter (h : c.Aligned) (name : String) (params : List String) :
    ((c.withSubroutine name params.length).openFrame.addArguments 0 params).Aligned ∧
    OpenFrame.Changes c.frames
      ((c.withSubroutine name params.length).openFrame.addArguments 0 params).frames := by
  obtain ⟨inner, hopened, hvars⟩ :=
    frame_addArguments (c.withSubroutine name params.length).openFrame 0 params
  rw [hopened]
  refine h.of_changes (congrArg (· + 1) h.slots) (congrArg (· + 1) h.subroutines) ?_
  have hargs (name : String) (frame index : Nat) : inner[name]? ≠ some (.var frame index) := by
    intro hname
    have hempty := hvars name frame index hname
    simp [openFrame, Scopes.openNew] at hempty
  have henter : OpenFrame.Changes c.frames _ := .enter hargs
  rw [frames, ← List.reverse_cons] at henter
  exact henter

theorem Aligned.moves (h : c.Aligned) (hmoves : c.Moves ctx c') :
    c'.Aligned ∧ OpenFrame.Changes c.frames c'.frames := by
  cases hmoves with
  | keep hsame => exact hsame ▸ ⟨h, .keep⟩
  | perform t hperform =>
    obtain ⟨c₁, out, hturns, rfl, -⟩ := (t.perform_turns ctx c).yields _ _ hperform
    have hchanged : c₁.Aligned ∧ OpenFrame.Changes c.frames c₁.frames := by
      cases hturns with
      | keep => exact ⟨h, .keep⟩
      | declare hnew hsmall => exact h.addLocal hnew hsmall
      | leave => exact h.closeFrame
    exact ⟨hchanged.1.move ⟨_, _, rfl⟩, hchanged.2⟩
  | enter henters =>
    obtain ⟨name, params, r, out, rfl⟩ := henters
    have hchanged := h.enter name params
    exact ⟨hchanged.1.move ⟨_, _, rfl⟩, hchanged.2⟩

/-! ### Uses -/

/-- Tags that set, get or swap a variable refer to the slot. -/
structure Refers (ctx : Context) (c : Compilation) (name : String) (slot : UInt16) : Prop where
  set : ∀ (t : OpenTag) rest, t.tag.action = .setLocal → t.names = name :: rest →
    t.perform ctx c = .ok () { c with out := c.out.emit (.setLocal slot) }
  get : ∀ (t : OpenTag) rest, t.tag.action = .getLocal → t.names = name :: rest →
    t.perform ctx c = .ok () { c with out := (c.out.emit (.loadLocal slot)).emit .print }
  swap : ∀ (t : OpenTag) rest other index, t.tag.action = .swapLocals → c.local? other = some index →
    (t.names = name :: other :: rest →
      t.perform ctx c = .ok () { c with out := c.out.emit (.swap slot index.toUInt16) }) ∧
    (t.names = other :: name :: rest →
      t.perform ctx c = .ok () { c with out := c.out.emit (.swap index.toUInt16 slot) })

theorem refers_of_local? (h : c.local? name = some index) : c.Refers ctx name index.toUInt16 := by
  have hindex {t : OpenTag} {name : String} {index : Nat} (h : c.local? name = some index) :
      t.localIndex name c = .ok index.toUInt16 c := by
    rw [OpenTag.localIndex, run_bind_of_ok (run_get c), h]
    rfl
  have hdeclare (place : Position) : Compiling.declareLocal name place c = .ok index c := by
    rw [Compiling.declareLocal, run_bind_of_ok (run_get c), h]
    rfl
  refine ⟨fun t rest haction hnames => ?_, fun t rest haction hnames => ?_,
    fun t rest other index' haction hother => ⟨fun hnames => ?_, fun hnames => ?_⟩⟩ <;>
    simp only [OpenTag.perform, haction, hnames]
  · exact run_bind_of_ok (hdeclare _)
  · exact run_bind_of_ok (hindex h)
  · exact (run_bind_of_ok (hindex h)).trans (run_bind_of_ok (hindex hother))
  · exact (run_bind_of_ok (hindex hother)).trans (run_bind_of_ok (hindex h))

end Compilation

/-! ## Points of a compilation -/

/-- What is left to do behind a step. -/
def Step.onto (rest : List Construct) : Step → List Construct
  | .done => rest
  | .push self child => child :: self :: rest

/-- Goes on with the innermost construct, if there is one and it does not fail. -/
def advance (ctx : Context) : List Construct × Compilation → Option (List Construct × Compilation)
  | ([], _) => none
  | (k :: ks, c) =>
    match k.resume ctx c with
    | .ok step c' => some (step.onto ks, c')
    | .error _ _ => none

/-- Goes on so many times. -/
def advances (ctx : Context) : Nat → List Construct × Compilation → Option (List Construct × Compilation)
  | 0, s => some s
  | n + 1, s => (advance ctx s).bind (advances ctx n)

theorem advance_eq_some (h : advance ctx (ks, c) = some (ks', c')) : ∃ k rest step,
    ks = k :: rest ∧ k.resume ctx c = .ok step c' ∧ ks' = step.onto rest := by
  cases ks with
  | nil => cases h
  | cons k rest =>
    rw [advance] at h
    split at h
    · rename_i step _ hstep
      cases h
      exact ⟨k, rest, step, rfl, hstep, rfl⟩
    · cases h

/-- What is gone on with step by step is what `run` goes on with. -/
theorem run_of_advances {n : Nat} (h : advances ctx n (ks, c) = some (ks', c')) (fuel : Nat) :
    run ctx (n + fuel) ks c = run ctx fuel ks' c' := by
  induction n generalizing ks c with
  | zero =>
    cases h
    rw [Nat.zero_add]
  | succ n ih =>
    obtain ⟨⟨ks₁, c₁⟩, hstep, hrest⟩ := Option.bind_eq_some_iff.1 h
    obtain ⟨k, rest, step, rfl, hresume, rfl⟩ := advance_eq_some hstep
    rw [Nat.add_right_comm, run, run_bind_of_ok hresume, ← ih hrest]
    cases step <;> rfl

namespace Compilation.Aligned

theorem of_advance (h : c.Aligned) (hstep : advance ctx (ks, c) = some (ks', c')) :
    c'.Aligned ∧ OpenFrame.Changes c.frames c'.frames := by
  obtain ⟨k, _, _, _, hresume, _⟩ := advance_eq_some hstep
  obtain ⟨⟨c₁, hnames, hmoves⟩, -⟩ := k.costs_resume ctx c _ _ hresume
  have hmoved := h.move hnames
  obtain ⟨r, out, rfl⟩ := hnames
  exact hmoved.moves hmoves

theorem of_advances (h : c.Aligned) {n : Nat} (hn : advances ctx n (ks, c) = some (ks', c')) :
    c'.Aligned := by
  induction n generalizing ks c with
  | zero =>
    cases hn
    exact h
  | succ n ih =>
    obtain ⟨⟨ks₁, c₁⟩, hstep, hrest⟩ := Option.bind_eq_some_iff.1 hn
    exact ih (h.of_advance hstep).1 hrest

/-- A local stays what it is from step to step, while its frame is open. -/
theorem isLocal_advances (h : c.Aligned) {k : Nat}
    (hlocal : OpenFrame.IsLocal c.frames k name index) {n : Nat}
    (hn : advances ctx n (ks, c) = some (ks', c'))
    (hopen : ∀ m ≤ n, ∀ s, advances ctx m (ks, c) = some s → k < s.2.frame) :
    OpenFrame.IsLocal c'.frames k name index := by
  induction n generalizing ks c with
  | zero =>
    cases hn
    exact hlocal
  | succ n ih =>
    obtain ⟨⟨ks₁, c₁⟩, hstep, hrest⟩ := Option.bind_eq_some_iff.1 hn
    obtain ⟨haligned, hchanges⟩ := h.of_advance hstep
    have hk : k < c₁.frames.length := by
      rw [frames_eq, List.length_append, List.length_singleton, haligned.length_outerFrames]
      exact hopen 1 (Nat.le_add_left 1 n) (ks₁, c₁) (by rw [Compile.advances, hstep]; rfl)
    refine ih haligned (hchanges.isLocal hk hlocal) hrest fun m hm s hs => ?_
    exact hopen (m + 1) (Nat.succ_le_succ hm) s (by rw [Compile.advances, hstep]; exact hs)

end Compilation.Aligned

/-- At every point of a compilation the frames are aligned, so that a local has a slot of its own, below
the number of locals of its frame; and from there on, every tag that sets, gets or swaps the variable in
its frame refers to that slot, whatever has been defined in between. -/
theorem slots_stable (ctx : Context) (source : String) {n : Nat}
    (h : advances ctx n ([.pattern .root], .start ctx source) = some (ks, c)) :
    (∀ fuel, run ctx (n + fuel) [.pattern .root] (.start ctx source) = run ctx fuel ks c) ∧
    c.Aligned ∧
    ∀ k name index, OpenFrame.IsLocal c.frames k name index →
      ∀ m ks' c', advances ctx m (ks, c) = some (ks', c') →
        (∀ l ≤ m, ∀ s, advances ctx l (ks, c) = some s → k < s.2.frame) →
        OpenFrame.IsLocal c'.frames k name index ∧ index.toUInt16.toNat = index ∧
        (c'.frame = k + 1 → ∀ c₁, c'.SameNames c₁ → c₁.Refers ctx name index.toUInt16) := by
  have haligned := (Compilation.Aligned.start ctx source).of_advances h
  refine ⟨run_of_advances h, haligned, fun k name index hlocal m ks' c' hm hopen => ?_⟩
  have hkept := haligned.isLocal_advances hlocal hm hopen
  refine ⟨hkept, ?_, fun hframe c₁ hnames => ?_⟩
  · obtain ⟨f, hf, hname⟩ := hlocal
    have hallocated := haligned.allocated k f hf
    exact Nat.mod_eq_of_lt (Nat.lt_trans (hallocated.inside name _ index hname).2 hallocated.small)
  · have hfound := (haligned.of_advances hm).local?_eq hframe hkept
    obtain ⟨r, out, rfl⟩ := hnames
    exact Compilation.refers_of_local? hfound

/-- In a subroutine that has set its own parameter, another subroutine is defined with such a parameter,
which is set there too. -/
theorem slots_stable_nested : ∃ (ctx : Context) (source : String) (ks ks' : List Construct)
    (c c' : Compilation), source = "[$[f:x]:[set:x;1][$[x:x]:[set:x;2]][get:x]]" ∧
    advances ctx 4 ([.pattern .root], .start ctx source) = some (ks, c) ∧
    OpenFrame.IsLocal c.frames 1 "x" 0 ∧ advances ctx 7 (ks, c) = some (ks', c') ∧
    c'.Refers ctx "x" 0 := by
  let ctx : Context := { registry := Standard.registry }
  let source := "[$[f:x]:[set:x;1][$[x:x]:[set:x;2]][get:x]]"
  let first := advances ctx 4 ([.pattern .root], .start ctx source)
  have hlocal : (first.bind fun s => s.2.frames[1]?.bind (·.names["x"]?)) = some (.var 2 0) := by
    decide +kernel
  have hlater : (first.bind (advances ctx 7)).any (fun s => s.2.frame = 2) = true := by decide +kernel
  have hopen : ∀ l < 8, (first.bind (advances ctx l)).all (fun s => 1 < s.2.frame) = true := by
    decide +kernel
  obtain ⟨⟨ks, c⟩, hfirst, hlocal⟩ := Option.bind_eq_some_iff.1 hlocal
  obtain ⟨f, hf, hname⟩ := Option.bind_eq_some_iff.1 hlocal
  obtain ⟨⟨ks', c'⟩, hlater, hframe⟩ := (Option.any_eq_true _ _).1 hlater
  rw [hfirst] at hlater hopen
  have hslots := (slots_stable ctx source hfirst).2.2 1 "x" 0 ⟨f, hf, hname⟩ 7 ks' c' hlater
    fun l hl s hs => by
      have hall := hopen l (Nat.lt_succ_of_le hl)
      rw [Option.bind_some, hs] at hall
      exact of_decide_eq_true hall
  exact ⟨ctx, source, ks, ks', c, c', rfl, hfirst, ⟨f, hf, hname⟩, hlater,
    hslots.2.2 (of_decide_eq_true hframe) c' (.refl c')⟩

end Wordloom.Compile
