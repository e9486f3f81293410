import Wordloom.Proofs.CompileDefinitions

/-!
# Wordloom.Proofs.CompileArguments

The arguments of a tag while they are compiled. The first ones of a comparison are its operands; what
follows are the branches, with jumps that are set when it is known where they lead.
-/

namespace Wordloom.Compile

variable {lib : Option Registry} {g : Setting} {front : List Line} {d : Draft} {os : Operands} {test : Test}
  {n i : Nat} {t : OpenTag} {c : Compilation} {k : Nat} {known : Nat → Nat → Prop} {more : Bool}

/-! ## Branches -/

/-- A tag that compares `k` operands. -/
structure Asks (tag : Tag) (test : Test) (k : Nat) : Prop where
  action : (∃ numeric, tag.action = .compare (test.jump 0) numeric) ∧ k = 2 ∨
    tag.action = .compareZero (test.jump 0) ∧ k = 1
  min : tag.min = k + 1
  max : tag.max = k + 2

theorem Asks.mode {tag : Tag} (h : Asks tag test k) (hi : k ≤ i) : tag.mode i = .inline := by
  unfold Tag.mode
  obtain ⟨⟨numeric, haction⟩, rfl⟩ | ⟨haction, rfl⟩ := h.action
  · simp only [haction, hi, if_true]
  · simp only [haction, Nat.ne_of_gt hi, if_false]

/-- What stands before the first branch; a comparison that fails leads to `target`. -/
def branchLines (base : Nat) (os : Operands) (test : Test) (target : Int32) : List Line :=
  os.lines base ++ [.plain .compare, .plain (test.jump (Int32.ofNat (base + os.size + 11))),
    .plain (.jump target)]

theorem sizes_branchLines (base : Nat) (os : Operands) (test : Test) (target : Int32) :
    Line.sizes (branchLines base os test target) = os.size + 11 := by
  rw [branchLines, Line.sizes_append, Operands.sizes_lines, Test.sizes_choice]

/-- The jumps are set for the first branch, which is argument `i`. -/
structure FirstBranch (d : Draft) (os : Operands) (test : Test) (t : OpenTag) (i : Nat) : Prop where
  asks : Asks t.tag test i
  length : os.length = 2
  elseJump : t.elseJump = some (d.finish + os.size + 6)
  endJump : t.endJump = none

/-- The jumps are set for the second branch, which follows argument `i`. -/
structure SecondBranch (d : Draft) (os : Operands) (test : Test) (yes : Code) (t : OpenTag)
    (i : Nat) : Prop where
  asks : Asks t.tag test i
  length : os.length = 2
  elseJump : t.elseJump = none
  endJump : t.endJump = some (d.finish + os.size + 11 + yes.size)

/-- What stands before the second branch. -/
def secondLines (d : Draft) (os : Operands) (test : Test) (yes : Code) (target : Int32) :
    List Line :=
  branchLines d.finish os test (Int32.ofNat (d.finish + os.size + 11 + yes.size + 5)) ++
    yes.lines (d.finish + os.size + 11) ++ [.plain (.jump target)]

theorem sizes_secondLines (d : Draft) (os : Operands) (test : Test) (yes : Code) (target : Int32) :
    Line.sizes (secondLines d os test yes target) = os.size + 11 + yes.size + 5 := by
  rw [secondLines, Line.sizes_append, Line.sizes_append, sizes_branchLines, Code.sizes_lines]
  rfl

/-! ## Stages of a tag -/

/-- A comparison is not complete with the arguments so far. -/
def Compares (t : OpenTag) : Prop := ∀ k, t.tag.action.compared? = some k → t.index < k

/-- The code before the second branch is sound. -/
def SecondSound (lib : Option Registry) (d : Draft) (os : Operands) (yes : Code) (s : Reach) : Prop :=
  os.Sound lib s d.finish ∧ yes.Sound lib s (d.finish + os.size + 11)

def secondDefinitions (d : Draft) (os : Operands) (yes : Code) : List Definition :=
  os.definitions d.finish ++ yes.definitions (d.finish + os.size + 11)

/-- A comparison has been written up to the end of its first branch. -/
abbrev HasFirst (lib : Option Registry) (g : Setting) (d : Draft) (os : Operands) (test : Test)
    (yes : Code) (n : Nat) (c : Compilation) : Prop :=
  Part lib g d (branchLines d.finish os test 0 ++ yes.lines (d.finish + os.size + 11))
    (secondDefinitions d os yes) (SecondSound lib d os yes) n c

/-- It has been written up to the end of the second one. -/
abbrev HasSecond (lib : Option Registry) (g : Setting) (d : Draft) (os : Operands) (test : Test)
    (yes no : Code) (n : Nat) (c : Compilation) : Prop :=
  Part lib g d (secondLines d os test yes 0 ++ no.lines (d.finish + os.size + 11 + yes.size + 5))
    (secondDefinitions d os yes ++ no.definitions (d.finish + os.size + 11 + yes.size + 5))
    (fun s => SecondSound lib d os yes s ∧
      no.Sound lib s (d.finish + os.size + 11 + yes.size + 5)) n c

/-- A tag is about to start its next argument. -/
inductive Ready (lib : Option Registry) (g : Setting) (front : List Line) (n : Nat) (t : OpenTag)
    (c : Compilation) : Prop where
  | operands {d : Draft} {os : Operands} (hfront : d.front = front)
    (h : Gathered lib g d t t.index os n c) (hcompares : Compares t)
  | yes {d : Draft} {os : Operands} {test : Test} (hfront : d.front = front)
    (hbranch : FirstBranch d os test t t.index)
    (h : Part lib g d (branchLines d.finish os test 0) (os.definitions d.finish)
      (fun s => os.Sound lib s d.finish) n c)
    (hended : c.out.Ended (d.lines ++ branchLines d.finish os test 0))
  | no {d : Draft} {os : Operands} {test : Test} {yes : Code} {i : Nat} (hfront : d.front = front)
    (hbranch : SecondBranch d os test yes t i) (hindex : t.index = i + 1)
    (h : Part lib g d (secondLines d os test yes 0) (secondDefinitions d os yes)
      (SecondSound lib d os yes) n c)
    (hended : c.out.Ended (d.lines ++ secondLines d os test yes 0))
  | body {d : Draft} {arity m : Nat} {outside : Compilation} (hfront : d.front = front)
    (haction : t.tag.action = .define d.finish) (hmin : t.tag.min = 1) (hmax : t.tag.max = 1)
    (hindex : t.index = 0) (h : InBody lib g d arity m outside c)
  /-- there is no argument left to start -/
  | full (h : t.tag.max ≤ t.index)

/-- A tag waits for an argument. -/
inductive WaitsForArgument (lib : Option Registry) (g : Setting) (front : List Line) (t : OpenTag) :
    After → Compilation → Prop where
  | capture {d : Draft} {os : Operands} {c : Compilation} (numeric : Bool) (hfront : d.front = front)
    (h : Gathers lib (g.after d) t t.index os) (hdeferred : t.deferred = none)
    (hmax : t.index < t.tag.max)
    (hmode : t.tag.mode t.index = if numeric then .number else .captured) (hcompares : Compares t)
    (hinside : Inside lib g d (os.lines d.finish ++ [.plain .newOutput]) (os.definitions d.finish)
      (fun s => os.Sound lib s d.finish) 0 c) :
    WaitsForArgument lib g front t (if numeric then .captureNumber else .capture) c
  | outOfLine {d : Draft} {os : Operands} {c : Compilation} (hfront : d.front = front)
    (h : Gathers lib (g.after d) t t.index os) (hdeferred : t.deferred = none)
    (hmax : t.index < t.tag.max) (hmode : t.tag.mode t.index = .outOfLine) (hcompares : Compares t)
    (hinside : Inside lib g d (os.lines d.finish ++ [.plain (.jump 0)]) (os.definitions d.finish)
      (fun s => os.Sound lib s d.finish) 0 c) :
    WaitsForArgument lib g front t (.outOfLine (d.finish + os.size) (d.finish + os.size + 5)) c
  | yes {d : Draft} {os : Operands} {test : Test} {c : Compilation} (hfront : d.front = front)
    (hbranch : FirstBranch d os test t t.index)
    (hinside : Inside lib g d (branchLines d.finish os test 0) (os.definitions d.finish)
      (fun s => os.Sound lib s d.finish) 0 c) :
    WaitsForArgument lib g front t .nothing c
  | no {d : Draft} {os : Operands} {test : Test} {yes : Code} {i : Nat} {c : Compilation}
    (hfront : d.front = front) (hbranch : SecondBranch d os test yes t i) (hindex : t.index = i + 1)
    (hinside : Inside lib g d (secondLines d os test yes 0) (secondDefinitions d os yes)
      (SecondSound lib d os yes) 0 c) :
    WaitsForArgument lib g front t .nothing c
  | body {d : Draft} {arity m : Nat} {outside c : Compilation} (hfront : d.front = front)
    (haction : t.tag.action = .define d.finish) (hmin : t.tag.min = 1) (hmax : t.tag.max = 1)
    (hindex : t.index = 0) (h : InBody lib g d arity m outside c) :
    WaitsForArgument lib g front t .nothing c

/-- The next argument of a tag is there. -/
inductive Filled (lib : Option Registry) (g : Setting) (front : List Line) (n : Nat) (t : OpenTag)
    (c : Compilation) : Prop where
  | operands {d : Draft} {os : Operands} (hfront : d.front = front)
    (h : Gathered lib g d t (t.index + 1) os n c) (hcompares : Compares t)
  /-- the tag has been computed -/
  | folded {d : Draft} {op : Arithmetic} (hfront : d.front = front)
    (haction : t.tag.action = .arithmetic op) (hmax : t.tag.max = t.index + 1)
    (hfolded : t.folded = true) (h : Inv lib g n d c)
  | yes {d : Draft} {os : Operands} {test : Test} {yes : Code} (hfront : d.front = front)
    (hbranch : FirstBranch d os test t t.index)
    (h : HasFirst lib g d os test yes n c)
  | no {d : Draft} {os : Operands} {test : Test} {yes no : Code} {i : Nat} (hfront : d.front = front)
    (hbranch : SecondBranch d os test yes t i) (hindex : t.index = i + 1)
    (h : HasSecond lib g d os test yes no n c)
  | body {d : Draft} {arity m : Nat} {outside : Compilation} (hfront : d.front = front)
    (haction : t.tag.action = .define d.finish) (hmin : t.tag.min = 1) (hmax : t.tag.max = 1)
    (hindex : t.index = 0) (h : InBody lib g d arity m outside c)

theorem Filled.reader (h : Filled lib g front n t c) {r : Token.Reader} (hr : c.reader.Passes k r) :
    Filled lib g front (n + k) t { c with reader := r } := by
  cases h with
  | operands hfront h hcompares => exact .operands hfront ⟨h.gathers, h.code.reader hr⟩ hcompares
  | folded hfront haction hmax hfolded h => exact .folded hfront haction hmax hfolded (h.reader hr)
  | yes hfront hbranch h => exact .yes hfront hbranch (h.reader hr)
  | no hfront hbranch hindex h => exact .no hfront hbranch hindex (h.reader hr)
  | body hfront haction hmin hmax hindex h =>
    exact .body hfront haction hmin hmax hindex (h.reader hr)

/-! ## The start of an argument -/

section

variable (hfront : d.front = front) (hmax : t.index < t.tag.max) (hcompares : Compares t)

include hfront hmax hcompares

theorem Filled.pushed {constant : Constant} (h : Gathers lib (g.after d) t t.index os)
    (hdeferred : t.deferred = none)
    (hmode : t.tag.mode t.index = .number ∨ t.tag.mode t.index = .captured)
    (hcode : HasOperands lib g d (os.append (.constant constant .nil)) n c) :
    Filled lib g front n t c := by
  refine .operands hfront ⟨h.add hmax hdeferred ?_, hcode⟩ hcompares
  obtain hmode | hmode := hmode <;> (rw [hmode]; trivial)

/-- A constant number is pushed, or put off until the next one is known. -/
theorem OpenTag.constantNumber_yields (text : String) (hmode : t.tag.mode t.index = .number)
    (h : Gathered lib g d t t.index os (n + 1) c) :
    Yields (t.constantNumber text) c fun t' c' => Filled lib g front n t' c' := by
  have hpushed : ∀ bits, Yields (do
      let t ← t.pushDeferred
      Compiling.emit (.pushNumber bits)
      return t) c fun t' c' => Filled lib g front n t' c' := fun bits =>
    .bind (h.pushDeferred_yields.mono fun t' c' ⟨ht', os', h'⟩ => by
      subst ht'
      exact .bind (.output (.pure (Filled.pushed hfront hmax hcompares h'.gathers rfl (.inl hmode)
        ((h'.code.pushNumber bits).spare (Nat.le_succ n))))))
  unfold OpenTag.constantNumber
  split
  · refine .bind (h.pushDeferred_yields.mono fun t' c' ⟨ht', os', h'⟩ => ?_)
    subst ht'
    exact .bind (.output (.bind (.output (.pure (Filled.pushed hfront hmax hcompares h'.gathers rfl
      (.inl hmode) (h'.code.pushSpelled text))))))
  · rename_i bits hbits
    dsimp only
    split
    · rename_i op haction
      have hok := h.gathers.ok
      rw [Tag.Ok, haction] at hok
      split
      · rename_i hindex
        have hdefer := h.gathers
        rw [hindex] at hdefer
        refine .pure (.operands hfront ⟨?_, h.code.spare (Nat.le_succ n)⟩ hcompares)
        have hone : t.index + 1 = 1 := by rw [hindex]
        change Gathers lib (g.after d) _ (t.index + 1) os
        rw [hone]
        exact hdefer.defer haction bits
      · split
        · exact hpushed bits
        · rename_i first hfirst
          split
          · rename_i result hresult
            have hone := (h.gathers.deferred first hfirst).2
            have hnil : os = .nil := by
              have hlength := h.gathers.length
              rw [hfirst, haction, hone] at hlength
              exact Operands.eq_nil_of_length (Nat.succ.inj hlength)
            subst hnil
            have hcode := h.code
            have hinv := (hcode.emit (i := .printNumber result.toBits) rfl).finishAct
              (a := .number result.toBits) (hcode.ended_emit rfl) rfl trivial
            refine .bind (.output (.pure (.folded (d := d.add (.act .nil (.number result.toBits) .nil))
              hfront haction ?_ rfl (hinv.spare (Nat.le_succ n)))))
            change t.tag.max = t.index + 1
            rw [hone, hok.2]
          · exact hpushed bits
    · exact hpushed bits

end

/-- What the start of an argument leads to. -/
def Began (lib : Option Registry) (g : Setting) (front : List Line) :
    OpenTag × Option After → Compilation → Prop
  | (t, none), c => Filled lib g front 0 t c
  | (t, some after), c => WaitsForArgument lib g front t after c

theorem Gathers.deferred_of_mode (h : Gathers lib known t k os) (hmode : t.tag.mode k ≠ .number) :
    t.deferred = none :=
  h.deferred_eq_none (.inr fun op hop => hmode (by rw [Tag.mode, hop]))

theorem Gathers.mode_ne_inline (h : Gathers lib known t t.index os) (hcompares : Compares t) :
    t.tag.mode t.index ≠ .inline := by
  have hok := h.ok
  rw [Tag.Ok] at hok
  unfold Tag.mode
  cases haction : t.tag.action with
  | setLocal =>
    dsimp only
    split <;> exact fun hmode => by cases hmode
  | compare jump numeric =>
    have hlt := hcompares 2 (by rw [haction]; rfl)
    simp only [Nat.not_le_of_lt hlt, if_false]
    split <;> exact fun hmode => by cases hmode
  | compareZero jump =>
    have hlt := hcompares 1 (by rw [haction]; rfl)
    simp only [Nat.lt_one_iff.1 hlt, if_true]
    exact fun hmode => by cases hmode
  | native id params =>
    dsimp only
    split <;> exact fun hmode => by cases hmode
  | define skip =>
    rw [haction] at hok
    exact hok.elim
  | _ => exact fun hmode => by cases hmode

/-- An argument is begun behind the operands gathered so far. -/
theorem Gathered.beginArgument_yields (hfront : d.front = front) (hcompares : Compares t)
    (h : Gathered lib g d t t.index os (n + 1) c) :
    Yields t.beginArgument c (Began lib g front) := by
  have hmono : ∀ s s', Reach.Grows s s' → os.Sound lib s d.finish →
      os.Sound lib s' d.finish := fun _ _ hs hS => hS.mono hs.le
  unfold OpenTag.beginArgument
  by_cases hover : t.tag.max ≤ t.index
  · simp only [if_pos hover]
    exact .bind .fail
  · have hmax : t.index < t.tag.max := Nat.lt_of_not_le hover
    simp only [if_neg hover]
    split
    · rename_i hmode
      refine .bind (.position (.bind (.constantUntil fun text r hr => ?_)))
      split
      · have hcode := (h.code.reader hr).spare (Nat.zero_le _)
        refine .pure (.operands hfront ⟨?_, hcode⟩ hcompares)
        exact (h.gathers.addName hmode).congr rfl rfl rfl rfl rfl
      · exact .bind (.peekLoose fun _ _ _ => .fail)
    · rename_i hmode
      have hdeferred := h.gathers.deferred_of_mode (by rw [hmode]; decide)
      refine .bind (.constantUntil fun text r hr => ?_)
      have hcode := h.code.reader hr
      split
      · rename_i text
        exact .bind (.output (.pure (Filled.pushed hfront hmax hcompares h.gathers hdeferred
          (.inr hmode) ((hcode.pushString text).spare (Nat.zero_le _)))))
      · exact .bind (.output (.pure (.capture false hfront h.gathers hdeferred hmax hmode hcompares
          (((hcode.emit rfl).spare (Nat.zero_le _)).enter (hcode.ended_emit rfl) hmono))))
    · rename_i hmode
      refine .bind (.constantUntil fun text r hr => ?_)
      have hread : Gathered lib g d t t.index os (n + 1) { c with reader := r } :=
        ⟨h.gathers, h.code.reader hr⟩
      split
      · rename_i text
        refine .bind ((OpenTag.constantNumber_yields hfront hmax hcompares text hmode
          (n := 0) ⟨h.gathers, hread.code.spare (Nat.le_add_left 1 n)⟩).mono ?_)
        exact fun t' c' h' => .pure h'
      · refine .bind (hread.pushDeferred_yields.mono fun t' c' ⟨ht', os', h'⟩ => ?_)
        subst ht'
        have hcode := h'.code
        exact .bind (.output (.pure (.capture true hfront h'.gathers rfl hmax hmode hcompares
          (((hcode.emit rfl).spare (Nat.zero_le _)).enter (hcode.ended_emit rfl)
            fun _ _ hs hS => Operands.Sound.mono hs.le hS))))
    · rename_i hmode
      exact absurd hmode (h.gathers.mode_ne_inline hcompares)
    · rename_i hmode
      have hdeferred := h.gathers.deferred_of_mode (by rw [hmode]; decide)
      have hcode := h.code
      have hposition : c.out.position = d.finish + os.size := by
        rw [hcode.position, Operands.sizes_lines]
      have hemit := c.out.position_emit (.jump 0)
      have hsize : (Instr.jump 0).size = 5 := rfl
      refine .bind (.emitAt (.bind (.offset (.pure ?_))))
      change WaitsForArgument lib g front t
        (.outOfLine c.out.position (c.out.emit (.jump 0)).position) _
      rw [hemit, hsize, hposition]
      exact .outOfLine hfront h.gathers hdeferred hmax hmode hcompares
        (((hcode.emit rfl).spare (Nat.zero_le _)).enter (hcode.ended_emit rfl) hmono)

theorem Ready.beginArgument_yields (h : Ready lib g front (n + 1) t c) :
    Yields t.beginArgument c (Began lib g front) := by
  have hinline : t.tag.mode t.index = .inline → WaitsForArgument lib g front t .nothing c →
      Yields t.beginArgument c (Began lib g front) := by
    intro hmode hwaits
    unfold OpenTag.beginArgument
    simp only [hmode]
    split
    · exact .bind .fail
    · exact .pure hwaits
  cases h with
  | operands hfront h hcompares => exact h.beginArgument_yields hfront hcompares
  | yes hfront hbranch h hended =>
    refine hinline (hbranch.asks.mode (Nat.le_refl _)) (.yes hfront hbranch ?_)
    exact (h.spare (Nat.zero_le _)).enter hended fun _ _ hs hS => Operands.Sound.mono hs.le hS
  | no hfront hbranch hindex h hended =>
    refine hinline (hbranch.asks.mode (by omega)) (.no hfront hbranch hindex ?_)
    exact (h.spare (Nat.zero_le _)).enter hended fun _ _ hs hS =>
      ⟨Operands.Sound.mono hs.le hS.1, Code.Sound.mono hs.le hS.2⟩
  | body hfront haction hmin hmax hindex h =>
    refine hinline ?_ (.body hfront haction hmin hmax hindex h)
    rw [Tag.mode, haction]
  | full h =>
    unfold OpenTag.beginArgument
    simp only [if_pos h]
    exact .bind .fail

/-! ## The end of an argument -/

/-- Behind its pattern, an argument is complete. -/
theorem WaitsForArgument.afterArgument_yields {after : After}
    (h : WaitsForArgument lib g front t after c) :
    Yields (OpenTag.afterArgument after) c fun _ c' => Filled lib g front 0 t c' := by
  cases h with
  | @capture d os _ numeric hfront h hdeferred hmax hmode hcompares hinside =>
    obtain ⟨body, hpart⟩ := hinside.leave
    have hoffset : d.finish + Line.sizes (os.lines d.finish ++ [.plain .newOutput]) =
        d.finish + os.size + 1 := by
      rw [Line.sizes_append, Operands.sizes_lines, ← Nat.add_assoc]
      rfl
    rw [hoffset] at hpart
    have hfilled : ∀ c', HasOperands lib g d (os.append (.capture numeric body .nil)) 0 c' →
        Filled lib g front 0 t c' := fun c' hcode => by
      refine .operands hfront ⟨h.add hmax hdeferred ?_, hcode⟩ hcompares
      rw [hmode]
      cases numeric <;> trivial
    cases numeric with
    | false =>
      change Yields (Compiling.emit .returnOutput) c _
      refine .output (hfilled _ ?_)
      exact .capture (hpart.emit rfl)
    | true =>
      have hpart := (hpart.emit (i := .returnOutput) rfl).emit (i := .toNumber) rfl
      rw [List.append_assoc] at hpart
      exact .bind (.output (.output (hfilled _ (.capture hpart))))
  | @outOfLine d os _ hfront h hdeferred hmax hmode hcompares hinside =>
    obtain ⟨body, hpart⟩ := hinside.leave
    have hoffset : d.finish + Line.sizes (os.lines d.finish ++ [.plain (.jump 0)]) =
        d.finish + os.size + 5 := by
      rw [Line.sizes_append, Operands.sizes_lines, ← Nat.add_assoc]
      rfl
    rw [hoffset] at hpart
    have hpart := hpart.emit (i := .return) rfl
    rw [List.append_assoc, List.append_assoc, List.singleton_append] at hpart
    have hpart := hpart.land (i := .jump 0) rfl (by rw [Operands.sizes_lines])
    have hpart := hpart.emit (i := .pushAddress (Int32.ofNat (d.finish + os.size + 5))) rfl
    refine .bind (.output (.bind (.output (.output ?_))))
    have hgathers := h.add (o := .pointer body .nil) hmax hdeferred (by rw [hmode]; trivial)
    exact .operands hfront ⟨hgathers, .pointer hpart⟩ hcompares
  | yes hfront hbranch hinside =>
    obtain ⟨code, hpart⟩ := hinside.leave
    rw [sizes_branchLines, ← Nat.add_assoc] at hpart
    exact .pure (.yes hfront hbranch hpart)
  | no hfront hbranch hindex hinside =>
    obtain ⟨code, hpart⟩ := hinside.leave
    rw [sizes_secondLines, ← Nat.add_assoc, ← Nat.add_assoc, ← Nat.add_assoc] at hpart
    exact .pure (.no hfront hbranch hindex hpart)
  | body hfront haction hmin hmax hindex h =>
    exact .pure (.body hfront haction hmin hmax hindex h)

/-- A tag has no more arguments. -/
inductive Complete (lib : Option Registry) (g : Setting) (front : List Line) (n : Nat) (t : OpenTag)
    (c : Compilation) : Prop where
  | operands {d : Draft} {os : Operands} (hfront : d.front = front)
    (h : Gathered lib g d t t.index os n c) (hcompares : Compares t)
  | folded {d : Draft} {op : Arithmetic} (hfront : d.front = front)
    (haction : t.tag.action = .arithmetic op) (hfolded : t.folded = true) (h : Inv lib g n d c)
  | yes {d : Draft} {os : Operands} {test : Test} {yes : Code} {i : Nat} (hfront : d.front = front)
    (hbranch : FirstBranch d os test t i)
    (h : HasFirst lib g d os test yes n c)
  | no {d : Draft} {os : Operands} {test : Test} {yes no : Code} {i : Nat} (hfront : d.front = front)
    (hbranch : SecondBranch d os test yes t i)
    (h : HasSecond lib g d os test yes no n c)
  | body {d : Draft} {arity m : Nat} {outside : Compilation} (hfront : d.front = front)
    (haction : t.tag.action = .define d.finish) (h : InBody lib g d arity m outside c)
  /-- there are too few of them -/
  | short (h : t.index < t.tag.min)

/-- What follows an argument, the next one being started if there are `more`. -/
def Between (lib : Option Registry) (g : Setting) (front : List Line) (n : Nat) (more : Bool) (t : OpenTag)
    (c : Compilation) : Prop :=
  if more then Ready lib g front n { t with index := t.index + 1 } c
  else Complete lib g front n { t with index := t.index + 1 } c

theorem Asks.compared? {tag : Tag} (h : Asks tag test k) : tag.action.compared? = some k := by
  obtain ⟨⟨numeric, haction⟩, rfl⟩ | ⟨haction, rfl⟩ := h.action <;> (rw [haction]; rfl)

/-- The jumps of a comparison follow its operands. -/
theorem HasOperands.choose (h : HasOperands lib g d os n c) (test : Test) :
    ((c.out.emit .compare).emit (test.jump 0)).position = d.finish + os.size + 6 ∧
      Part lib g d (branchLines d.finish os test 0) (os.definitions d.finish)
        (fun s => os.Sound lib s d.finish) n
        { c with
          out := (((c.out.emit .compare).emit (test.jump 0)).emit (.jump 0)).patchHere
            (c.out.emit .compare).position } ∧
      ((((c.out.emit .compare).emit (test.jump 0)).emit (.jump 0)).patchHere
        (c.out.emit .compare).position).Ended (d.lines ++ branchLines d.finish os test 0) := by
  have hcompared := Part.emit h (i := .compare) rfl
  have hfirst := hcompared.emit (i := test.jump 0) (test.namesString_jump 0)
  have hsecond := hfirst.emit (i := .jump 0) rfl
  have helse : (((c.out.emit .compare).emit (test.jump 0)).position) = d.finish + os.size + 6 := by
    rw [hfirst.position, Line.sizes_append, Line.sizes_append, Operands.sizes_lines, ← Nat.add_assoc,
      ← Nat.add_assoc, Line.sizes_cons, Line.sizes_cons, Line.size, Line.size, test.size_jump]
    rfl
  have hsize : d.finish + Line.sizes (os.lines d.finish ++ [.plain .compare] ++
      .plain (test.jump 0) :: [.plain (.jump 0)]) = d.finish + os.size + 11 := by
    rw [Line.sizes_append, Line.sizes_append, Operands.sizes_lines, ← Nat.add_assoc, ← Nat.add_assoc]
    simp only [Line.sizes_cons, Line.sizes_nil, Line.size, test.size_jump]
    rfl
  have hlines : os.lines d.finish ++ [.plain .compare] ++
      .plain ((test.jump 0).withTarget (Int32.ofNat (d.finish + os.size + 11))) ::
        [.plain (.jump 0)] = branchLines d.finish os test 0 := by
    rw [test.withTarget_jump, branchLines, List.append_assoc]
    rfl
  rw [List.append_assoc _ [Line.plain (test.jump 0)], List.singleton_append] at hsecond
  have hended := hsecond.ended_land (test.target_jump 0) hcompared.position
  have hland := hsecond.land (test.target_jump 0) hcompared.position
  rw [hsize, hlines] at hended hland
  exact ⟨helse, hland, hended⟩

theorem HasOperands.choose_yields (hfront : d.front = front) (h : HasOperands lib g d os n c)
    (hlength : os.length = 2) (hend : t.endJump = none) (hasks : Asks t.tag test (t.index + 1)) :
    Yields (do
      Compiling.emit .compare
      let thenJump ← Compiling.emitAt (test.jump 0)
      let elseJump ← Compiling.emitAt (.jump 0)
      Compiling.land thenJump
      return { t with elseJump := some elseJump }) c (Between lib g front n more) := by
  obtain ⟨helse, hland, hended⟩ := h.choose test
  refine .bind (.output (.bind (.emitAt (.bind (.emitAt (.bind (.output (.pure ?_))))))))
  cases more with
  | false => exact .short (hasks.min ▸ Nat.lt_succ_self _)
  | true => exact .yes hfront ⟨hasks, hlength, congrArg some helse, hend⟩ hland hended

/-- Behind two operands, a comparison opens its first branch. -/
theorem Gathered.branch_yields (hfront : d.front = front) (hcompares : Compares t)
    (h : Gathered lib g d t (t.index + 1) os n c) (hasks : Asks t.tag test k) :
    Yields (t.branch (test.jump 0) k more) c (Between lib g front n more) := by
  have hlt : t.index < k := hcompares k hasks.compared?
  have hlength : os.length = t.index + 1 := by
    obtain ⟨⟨numeric, haction⟩, -⟩ | ⟨haction, -⟩ := hasks.action <;>
      rw [h.gathers.length_eq (.inr fun op => by simp [haction]), haction] <;> rfl
  unfold OpenTag.branch
  split
  · rename_i hindex
    subst hindex
    split
    · rename_i hone
      refine .bind (.output ?_)
      refine (h.code.pushNumber 0).choose_yields hfront ?_ h.gathers.endJump hasks
      rw [Operands.length_append, hlength, hone]
      rfl
    · rename_i hone
      refine h.code.choose_yields hfront ?_ h.gathers.endJump hasks
      obtain ⟨-, hk⟩ | ⟨-, hk⟩ := hasks.action
      · rw [hlength, hk]
      · exact absurd hk hone
  · rename_i hindex
    have hne : ¬ (t.index = k && more) = true := by
      simp only [Bool.and_eq_true, decide_eq_true_eq, not_and]
      omega
    rw [if_neg hne]
    have hgathered : Gathered lib g d { t with index := t.index + 1 } (t.index + 1) os n c :=
      ⟨h.gathers.congr rfl rfl rfl rfl rfl, h.code⟩
    have hcompares : Compares { t with index := t.index + 1 } := fun k' hk' => by
      cases hasks.compared?.symm.trans hk'
      change t.index + 1 < k
      omega
    refine .pure ?_
    cases more with
    | false => exact .operands hfront hgathered hcompares
    | true => exact .operands hfront hgathered hcompares

/-- The jump of a comparison that fails leads behind what follows. -/
theorem Part.landElse {rest : List Line} {defs : List Definition} {S : Reach → Prop}
    (h : Part lib g d (branchLines d.finish os test 0 ++ rest) defs S n c) {target : Nat}
    (htarget : target = d.finish + os.size + 11 + Line.sizes rest) :
    Part lib g d (branchLines d.finish os test (Int32.ofNat target) ++ rest) defs S n
        { c with out := c.out.patchHere (d.finish + os.size + 6) } ∧
      (c.out.patchHere (d.finish + os.size + 6)).Ended
        (d.lines ++ (branchLines d.finish os test (Int32.ofNat target) ++ rest)) := by
  subst htarget
  have hlines : ∀ target, branchLines d.finish os test target ++ rest =
      (os.lines d.finish ++ [.plain .compare,
        .plain (test.jump (Int32.ofNat (d.finish + os.size + 11)))]) ++
        .plain (.jump target) :: rest := by
    intro target
    simp only [branchLines, List.append_assoc, List.cons_append, List.nil_append]
  have hoffset : d.finish + os.size + 6 = d.finish + Line.sizes (os.lines d.finish ++
      [.plain .compare, .plain (test.jump (Int32.ofNat (d.finish + os.size + 11)))]) := by
    rw [Line.sizes_append, Operands.sizes_lines, ← Nat.add_assoc]
    simp only [Line.sizes_cons, Line.sizes_nil, Line.size, test.size_jump]
    rfl
  have hsize : d.finish + Line.sizes ((os.lines d.finish ++ [.plain .compare,
      .plain (test.jump (Int32.ofNat (d.finish + os.size + 11)))]) ++ .plain (.jump 0) :: rest) =
      d.finish + os.size + 11 + Line.sizes rest := by
    rw [← hlines, Line.sizes_append, sizes_branchLines]
    simp only [← Nat.add_assoc]
  rw [hlines] at h
  have hended := h.ended_land (i := .jump 0) rfl hoffset
  have hland := h.land (i := .jump 0) rfl hoffset
  rw [hsize, Instr.withTarget, ← hlines] at hended hland
  exact ⟨hland, hended⟩

/-- A second branch follows the first one. -/
theorem Part.openElse {yes : Code} (h : HasFirst lib g d os test yes n c) :
    c.out.position = d.finish + os.size + 11 + yes.size ∧
      Part lib g d (secondLines d os test yes 0) (secondDefinitions d os yes)
        (SecondSound lib d os yes) n
        { c with out := (c.out.emit (.jump 0)).patchHere (d.finish + os.size + 6) } ∧
      ((c.out.emit (.jump 0)).patchHere (d.finish + os.size + 6)).Ended
        (d.lines ++ secondLines d os test yes 0) := by
  have hend : c.out.position = d.finish + os.size + 11 + yes.size := by
    rw [h.position, Line.sizes_append, sizes_branchLines, Code.sizes_lines]
    omega
  have htarget : d.finish + os.size + 11 + yes.size + 5 = d.finish + os.size + 11 +
      Line.sizes (yes.lines (d.finish + os.size + 11) ++ [.plain (.jump 0)]) := by
    rw [Line.sizes_append, Code.sizes_lines, ← Nat.add_assoc]
    rfl
  have hjump := h.emit (i := .jump 0) rfl
  rw [List.append_assoc] at hjump
  obtain ⟨hland, hended⟩ := hjump.landElse htarget
  have hlines : branchLines d.finish os test
      (Int32.ofNat (d.finish + os.size + 11 + yes.size + 5)) ++
      (yes.lines (d.finish + os.size + 11) ++ [.plain (.jump 0)]) =
      secondLines d os test yes 0 := (List.append_assoc ..).symm
  rw [hlines] at hland hended
  exact ⟨hend, hland, hended⟩

/-- Behind the first branch, the second one is opened if there is more. -/
theorem FirstBranch.branch_yields {yes : Code} (hfront : d.front = front)
    (hbranch : FirstBranch d os test t t.index)
    (h : HasFirst lib g d os test yes n c) (hk : k = t.index) :
    Yields (t.branch (test.jump 0) k more) c (Between lib g front n more) := by
  subst hk
  unfold OpenTag.branch
  rw [if_neg (Nat.succ_ne_self _)]
  cases more with
  | false =>
    simp only [Bool.and_false, Bool.false_eq_true, if_false]
    exact .pure (.yes hfront ⟨hbranch.asks, hbranch.length, hbranch.elseJump, hbranch.endJump⟩ h)
  | true =>
    simp only [decide_true, Bool.and_true, if_true]
    obtain ⟨hend, hland, hended⟩ := h.openElse
    refine .bind (.emitAt ?_)
    unfold OpenTag.landElse
    simp only [hbranch.elseJump]
    exact .bind (.output (.pure (.no hfront
      ⟨hbranch.asks, hbranch.length, rfl, congrArg some hend⟩ rfl hland hended)))

theorem Tag.Ok.asks {tag : Tag} (h : tag.Ok lib known) (hk : tag.action.compared? = some k) :
    ∃ test, Asks tag test k := by
  rw [Tag.Ok] at h
  cases haction : tag.action with
  | compare jump numeric =>
    rw [haction] at h hk
    obtain ⟨⟨test, rfl⟩, hmin, hmax⟩ := h
    cases hk
    exact ⟨test, .inl ⟨⟨numeric, haction⟩, rfl⟩, hmin, hmax⟩
  | compareZero jump =>
    rw [haction] at h hk
    obtain ⟨⟨test, rfl⟩, hmin, hmax⟩ := h
    cases hk
    exact ⟨test, .inr ⟨haction, rfl⟩, hmin, hmax⟩
  | _ =>
    rw [haction] at hk
    cases hk

theorem OpenTag.betweenArguments_of_asks (h : Asks t.tag test k) (more : Bool) :
    t.betweenArguments more = t.branch (test.jump 0) k more := by
  unfold OpenTag.betweenArguments
  obtain ⟨⟨numeric, haction⟩, rfl⟩ | ⟨haction, rfl⟩ := h.action <;> simp only [haction]

theorem OpenTag.betweenArguments_of_none (h : t.tag.action.compared? = none) (more : Bool) :
    t.betweenArguments more = pure t := by
  unfold OpenTag.betweenArguments
  cases haction : t.tag.action with
  | compare _ _ | compareZero _ =>
    rw [haction] at h
    cases h
  | _ => rfl

/-- Between arguments, a comparison opens its branches; other tags write nothing. -/
theorem Filled.betweenArguments_yields (h : Filled lib g front n t c) :
    Yields (t.betweenArguments more) c (Between lib g front n more) := by
  cases h with
  | operands hfront h hcompares =>
    cases hcompared : t.tag.action.compared? with
    | none =>
      rw [OpenTag.betweenArguments_of_none hcompared]
      have hgathered : Gathered lib g _ { t with index := t.index + 1 } (t.index + 1) _ n c :=
        ⟨h.gathers.congr rfl rfl rfl rfl rfl, h.code⟩
      have hcompares : Compares { t with index := t.index + 1 } := fun k hk => by
        cases hcompared.symm.trans hk
      refine .pure ?_
      cases more with
      | false => exact .operands hfront hgathered hcompares
      | true => exact .operands hfront hgathered hcompares
    | some k =>
      obtain ⟨test, hasks⟩ := h.gathers.ok.asks hcompared
      rw [OpenTag.betweenArguments_of_asks hasks]
      exact h.branch_yields hfront hcompares hasks
  | folded hfront haction hmax hfolded h =>
    rw [OpenTag.betweenArguments_of_none (by rw [haction]; rfl)]
    refine .pure ?_
    cases more with
    | false => exact .folded hfront haction hfolded h
    | true => exact .full (Nat.le_of_eq hmax)
  | yes hfront hbranch h =>
    rw [OpenTag.betweenArguments_of_asks hbranch.asks]
    exact hbranch.branch_yields hfront h rfl
  | @no d os test yes no i hfront hbranch hindex h =>
    have hlast : t.branch (test.jump 0) i more = pure t := by
      have hne : ¬ (t.index = i && more) = true := by
        simp only [Bool.and_eq_true, decide_eq_true_eq, not_and]
        omega
      rw [OpenTag.branch, if_neg (by omega), if_neg hne]
    rw [OpenTag.betweenArguments_of_asks hbranch.asks, hlast]
    refine .pure ?_
    cases more with
    | false =>
      exact .no hfront ⟨hbranch.asks, hbranch.length, hbranch.elseJump, hbranch.endJump⟩ h
    | true =>
      refine .full ?_
      exact Nat.le_of_eq (by rw [hbranch.asks.max, hindex])
  | body hfront haction hmin hmax hindex h =>
    rw [OpenTag.betweenArguments_of_none (by rw [haction]; rfl)]
    refine .pure ?_
    cases more with
    | false => exact .body hfront haction h
    | true =>
      refine .full ?_
      exact Nat.le_of_eq (by rw [hmax, hindex])

end Wordloom.Compile
