import Wordloom.Proofs.LoweringTags

/-!
# Wordloom.Proofs.LoweringBranches

Comparisons that are known to compile: their operands are values, with a zero for those that have only
one, and of the branches behind them one is evaluated.
-/

namespace Wordloom

/-! ## Branches of a tag -/

namespace Scoping

variable {s s₁ : Scoping} {first : Pattern} {more : Arguments}

theorem branch_zero : s.branch (.cons first more) 0 = s.denote first := by
  funext call
  rw [branch, Arguments.branch]
  rfl

theorem branch_succ (hparams : s₁.params = s.params)
    (hknown : s₁.procedures = first.known s.procedures) (index : Nat) :
    s.branch (.cons first more) (index + 1) = s₁.branch more index := by
  funext call
  rw [branch, branch, Arguments.branch, hparams, hknown]

theorem branch_nil (index : Nat) : s.branch .nil index = pure () := by
  funext call
  rw [branch, Arguments.branch]
  rfl

end Scoping

namespace Compile

variable {ctx : Context} {c c₁ c' : Compilation} {t : OpenTag} {env : Environment}
  {lib : Option Registry} {g : Setting} {d : Draft} {before known links : List Link}
  {s s₁ s₂ s₀ : Scoping} {os : Operands} {y : Sense Unit} {ys : Sense (List Value)}
  {rest : List Lexeme} {test : Test}

/-! ## Tags -/

/-- The tag of a test. -/
def compareTag (test : Test) : Tag where
  name := (TagHead.compare test).name
  action :=
    if test.operands = 1 then .compareZero (test.jump 0) else .compare (test.jump 0) test.numeric
  min := test.operands + 1
  max := test.operands + 2

theorem intrinsic?_compare (test : Test) :
    Tag.intrinsic? (TagHead.compare test).name = some (compareTag test) := by
  cases test <;> rfl

theorem asks_compareTag (test : Test) : Asks (compareTag test) test test.operands := by
  cases test with
  | zero | notZero => exact ⟨.inr ⟨rfl, rfl⟩, rfl, rfl⟩
  | _ => exact ⟨.inl ⟨⟨_, rfl⟩, rfl⟩, rfl, rfl⟩

theorem mode_compareTag (test : Test) {i : Nat} (hi : i < test.operands) :
    (compareTag test).mode i = if test.numeric then .number else .captured := by
  have hlt : ¬ 2 ≤ i := by
    cases test <;> (simp only [Test.operands] at hi; omega)
  cases test with
  | zero | notZero =>
    have hzero : i = 0 := Nat.lt_one_iff.1 hi
    subst hzero
    rfl
  | _ =>
    exact if_neg hlt

theorem action_compareTag (test : Test) (op : Arithmetic) :
    (compareTag test).action ≠ .arithmetic op := by
  cases test <;> nofun

/-! ## Operands -/

/-- A number is pushed where nothing is computed with it. -/
theorem OpenTag.constantNumber_of_ne (hother : ∀ op, t.tag.action ≠ .arithmetic op) {text : String}
    {bits : UInt64} (hbits : Decimal.bits? (Text.trim text) = some bits) :
    t.constantNumber text = (do
      let t ← t.pushDeferred
      Compiling.emit (.pushNumber bits)
      return t) := by
  unfold constantNumber
  simp only [hbits]

/-- An argument that is an operand of a comparison. -/
theorem Operated.takes_compared {first : Pattern} {l : Lexeme} (hcapitals : env.options.capitals = .none)
    (hfirst : first.Lowers ctx env lib) (h : Operated env lib g d known none s links os ys 1 c)
    (htag : t.tag = compareTag test) (hindex : t.index < test.operands) (hdeferred : t.deferred = none)
    (hfaces : c.Faces (first.lexemes ++ l :: rest)) (hl : Terminator.argument.endsAt l.kind = true)
    (hcheck : first.check .argument s = some s₁) :
    ∃ (o : Operands) (c₁ : Compilation) (links₁ : List Link), t.Takes ctx t c c₁ ∧
      c₁.Faces (l :: rest) ∧ o.length = 1 ∧
      Operated env lib g d known none s₁ links₁ (os.append o)
        (ys.snoc (do return capturedValue test.numeric (← (s.denote first).capture))) 0 c₁ := by
  have hmax : t.index < t.tag.max := by
    rw [htag]
    exact Nat.lt_add_right 2 hindex
  have hmode := mode_compareTag test hindex
  rw [← htag] at hmode
  cases hnumeric : test.numeric with
  | false =>
    rw [hnumeric] at hmode
    exact h.takes_captured hcapitals hfirst hmax hmode hfaces hl hcheck
  | true =>
    rw [hnumeric] at hmode
    rw [← hdeferred] at h
    obtain ⟨o, c₁, links₁, htakes, hfaces, ho, hoperated⟩ := h.takes_number hcapitals hfirst hmax hmode
      (fun text _ bits hbits => OpenTag.constantNumber_of_ne
        (fun op => htag ▸ action_compareTag test op) hbits) hfaces hl hcheck
    have hsame : { t with deferred := none } = t := by rw [← hdeferred]
    rw [hsame] at htakes
    rw [hdeferred, held, Operands.append_nil] at hoperated
    exact ⟨o, c₁, links₁, htakes, hfaces, ho, hoperated⟩

/-- Behind the operands the jumps are set, for which there is a zero if nothing else is compared. -/
theorem Operated.chooses (h : Operated env lib g d known none s links os ys 1 c)
    (hlength : os.length = test.operands) (hindex : t.index + 1 = test.operands) :
    ∃ (os' : Operands) (e : Emitter),
      t.branch (test.jump 0) test.operands true c =
        .ok { t with elseJump := some (d.finish + os'.size + 6) } { c with out := e } ∧
      os'.length = 2 ∧
      os'.Means env known links s.locals d.finish (do return (← ys) ++ test.others) ∧
      Part lib g d (branchLines d.finish os' test 0) (os'.definitions d.finish)
        (fun s => os'.Sound lib s d.finish) 1 { c with out := e } ∧
      e.Ended (d.lines ++ branchLines d.finish os' test 0) := by
  unfold OpenTag.branch
  rw [if_pos hindex]
  by_cases hone : test.operands = 1
  · have hpushed := h.push (h.code.pushNumber 0)
    have hmeans := hpushed.means
    have hzero : Float.ofBits 0 = 0 := by decide +kernel
    rw [held, Operands.append_nil, Constant.value, hzero] at hmeans
    have hothers : test.others = [.number 0] := by
      cases test with
      | zero | notZero => rfl
      | _ => cases hone
    obtain ⟨helse, hpart, hended⟩ := hpushed.code.choose test
    refine ⟨_, _, ?_, ?_, ?_, hpart, hended⟩
    · rw [if_pos hone, ← helse]
      rfl
    · rw [Operands.length_append, hlength, hone]
      rfl
    · rw [hothers]
      simpa [Sense.snoc] using hmeans
  · have htwo : test.operands = 2 ∧ test.others = [] := by
      cases test with
      | zero | notZero => exact absurd rfl hone
      | _ => exact ⟨rfl, rfl⟩
    have hmeans := h.means
    rw [held, Operands.append_nil] at hmeans
    obtain ⟨helse, hpart, hended⟩ := h.code.choose test
    refine ⟨_, _, ?_, hlength.trans htwo.1, ?_, hpart, hended⟩
    · rw [if_neg hone, ← helse]
      rfl
    · rw [htwo.2]
      simpa using hmeans

/-! ## Branches -/

/-- A branch is compiled as a pattern. -/
theorem OpenTag.takes_inline (hmax : t.index < t.tag.max) (hmode : t.tag.mode t.index = .inline)
    (hreaches : Reaches ctx c.reader.rest.length ((Construct.pattern .argument).resume ctx c) c₁) :
    t.Takes ctx t c c₁ := by
  have hbegin : t.beginArgument c = .ok (t, some .nothing) c := by
    unfold beginArgument
    rw [if_neg (Nat.not_le_of_lt hmax)]
    simp only [hmode]
    rfl
  exact .pattern hbegin hreaches rfl rfl

/-- A comparison ends behind a branch; a jump that is still open leads there. -/
theorem OpenTag.follows_end (ctx : Context) {k : Nat} {sep : Token} {ts : List Token} (hasks : Asks t.tag test k)
    (hmin : k ≤ t.index) (hmax : t.index < k + 2) (hrest : c.reader.rest = sep :: ts)
    (hsep : sep.kind = .rightSquare) {jump : Nat}
    (hjump : t.elseJump = some jump ∧ t.endJump = none ∨ t.elseJump = none ∧ t.endJump = some jump) :
    t.Follows ctx c { c.past sep ts with out := c.out.patchHere jump } := by
  have hbetween : t.betweenArguments false = pure t := by
    rw [betweenArguments_of_asks hasks, branch, if_neg (by omega), if_neg (by simp)]
  have hperform : ({ t with index := t.index + 1 } : OpenTag).perform ctx (c.past sep ts) =
      .ok () { c.past sep ts with out := c.out.patchHere jump } := by
    unfold perform
    obtain ⟨⟨numeric, haction⟩, -⟩ | ⟨haction, -⟩ := hasks.action <;>
      obtain ⟨helse, hend⟩ | ⟨helse, hend⟩ := hjump <;>
        (simp only [haction, landElse, helse, hend]; rfl)
  refine .last (endArgument_of_last hrest hsep (congrFun hbetween _) ?_) ?_
  · rw [finish_of_count (hasks.min ▸ Nat.succ_le_succ hmin) (hasks.max ▸ hmax)]
    exact hperform
  · rw [hrest]
    exact Nat.lt_succ_self _

/-- Where the jumps of a comparison are set, which is in front of its first branch. -/
structure Chosen (env : Environment) (lib : Option Registry) (g : Setting) (d : Draft)
    (known : List Link) (test : Test) (s : Scoping) (links : List Link) (os : Operands)
    (ys : Sense (List Value)) (c : Compilation) : Prop where
  length : os.length = 2
  means : os.Means env known links s.locals d.finish ys
  part : Part lib g d (branchLines d.finish os test 0) (os.definitions d.finish)
    (fun s => os.Sound lib s d.finish) 0 c
  ended : c.out.Ended (d.lines ++ branchLines d.finish os test 0)
  knows : c.Knows s links

/-- A comparison when its jumps are set. -/
def comparing (test : Test) (place : Position) (elseJump : Nat) : OpenTag where
  tag := compareTag test
  start := place
  index := test.operands
  elseJump := some elseJump

/-- The first branch is compiled. -/
theorem Chosen.yes {yes : Pattern} {l : Lexeme} (place : Position) (hyes : yes.Lowers ctx env lib)
    (h : Chosen env lib g d known test s links os ys c)
    (hfaces : c.Faces (yes.lexemes ++ l :: rest)) (hl : Terminator.argument.endsAt l.kind = true)
    (hcheck : yes.check .argument s = some s₁) :
    ∃ (code : Code) (c₁ : Compilation) (links₁ : List Link),
      (comparing test place (d.finish + os.size + 6)).Takes ctx
        (comparing test place (d.finish + os.size + 6)) c c₁ ∧ c₁.Faces (l :: rest) ∧
      c₁.Knows s₁ links₁ ∧
      code.Means env links links₁ s₁.locals (d.finish + os.size + 11) (s.denote yes) ∧
      HasFirst lib g d os test code 0 c₁ := by
  obtain ⟨code, c₁, links₁, -, hreaches, hfaces, hknows, hmeans, hpart⟩ :=
    hyes.inside .argument h.part h.ended (fun _ _ hs hS => Operands.Sound.mono hs.le hS) h.knows
      hfaces hl hcheck
  rw [sizes_branchLines, ← Nat.add_assoc] at hmeans hpart
  refine ⟨code, c₁, links₁, OpenTag.takes_inline ?_ ?_ hreaches, hfaces, hknows, hmeans, hpart⟩
  · exact Nat.lt_add_of_pos_right Nat.two_pos
  · exact (asks_compareTag test).mode (Nat.le_refl _)

/-- A comparison with one branch. -/
theorem Chosen.lowers_yes {yes : Pattern} (place : Position) (hyes : yes.Lowers ctx env lib)
    (h : Chosen env lib g d known test s links os ys c)
    (hmeans : d.Means env before known s₀.locals y) (hextends : s₀.Extends s)
    (hfaces : c.Faces (yes.lexemes ++ .mark .rightSquare :: rest))
    (hcheck : yes.check .argument s = some s₁) :
    (comparing test place (d.finish + os.size + 6)).Writes ctx env lib g before s₁ (do
      y
      (do
        let values ← ys
        if test.holdsFor values then s.denote yes else pure ())) d rest c := by
  obtain ⟨code, c₁, links₁, htakes, hfaces, hknows, hcode, hpart⟩ :=
    h.yes place hyes hfaces rfl hcheck
  obtain ⟨sep, ts, hrest, hsep, hfaces⟩ := hfaces.cons
  have hinv := (hpart.reader (c₁.passes_past hrest)).finishThen h.length
  have hfollows := OpenTag.follows_end ctx (asks_compareTag test) (Nat.le_refl _)
    (Nat.lt_add_of_pos_right Nat.two_pos) hrest hsep.kind
    (t := comparing test place (d.finish + os.size + 6)) (.inl ⟨rfl, rfl⟩)
  obtain ⟨hextends', -⟩ := yes.check_extends hcheck
  refine ⟨d.add _, _, links₁, rfl, htakes.compiles hfollows, hfaces, hinv.spare (Nat.zero_le _), ?_,
    hknows.move _ _⟩
  exact (hmeans.extend (hextends.trans hextends').locals).add
    (.ifThen (h.means.extend hextends'.locals) hcode)

/-- A comparison when its second branch is to come. -/
def comparingElse (test : Test) (place : Position) (endJump : Nat) : OpenTag where
  tag := compareTag test
  start := place
  index := test.operands + 1
  endJump := some endJump

/-- A jump around the second branch follows the first one. -/
theorem OpenTag.follows_else {sep : Token} {ts : List Token} {place : Position} {jump endJump : Nat}
    (hrest : c.reader.rest = sep :: ts) (hsep : sep.kind = .semicolon)
    (hposition : c.out.position = endJump)
    (hcompiles : (comparingElse test place endJump).Compiles ctx
      { c.past sep ts with out := (c.out.emit (.jump 0)).patchHere jump } c') :
    (comparing test place jump).Follows ctx c c' := by
  subst hposition
  have hbetween : (comparing test place jump).betweenArguments true (c.past sep ts) =
      .ok ⟨compareTag test, place, test.operands, [], none, false, none, some c.out.position⟩
        { c.past sep ts with out := (c.out.emit (.jump 0)).patchHere jump } := by
    have hfirst : ¬ (comparing test place jump).index + 1 = test.operands := Nat.succ_ne_self _
    have hsecond : (decide ((comparing test place jump).index = test.operands) && true) = true := by
      simp [comparing]
    rw [betweenArguments_of_asks (t := comparing test place jump) (asks_compareTag test), branch,
      if_neg hfirst, if_pos hsecond]
    rfl
  refine .next (endArgument_of_more hrest hsep hbetween) ?_ hcompiles
  rw [hrest]
  exact Nat.lt_succ_self _

/-- A comparison with two branches. -/
theorem Chosen.lowers_both {yes no : Pattern} (place : Position) (hyes : yes.Lowers ctx env lib)
    (hno : no.Lowers ctx env lib) (h : Chosen env lib g d known test s links os ys c)
    (hmeans : d.Means env before known s₀.locals y) (hextends : s₀.Extends s)
    (hfaces : c.Faces (yes.lexemes ++ .mark .semicolon ::
      (no.lexemes ++ .mark .rightSquare :: rest)))
    (hcheck : yes.check .argument s = some s₁) (hcheck' : no.check .argument s₁ = some s₂) :
    (comparing test place (d.finish + os.size + 6)).Writes ctx env lib g before s₂ (do
      y
      (do
        let values ← ys
        if test.holdsFor values then s.denote yes else s₁.denote no)) d rest c := by
  obtain ⟨code, c₁, links₁, htakes, hfaces, hknows, hcode, hpart⟩ :=
    h.yes place hyes hfaces rfl hcheck
  obtain ⟨sep, ts, hrest, hsep, hfaces⟩ := hfaces.cons
  obtain ⟨hposition, hpart, hended⟩ := (hpart.reader (c₁.passes_past hrest)).openElse
  obtain ⟨code', c₂, links₂, -, hreaches, hfaces, hknows', hcode', hpart⟩ :=
    hno.inside .argument hpart hended (fun _ _ hs hS =>
      ⟨Operands.Sound.mono hs.le hS.1, Code.Sound.mono hs.le hS.2⟩) (hknows.move _ _) hfaces rfl
      hcheck'
  rw [sizes_secondLines, ← Nat.add_assoc, ← Nat.add_assoc, ← Nat.add_assoc] at hcode' hpart
  obtain ⟨sep', ts', hrest', hsep', hfaces⟩ := hfaces.cons
  have hinv := (hpart.reader (c₂.passes_past hrest')).finishElse h.length
  have hfollows := OpenTag.follows_end ctx (asks_compareTag test) (Nat.le_succ _) (Nat.lt_succ_self _)
    hrest' hsep'.kind (t := comparingElse test place (d.finish + os.size + 11 + code.size))
    (.inr ⟨rfl, rfl⟩)
  have hsecond : (comparingElse test place (d.finish + os.size + 11 + code.size)).Takes ctx
      (comparingElse test place (d.finish + os.size + 11 + code.size)) _ c₂ :=
    OpenTag.takes_inline (Nat.lt_succ_self _) ((asks_compareTag test).mode (Nat.le_succ _)) hreaches
  have hcompiles := htakes.compiles
    (OpenTag.follows_else hrest hsep.kind hposition (hsecond.compiles hfollows))
  obtain ⟨hextends', -⟩ := yes.check_extends hcheck
  obtain ⟨hextends'', -⟩ := no.check_extends hcheck'
  refine ⟨d.add _, _, links₂, rfl, hcompiles, hfaces, hinv.spare (Nat.zero_le _), ?_,
    hknows'.move _ _⟩
  exact (hmeans.extend ((hextends.trans hextends').trans hextends'').locals).add
    (.ifElse (h.means.extend (hextends'.trans hextends'').locals) (hcode.extend hextends''.locals)
      hcode')

/-- From the last operand of a comparison to its end. -/
theorem Operated.compares {x yes : Pattern} {more : Arguments} {s' : Scoping} (place : Position)
    (hcapitals : env.options.capitals = .none) (hx : x.Lowers ctx env lib)
    (hyes : yes.Lowers ctx env lib) (hmore : more.Lowers ctx env lib) (hfew : more.length ≤ 1)
    (h : Operated env lib g d known none s links os ys 1 c) (hos : os.length + 1 = test.operands)
    (hmeans : d.Means env before known s₀.locals y) (hextends : s₀.Extends s)
    (hfaces : c.Faces (x.lexemes ++
      ((Arguments.cons yes more).lexemes .semicolon ++ .mark .rightSquare :: rest)))
    (hcheck : (Arguments.cons x (.cons yes more)).check s = some s') :
    OpenTag.Writes ctx env lib g before s' (do
      y
      (do
        let values ← ys.snoc (do return capturedValue test.numeric (← (s.denote x).capture))
        if test.holdsFor (values ++ test.others) then s.branch (.cons x (.cons yes more)) 1
        else s.branch (.cons x (.cons yes more)) 2)) d rest c
      { tag := compareTag test, start := place, index := os.length } := by
  obtain ⟨s₁, hoperand, hbranches⟩ := Arguments.check_cons.1 hcheck
  obtain ⟨s₂, hfirst, hsecond⟩ := Arguments.check_cons.1 hbranches
  obtain ⟨hextends', hknown⟩ := x.check_extends hoperand
  obtain ⟨hextends'', hknown'⟩ := yes.check_extends hfirst
  rw [Arguments.lexemes, List.cons_append, List.append_assoc] at hfaces
  obtain ⟨o, c₁, links₁, htakes, hfaces, ho, hoperated⟩ := h.takes_compared
    (t := { tag := compareTag test, start := place, index := os.length }) hcapitals hx rfl
    (by change os.length < test.operands; omega) rfl hfaces rfl hoperand
  obtain ⟨sep, ts, hrest, hsep, hfaces⟩ := hfaces.cons
  obtain ⟨os', e, hbranch, htwo, hvalues, hpart, hended⟩ := (hoperated.past hrest).chooses
    (t := { tag := compareTag test, start := place, index := os.length })
    (by rw [Operands.length_append, ho, hos]) hos
  have hchosen : Chosen env lib g d known test s₁ links₁ os' _ _ :=
    ⟨htwo, hvalues, hpart.spare (Nat.zero_le 1), hended, hoperated.knows.move _ _⟩
  have hbetween : ({ tag := compareTag test, start := place, index := os.length } :
      OpenTag).betweenArguments true (c₁.past sep ts) = _ :=
    (congrFun (OpenTag.betweenArguments_of_asks (asks_compareTag test) true) _).trans hbranch
  have hfollows : ∀ c', (comparing test place (d.finish + os'.size + 6)).Compiles ctx
      { c₁.past sep ts with out := e } c' →
      ({ tag := compareTag test, start := place, index := os.length } : OpenTag).Follows ctx c₁ c' := by
    intro c' hcompiles
    have hend : OpenTag.endArgument ctx _ c₁ = _ :=
      OpenTag.endArgument_of_more hrest hsep.kind hbetween
    simp only [hos] at hend
    refine .next hend ?_ hcompiles
    rw [hrest]
    exact Nat.lt_succ_self _
  have hyesBranch : s.branch (.cons x (.cons yes more)) 1 = s₁.denote yes := by
    rw [Scoping.branch_succ hextends'.params hknown, Scoping.branch_zero]
  have hnoBranch : s.branch (.cons x (.cons yes more)) 2 = s₂.branch more 0 := by
    rw [Scoping.branch_succ hextends'.params hknown, Scoping.branch_succ hextends''.params hknown']
  rw [hyesBranch, hnoBranch]
  refine OpenTag.Writes.of_takes ?_ htakes hfollows
  cases more with
  | nil =>
    cases hsecond
    have hwrites := hchosen.lowers_yes place hyes hmeans (hextends.trans hextends') hfaces hfirst
    rw [Scoping.branch_nil]
    simpa only [bind_assoc, pure_bind] using hwrites
  | cons no more =>
    obtain rfl : more = .nil := by
      cases more with
      | nil => rfl
      | cons _ _ => simp [Arguments.length] at hfew
    rw [Arguments.check_one] at hsecond
    rw [Arguments.lexemes_more] at hfaces
    have hwrites :=
      hchosen.lowers_both place hyes hmore.1 hmeans (hextends.trans hextends') hfaces hfirst hsecond
    rw [Scoping.branch_zero]
    simpa only [bind_assoc, pure_bind] using hwrites

end Compile

open Compile

theorem Arguments.eq_cons_cons {args : Arguments} (h : 2 ≤ args.length) :
    ∃ first second more, args = .cons first (.cons second more) ∧ args.length = more.length + 2 := by
  match args, h with
  | .cons first (.cons second more), _ => exact ⟨first, second, more, rfl, rfl⟩
  | .cons _ .nil, h => exact absurd h (Nat.not_succ_le_self 1)

theorem TagHead.lowers_compare {ctx : Context} {env : Environment} {lib : Option Registry}
    {args : Arguments} {test : Test} (hcapitals : env.options.capitals = .none)
    (hargs : args.Lowers ctx env lib) : (TagHead.compare test).Lowers ctx env lib args := by
  intro g before links s inner s' y d c rest place hcheck hcount hwritten hfaces
  simp only [TagHead.check] at hcount
  split at hcount
  · rename_i hlength
    cases hcount
    have hdenote : s.tag (.compare test) args = (do
        let values ← s.values test.numeric args 0 test.operands
        if test.holdsFor (values ++ test.others) then s.branch args test.operands
        else s.branch args (test.operands + 1)) := rfl
    rw [hdenote]
    have hoperands : test.operands = 1 ∨ test.operands = 2 := by cases test <;> decide
    obtain ⟨x, second, more, rfl, hmore⟩ := args.eq_cons_cons (by omega)
    rw [hmore] at hlength
    obtain ⟨r, hr, hfaces, hreaches⟩ :=
      Tag.start_of_named ctx place (.intrinsic (intrinsic?_compare test)) hfaces
    have hread := ((hwritten.reader hr).spare (Nat.le_add_right 1 2)).operands
    obtain hone | htwo := hoperands
    · obtain ⟨s₁, hfirst, -⟩ := Arguments.check_cons.1 hcheck
      obtain ⟨d', c', links', hfront, hcompiles, hfaces, hwritten'⟩ :=
        hread.compares place hcapitals hargs.1 hargs.2.1 hargs.2.2 (by omega) hone.symm hwritten.means
          (.refl _) hfaces hcheck
      rw [hone, Scoping.values_one hfirst]
      exact ⟨d', c', links', hfront, hreaches _ hcompiles, hfaces, hwritten'⟩
    · obtain ⟨yes, others, rfl⟩ : ∃ yes others, more = .cons yes others := by
        cases more with
        | nil => simp [Arguments.length, htwo] at hlength
        | cons yes others => exact ⟨yes, others, rfl⟩
      rw [Arguments.length] at hlength
      obtain ⟨s₁, hfirst, hcheck⟩ := Arguments.check_cons.1 hcheck
      obtain ⟨s₂, hsecond, -⟩ := Arguments.check_cons.1 hcheck
      obtain ⟨hextends, hknown⟩ := x.check_extends hfirst
      rw [Arguments.lexemes, List.cons_append, List.append_assoc] at hfaces
      obtain ⟨o, c₁, links₁, htakes, hfaces, ho, hoperated⟩ := hread.takes_compared
        (t := { tag := compareTag test, start := place }) hcapitals hargs.1 rfl
        (by change 0 < test.operands; omega) rfl hfaces rfl hfirst
      obtain ⟨sep, ts, hrest, hsep, hfaces⟩ := hfaces.cons
      have hone : (Operands.nil.append o).length = 1 := ho
      have hlast : (Operands.nil.append o).length + 1 = test.operands := by rw [hone, htwo]
      obtain ⟨d', c', links', hfront, hcompiles, hfaces, hwritten'⟩ :=
        (hoperated.past hrest).compares place hcapitals hargs.2.1 hargs.2.2.1 hargs.2.2.2 (by omega)
          hlast hwritten.means hextends hfaces hcheck
      have hbetween : ({ tag := compareTag test, start := place } : OpenTag).betweenArguments true =
          pure { tag := compareTag test, start := place } := by
        rw [OpenTag.betweenArguments_of_asks (asks_compareTag test), OpenTag.branch, htwo]
        rfl
      have hfollows : ({ tag := compareTag test, start := place } : OpenTag).Follows ctx c₁ c' := by
        refine .next (OpenTag.endArgument_of_more hrest hsep.kind (congrFun hbetween _)) ?_ ?_
        · rw [hrest]
          exact Nat.lt_succ_self _
        · rw [hone] at hcompiles
          exact hcompiles
      rw [htwo, Scoping.values_two hfirst hsecond, Scoping.branch_succ hextends.params hknown,
        Scoping.branch_succ hextends.params hknown]
      exact ⟨d', c', links', hfront, hreaches _ (htakes.compiles hfollows), hfaces, hwritten'⟩
  · cases hcount

end Wordloom
