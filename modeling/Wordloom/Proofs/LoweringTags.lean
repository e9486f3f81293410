import Mathlib
import Wordloom.Proofs.LoweringOperands

/-!
# Wordloom.Proofs.LoweringTags

Tags that are known to compile, apart from those with branches: their arguments are names and
operands, and what they do with them is what evaluation does.
-/

namespace Wordloom

/-! ## Tags in patterns -/

/-- What the argument of the given index stands for. -/
def Scoping.branch (s : Scoping) (args : Arguments) (index : Nat) : Sense Unit := fun call =>
  args.branch (Interpreter.below call.depth) ⟨s.params, call.args⟩ s.procedures index

/-- What a tag does with the values of its operands. -/
def Scoping.perform (s : Scoping) (args : Arguments) (head : TagHead) (values : List Value) :
    Sense Unit :=
  match head with
  | .compare test =>
    if test.holdsFor (values ++ test.others) then s.branch args test.operands
    else s.branch args (test.operands + 1)
  | head => fun call =>
    head.perform (Interpreter.below call.depth) ⟨s.params, call.args⟩ s.procedures args values

/-- What a tag stands for where these names are known. -/
def Scoping.tag (s : Scoping) (head : TagHead) (args : Arguments) : Sense Unit := do
  s.perform args head (← s.values head.numeric args head.first (head.operands args.length))

variable {more : Arguments} {head : TagHead} {x : String} {args : Arguments}

theorem Scoping.denote_tag {s s₁ : Scoping} {next : Pattern} (hparams : s₁.params = s.params)
    (hknown : s₁.procedures = args.known s.procedures) :
    s.denote (.tag head args next) = (do s.tag head args; s₁.denote next) := by
  have hnext : s₁.denote next = fun call => next.eval (Interpreter.below call.depth)
      ⟨s.params, call.args⟩ (args.known s.procedures) := by
    unfold Scoping.denote
    rw [hparams, hknown]
  rw [hnext, Scoping.tag]
  funext call
  rw [Scoping.denote, Pattern.eval, bind_assoc]
  cases head with
  | compare test =>
    change _ = s.values _ args _ _ call >>= fun values => do
      s.perform args (.compare test) values call
      next.eval (Interpreter.below call.depth) ⟨s.params, call.args⟩ (args.known s.procedures)
    refine bind_congr fun values => ?_
    simp only [Scoping.perform]
    split <;> rfl
  | _ => rfl

open Compile

/-- A tag is compiled, wherever it stands, to code that means what it stands for. -/
def TagHead.Lowers (ctx : Context) (env : Environment) (lib : Option Registry) (args : Arguments)
    (head : TagHead) : Prop :=
  ∀ {g : Setting} {before links : List Link} {s inner s' : Scoping} {y : Sense Unit} {d : Draft}
    {c : Compilation} {rest : List Lexeme} (place : Position),
    args.check s = some inner → head.check s inner args = some s' →
    Written env lib g before s links y 1 d c →
    c.Faces (head.lexemes ++ (args.lexemes .colon ++ .mark .rightSquare :: rest)) →
    ∃ (d' : Draft) (c' : Compilation) (links' : List Link), d'.front = d.front ∧
      Reaches ctx c.reader.rest.length ((Construct.tag place).resume ctx c) c' ∧ c'.Faces rest ∧
      Written env lib g before s' links' (do y; s.tag head args) 0 d' c'

theorem Pattern.lowers_tag {ctx : Context} {env : Environment} {lib : Option Registry} {next : Pattern}
    (hhead : head.Lowers ctx env lib args) (hnext : next.Lowers ctx env lib) :
    (Pattern.tag head args next).Lowers ctx env lib := by
  have hlexemes : (Pattern.tag head args next).lexemes = .mark .leftSquare ::
      ((head.lexemes ++ (args.lexemes .colon ++ [.mark .rightSquare])) ++ next.lexemes) := by
    simp [Pattern.lexemes]
  apply lowers_of_child (by rw [isStatic, Bool.false_and]) rfl hlexemes (.inl ⟨rfl, rfl⟩) hnext
  intro stop g before links s s' y d c rest place hcheck hwritten hfaces
  rw [Pattern.check] at hcheck
  obtain ⟨inner, hargs, hcheck⟩ := Option.bind_eq_some_iff.1 hcheck
  obtain ⟨s₁, hcheck, hcheck'⟩ := Option.bind_eq_some_iff.1 hcheck
  obtain ⟨hextends, hknown⟩ := args.check_extends hargs
  obtain ⟨hextends', hkept⟩ := TagHead.check_extends hcheck
  simp only [List.append_assoc, List.singleton_append] at hfaces
  obtain ⟨d', c', links', hfront, hreaches, hfaces', hwritten'⟩ :=
    hhead place hargs hcheck hwritten hfaces
  exact ⟨s₁, s.tag head args, d', c', links', hcheck',
    Scoping.denote_tag (hextends'.params.trans hextends.params) (hkept.trans hknown),
    .of_front hfront, hreaches, hfaces', hwritten'⟩

namespace Compile

variable {ctx : Context} {c c₁ c' : Compilation} {t : OpenTag} {env : Environment}
  {lib : Option Registry} {g : Setting} {d : Draft} {known links : List Link} {s s' : Scoping}
  {os : Operands} {ys : Sense (List Value)} {args : Arguments} {rest : List Lexeme} {name : String}

/-- The arguments of a tag are compiled, up to its bracket, and then the draft means `y`. -/
def OpenTag.Writes (ctx : Context) (env : Environment) (lib : Option Registry) (g : Setting)
    (before : List Link) (s' : Scoping) (y : Sense Unit) (d : Draft) (rest : List Lexeme)
    (c : Compilation) (t : OpenTag) : Prop :=
  ∃ (d' : Draft) (c' : Compilation) (links' : List Link), d'.front = d.front ∧ t.Compiles ctx c c' ∧
    c'.Faces rest ∧ Written env lib g before s' links' y 0 d' c'

/-- One argument is taken, and what follows it is compiled. -/
theorem OpenTag.Writes.of_takes {before : List Link} {y : Sense Unit} {t₁ t₂ : OpenTag}
    {c₂ : Compilation} (h : t₂.Writes ctx env lib g before s' y d rest c₂) (htakes : t.Takes ctx t₁ c c₁)
    (hnext : ∀ c', t₂.Compiles ctx c₂ c' → t₁.Follows ctx c₁ c') :
    t.Writes ctx env lib g before s' y d rest c := by
  obtain ⟨d', c', links', hfront, hcompiles, hfaces, hwritten⟩ := h
  exact ⟨d', c', links', hfront, htakes.compiles (hnext c' hcompiles), hfaces, hwritten⟩

/-! ## Names of tags -/

/-- What the name of a tag stands for: a tag of the language, or a function. -/
inductive Tag.Named (ctx : Context) (name : String) : Tag → Prop where
  | intrinsic {tag : Tag} (h : Tag.intrinsic? name = some tag) : Named ctx name tag
  | function {id : Nat} {f : Function} (hnone : Tag.intrinsic? name = none)
    (h : ctx.registry.lookup? name = some (id, f)) :
    Named ctx name ⟨name, .native id f.params, f.params.length, f.params.length⟩

theorem Tag.Named.resolve {tag : Tag} {t : Token} {ts : List Token} (h : Tag.Named ctx name tag)
    (hrest : c.reader.rest = t :: ts) (hkind : t.kind = .text) (htext : t.text = name)
    (place : Position) : Tag.resolve ctx place c = .ok tag (c.past t ts) := by
  have hblank : t.kind ≠ .blank := by rw [hkind]; decide
  unfold Tag.resolve
  rw [run_bind_of_ok (Compiling.readLoose_of_rest hrest hblank)]
  cases h with
  | intrinsic h =>
    simp only [hkind, htext, h]
    rfl
  | function hnone h =>
    simp only [hkind, htext, hnone, h]
    rfl

/-- A tag from its name to its first argument. -/
theorem Tag.start_of_named {tag : Tag} {first : Pattern} (ctx : Context) (place : Position)
    (htag : Tag.Named ctx name tag)
    (hfaces : c.Faces ([.text name] ++ ((Arguments.cons first more).lexemes .colon ++ .mark .rightSquare :: rest))) :
    ∃ r, c.reader.Passes 2 r ∧ ({ c with reader := r } : Compilation).Faces
        (first.lexemes ++ (more.lexemes .semicolon ++ .mark .rightSquare :: rest)) ∧
      ∀ c', ({ tag := tag, start := place } : OpenTag).Compiles ctx { c with reader := r } c' →
        Reaches ctx c.reader.rest.length ((Construct.tag place).resume ctx c) c' := by
  rw [Arguments.lexemes, List.singleton_append, List.cons_append, List.append_assoc] at hfaces
  obtain ⟨t, ts, hrest, ht, hfaces⟩ := hfaces.cons
  obtain ⟨u, us, hrest', hu, hfaces⟩ := hfaces.cons
  have hkind : t.kind = .text := ht.kind
  have htext : t.text = name := ht.text.trans String.ofList_toList
  have hresolve := htag.resolve hrest hkind htext place
  have htake : Compiling.takeLoose .colon (c.past t ts) = .ok true ((c.past t ts).past u us) :=
    Compiling.takeLoose_of_rest hrest' hu.kind (by decide)
  have hlength : us.length + 2 = c.reader.rest.length := by
    have hrest' : ts = u :: us := hrest'
    rw [hrest, hrest']
    rfl
  refine ⟨((c.past t ts).past u us).reader, Nat.le_of_eq hlength, hfaces, fun c' hcompiles => ?_⟩
  change Reaches ctx _ (Tag.start ctx place c) c'
  rw [Tag.start, run_bind_of_ok hresolve, run_bind_of_ok (Compiling.run_tokens _),
    run_bind_of_ok htake, if_pos rfl, hrest']
  refine (hcompiles _ (Nat.lt_succ_self _)).mono ?_
  change us.length ≤ _
  omega

/-! ## Acts -/

/-- A tag that acts on its operands. -/
theorem Operated.act {before : List Link} {s₀ : Scoping} {y : Sense Unit} {n : Nat} {a : Act}
    (h : Operated env lib g d known none s links os ys n c)
    (hmeans : d.Means env before known s₀.locals y) (hextends : s₀.Extends s)
    (hextends' : s.Extends s') (hinv : Inv lib g n (d.add (.act os a .nil)) c')
    (hknows : c'.Knows s' links)
    (hact : ∀ {act : Activation} {names : String → Option Nat} (limit : Nat) (values : List Value),
      Covers names s'.locals →
      Tracks names (a.perform env act values) (s₀.perform args head values ⟨limit, act.args⟩)) :
    Written env lib g before s' links (do y; (do s₀.perform args head (← ys))) 0
      (d.add (.act os a .nil)) c' := by
  have hoperands := h.means
  rw [held, Operands.append_nil] at hoperands
  refine ⟨hinv.spare (Nat.zero_le n), ?_, hknows⟩
  exact (hmeans.extend (hextends.trans hextends').locals).add
    (.act (hoperands.extend hextends'.locals) hact)

/-! ## Names -/

section

variable {n : Nat} {first : Pattern} (ctx : Context) (hmax : t.index < t.tag.max)
  (hmode : t.tag.mode t.index = .name) (hcompared : t.tag.action.compared? = none)
  (h : Operated env lib g d known none s links os ys n c) (hname : first.name? = some x)
  (hcheck : first.check .argument s = some s')

include hmax hmode hcompared h hname hcheck

/-- A name with another argument behind it. -/
theorem Operated.name_next (hfaces : c.Faces (first.lexemes ++ .mark .semicolon :: rest)) :
    s' = s ∧ ∃ c₁, Operated env lib g d known none s links os ys (n + 1) c₁ ∧ c₁.Faces rest ∧
      ∀ c', ({ t with names := t.names ++ [x], index := t.index + 1 } : OpenTag).Compiles ctx c₁ c' →
        t.Compiles ctx c c' := by
  obtain ⟨hsame, c₁, htakes, hfaces, hoperated⟩ :=
    h.takes_name ctx hmax hmode hname hfaces rfl hcheck
  obtain ⟨sep, ts, hrest, hfaces, hnext⟩ :=
    OpenTag.follows_next ctx (t := { t with names := t.names ++ [x] }) hcompared hfaces
  exact ⟨hsame, c₁.past sep ts, hoperated.past hrest, hfaces, fun c' hcompiles =>
    htakes.compiles (hnext c' hcompiles)⟩

/-- A name that is the last argument. -/
theorem Operated.name_last (hmin : t.tag.min ≤ t.index + 1)
    (hfaces : c.Faces (first.lexemes ++ .mark .rightSquare :: rest)) :
    s' = s ∧ ∃ c₁, Operated env lib g d known none s links os ys (n + 1) c₁ ∧ c₁.Faces rest ∧
      ∀ c', ({ t with names := t.names ++ [x], index := t.index + 1 } : OpenTag).perform ctx c₁ =
          .ok () c' → c'.reader = c₁.reader → t.Compiles ctx c c' := by
  obtain ⟨hsame, c₁, htakes, hfaces, hoperated⟩ :=
    h.takes_name ctx hmax hmode hname hfaces rfl hcheck
  obtain ⟨sep, ts, hrest, hfaces, hfollows⟩ :=
    OpenTag.follows_last ctx (t := { t with names := t.names ++ [x] }) hcompared hmin hmax hfaces
  exact ⟨hsame, c₁.past sep ts, hoperated.past hrest, hfaces, fun c' hperform hreader =>
    htakes.compiles (hfollows c' hperform hreader)⟩

end

theorem OpenTag.localIndex_eq (h : c.Knows s links) (hx : x ∈ s.locals) :
    t.localIndex x c = .ok (s.locals.idxOf x).toUInt16 c := by
  unfold OpenTag.localIndex
  rw [run_bind_of_ok (run_get c), h.local?_eq hx]
  rfl

/-- A variable is known when it has been set. -/
theorem Compiling.declareLocal_eq (h : c.Knows s links) (hdeclare : s.declare name = some s')
    (place : Position) :
    ∃ c', Compiling.declareLocal name place c = .ok (s'.locals.idxOf name) c' ∧ c'.Knows s' links ∧
      c'.reader = c.reader ∧ (c' = c ∨ c' = c.addLocal name) := by
  unfold Scoping.declare at hdeclare
  unfold Compiling.declareLocal
  rw [run_bind_of_ok (run_get c)]
  split at hdeclare
  · rename_i hmem
    cases hdeclare
    rw [h.local?_eq hmem]
    exact ⟨c, rfl, h, rfl, .inl rfl⟩
  · rename_i hmem
    split at hdeclare
    · rename_i hsmall
      cases hdeclare
      have hnone : c.local? name = none := by rw [h.locals, placeIn, if_neg hmem]
      have hindex : (s.locals ++ [name]).idxOf name = c.locals := by
        rw [List.idxOf_append_of_notMem hmem, h.count]
        simp
      have hfits : s.locals.length + 1 < UInt16.size := hsmall
      simp only [hnone, h.count, hfits, if_true, hindex]
      exact ⟨c.addLocal name, rfl, h.addLocal hmem hsmall, rfl, .inr rfl⟩
    · cases hdeclare

theorem OpenTag.perform_argument {names : List String} {i : Nat}
    (haction : t.tag.action = .getArgument) (hnames : t.names = x :: names)
    (hfound : c.argument? x = some i) :
    t.perform ctx c =
      .ok () { c with out := (c.out.emit (.loadArgument i.toUInt8)).emit .print } := by
  unfold OpenTag.perform
  simp only [haction, hnames]
  rw [run_bind_of_ok (run_get c)]
  simp only [hfound]
  rfl

end Compile

theorem Arguments.eq_one (h : args.length = 1) : ∃ first, args = .cons first .nil := by
  match args, h with
  | .cons first .nil, _ => exact ⟨first, rfl⟩

theorem Arguments.eq_two (h : args.length = 2) :
    ∃ first second, args = .cons first (.cons second .nil) := by
  match args, h with
  | .cons first (.cons second .nil), _ => exact ⟨first, second, rfl⟩

theorem Arguments.name_of_name? {index : Nat} (h : args.name? index = some x) :
    args.name index = x := by
  rw [Arguments.name, h]
  rfl

/-! ### What tags do -/

namespace Scoping

variable {env : Environment} {a : Activation} {names : String → Option Nat} {s : Scoping}
  {locals : List String} {args : Arguments} {values : List Value} {limit : Nat} {i j : UInt16}

theorem performs_get (hcovers : Covers names locals) (hx : args.name 0 ∈ locals)
    (hi : i.toNat = locals.idxOf (args.name 0)) :
    Tracks names (Act.perform env a (.getLocal i) values)
      (s.perform args .get values ⟨limit, a.args⟩) := by
  have hplace := hcovers.place _ hx
  rw [← hi] at hplace
  exact Tracks.getLocal hplace _ _

theorem performs_swap (hcovers : Covers names locals) (hx : args.name 0 ∈ locals)
    (hy : args.name 1 ∈ locals) (hi : i.toNat = locals.idxOf (args.name 0))
    (hj : j.toNat = locals.idxOf (args.name 1)) :
    Tracks names (Act.perform env a (.swap i j) values)
      (s.perform args .swap values ⟨limit, a.args⟩) := by
  have hplace := hcovers.place _ hx
  have hplace' := hcovers.place _ hy
  rw [← hi] at hplace
  rw [← hj] at hplace'
  exact Tracks.swapLocals hplace hplace' hcovers.unique

theorem performs_set (hcovers : Covers names locals) (hx : args.name 0 ∈ locals)
    (hi : i.toNat = locals.idxOf (args.name 0)) :
    Tracks names (Act.perform env a (.setLocal i) values)
      (s.perform args .set values ⟨limit, a.args⟩) := by
  have hplace := hcovers.place _ hx
  rw [← hi] at hplace
  match values with
  | [v] => exact Tracks.setLocal hplace (fun other hother => hcovers.unique _ _ _ hother hplace) v
  | [] | _ :: _ :: _ => exact Tracks.fail _

theorem performs_concat (args : Arguments) :
    Tracks names (Act.perform env a .concat values)
      (s.perform args .concat values ⟨limit, a.args⟩) := by
  match values with
  | [x, y] => exact Tracks.printValue _ _ _
  | [] | [_] | _ :: _ :: _ :: _ => exact Tracks.fail _

theorem performs_arithmetic (args : Arguments) (op : Arithmetic) :
    Tracks names (Act.perform env a (.arithmetic op) values)
      (s.perform args (.arithmetic op) values ⟨limit, a.args⟩) := by
  match values with
  | [x, y] =>
    simp only [Act.perform, Scoping.perform, TagHead.perform]
    cases op.apply x y with
    | ok v => exact Tracks.printValue _ _ _
    | error e => exact Tracks.fail _
  | [] | [_] | _ :: _ :: _ :: _ => exact Tracks.fail _

theorem performs_argument {i : UInt8} (hi : placeOf? (args.name 0) s.params = some i.toNat) :
    Tracks names (Act.perform env a (.argument i) values)
      (s.perform args .argument values ⟨limit, a.args⟩) := by
  simp only [Scoping.perform, TagHead.perform, hi, Option.getD_some, Act.perform]
  cases a.args[i.toNat]? with
  | some v => exact Tracks.printValue _ _ _
  | none => exact Tracks.fail _

end Scoping

theorem Scoping.values_one {s s₁ : Scoping} {first : Pattern}
    (hfirst : first.check .argument s = some s₁) (numeric : Bool) :
    s.values numeric (.cons first more) 0 1 =
      Sense.snoc (pure []) (do return capturedValue numeric (← (s.denote first).capture)) := by
  obtain ⟨hextends, hknown⟩ := first.check_extends hfirst
  rw [Scoping.values_cons hextends.params hknown, Scoping.values_zero]
  simp [Sense.snoc]

theorem placeOf?_lt {name : String} : ∀ {names : List String} {i : Nat},
    placeOf? name names = some i → i < names.length
  | first :: names, i, h => by
    rw [placeOf?] at h
    split at h
    · rename_i j hj
      cases h
      exact Nat.succ_lt_succ (placeOf?_lt hj)
    · split at h
      · cases h
        exact Nat.succ_pos _
      · cases h

theorem placeOf?_of_mem {name : String} {names : List String} (h : name ∈ names) :
    ∃ i, placeOf? name names = some i := by
  induction names with
  | nil => cases h
  | cons first names ih =>
    rw [placeOf?]
    cases hrest : placeOf? name names with
    | some i => exact ⟨i + 1, rfl⟩
    | none =>
      refine ⟨0, if_pos ?_⟩
      have hmem : name ∉ names := fun hmem => by
        obtain ⟨j, hj⟩ := ih hmem
        cases hrest.symm.trans hj
      exact ((List.mem_cons.1 h).resolve_right hmem).symm

namespace TagHead

variable {ctx : Context} {env : Environment} {lib : Option Registry} {args : Arguments}

/-- A tag that has no operands. -/
theorem tag_of_names {s : Scoping} (hfirst : head.first = 0)
    (hoperands : head.operands args.length = 0) :
    s.tag head args = (do s.perform args head (← pure [])) := by
  rw [Scoping.tag, hfirst, hoperands, Scoping.values_zero]

theorem lowers_get : TagHead.get.Lowers ctx env lib args := by
  intro g before links s inner s' y d c rest place hargs hcheck hwritten hfaces
  simp only [TagHead.check] at hcheck
  split at hcheck
  · rename_i x hlength hname
    obtain ⟨first, rfl⟩ := Arguments.eq_one hlength
    obtain ⟨r, hr, hfaces, hreaches⟩ := Tag.start_of_named ctx place (.intrinsic rfl) hfaces
    obtain ⟨rfl, c₁, hoperated, hfaces, hcompiles⟩ := Operated.name_last ctx
      (t := { tag := ⟨"get", .getLocal, 1, 1⟩, start := place }) Nat.one_pos rfl rfl
      (hwritten.reader hr).operands hname (Arguments.check_one.1 hargs) (Nat.le_refl 1) hfaces
    obtain rfl := Arguments.name_of_name? hname
    split at hcheck
    · rename_i hx
      cases hcheck
      have hindex := hoperated.knows.toNat_idxOf hx
      have hperform := hcompiles _ (run_bind_of_ok (OpenTag.localIndex_eq hoperated.knows hx)) rfl
      have hacts := hoperated.act hwritten.means (.refl _) (.refl _)
        (hoperated.code.emit_print (.getLocal _) rfl rfl rfl trivial) (hoperated.knows.move _ _)
        fun _ _ hcovers => Scoping.performs_get hcovers hx hindex
      rw [tag_of_names rfl rfl]
      exact ⟨d.add _, _, links, rfl, hreaches _ hperform, hfaces, hacts⟩
    · cases hcheck
  · cases hcheck

theorem lowers_argument : TagHead.argument.Lowers ctx env lib args := by
  intro g before links s inner s' y d c rest place hargs hcheck hwritten hfaces
  simp only [TagHead.check] at hcheck
  split at hcheck
  · rename_i x hlength hname
    obtain ⟨first, rfl⟩ := Arguments.eq_one hlength
    obtain ⟨r, hr, hfaces, hreaches⟩ := Tag.start_of_named ctx place (.intrinsic rfl) hfaces
    obtain ⟨rfl, c₁, hoperated, hfaces, hcompiles⟩ := Operated.name_last ctx
      (t := { tag := ⟨"arg", .getArgument, 1, 1⟩, start := place }) Nat.one_pos rfl rfl
      (hwritten.reader hr).operands hname (Arguments.check_one.1 hargs) (Nat.le_refl 1) hfaces
    obtain rfl := Arguments.name_of_name? hname
    split at hcheck
    · rename_i hparam
      cases hcheck
      rw [Scoping.hasParam, Bool.and_eq_true, decide_eq_true_eq, decide_eq_true_eq] at hparam
      obtain ⟨i, hi⟩ := placeOf?_of_mem hparam.2
      have hfound := (hoperated.knows.arguments _ hparam.1).trans hi
      have hindex : i.toUInt8.toNat = i := by
        have hlt := placeOf?_lt hi
        have hfew := hoperated.knows.few
        simp only [Nat.toUInt8_eq, UInt8.toNat_ofNat']
        exact Nat.mod_eq_of_lt (by omega)
      have hsound : (Act.argument i.toUInt8).Sound c₁.out.tables g.arity (d.finish + Operands.nil.size) := by
        have hlt := hoperated.code.around.slots.argument?_lt hfound
        rw [← hindex] at hlt
        exact hlt
      have hacts := hoperated.act hwritten.means (.refl _) (.refl _)
        (hoperated.code.emit_print (.argument i.toUInt8) rfl rfl rfl hsound)
        (hoperated.knows.move _ _) fun _ _ _ => Scoping.performs_argument (hindex.symm ▸ hi)
      have hperform := hcompiles _ (OpenTag.perform_argument rfl rfl hfound) rfl
      rw [tag_of_names rfl rfl]
      exact ⟨d.add _, _, links, rfl, hreaches _ hperform, hfaces, hacts⟩
    · cases hcheck
  · cases hcheck

theorem lowers_swap : TagHead.swap.Lowers ctx env lib args := by
  intro g before links s inner s' y d c rest place hargs hcheck hwritten hfaces
  simp only [TagHead.check] at hcheck
  split at hcheck
  · rename_i x z hlength hname hname'
    obtain ⟨first, second, rfl⟩ := Arguments.eq_two hlength
    obtain ⟨r, hr, hfaces, hreaches⟩ := Tag.start_of_named ctx place (.intrinsic rfl) hfaces
    obtain ⟨s₁, hcheck', hcheck''⟩ := Arguments.check_two.1 hargs
    rw [Arguments.lexemes_more] at hfaces
    obtain ⟨rfl, c₁, hnamed, hfaces, hnext⟩ := Operated.name_next ctx
      (t := { tag := ⟨"swap", .swapLocals, 2, 2⟩, start := place }) Nat.two_pos rfl rfl
      (hwritten.reader hr).operands hname hcheck' hfaces
    obtain ⟨rfl, c₂, hoperated, hfaces, hlast⟩ := hnamed.name_last ctx
      (t := { tag := ⟨"swap", .swapLocals, 2, 2⟩, start := place, index := 1, names := [x] })
      Nat.one_lt_two rfl rfl hname' hcheck'' (Nat.le_refl 2) hfaces
    obtain rfl := Arguments.name_of_name? hname
    obtain rfl := Arguments.name_of_name? hname'
    split at hcheck
    · rename_i hmem
      cases hcheck
      have hindex := hoperated.knows.toNat_idxOf hmem.1
      have hindex' := hoperated.knows.toNat_idxOf hmem.2
      have hperform := hnext _ (hlast _ ((run_bind_of_ok
        (OpenTag.localIndex_eq hoperated.knows hmem.1)).trans (run_bind_of_ok
          (OpenTag.localIndex_eq hoperated.knows hmem.2))) rfl)
      have hacts := hoperated.act hwritten.means (.refl _) (.refl _)
        (hoperated.code.emit_act (.swap _ _) rfl rfl rfl trivial) (hoperated.knows.move _ _)
        fun _ _ hcovers => Scoping.performs_swap hcovers hmem.1 hmem.2 hindex hindex'
      rw [tag_of_names rfl rfl]
      exact ⟨d.add _, _, links, rfl, hreaches _ hperform, hfaces, hacts⟩
    · cases hcheck
  · cases hcheck

theorem lowers_set (hcapitals : env.options.capitals = .none) (hargs : args.Lowers ctx env lib) :
    TagHead.set.Lowers ctx env lib args := by
  intro g before links s inner s' y d c rest place hcheck hdeclare hwritten hfaces
  simp only [TagHead.check] at hdeclare
  split at hdeclare
  · rename_i x hlength hname
    obtain ⟨first, second, rfl⟩ := Arguments.eq_two hlength
    obtain ⟨-, hsecond, -⟩ := hargs
    obtain ⟨s₁, hcheck, hcheck'⟩ := Arguments.check_two.1 hcheck
    obtain ⟨r, hr, hfaces, hreaches⟩ := Tag.start_of_named ctx place (.intrinsic rfl) hfaces
    rw [Arguments.lexemes_more] at hfaces
    obtain ⟨rfl, c₁, hnamed, hfaces, hnext⟩ := Operated.name_next ctx
      (t := { tag := ⟨"set", .setLocal, 2, 2⟩, start := place }) Nat.two_pos rfl rfl
      (hwritten.reader hr).operands hname hcheck hfaces
    obtain ⟨o, c₂, links₂, htakes, hfaces, ho, hoperated⟩ :=
      (hnamed.spare (Nat.succ_le_succ (Nat.zero_le _))).takes_captured
        (t := { tag := ⟨"set", .setLocal, 2, 2⟩, start := place, index := 1, names := [x] })
        hcapitals hsecond Nat.one_lt_two rfl hfaces rfl hcheck'
    obtain ⟨sep, ts, hrest, hfaces, hfollows⟩ := OpenTag.follows_last ctx
      (t := { tag := ⟨"set", .setLocal, 2, 2⟩, start := place, index := 1, names := [x] }) rfl
      (Nat.le_refl 2) (Nat.le_refl 2) hfaces
    have hoperated := hoperated.past hrest
    obtain ⟨c₃, hdeclared, hknows, hreader, hsame⟩ :=
      Compiling.declareLocal_eq hoperated.knows hdeclare place
    obtain ⟨hmem, hextends', -⟩ := Scoping.declare_eq hdeclare
    obtain ⟨hextends, -⟩ := second.check_extends hcheck'
    have hcode : HasOperands lib g d o (0 + 1) c₃ := by
      obtain rfl | rfl := hsame
      · exact hoperated.code
      · exact hoperated.code.addLocal x
    obtain rfl := Arguments.name_of_name? hname
    have hacts := hoperated.act hwritten.means hextends hextends'
      (hcode.emit_act (.setLocal _) rfl rfl ho trivial) (hknows.move _ _)
      fun _ _ hcovers => Scoping.performs_set hcovers hmem (hknows.toNat_idxOf hmem)
    have hvalues : s₁.values false (.cons first (.cons second .nil)) 1 1 =
        Sense.snoc (pure [])
          (do return capturedValue false (← (s₁.denote second).capture)) := by
      rw [Scoping.values_succ hname, Scoping.values_one hcheck']
    have htag : s₁.tag .set (.cons first (.cons second .nil)) = (do
        s₁.perform (.cons first (.cons second .nil)) .set
          (← s₁.values false (.cons first (.cons second .nil)) 1 1)) := rfl
    have hfaces : c₃.Faces rest := by
      rw [Compilation.Faces, hreader]
      exact hfaces
    have hcompiles := hnext _ (htakes.compiles (hfollows _ (run_bind_of_ok hdeclared) hreader))
    rw [htag, hvalues]
    exact ⟨d.add _, _, links₂, rfl, hreaches _ hcompiles, hfaces, hacts⟩
  · cases hdeclare

theorem lowers_concat (hcapitals : env.options.capitals = .none) (hargs : args.Lowers ctx env lib) :
    TagHead.concat.Lowers ctx env lib args := by
  intro g before links s inner s' y d c rest place hcheck hcount hwritten hfaces
  simp only [TagHead.check] at hcount
  split at hcount
  · rename_i hlength
    cases hcount
    obtain ⟨first, second, rfl⟩ := Arguments.eq_two hlength
    obtain ⟨r, hr, hfaces, hreaches⟩ := Tag.start_of_named ctx place (.intrinsic rfl) hfaces
    obtain ⟨os, links', c₁, hfaces, hos, hoperated, hcompiles⟩ := Operated.gathers
      (t := { tag := ⟨"cat", .concat, 2, 2⟩, start := place }) hcapitals rfl (fun _ => rfl) hargs.1
      hargs.2 rfl (Nat.one_lt_two)
      ((hwritten.reader hr).spare (Nat.le_add_right 1 2)).operands hfaces hcheck
    obtain ⟨sep, ts, hrest, hfaces, hfollows⟩ := OpenTag.follows_last ctx
      (t := { tag := ⟨"cat", .concat, 2, 2⟩, start := place, index := 1 }) rfl (Nat.le_refl 2)
      (Nat.le_refl 2) hfaces
    have hoperated := hoperated.past hrest
    obtain ⟨hextends, -⟩ := Arguments.check_extends hcheck
    have hacts := hoperated.act hwritten.means hextends (.refl _)
      (hoperated.code.emit_print .concat rfl rfl hos trivial) (hoperated.knows.move _ _)
      fun _ _ _ => Scoping.performs_concat (.cons first (.cons second .nil))
    simp only [pure_bind, List.nil_append, bind_pure] at hacts
    exact ⟨d.add _, _, links', rfl, hreaches _ (hcompiles _ (hfollows _ rfl rfl)), hfaces, hacts⟩
  · cases hcount

end TagHead

/-! ## Calls -/

/-- What the name of a subroutine stands for while it is compiled. -/
def Link.subroutine (link : Link) : Subroutine := ⟨link.address, link.procedure.params.length⟩

namespace Compile

variable {ctx : Context} {c : Compilation} {env : Environment} {lib : Option Registry} {g : Setting}
  {d : Draft} {known links outer : List Link} {link : Link} {s s₀ : Scoping} {os : Operands}
  {ys : Sense (List Value)} {args : Arguments} {rest : List Lexeme} {name : String}

/-- The name of a subroutine is resolved. -/
theorem Tag.resolve_of_call (ctx : Context) (place : Position) (hknows : c.Knows s links)
    (hfind : Link.find? name links = some (link, outer))
    (hfaces : c.Faces (.mark .dollar :: .text name :: rest)) :
    ∃ r, c.reader.Passes 2 r ∧ ({ c with reader := r } : Compilation).Faces rest ∧
      Tag.resolve ctx place c = .ok ⟨name, .call link.subroutine, link.procedure.params.length,
        link.procedure.params.length⟩ { c with reader := r } := by
  obtain ⟨t, ts, hrest, ht, hfaces⟩ := hfaces.cons
  obtain ⟨u, us, hrest', hu, hfaces⟩ := hfaces.cons
  have hkind : t.kind = .dollar := ht.kind
  have htext : u.text = name := hu.text.trans String.ofList_toList
  have hlength : us.length + 2 = c.reader.rest.length := by
    have hrest' : ts = u :: us := hrest'
    rw [hrest, hrest']
    rfl
  refine ⟨((c.past t ts).past u us).reader, Nat.le_of_eq hlength, hfaces, ?_⟩
  have hblank : t.kind ≠ .blank := by rw [hkind]; nofun
  have hbracket : u.kind ≠ .leftSquare := by rw [hu.kind]; nofun
  have hname : Compiling.expect .text "subroutine name" (c.past t ts) =
      .ok u ((c.past t ts).past u us) := Compiling.expect_of_rest hrest' hu.kind
  have hsubroutine : ((c.past t ts).past u us).subroutines.find? name = some link.subroutine :=
    (hknows.subroutines name).trans (by rw [hfind]; rfl)
  unfold Tag.resolve
  rw [run_bind_of_ok (Compiling.readLoose_of_rest hrest hblank)]
  simp only [hkind]
  rw [run_bind_of_ok (Compiling.take_of_ne hrest' hbracket), if_neg Bool.false_ne_true,
    run_bind_of_ok hname, run_bind_of_ok (run_get _)]
  simp only [htext, hsubroutine]
  rfl

/-- A subroutine is called with its operands. -/
theorem Operated.call {before : List Link} {y : Sense Unit} {n : Nat}
    (h : Operated env lib g d known none s links os ys n c)
    (hmeans : d.Means env before known s₀.locals y) (hextends : s₀.Extends s)
    (hprocedures : s₀.procedures = known.map (·.procedure))
    (hfind : Link.find? name known = some (link, outer))
    (hcallable : Callable (g.after d) link.subroutine)
    (hlength : os.length = link.procedure.params.length) (args : Arguments) :
    Written env lib g before s links (do y; (do s₀.perform args (.call name) (← ys))) 0
      (d.add (.call os link.address link.procedure.params.length.toUInt8 .nil))
      { c with
        out := c.out.emit (.call (Int32.ofNat link.address) link.procedure.params.length.toUInt8) } := by
  have hoperands := h.means
  rw [held, Operands.append_nil] at hoperands
  have hcount : link.procedure.params.length.toUInt8.toNat = link.procedure.params.length := by
    simp only [Nat.toUInt8_eq, UInt8.toNat_ofNat']
    exact Nat.mod_eq_of_lt hcallable.2
  have hperform : ∀ values, s₀.perform args (.call name) values = fun call => Direct.activate
      (Direct.enter (Interpreter.below call.depth) (link.procedure :: outer.map (·.procedure))
        ⟨link.procedure.params, values⟩ link.procedure.body) := by
    intro values
    funext call
    simp only [Scoping.perform, TagHead.perform, hprocedures, Link.find?_procedure, hfind,
      Option.map_some]
  simp only [hperform]
  refine ⟨(h.code.call hcallable hlength).spare (Nat.zero_le n), ?_, h.knows.move _ _⟩
  exact (hmeans.extend hextends.locals).add (.call hfind hcount hoperands)

end Compile

namespace TagHead

variable {ctx : Context} {env : Environment} {lib : Option Registry} {name : String}

/-- A tag for the subroutine of a link. -/
def callTag (name : String) (link : Link) : Tag :=
  ⟨name, .call link.subroutine, link.procedure.params.length, link.procedure.params.length⟩

/-- What is known of the subroutine that a tag calls. -/
theorem check_call {g : Setting} {before : List Link} {y : Sense Unit} {n : Nat} {d : Draft}
    {c : Compilation} {s s' inner : Scoping} {links : List Link} {args : Arguments}
    (hwritten : Written env lib g before s links y n d c)
    (h : (TagHead.call name).check s inner args = some s') :
    s' = inner ∧ ∃ link outer, Link.find? name links = some (link, outer) ∧
      args.length = link.procedure.params.length ∧ Callable (g.after d) link.subroutine := by
  simp only [TagHead.check] at h
  split at h
  · rename_i p procedures hprocedure
    split at h
    · rename_i hlength
      cases h
      rw [hwritten.knows.procedures, Link.find?_procedure] at hprocedure
      obtain ⟨⟨link, outer⟩, hfind, heq⟩ := Option.map_eq_some_iff.1 hprocedure
      cases heq
      exact ⟨rfl, link, outer, hfind, hlength, hwritten.inv.around.subroutines.find?
        ((hwritten.knows.subroutines name).trans (by rw [hfind]; rfl))⟩
    · cases h
  · cases h

theorem lowers_call_nil : (TagHead.call name).Lowers ctx env lib .nil := by
  intro g before links s inner s' y d c rest place hcheck hcount hwritten hfaces
  cases hcheck
  obtain ⟨rfl, link, outer, hfind, hlength, hcallable⟩ := check_call hwritten hcount
  have hzero : link.procedure.params.length = 0 := hlength.symm
  obtain ⟨r, hr, hfaces, hresolve⟩ := Tag.resolve_of_call ctx place hwritten.knows hfind hfaces
  obtain ⟨u, us, hrest, hu, hfaces⟩ := Compilation.Faces.cons hfaces
  have hcolon : u.kind ≠ .colon := by rw [hu.kind]; nofun
  have hblank : u.kind ≠ .blank := by rw [hu.kind]; nofun
  have hclose : Compiling.expectLoose .rightSquare "':' or ']'" { c with reader := r } =
      .ok u (({ c with reader := r } : Compilation).past u us) :=
    Compiling.expectLoose_of_rest hrest hu.kind nofun
  have hcalled := ((hwritten.reader hr).past hrest).operands.call hwritten.means (.refl _)
    hwritten.knows.procedures hfind hcallable hlength .nil
  have hstart : (Construct.tag place).resume ctx c = .ok .done
      { ({ c with reader := r } : Compilation).past u us with
        out := c.out.emit
          (.call (Int32.ofNat link.address) link.procedure.params.length.toUInt8) } := by
    change Tag.start ctx place c = _
    rw [Tag.start, run_bind_of_ok hresolve, run_bind_of_ok (Compiling.run_tokens _),
      run_bind_of_ok (Compiling.takeLoose_of_ne hrest hcolon hblank), if_neg Bool.false_ne_true,
      run_bind_of_ok hclose, OpenTag.finish_of_count (Nat.le_of_eq hzero) (Nat.zero_le _), hzero]
    rfl
  have hless : us.length ≤ c.reader.rest.length := by
    have hrest : r.rest = u :: us := hrest
    rw [Token.Reader.Passes, hrest, List.length_cons] at hr
    omega
  have htag : s'.tag (.call name) .nil = (do s'.perform .nil (.call name) (← pure [])) := by
    rw [← Scoping.values_zero s' false .nil]
    rfl
  rw [hstart, htag]
  exact ⟨d.add _, _, links, rfl, .done hless, hfaces, hcalled⟩

theorem lowers_call_cons {first : Pattern} (hcapitals : env.options.capitals = .none)
    (hfirst : first.Lowers ctx env lib) (hmore : more.Lowers ctx env lib) :
    (TagHead.call name).Lowers ctx env lib (.cons first more) := by
  intro g before links s inner s' y d c rest place hcheck hcount hwritten hfaces
  obtain ⟨rfl, link, outer, hfind, hlength, hcallable⟩ := check_call hwritten hcount
  rw [Arguments.length] at hlength
  obtain ⟨r, hr, hfaces, hresolve⟩ := Tag.resolve_of_call ctx place hwritten.knows hfind hfaces
  rw [Arguments.lexemes, List.cons_append, List.append_assoc] at hfaces
  obtain ⟨u, us, hrest, hu, hfaces⟩ := Compilation.Faces.cons hfaces
  have htake : Compiling.takeLoose .colon { c with reader := r } =
      .ok true (({ c with reader := r } : Compilation).past u us) :=
    Compiling.takeLoose_of_rest hrest hu.kind (by decide)
  have hoperated := ((hwritten.reader hr).past hrest).operands.spare (Nat.le_add_left 1 _)
  obtain ⟨os, links', c₁, hfaces, hos, hoperated, hcompiles⟩ := hoperated.gathers
    (t := { tag := callTag name link, start := place }) hcapitals rfl (fun _ => rfl) hfirst hmore rfl
    (by change 0 + more.length < link.procedure.params.length; omega) hfaces hcheck
  obtain ⟨sep, ts, hrest', hfaces, hfollows⟩ := OpenTag.follows_last ctx
    (t := { tag := callTag name link, start := place, index := 0 + more.length }) rfl
    (by change link.procedure.params.length ≤ 0 + more.length + 1; omega)
    (by change 0 + more.length + 1 ≤ link.procedure.params.length; omega) hfaces
  obtain ⟨hextends, -⟩ := Arguments.check_extends hcheck
  have hcalled := (hoperated.past hrest').call hwritten.means hextends hwritten.knows.procedures hfind
    hcallable (by rw [hos, ← hlength]; exact Nat.zero_add _) (.cons first more)
  simp only [pure_bind, List.nil_append, bind_pure] at hcalled
  have hperform : ({ tag := callTag name link, start := place, index := 0 + more.length + 1 } :
      OpenTag).perform ctx (c₁.past sep ts) = .ok () { c₁.past sep ts with
        out := (c₁.past sep ts).out.emit
          (.call (Int32.ofNat link.address) link.procedure.params.length.toUInt8) } := by
    rw [Nat.zero_add, hlength]
    rfl
  have hless : us.length ≤ c.reader.rest.length := by
    have hrest : r.rest = u :: us := hrest
    rw [Token.Reader.Passes, hrest, List.length_cons] at hr
    omega
  have hstart : (Construct.tag place).resume ctx c =
      ({ tag := callTag name link, start := place } : OpenTag).arguments ctx (u :: us)
        (({ c with reader := r } : Compilation).past u us) := by
    change Tag.start ctx place c = _
    rw [Tag.start, run_bind_of_ok hresolve, run_bind_of_ok (Compiling.run_tokens _), run_bind_of_ok htake,
      if_pos rfl, hrest]
    rfl
  have hreaches := hcompiles _ (hfollows _ hperform rfl) (u :: us) (Nat.lt_succ_self _)
  rw [hstart]
  exact ⟨d.add _, _, links', rfl, hreaches.mono hless, hfaces, hcalled⟩

theorem lowers_call {args : Arguments} (hcapitals : env.options.capitals = .none)
    (hargs : args.Lowers ctx env lib) : (TagHead.call name).Lowers ctx env lib args := by
  cases args with
  | nil => exact lowers_call_nil
  | cons first more => exact lowers_call_cons hcapitals hargs.1 hargs.2

end TagHead

/-! ## Arithmetic -/

namespace Compile

variable {ctx : Context} {c : Compilation} {t : OpenTag} {env : Environment} {lib : Option Registry}
  {g : Setting} {d : Draft} {known links : List Link} {s s' s₀ : Scoping} {os : Operands}
  {ys : Sense (List Value)} {rest : List Lexeme} {second : Pattern} {op : Arithmetic}

namespace OpenTag

variable {text : String} {bits : UInt64}

/-- The first number is held back. -/
theorem constantNumber_defer (haction : t.tag.action = .arithmetic op) (hindex : t.index = 0)
    (hbits : Decimal.bits? (Text.trim text) = some bits) :
    t.constantNumber text = pure { t with deferred := some bits } := by
  unfold constantNumber
  simp only [hbits, haction, hindex, if_true]

/-- Two numbers are computed with. -/
theorem constantNumber_fold (haction : t.tag.action = .arithmetic op) (hindex : t.index ≠ 0)
    (hbits : Decimal.bits? (Text.trim text) = some bits) {first : UInt64}
    (hdeferred : t.deferred = some first) {result : Float}
    (hresult : op.apply (.number (.ofBits first)) (.number (.ofBits bits)) = .ok (.number result)) :
    t.constantNumber text = (do
      Compiling.emit (.printNumber result.toBits)
      return { t with deferred := none, folded := true }) := by
  unfold constantNumber
  simp only [hbits, haction, hindex, if_false, hdeferred, hresult]

/-- A number that nothing is computed with is pushed. -/
theorem constantNumber_push (haction : t.tag.action = .arithmetic op) (hindex : t.index ≠ 0)
    (hbits : Decimal.bits? (Text.trim text) = some bits)
    (hother : ∀ first result, t.deferred = some first →
      op.apply (.number (.ofBits first)) (.number (.ofBits bits)) ≠ .ok (.number result)) :
    t.constantNumber text = (do
      let t ← t.pushDeferred
      Compiling.emit (.pushNumber bits)
      return t) := by
  unfold constantNumber
  simp only [hbits, haction, hindex, if_false]
  split
  · rfl
  · rename_i first hfirst
    split
    · rename_i result hresult
      exact absurd hresult (hother first result hfirst)
    · rfl

end OpenTag

/-- A tag for arithmetic. -/
def arithmeticTag (name : String) (op : Arithmetic) : Tag := ⟨name, .arithmetic op, 2, 2⟩

/-- The second number is an operand like the first one, and the machine computes. -/
theorem Operated.arithmetic {before : List Link} {y : Sense Unit} {deferred : Option UInt64}
    {name : String} (place : Position) (args : Arguments)
    (hcapitals : env.options.capitals = .none) (hsecond : second.Lowers ctx env lib)
    (h : Operated env lib g d known deferred s links os ys 1 c)
    (hlength : (os.append (held deferred)).length = 1)
    (hmeans : d.Means env before known s₀.locals y) (hextends : s₀.Extends s)
    (hother : ∀ text, second.constant? = some text → ∀ bits,
      Decimal.bits? (Text.trim text) = some bits → ∀ first result, deferred = some first →
      op.apply (.number (.ofBits first)) (.number (.ofBits bits)) ≠ .ok (.number result))
    (hfaces : c.Faces (second.lexemes ++ .mark .rightSquare :: rest))
    (hcheck : second.check .argument s = some s') :
    OpenTag.Writes ctx env lib g before s' (do
      y
      (do s₀.perform args (.arithmetic op) (← ys.snoc
        (do return capturedValue true (← (s.denote second).capture))))) d rest c
      { tag := arithmeticTag name op, start := place, index := 1, deferred := deferred } := by
  obtain ⟨o, c₁, links₁, htakes, hfaces, ho, hoperated⟩ := Operated.takes_number
    (t := { tag := arithmeticTag name op, start := place, index := 1, deferred := deferred })
    hcapitals hsecond h Nat.one_lt_two rfl
    (fun text hconstant bits hbits => OpenTag.constantNumber_push rfl Nat.one_ne_zero hbits
      (hother text hconstant bits hbits)) hfaces rfl hcheck
  obtain ⟨sep, ts, hrest, hfaces, hfollows⟩ := OpenTag.follows_last ctx
    (t := { tag := arithmeticTag name op, start := place, index := 1 }) rfl (Nat.le_refl 2)
    (Nat.le_refl 2) hfaces
  have hoperated := hoperated.past hrest
  obtain ⟨hextends', -⟩ := second.check_extends hcheck
  have htwo : ((os.append (held deferred)).append o).length = 2 := by
    rw [Operands.length_append, hlength, ho]
  have hinv := hoperated.code.emit_print (.arithmetic op) rfl (by cases op <;> rfl) htwo trivial
  have hacts := hoperated.act hmeans (hextends.trans hextends') (.refl _) hinv
    (hoperated.knows.move _ _) fun _ _ _ => Scoping.performs_arithmetic args op
  exact ⟨d.add _, _, links₁, rfl, htakes.compiles (hfollows _ rfl rfl), hfaces, hacts⟩

/-- The result of two numbers is printed. -/
theorem Written.fold {before : List Link} {y : Sense Unit} {name text : String}
    {first bits : UInt64} {result : Float} (ctx : Context) (place : Position)
    (h : Written env lib g before s links y 1 d c) (hconstant : second.constant? = some text)
    (hbits : Decimal.bits? (Text.trim text) = some bits)
    (hresult : op.apply (.number (.ofBits first)) (.number (.ofBits bits)) = .ok (.number result))
    (hfaces : c.Faces (second.lexemes ++ .mark .rightSquare :: rest))
    (hcheck : second.check .argument s = some s') :
    s' = s ∧ OpenTag.Writes ctx env lib g before s (do y; fun _ => Direct.printValue (.number result)) d
      rest c { tag := arithmeticTag name op, start := place, index := 1, deferred := some first } := by
  obtain ⟨hsame, r, hr, hfaces, htakes⟩ := OpenTag.takes_constant ctx
    (t := { tag := arithmeticTag name op, start := place, index := 1, deferred := some first })
    Nat.one_lt_two rfl hconstant hfaces rfl hcheck
  have hread := h.reader hr
  have hfolded := htakes { tag := arithmeticTag name op, start := place, index := 1, folded := true }
    (c.out.emit (.printNumber result.toBits)) (by
      rw [OpenTag.constantNumber_fold rfl Nat.one_ne_zero hbits rfl hresult]
      rfl)
  obtain ⟨sep, ts, hrest, hfaces, hfollows⟩ := OpenTag.follows_last ctx
    (t := { tag := arithmeticTag name op, start := place, index := 1, folded := true })
    (c := { c with reader := r, out := c.out.emit (.printNumber result.toBits) }) rfl (Nat.le_refl 2)
    (Nat.le_refl 2) hfaces
  have hinv := hread.operands.code.emit_act (.number result.toBits) rfl rfl rfl trivial
  have hmeans : (Code.act .nil (.number result.toBits) .nil).Means env links links s.locals d.finish
      (fun _ => Direct.printValue (.number result)) := by
    refine Code.Means.act (f := fun _ _ => Direct.printValue (.number result)) .nil
      fun _ values _ => ?_
    rw [Act.perform, Float.ofBits_toBits]
    exact Tracks.printValue _ _ _
  exact ⟨hsame, d.add _, _, links, rfl, hfolded.compiles (hfollows _ rfl rfl), hfaces,
    (hinv.reader (Compilation.passes_past hrest)).spare (Nat.zero_le _), h.means.add hmeans,
    h.knows.move _ _⟩

end Compile

theorem Scoping.values_two {s s₁ s₂ : Scoping} {first second : Pattern}
    (hfirst : first.check .argument s = some s₁) (hsecond : second.check .argument s₁ = some s₂)
    (numeric : Bool) :
    s.values numeric (.cons first (.cons second more)) 0 2 =
      Sense.snoc (Sense.snoc (pure [])
        (do return capturedValue numeric (← (s.denote first).capture)))
        (do return capturedValue numeric (← (s₁.denote second).capture)) := by
  obtain ⟨hextends, hknown⟩ := first.check_extends hfirst
  rw [Scoping.values_cons hextends.params hknown, Scoping.values_one hsecond]
  simp [Sense.snoc]

section

variable {ctx : Context} {env : Environment} {lib : Option Registry} {g : Setting}
  {before links : List Link} {s s₁ s₂ : Scoping} {y : Sense Unit} {d : Draft} {c : Compilation}
  {rest : List Lexeme} {first second : Pattern} {op : Arithmetic} {name : String} (place : Position)
  (hcapitals : env.options.capitals = .none) (hsecond : second.Lowers ctx env lib)
  (h : Written env lib g before s links y 1 d c)
  (hfaces : c.Faces (first.lexemes ++ .mark .semicolon ::
    (second.lexemes ++ .mark .rightSquare :: rest)))
  (hcheck : first.check .argument s = some s₁) (hcheck' : second.check .argument s₁ = some s₂)

include hcapitals hsecond h hfaces hcheck hcheck'

/-- The first number is a constant, which is held back. -/
theorem Compile.Written.arithmetic_deferred {text : String} {bits : UInt64}
    (hconstant : first.constant? = some text) (hbits : Decimal.bits? (Text.trim text) = some bits) :
    OpenTag.Writes ctx env lib g before s₂
      (do y; s.tag (.arithmetic op) (.cons first (.cons second .nil))) d rest c
      { tag := arithmeticTag name op, start := place } := by
  obtain ⟨rfl, r, hr, hfaces, htakes⟩ := OpenTag.takes_constant ctx
    (t := { tag := arithmeticTag name op, start := place }) Nat.two_pos rfl hconstant hfaces rfl hcheck
  have hdeferred := htakes { tag := arithmeticTag name op, start := place, deferred := some bits } c.out
    (by rw [OpenTag.constantNumber_defer rfl rfl hbits]; rfl)
  obtain ⟨sep, ts, hrest, hfaces, hnext⟩ := OpenTag.follows_next ctx
    (t := { tag := arithmeticTag name op, start := place, deferred := some bits }) rfl hfaces
  have hread := ((h.reader hr).past hrest).spare (Nat.le_add_left 1 1)
  have hdenote : s₁.tag (.arithmetic op) (.cons first (.cons second .nil)) = (do
      s₁.perform (.cons first (.cons second .nil)) (.arithmetic op)
        (← s₁.values true (.cons first (.cons second .nil)) 0 2)) := rfl
  rw [hdenote, Scoping.values_two hcheck hcheck', Pattern.capture_denote hconstant, pure_bind,
    capturedValue_of_bits hbits]
  by_cases hfold : ∃ text bits' result, second.constant? = some text ∧
      Decimal.bits? (Text.trim text) = some bits' ∧
      op.apply (.number (.ofBits bits)) (.number (.ofBits bits')) = .ok (.number result)
  · obtain ⟨text', bits', result, hconstant', hbits', hresult⟩ := hfold
    obtain ⟨rfl, hwrites⟩ := hread.fold ctx place hconstant' hbits' hresult hfaces hcheck'
    refine OpenTag.Writes.of_takes ?_ hdeferred hnext
    rw [Pattern.capture_denote hconstant', pure_bind, capturedValue_of_bits hbits']
    have hprint : s₂.perform (.cons first (.cons second .nil)) (.arithmetic op)
        [.number (.ofBits bits), .number (.ofBits bits')] =
        fun _ => Direct.printValue (.number result) := by
      funext call
      simp only [Scoping.perform, TagHead.perform, hresult]
    simpa [Sense.snoc, hprint] using hwrites
  · have hoperated : Operated env lib g d links (some bits) s₁ links .nil
        (Sense.snoc (pure []) (pure (.number (.ofBits bits)))) 1 _ :=
      ⟨hread.operands.code, by simpa [Sense.snoc] using .constant (.number bits), hread.knows⟩
    refine OpenTag.Writes.of_takes (hoperated.arithmetic place (.cons first (.cons second .nil)) hcapitals
      hsecond rfl h.means (.refl _) ?_ hfaces hcheck') hdeferred hnext
    intro text hconstant' bits' hbits' first' result hfirst hresult
    cases hfirst
    exact hfold ⟨text, bits', result, hconstant', hbits', hresult⟩

/-- The first number is an operand. -/
theorem Compile.Written.arithmetic_pushed (hfirst : first.Lowers ctx env lib)
    (hother : ∀ text, first.constant? = some text → Decimal.bits? (Text.trim text) = none) :
    OpenTag.Writes ctx env lib g before s₂
      (do y; s.tag (.arithmetic op) (.cons first (.cons second .nil))) d rest c
      { tag := arithmeticTag name op, start := place } := by
  obtain ⟨o, c₁, links₁, htakes, hfaces, ho, hoperated⟩ := Operated.takes_number
    (t := { tag := arithmeticTag name op, start := place }) hcapitals hfirst h.operands Nat.two_pos rfl
    (fun text hconstant bits hbits => absurd hbits (by rw [hother text hconstant]; nofun)) hfaces rfl
    hcheck
  obtain ⟨sep, ts, hrest, hfaces, hnext⟩ := OpenTag.follows_next ctx
    (t := { tag := arithmeticTag name op, start := place }) rfl hfaces
  obtain ⟨hextends, -⟩ := first.check_extends hcheck
  have hone : (o.append (held none)).length = 1 := by rw [held, Operands.append_nil, ho]
  have hdenote : s.tag (.arithmetic op) (.cons first (.cons second .nil)) = (do
      s.perform (.cons first (.cons second .nil)) (.arithmetic op)
        (← s.values true (.cons first (.cons second .nil)) 0 2)) := rfl
  rw [hdenote, Scoping.values_two hcheck hcheck']
  exact OpenTag.Writes.of_takes ((hoperated.past hrest).arithmetic place (.cons first (.cons second .nil))
    hcapitals hsecond hone h.means hextends (fun _ _ _ _ _ _ hnone => by cases hnone) hfaces hcheck') htakes
    hnext

end

theorem TagHead.lowers_arithmetic {ctx : Context} {env : Environment} {lib : Option Registry}
    {op : Arithmetic} (hcapitals : env.options.capitals = .none) (hargs : args.Lowers ctx env lib) :
    (TagHead.arithmetic op).Lowers ctx env lib args := by
  intro g before links s inner s' y d c rest place hcheck hcount hwritten hfaces
  simp only [TagHead.check] at hcount
  split at hcount
  · rename_i hlength
    cases hcount
    obtain ⟨first, second, rfl⟩ := Arguments.eq_two hlength
    obtain ⟨hfirst, hsecond, -⟩ := hargs
    obtain ⟨s₁, hcheck, hcheck'⟩ := Arguments.check_two.1 hcheck
    have htag : Tag.intrinsic? (TagHead.arithmetic op).name =
        some (arithmeticTag (TagHead.arithmetic op).name op) := by cases op <;> rfl
    obtain ⟨r, hr, hfaces, hreaches⟩ := Tag.start_of_named ctx place (.intrinsic htag) hfaces
    rw [Arguments.lexemes_more] at hfaces
    have hread := (hwritten.reader hr).spare (Nat.le_add_right 1 2)
    obtain ⟨d', c', links', hfront, hcompiles, hfaces, hwritten⟩ :
        OpenTag.Writes ctx env lib g before inner
          (do y; s.tag (.arithmetic op) (.cons first (.cons second .nil))) d rest { c with reader := r }
          { tag := arithmeticTag (TagHead.arithmetic op).name op, start := place } := by
      cases hconstant : first.constant? with
      | none =>
        refine hread.arithmetic_pushed place hcapitals hsecond hfaces hcheck hcheck' hfirst ?_
        exact fun text htext => by cases hconstant.symm.trans htext
      | some text =>
        cases hbits : Decimal.bits? (Text.trim text) with
        | none =>
          refine hread.arithmetic_pushed place hcapitals hsecond hfaces hcheck hcheck' hfirst ?_
          exact fun text' htext => by
            cases hconstant.symm.trans htext
            exact hbits
        | some bits =>
          exact hread.arithmetic_deferred place hcapitals hsecond hfaces hcheck hcheck' hconstant hbits
    exact ⟨d', c', links', hfront, hreaches _ hcompiles, hfaces, hwritten⟩
  · cases hcount

end Wordloom
