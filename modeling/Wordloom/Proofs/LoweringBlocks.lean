import Wordloom.Proofs.Lowering

/-!
# Wordloom.Proofs.LoweringBlocks

Blocks that are known to compile. Items are appended to the block one after the other, while what the
rest of them means is found from the last one on.
-/

namespace Wordloom

/-! ## What items mean -/

/-- The weights of items where these names are known. -/
def Scoping.weights (s : Scoping) (items : Items) : Sense (List Float) := fun call =>
  items.weights (Interpreter.below call.depth) ⟨s.params, call.args⟩ s.procedures

/-- The item of the given index. -/
def Scoping.choice (s : Scoping) (items : Items) (index : Nat) : Sense Unit := fun call =>
  items.run (Interpreter.below call.depth) ⟨s.params, call.args⟩ s.procedures index

namespace Scoping

variable {s s₁ s₂ : Scoping} {weight body : Pattern} {rest : Items}

theorem weights_eq (hparams : s₁.params = s.params) {known : List Procedure}
    (hknown : s₁.procedures = known) :
    s₁.weights rest = fun call =>
      rest.weights (Interpreter.below call.depth) ⟨s.params, call.args⟩ known := by
  subst hknown
  funext call
  rw [weights, hparams]

theorem choice_eq (hparams : s₁.params = s.params) {known : List Procedure}
    (hknown : s₁.procedures = known) :
    s₁.choice rest = fun index call =>
      rest.run (Interpreter.below call.depth) ⟨s.params, call.args⟩ known index := by
  subst hknown
  funext index call
  rw [choice, hparams]

theorem weights_plain (hparams : s₁.params = s.params)
    (hknown : s₁.procedures = body.known s.procedures) :
    s.weights (.plain body rest) = (do return 1 :: (← s₁.weights rest)) := by
  rw [weights_eq hparams hknown]
  funext call
  rw [weights, Items.weights]
  rfl

theorem choice_plain (hparams : s₁.params = s.params)
    (hknown : s₁.procedures = body.known s.procedures) :
    s.choice (.plain body rest) = bodiesCons (s.denote body) (s₁.choice rest) := by
  rw [choice_eq hparams hknown]
  funext index call
  cases index <;> rfl

theorem weights_weighted (hparams : s₂.params = s.params)
    (hknown : s₂.procedures = body.known (weight.known s.procedures)) :
    s.weights (.weighted weight body rest) =
      (do
        let text ← (s.denote weight).capture
        return spelledWeight text :: (← s₂.weights rest)) := by
  rw [weights_eq hparams hknown]
  funext call
  rw [weights, Items.weights]
  rfl

theorem choice_weighted (hparams : s₁.params = s.params) (hparams' : s₂.params = s.params)
    (hweight : s₁.procedures = weight.known s.procedures)
    (hbody : s₂.procedures = body.known (weight.known s.procedures)) :
    s.choice (.weighted weight body rest) = bodiesCons (s₁.denote body) (s₂.choice rest) := by
  have hdenote : s₁.denote body = fun call => body.eval (Interpreter.below call.depth)
      ⟨s.params, call.args⟩ (weight.known s.procedures) := by
    unfold denote
    rw [hparams, hweight]
  rw [choice_eq hparams' hbody, hdenote]
  funext index call
  cases index <;> rfl

end Scoping

theorem Choices.append_nil : ∀ choices : Choices, choices.append .nil = choices
  | .nil => rfl
  | .item _ _ next | .weighted _ _ next => by rw [Choices.append, next.append_nil]

theorem Choices.append_assoc : ∀ a b c : Choices, (a.append b).append c = a.append (b.append c)
  | .nil, _, _ => rfl
  | .item _ _ next, b, c | .weighted _ _ next, b, c => by
    rw [Choices.append, Choices.append, Choices.append, next.append_assoc]

namespace Compile

variable {body : Pattern} {more : Items}

/-- A block is complete with the items `tail` behind those that it had. -/
structure BlockEnds (env : Environment) (lib : Option Registry) (g : Setting) (d : Draft)
    (index : Nat) (choices : Choices) (links : List Link) (s s' : Scoping) (items : Items)
    (rest : List Lexeme) (tail : Choices) (links' : List Link) (c' : Compilation) : Prop where
  inv : Inv lib g 0 (d.add (.block index (choices.append tail) .nil)) c'
  means : tail.Means env links links' s'.locals (d.finish + 5 + choices.size) (s.weights items)
    (s.choice items)
  knows : c'.Knows s' links'
  faces : c'.Faces rest

/-- The code of items: static if they are, and with at most one print each if they are text. -/
structure ItemShapes (items : Items) (choices : Choices) (marks marks' : Bool) : Prop where
  keeps : items.isStatic = true → marks' = marks
  static : items.isStatic = true → choices.isStatic = true
  narrow : items.isText = true → marks = false → choices.widest ≤ 5

namespace ItemShapes

variable {weight : Pattern} {code : Code} {tail : Choices} {bits : Option UInt64}
  {marks marks₁ marks' : Bool}

theorem nil : ItemShapes .nil .nil marks marks :=
  ⟨fun _ => rfl, fun _ => by rw [Choices.isStatic], fun _ _ => Nat.zero_le 5⟩

theorem plain (h : Shapes body code marks marks₁) (h' : ItemShapes more tail marks₁ marks') :
    ItemShapes (.plain body more) (.item bits code tail) marks marks' := by
  refine ⟨fun hstatic => ?_, fun hstatic => ?_, fun htext hmarks => ?_⟩
  · rw [Items.isStatic, Bool.and_eq_true] at hstatic
    rw [h'.keeps hstatic.2, h.keeps hstatic.1]
  · rw [Items.isStatic, Bool.and_eq_true] at hstatic
    rw [Choices.isStatic, h.static hstatic.1, h'.static hstatic.2, Bool.and_self]
  · rw [Items.isText, Bool.and_eq_true] at htext
    have hkept := h.keeps (Pattern.isStatic_of_isText htext.1)
    exact Nat.max_le.2 ⟨h.short htext.1 hmarks, h'.narrow htext.2 (hkept.trans hmarks)⟩

/-- A weight that is constant leaves no code. -/
theorem weighted (h : ItemShapes (.plain body more) tail marks marks') :
    ItemShapes (.weighted weight body more) tail marks marks' := by
  refine ⟨fun hstatic => h.keeps ?_, fun hstatic => h.static ?_, fun htext => h.narrow ?_⟩
  · rw [Items.isStatic, Bool.and_assoc, Bool.and_eq_true] at hstatic
    rw [Items.isStatic, hstatic.2]
  · rw [Items.isStatic, Bool.and_assoc, Bool.and_eq_true] at hstatic
    rw [Items.isStatic, hstatic.2]
  · rw [Items.isText, Bool.and_assoc, Bool.and_eq_true] at htext
    rw [Items.isText, htext.2]

/-- Nothing is known where a weight has code. -/
theorem of_none (h : weight.constant? = none) :
    ItemShapes (.weighted weight body more) tail marks marks' := by
  refine ⟨fun hstatic => ?_, fun hstatic => ?_, fun htext => ?_⟩
  · simp [Items.isStatic, h] at hstatic
  · simp [Items.isStatic, h] at hstatic
  · simp [Items.isText, h] at htext

end ItemShapes

end Compile

open Compile

/-- Items are compiled from the weight of the first one on, whatever items are there before. -/
def Items.Lowers (ctx : Context) (env : Environment) (lib : Option Registry) (items : Items) : Prop :=
  ∀ {g : Setting} {d : Draft} {b : OpenBlock} {choices : Choices} {c : Compilation}
    {links : List Link} {s s' : Scoping} {rest : List Lexeme},
    Itemized lib g d b choices 0 c → c.Knows s links → items ≠ .nil →
    c.Faces ((items.lexemes .pipe).tail ++ .mark .rightCurly :: rest) → items.check s = some s' →
    ∃ tail links' c', Reaches ctx c.reader.rest.length (Block.readWeight b c) c' ∧ 0 < tail.count ∧
      ItemShapes items tail c.out.debug c'.out.debug ∧
      BlockEnds env lib g d b.index choices links s s' items rest tail links' c'

namespace Compile

variable {ctx : Context} {env : Environment} {lib : Option Registry} {g : Setting} {d : Draft}
  {b : OpenBlock} {choices : Choices} {n : Nat} {c : Compilation} {links : List Link}
  {s s₁ s' : Scoping} {rest : List Lexeme} {body : Pattern} {more : Items}

/-- The items that follow those that a block had are behind a first one of them. -/
theorem BlockEnds.behind {index : Nat} {first tail : Choices} {links' : List Link} {c' : Compilation}
    (h : BlockEnds env lib g d index (choices.append first) links s s' more rest tail links' c') :
    Inv lib g 0 (d.add (.block index (choices.append (first.append tail)) .nil)) c' ∧
      tail.Means env links links' s'.locals (d.finish + 5 + choices.size + first.size)
        (s.weights more) (s.choice more) := by
  obtain ⟨hinv, hmeans, -, -⟩ := h
  rw [Choices.append_assoc] at hinv
  rw [Choices.size_append, ← Nat.add_assoc] at hmeans
  exact ⟨hinv, hmeans⟩

/-- What follows an item: the end of the block, or another item. -/
theorem Itemized.afterItem (hmore : more.Lowers ctx env lib) {before : Compilation}
    (hemit : Compiling.emit .blockEnd before = .ok () c) (h : Itemized lib g d b choices 0 c)
    (hne : b.items ≠ []) (hknows : c.Knows s links)
    (hfaces : c.Faces (more.lexemes .pipe ++ .mark .rightCurly :: rest))
    (hcheck : more.check s = some s') :
    ∃ k tail links' c', k < c.reader.rest.length ∧ Reaches ctx k (Block.afterItem b before) c' ∧
      ItemShapes more tail c.out.debug c'.out.debug ∧
      BlockEnds env lib g d b.index choices links s s' more rest tail links' c' := by
  have hlexemes : more = .nil ∨
      more ≠ .nil ∧ more.lexemes .pipe = .mark .pipe :: (more.lexemes .pipe).tail := by
    cases more with
    | nil => exact .inl rfl
    | plain _ _ | weighted _ _ _ => exact .inr ⟨nofun, rfl⟩
  rw [Block.afterItem, run_bind_of_ok hemit]
  obtain rfl | ⟨hsome, hlexemes⟩ := hlexemes
  · cases hcheck
    obtain ⟨t, ts, hrest, ht, hfaces'⟩ := Compilation.Faces.cons hfaces
    have hinv := ((h.reader (c.passes_past hrest)).finishBlock hne).spare (Nat.zero_le _)
    rw [← choices.append_nil] at hinv
    refine ⟨ts.length, .nil, links, _, by rw [hrest]; exact Nat.lt_succ_self _, ?_, by exact .nil, hinv,
      .nil _, hknows.move _ _, hfaces'⟩
    rw [run_bind_of_ok (Compiling.read_of_rest hrest), ht.kind]
    exact .done (Nat.le_refl _)
  · rw [hlexemes] at hfaces
    obtain ⟨t, ts, hrest, ht, hfaces'⟩ := Compilation.Faces.cons hfaces
    obtain ⟨tail, links', c', hreaches, -, hshapes, hends⟩ :=
      hmore ((h.reader (c.passes_past hrest)).spare (Nat.zero_le _)) (hknows.move _ _) hsome hfaces'
        hcheck
    refine ⟨ts.length, tail, links', c', by rw [hrest]; exact Nat.lt_succ_self _, ?_, hshapes, hends⟩
    rw [run_bind_of_ok (Compiling.read_of_rest hrest), ht.kind]
    exact hreaches

theorem meets_item (more : Items) (rest : List Lexeme) :
    Terminator.blockItem.Meets (more.lexemes .pipe ++ .mark .rightCurly :: rest) := by
  cases more <;> rfl

/-- The body of an item follows what stands before it, and then the rest of the block. -/
theorem beginItem_reaches (hbody : body.Lowers ctx env lib) (hmore : more.Lowers ctx env lib)
    {head : Head} {weight : Weight} (h : Headed lib g d b choices head weight n c)
    (hknows : c.Knows s links)
    (hfaces : c.Faces (body.lexemes ++ (more.lexemes .pipe ++ .mark .rightCurly :: rest)))
    (hcheck : body.check .blockItem s = some s₁) (hcheck' : more.check s₁ = some s') :
    ∃ code tail links₁ links' c', Reaches ctx c.reader.rest.length (Block.beginItem b weight c) c' ∧
      (∀ bits, ItemShapes (.plain body more) (.item bits code tail) c.out.debug c'.out.debug) ∧
      Code.Means env links links₁ s₁.locals (d.finish + 5 + choices.size +
        Line.sizes (head.lines (d.finish + 5 + choices.size))) code (s.denote body) ∧
      BlockEnds env lib g d b.index (choices.append (head.choice code)) links₁ s₁ s' more rest tail
        links' c' := by
  obtain ⟨code, c₁, links₁, hshapes, hreaches, hfaces', hknows', hmeans, hpart⟩ :=
    hbody.inside .blockItem (h.part.spare (Nat.zero_le n)) h.ended
      (fun _ _ hs hS => ⟨hS.1.mono hs, hS.2.mono hs.le⟩) hknows hfaces (meets_item more rest) hcheck
  rw [finish_head] at hmeans hpart
  have hitemized := Part.closeItem
    (b := { b with items := b.items ++ [⟨c.out.position.toUInt32, weight⟩] })
    ⟨h.fresh.small, h.fresh.fresh⟩ (by rw [h.items, h.entry]) hpart
  obtain ⟨k, tail, links', c', hk, hreaches', hshapes', hends⟩ := hitemized.afterItem hmore rfl
    (List.append_ne_nil_of_right_ne_nil _ (List.cons_ne_nil _ _)) (hknows'.move _ _) hfaces'
    hcheck'
  exact ⟨code, tail, links₁, links', c', .push_of_lt hreaches hk hreaches',
    fun _ => .plain hshapes hshapes', hmeans, hends⟩

/-- An item that has no weight does not begin like one. -/
theorem head_of_plain (hstarts : body.startsWeight = false)
    (hcheck : body.check .blockItem s = some s₁) (more : Items) (rest : List Lexeme) :
    ∃ l ls, body.lexemes ++ (more.lexemes .pipe ++ .mark .rightCurly :: rest) = l :: ls ∧
      l.kind ≠ .asterisk := by
  cases body with
  | nil => cases more <;> exact ⟨_, _, rfl, nofun⟩
  | leaf l next =>
    refine ⟨l, _, rfl, fun hkind => ?_⟩
    cases l with
    | mark kind =>
      have hkind : kind = .asterisk := hkind
      subst hkind
      cases hstarts
    | _ => cases hkind
  | block items next =>
    obtain ⟨hne, -⟩ := Pattern.check_block hcheck
    cases items with
    | nil => exact absurd rfl hne
    | plain _ _ | weighted _ _ _ => exact ⟨.mark .leftCurly, _, rfl, nofun⟩
  | define _ _ _ _ | tag _ _ _ => exact ⟨.mark .leftSquare, _, rfl, nofun⟩

/-- The code of a weight follows the items before it, and then its item. -/
theorem Itemized.beginWeight {weight : Pattern} {s₂ : Scoping} (hweight : weight.Lowers ctx env lib)
    (hbody : body.Lowers ctx env lib) (hmore : more.Lowers ctx env lib)
    (h : Itemized lib g d b choices n c) (hknows : c.Knows s links)
    (hfaces : c.Faces (weight.lexemes ++ .mark .asterisk ::
      (body.lexemes ++ (more.lexemes .pipe ++ .mark .rightCurly :: rest))))
    (hcheck : weight.check .weight s = some s₁) (hcheck' : body.check .blockItem s₁ = some s₂)
    (hcheck'' : more.check s₂ = some s') :
    ∃ wcode code tail links₁ links₂ links' c',
      Reaches ctx (c.reader.rest.length + 1)
        (.ok (.push (.weight b c.out.position) (.pattern .weight))
          { c with out := c.out.emit .newOutput }) c' ∧
      Code.Means env links links₁ s₁.locals (d.finish + 5 + choices.size + 1) wcode
        (s.denote weight) ∧
      Code.Means env links₁ links₂ s₂.locals
        (d.finish + 5 + choices.size + 1 + wcode.size + 2) code (s₁.denote body) ∧
      BlockEnds env lib g d b.index (choices.append (.weighted wcode code .nil)) links₂ s₂ s' more
        rest tail links' c' := by
  have hpart := (h.part.emit (i := .newOutput) rfl).spare (Nat.zero_le n)
  have hended := h.part.ended_emit (i := .newOutput) rfl
  obtain ⟨wcode, c₁, links₁, -, hreaches, hfaces', hknows', hmeans, hpart⟩ :=
    hweight.inside .weight hpart hended (fun _ _ hs hS => hS.mono hs) (hknows.move _ _)
      hfaces rfl hcheck
  rw [finish_newOutput] at hmeans hpart
  obtain ⟨t, ts, hrest, ht, hfaces''⟩ := hfaces'.cons
  have hheaded := (hpart.reader (c₁.passes_past hrest)).closeWeight h.fresh h.items
  obtain ⟨code, tail, links₂, links', c', hreaches', -, hmeans', hends⟩ :=
    beginItem_reaches hbody hmore hheaded (hknows'.move _ _) hfaces'' hcheck' hcheck''
  rw [Head.sizes_weighted] at hmeans'
  refine ⟨wcode, code, tail, links₁, links₂, links', c', ?_, hmeans, hmeans', hends⟩
  refine .push hreaches ?_
  change Reaches ctx _ (Block.afterWeight b c.out.position c₁) c'
  rw [Block.afterWeight, run_bind_of_ok (Compiling.read_of_rest hrest), h.position]
  refine Reaches.mono hreaches' ?_
  rw [hrest]
  exact Nat.le_succ _

end Compile

namespace Items

variable {ctx : Context} {env : Environment} {lib : Option Registry} {weight body : Pattern}
  {more : Items}

theorem lowers_nil : Items.nil.Lowers ctx env lib := fun _ _ hne => absurd rfl hne

theorem lowers_plain (hbody : body.Lowers ctx env lib) (hmore : more.Lowers ctx env lib) :
    (Items.plain body more).Lowers ctx env lib := by
  intro g d b choices c links s s' rest h hknows _ hfaces hcheck
  rw [Items.check] at hcheck
  split at hcheck
  · cases hcheck
  · rename_i hstarts
    obtain ⟨s₁, hcheck, hcheck'⟩ := Option.bind_eq_some_iff.1 hcheck
    have hfaces : c.Faces (body.lexemes ++ (more.lexemes .pipe ++ .mark .rightCurly :: rest)) := by
      simpa [Items.lexemes] using hfaces
    have htake : Compiling.take .asterisk c = .ok false c := by
      obtain ⟨l, ls, hlexemes, hl⟩ := head_of_plain (Bool.eq_false_iff.2 hstarts) hcheck more rest
      rw [hlexemes] at hfaces
      obtain ⟨t, ts, hrest, ht, -⟩ := hfaces.cons
      exact Compiling.take_of_ne hrest (ht.kind ▸ hl)
    obtain ⟨code, tail, links₁, links', c', hreaches, hshapes, hmeans, hends⟩ :=
      beginItem_reaches hbody hmore (h.headed none) hknows hfaces hcheck hcheck'
    obtain ⟨hextends, hknown⟩ := body.check_extends hcheck
    obtain ⟨hextends', -⟩ := more.check_extends hcheck'
    obtain ⟨hinv, htail⟩ := hends.behind
    refine ⟨.item none code tail, links', c', ?_, Nat.succ_pos _, hshapes none, hinv, ?_, hends.knows,
      hends.faces⟩
    · rw [Block.readWeight, run_bind_of_ok htake]
      exact hreaches
    · rw [Scoping.weights_plain hextends.params hknown, Scoping.choice_plain hextends.params hknown]
      exact .item none (hmeans.extend hextends'.locals) htail

theorem lowers_weighted (hcapitals : env.options.capitals = .none)
    (hweight : weight.Lowers ctx env lib) (hbody : body.Lowers ctx env lib)
    (hmore : more.Lowers ctx env lib) : (Items.weighted weight body more).Lowers ctx env lib := by
  intro g d b choices c links s s' rest h hknows _ hfaces hcheck
  rw [Items.check] at hcheck
  split at hcheck
  · rename_i hisWeight
    obtain ⟨s₁, hcheck, h'⟩ := Option.bind_eq_some_iff.1 hcheck
    obtain ⟨s₂, hcheck', hcheck''⟩ := Option.bind_eq_some_iff.1 h'
    have hfaces : c.Faces (.mark .asterisk :: (weight.lexemes ++ .mark .asterisk ::
        (body.lexemes ++ (more.lexemes .pipe ++ .mark .rightCurly :: rest)))) := by
      simpa [Items.lexemes] using hfaces
    obtain ⟨t, ts, hrest, ht, hfaces⟩ := hfaces.cons
    have hlength : c.reader.rest.length = (c.past t ts).reader.rest.length + 1 := by
      rw [hrest]
      rfl
    have hpast : Itemized lib g d b choices (0 + 1) (c.past t ts) := h.reader (c.passes_past hrest)
    obtain ⟨hextends, hknown⟩ := weight.check_extends hcheck
    obtain ⟨hextends', hknown'⟩ := body.check_extends hcheck'
    obtain ⟨hextends'', -⟩ := more.check_extends hcheck''
    have hparams : s₂.params = s.params := hextends'.params.trans hextends.params
    have hprocedures : s₂.procedures = body.known (weight.known s.procedures) := by
      rw [hknown', hknown]
    have hweights : s.weights (.weighted weight body more) = _ :=
      Scoping.weights_weighted hparams hprocedures
    have hchoice : s.choice (.weighted weight body more) = _ :=
      Scoping.choice_weighted hextends.params hparams hknown hprocedures
    have hstops : ∀ kind, [Token.Kind.asterisk].contains kind = Terminator.weight.endsAt kind := by
      intro kind
      cases kind <;> rfl
    have htake : Compiling.take .asterisk c = .ok true (c.past t ts) :=
      Compiling.take_of_rest hrest ht.kind
    cases hconstant : weight.constant? with
    | some text =>
      obtain ⟨bits, hbits⟩ : ∃ bits, Decimal.bits? (Text.trim text) = some bits := by
        rw [Pattern.isWeight, hconstant] at hisWeight
        exact Option.isSome_iff_exists.1 hisWeight
      obtain rfl := Pattern.check_of_constant hconstant hcheck
      obtain ⟨r, huntil, hfaces, hr⟩ :=
        Compiling.constantUntil_of_constant hstops hconstant hcheck rfl hfaces
      obtain ⟨u, us, hrest', hu, hfaces⟩ := hfaces.cons
      have hread := (hpast.reader hr).reader (Compilation.passes_past hrest')
      obtain ⟨code, tail, links₁, links', c', hreaches, hshapes, hmeans, hends⟩ :=
        beginItem_reaches hbody hmore (hread.headed (some bits)) (hknows.move _ _) hfaces hcheck' hcheck''
      obtain ⟨hinv, htail⟩ := hends.behind
      refine ⟨.item (some bits) code tail, links', c', ?_, Nat.succ_pos _,
        (hshapes (some bits)).weighted, hinv, ?_, hends.knows, hends.faces⟩
      · rw [hlength, Block.readWeight, run_bind_of_ok htake, if_pos rfl]
        change Reaches ctx _ ((Compiling.constantUntil [.asterisk] >>= _) (c.past t ts)) c'
        rw [run_bind_of_ok huntil]
        simp only [hbits]
        rw [run_bind_of_ok (Compiling.read_of_rest hrest')]
        have hleft : us.length ≤ (c.past t ts).reader.rest.length := by
          have hrest' : r.rest = u :: us := hrest'
          rw [Token.Reader.Passes, hrest', List.length_cons] at hr
          omega
        exact hreaches.mono (Nat.le_succ_of_le hleft)
      · rw [hweights, hchoice, Pattern.capture_denote hconstant, pure_bind,
          spelledWeight_of_bits hbits]
        exact .item (some bits) (hmeans.extend hextends''.locals) htail
    | none =>
      have huntil := Compiling.constantUntil_of_none hstops hconstant hcheck hfaces
      obtain ⟨wcode, code, tail, links₁, links₂, links', c', hreaches, hmeans, hmeans', hends⟩ :=
        hpast.beginWeight hweight hbody hmore (hknows.move _ _) hfaces hcheck hcheck' hcheck''
      obtain ⟨hinv, htail⟩ := hends.behind
      refine ⟨.weighted wcode code tail, links', c', ?_, Nat.succ_pos _, .of_none hconstant, hinv, ?_,
        hends.knows, hends.faces⟩
      · rw [hlength, Block.readWeight, run_bind_of_ok htake, if_pos rfl]
        change Reaches ctx _ ((Compiling.constantUntil [.asterisk] >>= _) (c.past t ts)) c'
        rw [run_bind_of_ok huntil]
        exact hreaches
      · have hsize : d.finish + 5 + choices.size + (Choices.weighted wcode code .nil).size =
            d.finish + 5 + choices.size + 1 + wcode.size + 2 + code.size + 1 := by
          simp only [Choices.size]
          omega
        rw [hsize] at htail
        rw [hweights, hchoice]
        exact .weighted hcapitals (hmeans.extend (hextends'.trans hextends'').locals)
          (hmeans'.extend hextends''.locals) htail
  · cases hcheck

end Items

/-! ## Blocks -/

variable {items : Items}

theorem Scoping.denote_block {s s₁ : Scoping} {next : Pattern} (hparams : s₁.params = s.params)
    (hknown : s₁.procedures = items.known s.procedures) :
    s.denote (.block items next) =
      (do
        (do
          let weights ← s.weights items
          let choice ← (Direct.choose weights : Sense Nat)
          s.choice items choice)
        s₁.denote next) := by
  have hnext : s₁.denote next = fun call => next.eval (Interpreter.below call.depth)
      ⟨s.params, call.args⟩ (items.known s.procedures) := by
    unfold Scoping.denote
    rw [hparams, hknown]
  rw [hnext]
  funext call
  rw [Scoping.denote, Pattern.eval]
  simp only [bind_assoc]
  rfl

theorem Pattern.lexemes_block (hne : items ≠ .nil) (next : Pattern) :
    (Pattern.block items next).lexemes = .mark .leftCurly ::
      ((items.lexemes .pipe).tail ++ [.mark .rightCurly] ++ next.lexemes) := by
  cases items with
  | nil => exact absurd rfl hne
  | plain _ _ | weighted _ _ _ => simp [Pattern.lexemes, Items.lexemes]

theorem Pattern.lowers_block {ctx : Context} {env : Environment} {lib : Option Registry}
    {next : Pattern} (hitems : items.Lowers ctx env lib) (hnext : next.Lowers ctx env lib) :
    (Pattern.block items next).Lowers ctx env lib := by
  by_cases hne : items = .nil
  · subst hne
    exact fun _ _ _ hcheck => absurd rfl (Pattern.check_block hcheck).1
  have hlexemes := Pattern.lexemes_block hne next
  have hstatic : (Pattern.block items next).isStatic = (items.isStatic && next.isStatic) := by
    rw [isStatic]
  refine lowers_of_child hstatic rfl hlexemes (.inr ⟨rfl, rfl⟩) hnext ?_
  intro stop g before links s s' y d c rest place hcheck hwritten hfaces
  obtain ⟨-, s₁, hcheck, hcheck'⟩ := Pattern.check_block hcheck
  obtain ⟨hextends, hknown⟩ := items.check_extends hcheck
  rw [List.append_assoc, List.singleton_append] at hfaces
  obtain ⟨tail, links', c', hreaches, hcount, hshapes, hends⟩ :=
    hitems (hwritten.inv.openBlock.spare (Nat.zero_le _)) (hwritten.knows.move _ _) hne hfaces hcheck
  have hadds : Adds items.isStatic false d c.out.debug
      (d.add (.block c.out.blocks.size (Choices.nil.append tail) .nil)) c'.out.debug := by
    refine .add hshapes.keeps (fun hstatic => ?_) fun h => absurd h Bool.false_ne_true
    rw [Code.isStatic, Choices.append, hshapes.static hstatic, Code.isStatic, Bool.and_self]
  exact ⟨s₁, _, d.add _, c', links', hcheck', Scoping.denote_block hextends.params hknown, hadds,
    hreaches, hends.faces, hends.inv,
    (hwritten.means.extend hextends.locals).add (.block hcount hends.means), hends.knows⟩

end Wordloom
