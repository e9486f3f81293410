import Wordloom.Proofs.LoweringBranches

/-!
# Wordloom.Proofs.LoweringDefinitions

Definitions of subroutines that are known to compile. The body is compiled in a frame of its own, where
the subroutine itself is known; behind the definition, what it does may be used at every depth.
-/

namespace Wordloom

namespace Token.Reader.Passes

variable {m n : Nat} {r r' r'' : Reader}

theorem trans (h : r.Passes m r') (h' : r'.Passes n r'') : r.Passes (n + m) r'' := by
  unfold Passes at h h' ⊢
  omega

theorem weaken (h : r.Passes n r') (hm : m ≤ n) : r.Passes m r' :=
  Nat.le_trans (Nat.add_le_add_left hm _) h

end Token.Reader.Passes

namespace Compile

variable {ctx : Context} {c : Compilation} {rest : List Lexeme} {name : String}

/-! ## Heads -/

theorem length_le_paramLexemes (opening : Token.Kind) (names : List String) :
    names.length ≤ (paramLexemes opening names).length := by
  induction names generalizing opening with
  | nil => exact Nat.zero_le _
  | cons name names ih => exact Nat.succ_le_succ (Nat.le_succ_of_le (ih .semicolon))

theorem Compilation.Faces.text {ls : List Lexeme} (h : c.Faces (.text name :: ls)) :
    ∃ t ts, c.reader.rest = t :: ts ∧ t.text = name ∧ (c.past t ts).Faces ls ∧
      ∀ wanted, Compiling.expectLoose .text wanted c = .ok t (c.past t ts) := by
  obtain ⟨t, ts, hrest, ht, hfaces⟩ := h.cons
  exact ⟨t, ts, hrest, ht.text.trans String.ofList_toList, hfaces, fun _ =>
    Compiling.expectLoose_of_rest hrest ht.kind nofun⟩

/-- The names of parameters are read up to the bracket. -/
theorem Tag.parameters_eq : ∀ {names : List String} {name : String} {fuel : Nat} {c : Compilation},
    c.Faces (.text name :: (paramLexemes .semicolon names ++ .mark .rightSquare :: rest)) →
    names.length < fuel →
    ∃ r, c.reader.Passes 1 r ∧ ({ c with reader := r } : Compilation).Faces (.mark .rightSquare :: rest) ∧
      Tag.parameters fuel c = .ok (name :: names) { c with reader := r }
  | [], name, fuel, c, hfaces, hfuel => by
    obtain ⟨fuel, rfl⟩ : ∃ k, fuel = k + 1 := ⟨fuel - 1, by omega⟩
    obtain ⟨t, ts, hrest, htext, hfaces, hname⟩ := hfaces.text
    obtain ⟨u, us, hrest', hu, -⟩ := Compilation.Faces.cons hfaces
    have hsemicolon : u.kind ≠ .semicolon := by rw [hu.kind]; nofun
    have hblank : u.kind ≠ .blank := by rw [hu.kind]; nofun
    refine ⟨(c.past t ts).reader, c.passes_past hrest, hfaces, ?_⟩
    rw [Tag.parameters, run_bind_of_ok (hname _),
      run_bind_of_ok (Compiling.takeLoose_of_ne hrest' hsemicolon hblank), if_neg Bool.false_ne_true,
      htext]
    rfl
  | second :: names, name, fuel, c, hfaces, hfuel => by
    obtain ⟨fuel, rfl⟩ : ∃ k, fuel = k + 1 := ⟨fuel - 1, by omega⟩
    obtain ⟨t, ts, hrest, htext, hfaces, hname⟩ := hfaces.text
    rw [paramLexemes, List.cons_append, List.cons_append] at hfaces
    obtain ⟨u, us, hrest', hu, hfaces⟩ := Compilation.Faces.cons hfaces
    have htake : Compiling.takeLoose .semicolon (c.past t ts) = .ok true ((c.past t ts).past u us) :=
      Compiling.takeLoose_of_rest hrest' hu.kind nofun
    have hfuel : names.length < fuel := Nat.lt_of_succ_lt_succ hfuel
    obtain ⟨r, hr, hfaces, hmore⟩ := Tag.parameters_eq hfaces hfuel
    have hpassed := ((c.passes_past hrest).trans ((c.past t ts).passes_past hrest')).trans hr
    refine ⟨r, hpassed.weaken (Nat.succ_le_succ (Nat.zero_le _)), hfaces, ?_⟩
    rw [Tag.parameters, run_bind_of_ok (hname _), run_bind_of_ok htake, if_pos rfl,
      run_bind_of_ok hmore, htext]
    rfl

/-- A compilation in front of the body of a subroutine and behind the jump around it. -/
def Compilation.openBody (c : Compilation) (name : String) (params : List String) : Compilation :=
  (({ c with out := c.out.emit (.jump 0) } : Compilation).withSubroutine name
    params.length).openFrame.addArguments 0 params

theorem Compilation.reader_openBody (name : String) (params : List String) :
    (c.openBody name params).reader = c.reader := by
  obtain ⟨slots, hopened, -⟩ := frame_addArguments (({ c with out := c.out.emit (.jump 0) } :
    Compilation).withSubroutine name params.length).openFrame 0 params
  rw [openBody, hopened]
  rfl

/-- The head of a subroutine, whose name is known from here on; its body is to be compiled. -/
theorem Tag.define_eq {params : List String} (hparams : params.length < 2 ^ 8)
    (hfaces : c.Faces (.text name :: (paramLexemes .colon params ++ .mark .rightSquare :: rest))) :
    ∃ r, c.reader.Passes 2 r ∧ ({ c with reader := r } : Compilation).Faces rest ∧
      Tag.define c = .ok ⟨name, .define c.out.position, 1, 1⟩
        (({ c with reader := r } : Compilation).openBody name params) := by
  obtain ⟨t, ts, hrest, htext, hfaces, hname⟩ := hfaces.text
  -- Whether or not there are parameters, the same is done behind them.
  have hend : ∀ {r : Token.Reader}, (c.past t ts).reader.Passes 0 r →
      ({ c with reader := r } : Compilation).Faces (.mark .rightSquare :: rest) →
      ∃ r', c.reader.Passes 2 r' ∧ ({ c with reader := r' } : Compilation).Faces rest ∧
        Tag.beginBody t params { c with reader := r } =
        .ok ⟨name, .define c.out.position, 1, 1⟩
          (({ c with reader := r' } : Compilation).openBody name params) := by
    intro r hr hfaces
    obtain ⟨u, us, hrest', hu, hfaces⟩ := hfaces.cons
    have hsmall : ¬ 255 < params.length := by omega
    have hclose : Compiling.expectLoose .rightSquare "']'" { c with reader := r } =
        .ok u (({ c with reader := r } : Compilation).past u us) :=
      Compiling.expectLoose_of_rest hrest' hu.kind nofun
    refine ⟨_, ((c.passes_past hrest).trans hr).trans
      (({ c with reader := r } : Compilation).passes_past hrest'), hfaces, ?_⟩
    rw [Tag.beginBody, run_bind_of_ok hclose, if_neg hsmall, htext]
    rfl
  cases params with
  | nil =>
    obtain ⟨u, us, hrest', hu, -⟩ := Compilation.Faces.cons hfaces
    have hcolon : u.kind ≠ .colon := by rw [hu.kind]; nofun
    have hblank : u.kind ≠ .blank := by rw [hu.kind]; nofun
    obtain ⟨r, hr, hfaces, hdefine⟩ := hend (.refl _) hfaces
    refine ⟨r, hr, hfaces, ?_⟩
    unfold Tag.define
    rw [run_bind_of_ok (hname _), run_bind_of_ok (Compiling.takeLoose_of_ne hrest' hcolon hblank),
      if_neg Bool.false_ne_true]
    exact hdefine
  | cons first params =>
    rw [paramLexemes, List.cons_append, List.cons_append] at hfaces
    obtain ⟨u, us, hrest', hu, hfaces⟩ := Compilation.Faces.cons hfaces
    have htake : Compiling.takeLoose .colon (c.past t ts) = .ok true ((c.past t ts).past u us) :=
      Compiling.takeLoose_of_rest hrest' hu.kind nofun
    have hfuel : params.length < us.length + 1 := by
      have hlength : us.length = _ := hfaces.length
      rw [hlength, List.length_cons, List.length_append]
      have hle := length_le_paramLexemes .semicolon params
      omega
    obtain ⟨r, hr, hfaces, hread⟩ := Tag.parameters_eq hfaces hfuel
    have hpassed := ((c.past t ts).passes_past hrest').trans hr
    obtain ⟨r', hr', hfaces, hdefine⟩ := hend (hpassed.weaken (Nat.zero_le _)) hfaces
    refine ⟨r', hr', hfaces, ?_⟩
    unfold Tag.define
    rw [run_bind_of_ok (hname _), run_bind_of_ok htake, if_pos rfl]
    exact (run_bind_of_ok hread).trans hdefine

/-- A definition, from its first mark to its body. -/
theorem Tag.start_of_define (ctx : Context) (place : Position) {params : List String}
    (hparams : params.length < 2 ^ 8)
    (hfaces : c.Faces (.mark .dollar :: .mark .leftSquare :: .text name :: (paramLexemes .colon params ++ .mark .rightSquare :: .mark .colon :: rest))) :
    ∃ r r', c.reader.Passes 0 r ∧
      (({ c with reader := r } : Compilation).openBody name params).reader.Passes 0 r' ∧
      ({ c with reader := r' } : Compilation).Faces rest ∧
      ∀ c', ({ tag := ⟨name, .define c.out.position, 1, 1⟩, start := place } : OpenTag).Compiles ctx
          { ({ c with reader := r } : Compilation).openBody name params with reader := r' } c' →
        Reaches ctx c.reader.rest.length ((Construct.tag place).resume ctx c) c' := by
  obtain ⟨t, ts, hrest, ht, hfaces⟩ := hfaces.cons
  obtain ⟨u, us, hrest', hu, hfaces⟩ := hfaces.cons
  obtain ⟨r, hr, hfaces, hdefine⟩ := Tag.define_eq hparams hfaces
  obtain ⟨v, vs, hcolon, hv, hfaces⟩ := hfaces.cons
  have hkind : t.kind = .dollar := ht.kind
  have hblank : t.kind ≠ .blank := by rw [hkind]; nofun
  have hbracket : Compiling.take .leftSquare (c.past t ts) = .ok true ((c.past t ts).past u us) :=
    Compiling.take_of_rest hrest' hu.kind
  have hresolve : Tag.resolve ctx place c = .ok ⟨name, .define c.out.position, 1, 1⟩
      (({ c with reader := r } : Compilation).openBody name params) := by
    unfold Tag.resolve
    rw [run_bind_of_ok (Compiling.readLoose_of_rest hrest hblank)]
    simp only [hkind]
    rw [run_bind_of_ok hbracket, if_pos rfl]
    exact hdefine
  have hrest'' : (({ c with reader := r } : Compilation).openBody name params).reader.rest =
      v :: vs := by
    rw [Compilation.reader_openBody]
    exact hcolon
  have htake : Compiling.takeLoose .colon (({ c with reader := r } : Compilation).openBody name params) =
      .ok true ((({ c with reader := r } : Compilation).openBody name params).past v vs) :=
    Compiling.takeLoose_of_rest hrest'' hv.kind nofun
  have hpassed : c.reader.Passes 0 r :=
    (((c.passes_past hrest).trans ((c.past t ts).passes_past hrest')).trans hr).weaken (Nat.zero_le _)
  refine ⟨r, _, hpassed, (Compilation.passes_past hrest'').weaken (Nat.zero_le _), hfaces,
    fun c' hcompiles => ?_⟩
  change Reaches ctx _ (Tag.start ctx place c) c'
  rw [Tag.start, run_bind_of_ok hresolve, run_bind_of_ok (Compiling.run_tokens _), run_bind_of_ok htake,
    if_pos rfl, hrest'']
  refine (hcompiles _ (Nat.lt_succ_self _)).mono ?_
  have hrest : r.rest = v :: vs := hcolon
  rw [Token.Reader.Passes, hrest, List.length_cons] at hpassed
  exact Nat.le_of_succ_le hpassed

/-! ## Bodies -/

section

variable {env : Environment} {lib : Option Registry} {g : Setting} {before links : List Link}
  {s s' : Scoping} {y : Sense Unit} {n : Nat} {d : Draft}

/-- Behind the body its frame is closed. -/
theorem Inv.perform_define (ctx : Context) {t : OpenTag} {arity m : Nat} {outside : Compilation}
    {d' : Draft} (haction : t.tag.action = .define d.finish)
    (h : Inv lib (g.body d arity outside n) m d' c) :
    t.perform ctx c = .ok ()
      { outside with reader := c.reader, out := (c.out.emit .return).patchHere d.finish } := by
  rw [← h.closeFrame]
  unfold OpenTag.perform
  rw [haction]
  rfl

/-- The body of a subroutine is compiled, and its frame is closed. -/
theorem Written.define (ctx : Context) (place : Position) {p : Procedure}
    (hbody : p.body.Lowers ctx env lib) (hparams : p.params.length < 2 ^ 8)
    (h : Written env lib g before s links y n d c) {r : Token.Reader}
    (hr : (c.openBody p.name p.params).reader.Passes 0 r)
    (hfaces : ({ c with reader := r } : Compilation).Faces
      (p.body.lexemes ++ .mark .rightSquare :: rest))
    (hcheck : p.body.check .argument ⟨p.params, [], p :: s.procedures⟩ = some s') :
    ∃ c', ({ tag := ⟨p.name, .define c.out.position, 1, 1⟩, start := place } : OpenTag).Compiles ctx
        { c.openBody p.name p.params with reader := r } c' ∧ c'.Faces rest ∧
      ∃ code, Written env lib g before { s with procedures := p :: s.procedures }
        (⟨p, d.finish + 5⟩ :: links) y 0 (d.add (.define p.params.length code .nil)) c' := by
  have hposition : c.out.position = d.finish := by
    rw [h.inv.part.position, Line.sizes_nil, Nat.add_zero]
  have hpart := h.inv.part.emit (i := .jump 0) rfl
  have hended := h.inv.part.ended_emit (i := .jump 0) rfl
  have houtside := hpart.withSubroutine p.name hparams
  have haddress : (c.out.emit (.jump 0)).position = d.finish + 5 := by
    rw [hpart.position]
    rfl
  have hknows := (h.knows.move c.reader (c.out.emit (.jump 0))).withSubroutine p
  rw [haddress] at hknows
  have hopened := houtside.openFrame hended hpart.blocks rfl
  have hwritten : Written env lib (g.body d p.params.length _ n) (⟨p, d.finish + 5⟩ :: links)
      ⟨p.params, [], p :: s.procedures⟩ (⟨p, d.finish + 5⟩ :: links) (pure ()) 0
      ⟨d.lines ++ [.plain (.jump 0)], .nil, none⟩ (c.openBody p.name p.params) :=
    ⟨hopened, .start _, hknows.openFrame houtside.slots hparams⟩
  have hstop : Terminator.argument.Meets (.mark .rightSquare :: rest) := rfl
  obtain ⟨d', c₁, links', hadds, hreaches, hfaces, hwritten⟩ :=
    hbody (hwritten.reader hr) hfaces hstop hcheck
  have hfront := hadds.front
  obtain ⟨sep, ts, hrest, hfaces, hfollows⟩ := OpenTag.follows_last ctx
    (t := { tag := ⟨p.name, .define c.out.position, 1, 1⟩, start := place }) rfl (Nat.le_refl 1)
    (Nat.le_refl 1) hfaces
  have hinv : Inv lib _ 0 d' (c₁.past sep ts) :=
    (hwritten.inv.reader (c₁.passes_past hrest)).spare (Nat.zero_le _)
  have hperform := hinv.perform_define ctx
    (t := { tag := ⟨p.name, .define c.out.position, 1, 1⟩, start := place, index := 1 })
    (by rw [hposition])
  have htakes := OpenTag.takes_inline
    (t := { tag := ⟨p.name, .define c.out.position, 1, 1⟩, start := place }) Nat.one_pos rfl hreaches
  have hclosed := Inv.closeBody (by exact hpart.code) houtside hfront hinv
  rw [hinv.closeFrame] at hclosed
  have hmeans := hwritten.means.closed
  have hbase : d'.base = d.finish + 5 := by
    rw [Draft.base, hfront, Line.sizes_append, d.sizes_lines]
    rfl
  rw [pure_bind, hbase, h.knows.procedures] at hmeans
  have hadded := h.means.add (Code.Means.define hmeans)
  rw [bind_pure_unit] at hadded
  exact ⟨_, htakes.compiles (hfollows _ hperform rfl), hfaces, d'.closed, hclosed, hadded,
    hknows.move _ _⟩

end

end Compile

open Compile

theorem Pattern.lowers_define {ctx : Context} {env : Environment} {lib : Option Registry}
    {name : String} {params : List String} {body next : Pattern} (hbody : body.Lowers ctx env lib)
    (hnext : next.Lowers ctx env lib) :
    (Pattern.define name params body next).Lowers ctx env lib := by
  have hlexemes : (Pattern.define name params body next).lexemes = .mark .leftSquare ::
      ((.mark .dollar :: .mark .leftSquare :: .text name ::
        (paramLexemes .colon params ++ .mark .rightSquare :: .mark .colon ::
          (body.lexemes ++ [.mark .rightSquare]))) ++ next.lexemes) := by
    simp [Pattern.lexemes]
  apply lowers_of_child (by rw [isStatic, Bool.false_and]) rfl hlexemes (.inl ⟨rfl, rfl⟩) hnext
  intro stop g before links s s' y d c rest place hcheck hwritten hfaces
  rw [Pattern.check] at hcheck
  split at hcheck
  · rename_i hparams
    obtain ⟨inner, hinner, hcheck⟩ := Option.bind_eq_some_iff.1 hcheck
    simp only [List.append_assoc, List.cons_append, List.nil_append] at hfaces
    obtain ⟨r, r', hr, hr', hfaces, hreaches⟩ := Tag.start_of_define ctx place hparams hfaces
    obtain ⟨c', hcompiles, hfaces, code, hdefined⟩ := (hwritten.reader hr).define ctx place
      (p := ⟨name, params, body⟩) hbody hparams hr' hfaces hinner
    have hdenote : s.denote (.define name params body next) = (do
        pure ()
        Scoping.denote { s with procedures := ⟨name, params, body⟩ :: s.procedures } next) := by
      funext call
      rw [Scoping.denote, Pattern.eval]
      rfl
    have hpure : (do y; pure ()) = y := bind_pure_unit
    rw [← hpure] at hdefined
    exact ⟨_, pure (), d.add _, c', _, hcheck, hdenote, .of_front rfl, hreaches _ hcompiles, hfaces,
      hdefined⟩
  · cases hcheck

end Wordloom
