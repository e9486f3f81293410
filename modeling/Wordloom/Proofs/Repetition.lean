import Wordloom.Proofs.Correctness
import Wordloom.Proofs.RepeatedBlocks
import Wordloom.Proofs.WholeNumbers

/-!
# Wordloom.Proofs.Repetition

Sources that repeat a block: `[rep:n][sep:s]`, a block, and a pattern behind it. The calls and the block
are compiled to code that makes `n` choices with the separator between them; where the items are texts,
the program prints the chosen texts joined by the separator, and then what the rest is evaluated to.
-/

namespace Wordloom

open Compile

/-- What a constant argument is compiled to, for a parameter of this kind. -/
inductive ParamKind.Takes (text : String) : ParamKind → Constant → Prop where
  | number {bits : UInt64} (h : Decimal.bits? (Text.trim text) = some bits) :
    Takes text .number (.number bits)
  | text : Takes text .text (.string text)

namespace Compile

variable {ctx : Context} {lib : Option Registry} {g : Setting} {d : Draft} {n : Nat}
  {c : Compilation} {s s₁ : Scoping} {links : List Link} {first : Pattern} {text name : String}
  {kind : ParamKind} {constant : Constant} {id : Nat} {rest : List Lexeme} {l : Lexeme}

/-! ## Calls with one constant -/

/-- The tag of a function with one parameter. -/
def callTag (name : String) (id : Nat) (kind : ParamKind) : Tag := ⟨name, .native id [kind], 1, 1⟩

theorem takes_of_constant (ctx : Context) (name : String) (id : Nat) (place : Position)
    (hkind : kind.Takes text constant)
    (h : HasOperands lib g d .nil (n + 1) c) (hconstant : first.constant? = some text)
    (hfaces : c.Faces (first.lexemes ++ l :: rest)) (hl : Terminator.argument.endsAt l.kind = true)
    (hcheck : first.check .argument s = some s₁) :
    ∃ r e, ({ tag := callTag name id kind, start := place } : OpenTag).Takes ctx
        { tag := callTag name id kind, start := place } c { c with reader := r, out := e } ∧
      ({ c with reader := r, out := e } : Compilation).Faces (l :: rest) ∧ e.debug = c.out.debug ∧
      HasOperands lib g d (.constant constant .nil) n { c with reader := r, out := e } := by
  cases hkind with
  | number hbits =>
    obtain ⟨-, r, hr, hfaces, htakes⟩ := OpenTag.takes_constant ctx
      (t := { tag := callTag name id .number, start := place }) Nat.one_pos rfl hconstant hfaces hl
      hcheck
    refine ⟨r, c.out.emit (.pushNumber _), htakes _ _ ?_, hfaces, rfl,
      ((h.reader hr).pushNumber _).spare (Nat.le_succ n)⟩
    unfold OpenTag.constantNumber
    simp only [hbits]
    rfl
  | text =>
    obtain ⟨r, huntil, hfaces, hr⟩ :=
      Compiling.constantUntil_of_constant contains_stops hconstant hcheck hl hfaces
    exact ⟨r, c.out.emitString .push text,
      .constant (OpenTag.beginArgument_push Nat.one_pos rfl huntil) hr, hfaces,
      c.out.debug_apply (.emitString .push text), (h.reader hr).pushString text⟩

theorem Inv.marks (h : Inv lib g n d c) (hd : d.pending = none) (place : Position) :
    ∃ mark, Inv lib g n (d.add (.marks mark)) { c with out := c.out.mark place } := by
  unfold Emitter.mark
  split
  · exact ⟨some place, h.act (.mark place) rfl rfl rfl trivial⟩
  · exact ⟨none, by rw [Code.marks, Draft.add_nil hd]; exact h⟩

/-- The lexemes of a call with one argument. -/
def callLexemes (name : String) (first : Pattern) : List Lexeme :=
  .mark .leftSquare :: .text name :: .mark .colon :: (first.lexemes ++ [.mark .rightSquare])

section

variable {routine : List Value → Routine} (hnone : Tag.intrinsic? name = none)
  (hlookup : ctx.registry.lookup? name = some (id, ⟨name, [kind], routine⟩)) (hid : id < 2 ^ 16)
  (hlib : ∀ r ∈ lib, r = ctx.registry) (hkind : kind.Takes text constant)
  (hconstant : first.constant? = some text) (hcheck : first.check .argument s = some s₁)

include hnone hlookup hid hlib hkind hconstant hcheck

/-- A call of a function with a constant is compiled. -/
theorem reaches_call (place : Position) (h : Inv lib g 1 d c)
    (hfaces : c.Faces (.text name :: .mark .colon :: (first.lexemes ++ .mark .rightSquare :: rest))) :
    ∃ r e, Reaches ctx c.reader.rest.length ((Construct.tag place).resume ctx c)
        { c with reader := r, out := e } ∧
      ({ c with reader := r, out := e } : Compilation).Faces rest ∧ e.debug = c.out.debug ∧
      Inv lib g 0 (d.add (.calls constant id)) { c with reader := r, out := e } := by
  have hfaces : c.Faces ([.text name] ++
      ((Arguments.cons first .nil).lexemes .colon ++ .mark .rightSquare :: rest)) := by
    simpa [Arguments.lexemes] using hfaces
  obtain ⟨r, hr, hfaces, hreaches⟩ := Tag.start_of_named ctx place (.function hnone hlookup) hfaces
  obtain ⟨r₁, e, htakes, hfaces, hdebug, hoperands⟩ := takes_of_constant ctx name id place hkind
    ((h.reader hr).operands.spare (by decide : 0 + 1 ≤ 1 + 2)) hconstant hfaces rfl hcheck
  obtain ⟨sep, ts, hrest, hfaces, hfollows⟩ := OpenTag.follows_last ctx
    (t := { tag := callTag name id kind, start := place }) rfl (Nat.le_refl 1) (Nat.le_refl 1) hfaces
  have hprovides : (Operands.constant constant .nil).Provides [kind] := by
    cases hkind <;> trivial
  have hfunction : ∀ r ∈ lib, (∃ f, r.get? id = some f ∧ f.params = [kind]) ∧ id < 2 ^ 16 ∧
      [kind].length < 2 ^ 8 := by
    intro r hr
    obtain rfl := hlib r hr
    exact ⟨⟨_, get?_of_lookup? hlookup, rfl⟩, hid, (by decide : 1 < 2 ^ 8)⟩
  have hpast := hoperands.reader (Compilation.passes_past hrest)
  have hnative := (hpast.native hfunction hprovides).spare (Nat.zero_le _)
  refine ⟨_, e.emit (.nativeCall id.toUInt16 1), ?_, hfaces, hdebug, hnative⟩
  exact hreaches _ (htakes.compiles (hfollows _ rfl rfl))

/-- A call of a function with a constant, in front of what else there is in a pattern. -/
theorem reaches_bracketed (stop : Terminator) (h : Inv lib g 0 d c) (hd : d.pending = none)
    (hfaces : c.Faces (callLexemes name first ++ rest)) :
    ∃ mark r e, ({ c with reader := r, out := e } : Compilation).Faces rest ∧
      e.debug = c.out.debug ∧
      Inv lib g 0 (d.add ((Code.marks mark).append (.calls constant id)))
        { c with reader := r, out := e } ∧
      ∀ c', Reaches ctx r.rest.length ((Construct.pattern stop).resume ctx
          { c with reader := r, out := e }) c' →
        Reaches ctx c.reader.rest.length ((Construct.pattern stop).resume ctx c) c' := by
  simp only [callLexemes, List.cons_append, List.append_assoc, List.nil_append] at hfaces
  obtain ⟨t, ts, hrest, ht, hfaces⟩ := hfaces.cons
  obtain ⟨mark, hmarked⟩ := (h.reader (Compilation.passes_past hrest)).marks hd t.position
  obtain ⟨r, e, hreaches, hfaces, hdebug, hinv⟩ := reaches_call hnone hlookup hid hlib hkind
    hconstant hcheck t.position hmarked hfaces
  rw [Draft.add_add] at hinv
  exact ⟨mark, r, e, hfaces, hdebug.trans (c.out.debug_apply (.mark t.position)), hinv,
    fun c' hreaches' => Pattern.reaches_of_child (.inl ⟨rfl, rfl⟩) hrest ht hreaches hreaches'⟩

end

end Compile

/-! ## Sources -/

/-- A block that is repeated so many times with a separator, and what stands behind it. -/
structure Repetition where
  count : Nat
  separator : Pattern
  items : Items
  next : Pattern

namespace Repetition

variable (r : Repetition)

def lexemes : List Lexeme :=
  callLexemes "rep" (.leaf (.text (toString r.count)) .nil) ++
    (callLexemes "sep" r.separator ++ (Pattern.block r.items r.next).lexemes)

def source : String := String.ofList (Lexeme.spell r.lexemes)

/-- The text of the separator. -/
def between : String := r.separator.constant?.getD ""

/-- What the block stands for: one of the items each time. -/
def repeated : Sense Unit :=
  Sense.repeats r.count r.between do
    let weights ← Scoping.weights {} r.items
    let choice ← (Direct.choose weights : Sense Nat)
    Scoping.choice {} r.items choice

/-- What the source stands for: the block, and then once what is behind it. -/
def denote : Sense Unit := do
  r.repeated
  Scoping.denote ⟨[], [], r.items.known []⟩ r.next

/-- A repetition that can be written and compiled. The separator is a constant. -/
structure Scoped : Prop where
  apart : Lexeme.apart (callLexemes "sep" r.separator ++ (Pattern.block r.items r.next).lexemes) = true
  constant : r.separator.constant?.isSome = true
  argument : (r.separator.check .argument {}).isSome = true
  block : ((Pattern.block r.items r.next).check .root {}).isSome = true

end Repetition

/-- A number can be an argument of any call. -/
theorem Lexeme.apart_call {name : String} {ls : List Lexeme} (hname : name.toList ≠ [])
    (htext : Token.isText name.toList = true) (n : Nat) (h : apart ls = true) :
    apart (callLexemes name (.leaf (.text (toString n)) .nil) ++ ls) = true := by
  obtain ⟨hne, hnumber⟩ := isText_toString n
  rw [Nat.toString_eq_ofList_toDigits, String.toList_ofList] at hne hnumber
  obtain ⟨c, cs, hcs⟩ := List.exists_cons_of_ne_nil hne
  rw [hcs] at hnumber
  have hcolon : c ≠ ':' := by
    rintro rfl
    rw [Token.isText] at hnumber
    cases hnumber
  simp [callLexemes, Pattern.lexemes, apart, spell, endsBefore, chars, Token.Kind.spelling, hcs, h,
    hname, htext, hnumber, hcolon, Token.isSpecial]

/-! ## Compilation -/

namespace Repetition

variable {ctx : Context} {env : Environment} {lib : Option Registry} {r : Repetition} {rep sep : Nat}

theorem Scoped.faces (h : r.Scoped) (ctx : Context) :
    (Compilation.start ctx r.source).Faces r.lexemes := by
  have hapart : Lexeme.apart r.lexemes = true :=
    Lexeme.apart_call (by decide) (by decide) r.count h.apart
  change List.Forall₂ Token.Is (Token.scan r.source) r.lexemes
  rw [Token.scan, source, String.toList_ofList]
  exact Token.forall₂_scanFrom hapart .start

/-- The calls are compiled, and the mark of the block behind them. -/
theorem Scoped.entersBlock (h : r.Scoped) (hrepeats : ctx.registry.Repeats rep sep)
    (hcount : r.count < 2 ^ 53) (hlib : ∀ registry ∈ lib, registry = ctx.registry) :
    ∃ (u : Setup) (c : Compilation), u.Sets ctx.registry r.count r.between ∧
      c.out.debug = ctx.debug ∧ c.Knows {} [] ∧
      Inv lib (.root (.start ctx r.source)) 1 (({} : Draft).add u.code) c ∧
      c.Faces ((r.items.lexemes .pipe).tail ++ .mark .rightCurly :: r.next.lexemes) ∧
      ∀ c₁ c', Reaches ctx c.reader.rest.length (Construct.block.resume ctx c) c₁ →
        Reaches ctx c₁.reader.rest.length ((Construct.pattern .root).resume ctx c₁) c' →
        Reaches ctx (Compilation.start ctx r.source).reader.rest.length
          ((Construct.pattern .root).resume ctx (.start ctx r.source)) c' := by
  obtain ⟨text, htext⟩ := Option.isSome_iff_exists.1 h.constant
  obtain ⟨s₀, hargument⟩ := Option.isSome_iff_exists.1 h.argument
  obtain ⟨s, hblock⟩ := Option.isSome_iff_exists.1 h.block
  obtain ⟨hne, -⟩ := Pattern.check_block hblock
  obtain ⟨hfinite, hneg, hvalue⟩ := Decimal.toNat_nearest hcount
  have hnumber : (Pattern.leaf (.text (toString r.count)) .nil).constant? =
      some (toString r.count) := by
    simp [Pattern.constant?, Lexeme.isConstant, Lexeme.prints, Lexeme.kind, Token.Kind.isPlain]
  obtain ⟨first, reader₁, e₁, hfaces₁, hdebug₁, hinv₁, hreaches₁⟩ := reaches_bracketed (by rfl)
    hrepeats.hasRep hrepeats.rep_lt hlib (.number (Decimal.bits?_toString r.count)) hnumber
    (show _ = some ({} : Scoping) from rfl) .root (inv_start ctx r.source) rfl (h.faces ctx)
  obtain ⟨second, reader₂, e₂, hfaces₂, hdebug₂, hinv₂, hreaches₂⟩ := reaches_bracketed (by rfl)
    hrepeats.hasSep hrepeats.sep_lt hlib .text htext hargument .root hinv₁ rfl hfaces₁
  rw [Pattern.lexemes_block hne, List.append_assoc, List.singleton_append] at hfaces₂
  obtain ⟨t, ts, hrest, ht, hfaces₃⟩ := hfaces₂.cons
  obtain ⟨third, hinv₃⟩ := (hinv₂.reader (Compilation.passes_past hrest)).marks rfl t.position
  rw [Draft.add_add, Draft.add_add, Code.append_assoc, Code.append_assoc] at hinv₃
  refine ⟨⟨rep, sep, _, text, first, second, third⟩, _,
    ⟨hrepeats, ⟨hfinite, hneg, hvalue⟩, by rw [between, htext]; rfl⟩, ?_,
    (knows_start ctx r.source).move _ _, hinv₃, hfaces₃,
    fun c₁ c' hreaches hreaches' => hreaches₁ _ (hreaches₂ _ ?_)⟩
  · exact (e₂.debug_apply (.mark t.position)).trans (hdebug₂.trans hdebug₁)
  · exact Pattern.reaches_of_child (.inr ⟨rfl, rfl⟩) hrest ht hreaches hreaches'

/-- The code of a repetition of texts: the calls, the block, and static code behind it. -/
structure Shaped (r : Repetition) (registry : Registry) (debug : Bool) (code : Code) (u : Setup)
    (index : Nat) (choices : Choices) (tail : Code) : Prop where
  sets : u.Sets registry r.count r.between
  items : choices.isStatic = true
  narrow : debug = false → choices.widest ≤ 5
  next : tail.isStatic = true
  eq : code = (u.code.append (.block index choices .nil)).append tail

/-- A repetition is compiled to code that means it. -/
theorem Scoped.lowers (h : r.Scoped) (hrepeats : ctx.registry.Repeats rep sep)
    (hcount : r.count < 2 ^ 53) (hregistry : env.registry = ctx.registry)
    (hlib : ∀ registry ∈ lib, registry = ctx.registry) (hcapitals : env.options.capitals = .none) :
    ∃ (d : Draft) (c : Compilation) (s : Scoping) (links : List Link), d.front = [] ∧
      Reaches ctx (Compilation.start ctx r.source).reader.rest.length
        ((Construct.pattern .root).resume ctx (.start ctx r.source)) c ∧
      Written env lib (.root (.start ctx r.source)) [] s links r.denote 0 d c ∧
      (r.items.isText = true → r.next.isStatic = true →
        ∃ u index choices tail, r.Shaped ctx.registry ctx.debug d.closed u index choices tail) := by
  obtain ⟨s, hblock⟩ := Option.isSome_iff_exists.1 h.block
  obtain ⟨hne, s₁, hitems, hnext⟩ := Pattern.check_block hblock
  obtain ⟨hextends, hknown⟩ := r.items.check_extends hitems
  have hlowers : r.items.Lowers ctx env lib := r.items.lowers hcapitals
  have hlowers' : r.next.Lowers ctx env lib := r.next.lowers hcapitals
  obtain ⟨u, c, hsets, hdebug, hknows, hinv, hfaces, hreaches⟩ := h.entersBlock hrepeats hcount hlib
  obtain ⟨choices, links, c₁, hreaches₁, hpos, hshapes, hends⟩ := hlowers
    (hinv.openBlock.spare (Nat.zero_le _)) (hknows.move _ _) hne hfaces hitems
  have hmeans : (u.code.append (.block c.out.blocks.size choices .nil)).Means env [] links s₁.locals 0
      r.repeated := by
    refine .repeats (hregistry ▸ hsets) hpos ?_
    have hfinish : (({} : Draft).add u.code).finish = 0 + u.code.size := Draft.finish_add _ _
    rw [← hfinish]
    exact hends.means
  have hdenote : s₁.denote r.next = Scoping.denote ⟨[], [], r.items.known []⟩ r.next := by
    unfold Scoping.denote
    rw [hextends.params, hknown]
  have hwritten : Written env lib (.root (.start ctx r.source)) [] s₁ links r.repeated 0
      (({} : Draft).add (u.code.append (.block c.out.blocks.size choices .nil))) c₁ := by
    have hdraft := Draft.Means.add (d := {}) (.start []) hmeans
    have hinv := hends.inv
    rw [pure_bind] at hdraft
    rw [Draft.add_add] at hinv
    exact ⟨hinv, hdraft, hends.knows⟩
  have hfaces' := hends.faces
  rw [← List.append_nil r.next.lexemes] at hfaces'
  obtain ⟨d, c', links', hadds, hreaches₂, -, hwritten'⟩ := hlowers' hwritten hfaces' rfl hnext
  rw [hdenote] at hwritten'
  refine ⟨d, c', s, links', hadds.front, hreaches _ _ hreaches₁ hreaches₂, hwritten',
    fun htext hstatic => ?_⟩
  obtain ⟨tail, htail, hclosed⟩ := hadds.closed hstatic
  exact ⟨u, c.out.blocks.size, choices, tail, hsets, hshapes.static (Items.isStatic_of_isText htext),
    fun hfalse => hshapes.narrow htext (hdebug.trans hfalse), htail, hclosed⟩

theorem Scoped.compile (h : r.Scoped) (ctx : Context) (lib : Option Registry) (env : Environment)
    (hrepeats : ctx.registry.Repeats rep sep)
    (hcount : r.count < 2 ^ 53) (hlength : r.source.length ≤ 2 ^ 31)
    (hregistry : env.registry = ctx.registry)
    (hlib : ∀ registry ∈ lib, registry = ctx.registry) (hcapitals : env.options.capitals = .none)
    (name : String) :
    (2 ^ 23 < r.source.length ∧
      ∃ position, Compile.compile ctx name r.source = .error ⟨position, oversized⟩) ∨
    ∃ program code links locals, Compile.compile ctx name r.source = .ok program ∧
      (⟨program, code, [], false⟩ : Activation).Loaded lib ∧
      code.Means env [] links locals 0 r.denote ∧
      (r.items.isText = true → r.next.isStatic = true →
        ∃ u index choices tail, r.Shaped ctx.registry ctx.debug code u index choices tail) := by
  obtain ⟨d, c, s, links, hfront, hreaches, hwritten, hshaped⟩ :=
    h.lowers hrepeats hcount hregistry hlib hcapitals
  obtain hoversized | ⟨program, hprogram, hloaded, hmeans⟩ :=
    hwritten.compile hfront hreaches hlength name
  · exact .inl hoversized
  · exact .inr ⟨program, d.closed, links, s.locals, hprogram, hloaded, hmeans, hshaped⟩

/-! ## Evaluation -/

/-- What the evaluation of texts has come to when the block is done: as many texts as the count says,
each of which is chosen by the next random numbers of the seed, with the separator between them. -/
def scene (r : Repetition) (seed : UInt64) : Scene where
  text := r.between.intercalate
    (((Rng.ofSeed seed).picks r.items.odds r.count).1.map (r.items.texts.getD · ""))
  rng := ((Rng.ofSeed seed).picks r.items.odds r.count).2

/-- Behind texts that are repeated, the rest is evaluated once. -/
theorem denote_of_isText (htext : r.items.isText = true) (depth : Nat) (seed : UInt64) :
    r.denote ⟨depth, []⟩ { rng := .ofSeed seed } =
      Interpreter.upTo depth [] {} r.next (r.scene seed) := by
  have hchosen : (do
      let weights ← Scoping.weights {} r.items
      let choice ← (Direct.choose weights : Sense Nat)
      Scoping.choice {} r.items choice : Sense Unit) ⟨depth, []⟩ =
        Direct.printOne r.items.odds r.items.texts := by
    change (r.items.weights _ _ _ >>= fun weights => Direct.choose weights >>= fun choice =>
      r.items.run _ _ _ choice) = _
    rw [Items.weights_of_isText htext, pure_bind]
    exact bind_congr fun choice => Items.run_of_isText choice htext
  have hrepeated : r.repeated ⟨depth, []⟩ { rng := .ofSeed seed } = .ok ((), r.scene seed) := by
    rw [repeated, Sense.repeats, hchosen, Direct.repeats_printOne, String.empty_append]
    rfl
  change (r.repeated ⟨depth, []⟩ >>= fun _ => Scoping.denote _ r.next ⟨depth, []⟩) _ = _
  rw [bind_of_ok hrepeated, Scoping.denote, Items.known_of_isText htext, Interpreter.upTo_apply]

/-! ## Runs -/

section

variable {debug : Bool} {p : Program} {code tail : Code} {u : Setup} {index : Nat} {choices : Choices}

/-- The code of a repetition of texts is run to its end. -/
theorem Shaped.performs (lower : Option Runner)
    (h : r.Shaped env.registry debug code u index choices tail)
    (hloaded : (⟨p, code, [], false⟩ : Activation).Loaded lib) (hfree : env.options.Unlimited)
    (hroom : 0 < env.options.maxStackSize) (w : World) :
    ∃ w', Performs env (9 + (r.count * (choices.widest + 1) + 1) + tail.size)
      (code.run env lower ⟨p, code, [], false⟩ 0) (.start env.options p) 0 p.code.size w w' := by
  obtain ⟨hsets, hitems, -, htail, rfl⟩ := h
  have hfits := Control.fits_start env.options p
    ((u.code.append (.block index choices .nil)).append tail)
  have hmiddle : 0 + (u.code.append (.block index choices .nil)).size =
      0 + u.code.size + 5 + choices.size := by
    simp [Code.size, Nat.add_assoc]
  have hsize : p.code.size = 0 + u.code.size + 5 + choices.size + tail.size := by
    rw [hloaded.reads.size, Code.sizes_lines, Code.size_append, ← hmiddle, Nat.zero_add]
  have hhas := hloaded.reads.has
  rw [Code.lines_append] at hhas
  obtain ⟨hhas, hhasTail⟩ := hhas.split (by rw [Code.sizes_lines])
  rw [Code.lines_append] at hhas
  obtain ⟨hhasSetup, hhasBlock⟩ := hhas.split (by rw [Code.sizes_lines])
  obtain ⟨hsound, hsoundTail⟩ := Code.sound_append.1 hloaded.sound
  obtain ⟨-, hsoundBlock⟩ := Code.sound_append.1 hsound
  have hchoices := hsoundBlock
  rw [Code.Sound] at hchoices
  obtain ⟨w₁, hw₁, hblock⟩ := Code.performs_block lower hfree hitems hloaded.small hhasBlock hsoundBlock
    hfits (fun active => choices.doesItems hfree hitems hloaded.small (Code.has_block hhasBlock).2.1
      hchoices.2.1 (hfits.inBlock active)) { w with repeater := ⟨some r.count, some r.between⟩ }
  obtain ⟨w₂, -, hrest⟩ := tail.does hfree htail hloaded.small hhasTail hsoundTail hfits w₁ hw₁
  have hsetup := hsets.performs lower hfree hfits hroom hhasSetup w
  rw [hmiddle, ← hsize] at hrest
  refine ⟨w₂, ?_⟩
  rw [Code.run_append, Code.run_append, Code.run, Code.run, bind_pure_unit, hmiddle]
  exact (hsetup.bind hblock).bind hrest

/-- There are more steps than it takes, if places are not marked or the count is not too large. -/
theorem Shaped.steps_lt (h : r.Shaped env.registry debug code u index choices tail)
    (hloaded : (⟨p, code, [], false⟩ : Activation).Loaded lib) (hcount : r.count < 2 ^ 53)
    (hmarks : debug = false ∨ r.count < 2 ^ 28) :
    9 + (r.count * (choices.widest + 1) + 1) + tail.size < stepLimit := by
  have hsmall : p.code.size < 2 ^ 31 := hloaded.small
  have hwidest := choices.widest_le_size
  rw [hloaded.reads.size, Code.sizes_lines, h.eq, Code.size_append, Code.size_append, Code.size,
    Code.size] at hsmall
  have hsteps : r.count * (choices.widest + 1) ≤ 2 ^ 59 := by
    obtain hmarks | hmarks := hmarks
    · have hnarrow := h.narrow hmarks
      exact Nat.le_trans (Nat.mul_le_mul (Nat.le_of_lt hcount) (by omega : _ ≤ 2 ^ 6)) (by decide)
    · exact Nat.le_trans (Nat.mul_le_mul (Nat.le_of_lt hmarks) (by omega : _ ≤ 2 ^ 31)) (by decide)
  have hlimit : stepLimit = 2 ^ 60 := rfl
  omega

/-- A run of texts that are repeated ends with what their evaluation comes to. -/
theorem Shaped.outcome {links : List Link} {locals : List String}
    (h : r.Shaped env.registry debug code u index choices tail)
    (hloaded : (⟨p, code, [], false⟩ : Activation).Loaded lib)
    (hmeans : code.Means env [] links locals 0 r.denote) (htext : r.items.isText = true)
    (hcount : r.count < 2 ^ 53) (hfree : env.options.Unlimited)
    (hroom : 0 < env.options.maxStackSize) (hcapitals : env.options.capitals = .none)
    (hformat : env.options.numberFormat = .normal) (seed : UInt64) :
    ∃ scene, Interpreter.upTo 0 [] {} r.next (r.scene seed) = .ok ((), scene) ∧
      (Machine.start env.options p seed).Halts env seed
        (· = .output ⟨seed, [⟨mainChannel, .visible, scene.text⟩]⟩) ∧
      (debug = false ∨ r.count < 2 ^ 28 →
        p.run env seed = .output ⟨seed, [⟨mainChannel, .visible, scene.text⟩]⟩) := by
  obtain ⟨w, hperforms⟩ := h.performs (Runner.below env 0) hloaded hfree hroom (.start env.options seed)
  have hserves : (⟨p, code, [], false⟩ : Activation).Serves env [] locals (placeIn locals) 0 0 :=
    ⟨Nat.le_refl 0, covers_placeIn locals, trivial⟩
  have halike := hmeans.runs hserves (Activation.finds_definitions ⟨p, code, [], false⟩) _ _
    (World.shows_start hcapitals hformat seed _)
  rw [hperforms.eval, denote_of_isText htext] at halike
  obtain ⟨scene, hscene, hshows⟩ := halike
  obtain ⟨hhalts, hrun⟩ := hperforms.outcome
  rw [hshows.out, Writer.finish, Writer.channels_plain] at hhalts hrun
  exact ⟨scene, hscene, hhalts, fun hmarks => hrun (h.steps_lt hloaded hcount hmarks)⟩

end

end Repetition

/-- **A block is run as often as its repeater says.** Behind `[rep:n][sep:s]`, a block of texts is
compiled, unless the code would be too long, as only that of a long source can be. Whatever the seed is,
a run with the default options prints first `n` of the texts, each of which is chosen by weights with the
next random numbers, with `s` between them. What stands behind the block is evaluated from there, once
and without a separator, unless a limit ends the run; and no limit does if it only prints and chooses.
The machine is then given enough steps, but for a large count where every place has a mark. -/
theorem Engine.run_repetition {e : Engine} (hregistry : e.registry.Sound) {rep sep : Nat}
    (hrepeats : e.registry.Repeats rep sep) {r : Repetition} (hr : r.Scoped)
    (htext : r.items.isText = true) (hcount : r.count < 2 ^ 53) (hlength : r.source.length ≤ 2 ^ 31)
    (name : String) (debug : Bool) :
    (2 ^ 23 < r.source.length ∧
      ∃ position, e.compile name r.source debug = .error ⟨position, oversized⟩) ∨
    ∃ program, e.compile name r.source debug = .ok program ∧ ∀ seed : UInt64,
      (∀ depth, ({} : Options).maxCallDepth ≤ depth + 1 →
        (Machine.start {} program seed).Halts (e.environment {}) seed (Outcome.ComesTo seed
          ((Interpreter.upTo depth [] {} r.next (r.scene seed)).map (·.2.text)))) ∧
      (r.next.isStatic = true → ∃ scene,
        Interpreter.upTo 0 [] {} r.next (r.scene seed) = .ok ((), scene) ∧
        (Machine.start {} program seed).Halts (e.environment {}) seed
          (· = .output ⟨seed, [⟨mainChannel, .visible, scene.text⟩]⟩) ∧
        (debug = false ∨ r.count < 2 ^ 28 →
          e.run program seed {} = .output ⟨seed, [⟨mainChannel, .visible, scene.text⟩]⟩)) := by
  have hcompile := hr.compile ⟨debug, e.registry, e.programs⟩ e.registry (e.environment {}) hrepeats
    hcount hlength rfl (fun _ h => (Option.some.inj h).symm) rfl name
  obtain hoversized | ⟨program, code, links, locals, hprogram, hloaded, hmeans, hshaped⟩ := hcompile
  · exact .inl hoversized
  refine .inr ⟨program, hprogram, fun seed => ⟨fun depth hdepth => ?_, fun hstatic => ?_⟩⟩
  · have halike := hmeans.alike_result rfl rfl hdepth program seed
    rw [Repetition.denote_of_isText htext] at halike
    exact (Program.halts hregistry hloaded seed).mono fun _ hagrees => hagrees.comesTo halike
  · obtain ⟨u, index, choices, tail, hshaped⟩ := hshaped htext hstatic
    exact hshaped.outcome hloaded hmeans htext hcount ⟨rfl, rfl⟩
      (by decide : 0 < ({} : Options).maxStackSize) rfl rfl seed

/-- Three times one of two texts, and then another block. -/
def Repetition.threeTimes : Repetition where
  count := 3
  separator := .leaf (.literal ", ") .nil
  items := .weighted (.leaf (.text "2") .nil) (.leaf (.text "ab") .nil)
    (.plain (.leaf (.text "c") .nil) .nil)
  next := .block (.plain (.leaf (.text "x") .nil) (.plain (.leaf (.text "y") .nil) .nil)) .nil

theorem Engine.run_repetition_threeTimes :
    Repetition.threeTimes.source = "[rep:3][sep:\", \"]\x7b*2*ab|c\x7d\x7bx|y\x7d" ∧
    ∃ program, ({} : Engine).compile "main" Repetition.threeTimes.source false = .ok program ∧
      ({} : Engine).run program 7 {} = .output ⟨7, [⟨mainChannel, .visible, "ab, ab, cy"⟩]⟩ := by
  have hlength : Repetition.threeTimes.source.length ≤ 2 ^ 23 := by decide +kernel
  have hscoped : Repetition.threeTimes.Scoped :=
    ⟨by decide +kernel, by decide +kernel, by decide +kernel, by decide +kernel⟩
  have htext : ((Interpreter.upTo 0 [] {} Repetition.threeTimes.next
      (Repetition.threeTimes.scene 7)).map (·.2.text)).toOption = some "ab, ab, cy" := by decide +kernel
  have hrepeats : ({} : Engine).registry.Repeats 0 1 := ⟨rfl, rfl, by decide, by decide⟩
  refine ⟨by decide +kernel, ?_⟩
  obtain ⟨hlong, -⟩ | ⟨program, hprogram, hruns⟩ := run_repetition (e := {}) Standard.sound_registry
    hrepeats hscoped (by decide) (by decide) (Nat.le_trans hlength (by decide)) "main" false
  · exact absurd hlength (Nat.not_le.2 hlong)
  · obtain ⟨scene, hscene, -, hrun⟩ := (hruns 7).2 (by decide +kernel)
    rw [hscene] at htext
    have hprinted : scene.text = "ab, ab, cy" := Option.some.inj htext
    exact ⟨program, hprogram, by rw [hrun (.inl rfl), hprinted]⟩

end Wordloom
