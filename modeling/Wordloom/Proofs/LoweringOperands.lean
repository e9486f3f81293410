import Wordloom.Proofs.Lowering

/-!
# Wordloom.Proofs.LoweringOperands

Arguments of tags that are known to compile. An argument that is constant is compiled at once, another
one is captured; either way its value is that of its evaluation. A number that is held back counts as
an operand, which is pushed when it cannot be computed with.
-/

namespace Wordloom

theorem Operands.append_nil : ∀ os : Operands, os.append .nil = os
  | .nil => rfl
  | .constant _ next | .capture _ _ next | .pointer _ next => by
    rw [Operands.append, next.append_nil]

/-- One more value behind those that there are. -/
def Sense.snoc (ys : Sense (List Value)) (z : Sense Value) :
    Sense (List Value) := do
  let values ← ys
  return values ++ [← z]

namespace Compile

variable {ctx : Context} {c c₁ c' : Compilation} {t t₁ : OpenTag}

/-! ## Arguments one after the other -/

namespace OpenTag

/-- An argument is compiled, which makes the tag into `t₁`. -/
inductive Takes (ctx : Context) (t t₁ : OpenTag) (c c₁ : Compilation) : Prop where
  | constant (h : t.beginArgument c = .ok (t₁, none) c₁)
    (hle : c₁.reader.rest.length ≤ c.reader.rest.length)
  | pattern {after : After} {c₀ c₂ : Compilation} (h : t.beginArgument c = .ok (t₁, some after) c₀)
    (hreaches : Reaches ctx c.reader.rest.length ((Construct.pattern .argument).resume ctx c₀) c₂)
    (hafter : afterArgument after c₂ = .ok () c₁)
    (hlength : c₁.reader.rest.length = c₂.reader.rest.length)

/-- The arguments from here on are compiled, and the tag is complete. -/
def Compiles (ctx : Context) (t : OpenTag) (c c' : Compilation) : Prop :=
  ∀ tokens : List Token, c.reader.rest.length < tokens.length →
    Reaches ctx c.reader.rest.length (t.arguments ctx tokens c) c'

/-- What follows an argument: the end of the tag, or the other arguments. -/
inductive Follows (ctx : Context) (t : OpenTag) (c c' : Compilation) : Prop where
  | last (h : t.endArgument ctx c = .ok none c') (hlt : c'.reader.rest.length < c.reader.rest.length)
  | next {t' : OpenTag} {c₁ : Compilation} (h : t.endArgument ctx c = .ok (some t') c₁)
    (hlt : c₁.reader.rest.length < c.reader.rest.length) (hnext : t'.Compiles ctx c₁ c')

theorem Takes.compiles (h : t.Takes ctx t₁ c c₁) (hfollows : t₁.Follows ctx c₁ c') :
    t.Compiles ctx c c' := by
  intro tokens htokens
  obtain ⟨_, tokens, rfl⟩ := List.exists_cons_of_length_pos (Nat.zero_lt_of_lt htokens)
  rw [List.length_cons] at htokens
  rw [arguments]
  cases h with
  | constant h hle =>
    rw [run_bind_of_ok h]
    cases hfollows with
    | last h hlt =>
      simp only
      rw [run_bind_of_ok h]
      exact .done (by omega)
    | next h hlt hnext =>
      simp only
      rw [run_bind_of_ok h]
      exact (hnext tokens (by omega)).mono (by omega)
  | pattern h hreaches hafter hlength =>
    rw [run_bind_of_ok h]
    cases hfollows with
    | last h hlt =>
      refine .push_of_lt hreaches (hlength ▸ hlt) ?_
      change Reaches ctx _ (t₁.resume ctx _ _) c'
      rw [resume, run_bind_of_ok hafter, run_bind_of_ok (Compiling.run_tokens _), run_bind_of_ok h]
      exact .done (Nat.le_refl _)
    | next h hlt hnext =>
      refine .push_of_lt hreaches (hlength ▸ hlt) ?_
      change Reaches ctx _ (t₁.resume ctx _ _) c'
      rw [resume, run_bind_of_ok hafter, run_bind_of_ok (Compiling.run_tokens _), run_bind_of_ok h]
      exact hnext _ hlt

theorem endArgument_of_more {sep : Token} {ts : List Token} (hrest : c.reader.rest = sep :: ts)
    (hsep : sep.kind = .semicolon) (h : t.betweenArguments true (c.past sep ts) = .ok t₁ c₁) :
    t.endArgument ctx c = .ok (some { t₁ with index := t₁.index + 1 }) c₁ := by
  unfold endArgument
  rw [run_bind_of_ok (Compiling.read_of_rest hrest)]
  simp only [hsep, decide_true]
  rw [run_bind_of_ok h]
  rfl

theorem endArgument_of_last {sep : Token} {ts : List Token} (hrest : c.reader.rest = sep :: ts)
    (hsep : sep.kind = .rightSquare) (h : t.betweenArguments false (c.past sep ts) = .ok t₁ c₁)
    (hfinish : ({ t₁ with index := t₁.index + 1 } : OpenTag).finish ctx c₁ = .ok () c') :
    t.endArgument ctx c = .ok none c' := by
  have hmore : decide (Token.Kind.rightSquare = .semicolon) = false := rfl
  unfold endArgument
  rw [run_bind_of_ok (Compiling.read_of_rest hrest)]
  simp only [hsep, hmore]
  rw [run_bind_of_ok h]
  exact run_bind_of_ok hfinish

/-- A tag that has the right number of arguments does what it does. -/
theorem finish_of_count (hmin : t.tag.min ≤ t.index) (hmax : t.index ≤ t.tag.max) :
    t.finish ctx = t.perform ctx := by
  unfold finish
  have hcount : (decide (t.index < t.tag.min) || decide (t.tag.max < t.index)) = false := by
    rw [Bool.or_eq_false_iff, decide_eq_false_iff_not, decide_eq_false_iff_not]
    omega
  rw [hcount]
  rfl

end OpenTag

/-! ## Operands -/

/-- The operand for a number that is held back. -/
def held : Option UInt64 → Operands
  | none => .nil
  | some bits => .constant (.number bits) .nil

section

variable {env : Environment} {lib : Option Registry} {g : Setting} {d : Draft}
  {known links : List Link} {deferred : Option UInt64} {s s₁ : Scoping} {os : Operands}
  {ys : Sense (List Value)} {n : Nat} {first : Pattern} {l : Lexeme} {rest : List Lexeme}

/-- The operands of a tag so far, with their code behind a draft and what they mean; `known` are the
subroutines in front of the tag. -/
structure Operated (env : Environment) (lib : Option Registry) (g : Setting) (d : Draft)
    (known : List Link) (deferred : Option UInt64) (s : Scoping) (links : List Link) (os : Operands)
    (ys : Sense (List Value)) (n : Nat) (c : Compilation) : Prop where
  code : HasOperands lib g d os n c
  means : (os.append (held deferred)).Means env known links s.locals d.finish ys
  knows : c.Knows s links

theorem Written.operands {before : List Link} {y : Sense Unit}
    (h : Written env lib g before s links y n d c) :
    Operated env lib g d links none s links .nil (pure []) n c :=
  ⟨h.inv.operands, .nil, h.knows⟩

namespace Operated

theorem reader (h : Operated env lib g d known deferred s links os ys n c) {k : Nat}
    {r : Token.Reader} (hr : c.reader.Passes k r) :
    Operated env lib g d known deferred s links os ys (n + k) { c with reader := r } :=
  ⟨h.code.reader hr, h.means, h.knows.move _ _⟩

theorem past (h : Operated env lib g d known deferred s links os ys n c) {t : Token}
    {ts : List Token} (hrest : c.reader.rest = t :: ts) :
    Operated env lib g d known deferred s links os ys (n + 1) (c.past t ts) :=
  h.reader (c.passes_past hrest)

theorem spare (h : Operated env lib g d known deferred s links os ys n c) {k : Nat} (hk : k ≤ n) :
    Operated env lib g d known deferred s links os ys k c := ⟨h.code.spare hk, h.means, h.knows⟩

/-- A constant is pushed. -/
theorem push {constant : Constant} {e : Emitter} {k : Nat}
    (h : Operated env lib g d known none s links os ys n c)
    (hcode : HasOperands lib g d (os.append (.constant constant .nil)) k { c with out := e }) :
    Operated env lib g d known none s links (os.append (.constant constant .nil))
      (Sense.snoc ys (pure constant.value)) k { c with out := e } := by
  have hmeans := h.means
  rw [held, Operands.append_nil] at hmeans
  refine ⟨hcode, ?_, h.knows.move _ _⟩
  rw [held, Operands.append_nil]
  exact hmeans.append (.constant constant)

/-- The number that was held back is pushed. -/
theorem release (h : Operated env lib g d known t.deferred s links os ys n c) :
    ∃ (os' : Operands) (e : Emitter),
      t.pushDeferred c = .ok { t with deferred := none } { c with out := e } ∧
      os' = os.append (held t.deferred) ∧
      Operated env lib g d known none s links os' ys n { c with out := e } := by
  have hmeans := h.means
  unfold OpenTag.pushDeferred
  cases hdeferred : t.deferred with
  | none =>
    rw [hdeferred] at hmeans
    exact ⟨_, c.out, rfl, rfl, by rw [held, Operands.append_nil]; exact h.code, by
      rw [held, Operands.append_nil]; exact hmeans, h.knows⟩
  | some bits =>
    rw [hdeferred] at hmeans
    exact ⟨_, _, rfl, rfl, h.code.pushNumber bits, by
      rw [held, Operands.append_nil]; exact hmeans, h.knows.move _ _⟩

/-- What an argument prints is captured. -/
theorem capture (hcapitals : env.options.capitals = .none) (hfirst : first.Lowers ctx env lib)
    (numeric : Bool) (h : Operated env lib g d known none s links os ys n c)
    (hfaces : c.Faces (first.lexemes ++ l :: rest)) (hl : Terminator.argument.endsAt l.kind = true)
    (hcheck : first.check .argument s = some s₁) :
    ∃ (code : Code) (c₁ c₂ : Compilation) (links₁ : List Link),
      Reaches ctx c.reader.rest.length ((Construct.pattern .argument).resume ctx
        { c with out := c.out.emit .newOutput }) c₁ ∧
      OpenTag.afterArgument (if numeric then .captureNumber else .capture) c₁ = .ok () c₂ ∧
      c₂.reader = c₁.reader ∧ c₂.Faces (l :: rest) ∧
      Operated env lib g d known none s₁ links₁ (os.append (.capture numeric code .nil))
        (ys.snoc (do return capturedValue numeric (← (s.denote first).capture))) 0 c₂ := by
  have hpart := (Part.emit h.code (i := .newOutput) rfl).spare (Nat.zero_le n)
  have hended := Part.ended_emit h.code (i := .newOutput) rfl
  have hoffset : d.finish + Line.sizes (os.lines d.finish ++ [.plain .newOutput]) =
      d.finish + os.size + 1 := by
    rw [Line.sizes_append, Operands.sizes_lines, ← Nat.add_assoc]
    rfl
  obtain ⟨code, c₁, links₁, -, hreaches, hfaces', hknows, hmeans, hpart⟩ :=
    hfirst.inside .argument hpart hended (fun _ _ hs hS => Operands.Sound.mono hs.le hS) (h.knows.move _ _)
      hfaces hl hcheck
  rw [hoffset] at hmeans hpart
  have hoperands := h.means
  rw [held, Operands.append_nil] at hoperands
  obtain ⟨hextends, -⟩ := first.check_extends hcheck
  have hvalues : ((os.append (.capture numeric code .nil)).append (held none)).Means env known links₁
      s₁.locals d.finish (ys.snoc (do return capturedValue numeric (← (s.denote first).capture))) := by
    have hcapture : (Operands.capture numeric code .nil).Means env links links₁ s₁.locals
        (d.finish + os.size) (do return [capturedValue numeric (← (s.denote first).capture)]) :=
      .capture hcapitals hmeans
    rw [held, Operands.append_nil]
    simpa [Sense.snoc] using (hoperands.extend hextends.locals).append hcapture
  cases numeric with
  | false =>
    exact ⟨code, c₁, _, links₁, hreaches, rfl, rfl, hfaces', .capture (hpart.emit rfl), hvalues,
      hknows.move _ _⟩
  | true =>
    have hpart := (hpart.emit (i := .returnOutput) rfl).emit (i := .toNumber) rfl
    rw [List.append_assoc] at hpart
    exact ⟨code, c₁, _, links₁, hreaches, rfl, rfl, hfaces', .capture hpart, hvalues,
      hknows.move _ _⟩

end Operated

/-! ### Values -/

theorem contains_stops (kind : Token.Kind) :
    [Token.Kind.semicolon, .rightSquare].contains kind = Terminator.argument.endsAt kind := by
  cases kind <;> rfl

namespace Operated

/-- An argument whose text is an operand. -/
theorem takes_captured (hcapitals : env.options.capitals = .none) (hfirst : first.Lowers ctx env lib)
    (h : Operated env lib g d known none s links os ys 1 c) (hmax : t.index < t.tag.max)
    (hmode : t.tag.mode t.index = .captured) (hfaces : c.Faces (first.lexemes ++ l :: rest))
    (hl : Terminator.argument.endsAt l.kind = true) (hcheck : first.check .argument s = some s₁) :
    ∃ (o : Operands) (c₁ : Compilation) (links₁ : List Link), t.Takes ctx t c c₁ ∧
      c₁.Faces (l :: rest) ∧ o.length = 1 ∧
      Operated env lib g d known none s₁ links₁ (os.append o)
        (ys.snoc (do return capturedValue false (← (s.denote first).capture))) 0 c₁ := by
  cases hconstant : first.constant? with
  | some text =>
    obtain rfl := Pattern.check_of_constant hconstant hcheck
    obtain ⟨r, huntil, hfaces, hr⟩ :=
      Compiling.constantUntil_of_constant contains_stops hconstant hcheck hl hfaces
    have hread := h.reader hr
    refine ⟨.constant (.string text) .nil,
      { c with reader := r, out := c.out.emitString .push text }, links,
      .constant (OpenTag.beginArgument_push hmax hmode huntil) hr, hfaces, rfl, ?_⟩
    rw [Pattern.capture_denote hconstant, pure_bind]
    exact hread.push (hread.code.pushString text)
  | none =>
    have huntil := Compiling.constantUntil_of_none contains_stops hconstant hcheck hfaces
    obtain ⟨code, c₁, c₂, links₁, hreaches, hafter, hreader, hfaces, hoperated⟩ :=
      h.capture hcapitals hfirst false hfaces hl hcheck
    have hbegin := OpenTag.beginArgument_capture hmax hmode huntil
    exact ⟨_, c₂, links₁, .pattern hbegin hreaches hafter (by rw [hreader]), hfaces, rfl, hoperated⟩

/-- The number that a text spells is pushed, behind the one that was held back. -/
theorem pushes_number (h : Operated env lib g d known t.deferred s links os ys 1 c) (text : String)
    (hnumber : ∀ bits, Decimal.bits? (Text.trim text) = some bits → t.constantNumber text = (do
      let t ← t.pushDeferred
      Compiling.emit (.pushNumber bits)
      return t)) :
    ∃ (o : Operands) (e : Emitter),
      t.constantNumber text c = .ok { t with deferred := none } { c with out := e } ∧
      o.length = 1 ∧
      Operated env lib g d known none s links ((os.append (held t.deferred)).append o)
        (ys.snoc (pure (capturedValue true text))) 0 { c with out := e } := by
  obtain ⟨_, e, hrelease, rfl, hreleased⟩ := h.release
  cases hbits : Decimal.bits? (Text.trim text) with
  | none =>
    have hvalue : capturedValue true text = (Constant.spelled text).value := if_pos rfl
    refine ⟨.constant (.spelled text) .nil, (e.emitString .push text).emit .toNumber, ?_, rfl, ?_⟩
    · unfold OpenTag.constantNumber
      simp only [hbits]
      rw [run_bind_of_ok hrelease]
      rfl
    · rw [hvalue]
      exact hreleased.push (hreleased.code.pushSpelled text)
  | some bits =>
    refine ⟨.constant (.number bits) .nil, e.emit (.pushNumber bits), ?_, rfl, ?_⟩
    · rw [hnumber bits hbits, run_bind_of_ok hrelease]
      rfl
    · rw [capturedValue_of_bits hbits]
      exact hreleased.push ((hreleased.code.pushNumber bits).spare (Nat.zero_le 1))

end Operated

theorem OpenTag.beginArgument_number (hmax : t.index < t.tag.max)
    (hmode : t.tag.mode t.index = .number) : t.beginArgument = (do
      match ← Compiling.constantUntil [.semicolon, .rightSquare] with
      | some text => return (← t.constantNumber text, none)
      | none =>
        let t ← t.pushDeferred
        Compiling.emit .newOutput
        return (t, some .captureNumber)) := by
  unfold OpenTag.beginArgument
  rw [if_neg (Nat.not_le_of_lt hmax)]
  generalize t.tag.mode t.index = mode at hmode
  subst hmode
  rfl

/-- A constant that is to be a number is read. -/
theorem OpenTag.takes_constant (ctx : Context) (hmax : t.index < t.tag.max)
    (hmode : t.tag.mode t.index = .number) {text : String} (hconstant : first.constant? = some text)
    (hfaces : c.Faces (first.lexemes ++ l :: rest)) (hl : Terminator.argument.endsAt l.kind = true)
    (hcheck : first.check .argument s = some s₁) :
    s₁ = s ∧ ∃ r, c.reader.Passes 0 r ∧ ({ c with reader := r } : Compilation).Faces (l :: rest) ∧
      ∀ t₁ e, t.constantNumber text { c with reader := r } = .ok t₁ { c with reader := r, out := e } →
        t.Takes ctx t₁ c { c with reader := r, out := e } := by
  obtain ⟨r, huntil, hfaces, hr⟩ :=
    Compiling.constantUntil_of_constant contains_stops hconstant hcheck hl hfaces
  refine ⟨Pattern.check_of_constant hconstant hcheck, r, hr, hfaces, fun t₁ e hnumber => ?_⟩
  refine .constant ?_ hr
  rw [beginArgument_number hmax hmode, run_bind_of_ok huntil]
  exact run_bind_of_ok hnumber

namespace Operated

/-- An argument whose number is an operand. -/
theorem takes_number (hcapitals : env.options.capitals = .none) (hfirst : first.Lowers ctx env lib)
    (h : Operated env lib g d known t.deferred s links os ys 1 c) (hmax : t.index < t.tag.max)
    (hmode : t.tag.mode t.index = .number)
    (hnumber : ∀ text, first.constant? = some text → ∀ bits,
      Decimal.bits? (Text.trim text) = some bits → t.constantNumber text = (do
        let t ← t.pushDeferred
        Compiling.emit (.pushNumber bits)
        return t))
    (hfaces : c.Faces (first.lexemes ++ l :: rest))
    (hl : Terminator.argument.endsAt l.kind = true) (hcheck : first.check .argument s = some s₁) :
    ∃ (o : Operands) (c₁ : Compilation) (links₁ : List Link),
      t.Takes ctx { t with deferred := none } c c₁ ∧ c₁.Faces (l :: rest) ∧ o.length = 1 ∧
      Operated env lib g d known none s₁ links₁ ((os.append (held t.deferred)).append o)
        (ys.snoc (do return capturedValue true (← (s.denote first).capture))) 0 c₁ := by
  cases hconstant : first.constant? with
  | some text =>
    obtain ⟨rfl, r, hr, hfaces, htakes⟩ :=
      OpenTag.takes_constant ctx hmax hmode hconstant hfaces hl hcheck
    obtain ⟨o, e, hpushed, ho, hoperated⟩ := (h.reader hr).pushes_number text (hnumber text hconstant)
    refine ⟨o, { c with reader := r, out := e }, links, htakes _ e hpushed, hfaces, ho, ?_⟩
    rw [Pattern.capture_denote hconstant, pure_bind]
    exact hoperated
  | none =>
    have huntil := Compiling.constantUntil_of_none contains_stops hconstant hcheck hfaces
    obtain ⟨_, e, hrelease, rfl, hreleased⟩ := h.release
    obtain ⟨code, c₁, c₂, links₁, hreaches, hafter, hreader, hfaces, hoperated⟩ :=
      hreleased.capture hcapitals hfirst true hfaces hl hcheck
    have hbegin : t.beginArgument c = .ok ({ t with deferred := none }, some .captureNumber)
        { c with out := e.emit .newOutput } := by
      rw [OpenTag.beginArgument_number hmax hmode, run_bind_of_ok huntil]
      exact run_bind_of_ok hrelease
    exact ⟨_, c₂, links₁, .pattern hbegin hreaches hafter (by rw [hreader]), hfaces, rfl, hoperated⟩

/-- An argument that spells a name. -/
theorem takes_name (ctx : Context) (h : Operated env lib g d known deferred s links os ys n c)
    (hmax : t.index < t.tag.max) (hmode : t.tag.mode t.index = .name) {name : String}
    (hname : first.name? = some name) (hfaces : c.Faces (first.lexemes ++ l :: rest))
    (hl : Terminator.argument.endsAt l.kind = true) (hcheck : first.check .argument s = some s₁) :
    s₁ = s ∧ ∃ c₁, t.Takes ctx { t with names := t.names ++ [name] } c c₁ ∧ c₁.Faces (l :: rest) ∧
      Operated env lib g d known deferred s links os ys n c₁ := by
  obtain ⟨text, hconstant, rfl⟩ := Option.map_eq_some_iff.1 hname
  obtain ⟨r, huntil, hfaces, hr⟩ :=
    Compiling.constantUntil_of_constant contains_stops hconstant hcheck hl hfaces
  refine ⟨Pattern.check_of_constant hconstant hcheck, { c with reader := r }, .constant ?_ hr,
    hfaces, h.reader hr⟩
  unfold OpenTag.beginArgument
  rw [if_neg (Nat.not_le_of_lt hmax)]
  simp only [hmode]
  change (Compiling.constantUntil [.semicolon, .rightSquare] >>= _) c = _
  rw [run_bind_of_ok huntil]
  rfl

end Operated

end

end Compile

/-! ## All arguments -/

/-- The values of some arguments where these names are known. -/
def Scoping.values (s : Scoping) (numeric : Bool) (args : Arguments) (skip count : Nat) :
    Sense (List Value) := fun call =>
  args.values (Interpreter.below call.depth) ⟨s.params, call.args⟩ s.procedures numeric skip count

section

variable {s s₁ : Scoping} {first : Pattern} {more : Arguments}

theorem Scoping.values_eq (hparams : s₁.params = s.params) {known : List Procedure}
    (hknown : s₁.procedures = known) {numeric : Bool} :
    s₁.values numeric more = fun skip count call => more.values (Interpreter.below call.depth)
      ⟨s.params, call.args⟩ known numeric skip count := by
  subst hknown
  funext skip count call
  rw [Scoping.values, hparams]

theorem Scoping.values_cons (hparams : s₁.params = s.params)
    (hknown : s₁.procedures = first.known s.procedures) (numeric : Bool) (count : Nat) :
    s.values numeric (.cons first more) 0 (count + 1) =
      (do
        let text ← (s.denote first).capture
        let values ← s₁.values numeric more 0 count
        return capturedValue numeric text :: values) := by
  rw [Scoping.values_eq hparams hknown]
  funext call
  rw [Scoping.values, Arguments.values]
  rfl

theorem Scoping.values_zero (s : Scoping) (numeric : Bool) (args : Arguments) :
    s.values numeric args 0 0 = pure [] := by
  funext call
  cases args <;> (rw [Scoping.values, Arguments.values]; rfl)

/-- A name in front of the operands is no operand. -/
theorem Scoping.values_succ {x : String} (hname : first.name? = some x) (numeric : Bool)
    (skip count : Nat) :
    s.values numeric (.cons first more) (skip + 1) count = s.values numeric more skip count := by
  obtain ⟨text, hconstant, -⟩ := Option.map_eq_some_iff.1 hname
  funext call
  rw [Scoping.values, Arguments.values, Pattern.known_of_constant hconstant]
  rfl

end

open Compile

/-- Each of the arguments is compiled. -/
def Arguments.Lowers (ctx : Context) (env : Environment) (lib : Option Registry) : Arguments → Prop
  | .nil => True
  | .cons first more => first.Lowers ctx env lib ∧ more.Lowers ctx env lib

namespace Arguments

variable {first second : Pattern} {more : Arguments} {s s' : Scoping}

theorem check_cons : (cons first more).check s = some s' ↔
    ∃ s₁, first.check .argument s = some s₁ ∧ more.check s₁ = some s' := by
  rw [check]
  exact Option.bind_eq_some_iff

theorem check_one : (cons first nil).check s = some s' ↔ first.check .argument s = some s' := by
  simp [check]

theorem check_two : (cons first (cons second nil)).check s = some s' ↔
    ∃ s₁, first.check .argument s = some s₁ ∧ second.check .argument s₁ = some s' := by
  rw [check_cons]
  simp only [check_one]

/-- Behind an argument comes a semicolon. -/
theorem lexemes_more (rest : List Lexeme) :
    (cons second more).lexemes .semicolon ++ rest =
      .mark .semicolon :: (second.lexemes ++ (more.lexemes .semicolon ++ rest)) := by
  simp [lexemes]

end Arguments

namespace Compile

variable {ctx : Context} {c c₁ c' : Compilation} {t : OpenTag} {env : Environment}
  {lib : Option Registry} {g : Setting} {d : Draft} {known links : List Link} {s s' : Scoping}
  {os : Operands} {ys : Sense (List Value)} {first : Pattern} {more : Arguments}
  {rest : List Lexeme}

/-- A tag goes on behind a semicolon. -/
theorem OpenTag.follows_next (ctx : Context) (hcompared : t.tag.action.compared? = none)
    (hfaces : c.Faces (.mark .semicolon :: rest)) :
    ∃ sep ts, c.reader.rest = sep :: ts ∧ (c.past sep ts).Faces rest ∧
      ∀ c', ({ t with index := t.index + 1 } : OpenTag).Compiles ctx (c.past sep ts) c' →
        t.Follows ctx c c' := by
  obtain ⟨sep, ts, hrest, hsep, hfaces⟩ := hfaces.cons
  refine ⟨sep, ts, hrest, hfaces, fun c' hcompiles => .next ?_ ?_ hcompiles⟩
  · exact endArgument_of_semicolon (betweenArguments_of_none hcompared true) hrest hsep.kind
  · rw [hrest]
    exact Nat.lt_succ_self _

/-- A tag ends at its bracket. -/
theorem OpenTag.follows_last (ctx : Context) (hcompared : t.tag.action.compared? = none)
    (hmin : t.tag.min ≤ t.index + 1) (hmax : t.index + 1 ≤ t.tag.max)
    (hfaces : c.Faces (.mark .rightSquare :: rest)) :
    ∃ sep ts, c.reader.rest = sep :: ts ∧ (c.past sep ts).Faces rest ∧
      ∀ c', ({ t with index := t.index + 1 } : OpenTag).perform ctx (c.past sep ts) = .ok () c' →
        c'.reader = (c.past sep ts).reader → t.Follows ctx c c' := by
  obtain ⟨sep, ts, hrest, hsep, hfaces⟩ := hfaces.cons
  refine ⟨sep, ts, hrest, hfaces, fun c' hperform hreader => .last ?_ ?_⟩
  · refine endArgument_of_last hrest hsep.kind
      (congrFun (betweenArguments_of_none hcompared false) _) ?_
    rw [finish_of_count hmin hmax]
    exact hperform
  · rw [hreader, hrest]
    exact Nat.lt_succ_self _

/-- Arguments that are all operands, up to the bracket. -/
theorem Operated.gathers (hcapitals : env.options.capitals = .none) {tag : Tag}
    (hcompared : tag.action.compared? = none) (hmode : ∀ i, tag.mode i = .captured) :
    ∀ {more : Arguments} {first : Pattern} {t : OpenTag} {os : Operands}
      {ys : Sense (List Value)} {s : Scoping} {links : List Link} {c : Compilation},
    first.Lowers ctx env lib → more.Lowers ctx env lib → t.tag = tag →
    t.index + more.length < tag.max → Operated env lib g d known none s links os ys 1 c →
    c.Faces (first.lexemes ++ (more.lexemes .semicolon ++ .mark .rightSquare :: rest)) →
    (Arguments.cons first more).check s = some s' →
    ∃ (os' : Operands) (links' : List Link) (c₁ : Compilation),
      c₁.Faces (.mark .rightSquare :: rest) ∧ os'.length = os.length + (more.length + 1) ∧
      Operated env lib g d known none s' links' os' (do
        let values ← ys
        let others ← s.values false (.cons first more) 0 (more.length + 1)
        return values ++ others) 0 c₁ ∧
      ∀ c', ({ t with index := t.index + more.length } : OpenTag).Follows ctx c₁ c' →
        t.Compiles ctx c c'
  | .nil, first, t, os, ys, s, links, c, hfirst, _, htag, hmax, h, hfaces, hcheck => by
    subst htag
    rw [Arguments.check_one] at hcheck
    obtain ⟨hextends, hknown⟩ := first.check_extends hcheck
    obtain ⟨o, c₁, links₁, htakes, hfaces, ho, hoperated⟩ :=
      h.takes_captured hcapitals hfirst hmax (hmode _) hfaces rfl hcheck
    refine ⟨os.append o, links₁, c₁, hfaces, ?_, ?_, fun c' hfollows => htakes.compiles hfollows⟩
    · rw [Operands.length_append, ho]
      rfl
    · rw [Scoping.values_cons hextends.params hknown, Arguments.length, Scoping.values_zero]
      simpa [Sense.snoc] using hoperated
  | .cons second more, first, t, os, ys, s, links, c, hfirst, hmore, htag, hmax, h, hfaces, hcheck => by
    subst htag
    obtain ⟨s₁, hcheck, hcheck'⟩ := Arguments.check_cons.1 hcheck
    obtain ⟨hextends, hknown⟩ := first.check_extends hcheck
    rw [Arguments.length] at hmax
    rw [Arguments.lexemes_more] at hfaces
    obtain ⟨o, c₁, links₁, htakes, hfaces, ho, hoperated⟩ :=
      h.takes_captured hcapitals hfirst (by omega) (hmode _) hfaces rfl hcheck
    obtain ⟨sep, ts, hrest, hfaces, hnext⟩ := OpenTag.follows_next ctx hcompared hfaces
    obtain ⟨os', links', c₂, hfaces', hlength, hoperated', hcompiles⟩ :=
      Operated.gathers hcapitals hcompared hmode (t := { t with index := t.index + 1 })
        hmore.1 hmore.2 rfl (by change t.index + 1 + more.length < _; omega) (hoperated.past hrest)
        hfaces hcheck'
    refine ⟨os', links', c₂, hfaces', ?_, ?_, fun c' hfollows => ?_⟩
    · rw [hlength, Operands.length_append, ho, Arguments.length]
      omega
    · rw [Scoping.values_cons hextends.params hknown, Arguments.length]
      simpa only [Sense.snoc, bind_assoc, pure_bind, List.append_assoc,
        List.singleton_append] using hoperated'
    · refine htakes.compiles (hnext c' (hcompiles c' ?_))
      have hindex : t.index + (Arguments.cons second more).length = t.index + 1 + more.length := by
        rw [Arguments.length]
        omega
      rw [hindex] at hfollows
      exact hfollows

end Compile

end Wordloom
