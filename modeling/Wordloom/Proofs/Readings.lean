import Wordloom.Proofs.Completes

/-!
# Wordloom.Proofs.Readings

What reading comes to where the next tokens are known.
-/

namespace Wordloom.Token

/-- Whether it is known at once what a token stands for. -/
def isConstant (t : Token) : Bool := t.kind = .literal || t.kind.isPlain

/-- Kinds that have no meaning of their own in a pattern, unless it ends there. -/
def Kind.isPrinted : Kind → Bool
  | .leftSquare | .rightSquare | .leftCurly | .rightCurly | .leftAngle | .rightAngle | .escape
  | .broken => false
  | _ => true

namespace Reader

theorem skipBlanks_of_rest {r : Reader} {t : Token} {ts : List Token} (h : r.rest = t :: ts)
    (ht : t.kind ≠ .blank) : r.skipBlanks = r := by
  unfold skipBlanks
  rw [h, dropBlanks, if_neg ht, ← h]

/-- Constant tokens up to one of those that end a constant. -/
theorem plainUntil_of_constant {stops : List Kind} {ts us : List Token} {t : Token}
    (hts : ∀ u ∈ ts, u.isConstant = true ∧ stops.contains u.kind = false)
    (ht : stops.contains t.kind = true) (last : Position) :
    ∃ last', plainUntil stops last (ts ++ t :: us) =
      some (String.join (ts.map (·.value)), last', t :: us) := by
  induction ts generalizing last with
  | nil => exact ⟨last, by rw [List.nil_append, plainUntil, if_pos ht]; rfl⟩
  | cons u ts ih =>
    obtain ⟨hconstant, hstop⟩ := hts u List.mem_cons_self
    obtain ⟨last', hrest⟩ := ih (fun v hv => hts v (List.mem_cons_of_mem _ hv)) u.position
    refine ⟨last', ?_⟩
    have hhead : (decide (u.kind = .literal) || u.kind.isPlain) = true := hconstant
    rw [List.cons_append, plainUntil, hstop, if_neg Bool.false_ne_true, if_pos hhead, hrest,
      List.map_cons, String.join_cons]
    rfl

end Reader

end Wordloom.Token

namespace Wordloom.Compile

variable {c : Compilation} {t : Token} {ts : List Token} {kind : Token.Kind} {wanted : String}

/-- A compilation that has passed a token, behind which there are `ts`. -/
def Compilation.past (c : Compilation) (t : Token) (ts : List Token) : Compilation :=
  { c with reader := { c.reader with rest := ts, last := t.position } }

namespace Compiling

/-- A constant is read up to what ends it. -/
theorem constantUntil_of_rest {stops : List Token.Kind} {us : List Token}
    (h : c.reader.rest = ts ++ t :: us)
    (hts : ∀ u ∈ ts, u.isConstant = true ∧ stops.contains u.kind = false)
    (ht : stops.contains t.kind = true) :
    ∃ last, constantUntil stops c = .ok (some (String.join (ts.map (·.value))))
      { c with reader := { c.reader with rest := t :: us, last := last } } := by
  obtain ⟨last, hplain⟩ := Token.Reader.plainUntil_of_constant hts ht c.reader.last
  refine ⟨last, ?_⟩
  unfold constantUntil reading Token.Reading.constantUntil
  rw [h, hplain]

variable (h : c.reader.rest = t :: ts)
include h

theorem read_of_rest : read wanted c = .ok t (c.past t ts) := by
  unfold read reading Token.Reading.read
  rw [h]
  rfl

theorem reading_loose {α : Type} {action : Token.Reading α} (ht : t.kind ≠ .blank) :
    reading (fun r => action r.skipBlanks) c = reading action c := by
  have hsame : (fun r => action r.skipBlanks) c.reader = action c.reader :=
    congrArg action (Token.Reader.skipBlanks_of_rest h ht)
  unfold reading
  rw [hsame]

theorem readLoose_of_rest (ht : t.kind ≠ .blank) :
    readLoose wanted c = .ok t (c.past t ts) := (reading_loose h ht).trans (read_of_rest h)

theorem take_of_rest (ht : t.kind = kind) :
    take kind c = .ok true (c.past t ts) := by
  unfold take reading Token.Reading.take Token.Reader.take
  simp only [h, if_pos ht]
  rfl

theorem take_of_ne (ht : t.kind ≠ kind) : take kind c = .ok false c := by
  unfold take reading Token.Reading.take Token.Reader.take
  simp only [h, if_neg ht]

theorem takeLoose_of_rest (ht : t.kind = kind) (hkind : kind ≠ .blank) :
    takeLoose kind c = .ok true (c.past t ts) :=
  (reading_loose h (ht ▸ hkind)).trans (take_of_rest h ht)

theorem takeLoose_of_ne (ht : t.kind ≠ kind) (hblank : t.kind ≠ .blank) :
    takeLoose kind c = .ok false c :=
  (reading_loose h hblank).trans (take_of_ne h ht)

theorem reading_read :
    Token.Reading.read wanted c.reader =
      .ok t { c.reader with rest := ts, last := t.position } := by
  unfold Token.Reading.read
  rw [h]

theorem expect_of_rest (ht : t.kind = kind) :
    expect kind wanted c = .ok t (c.past t ts) := by
  unfold expect reading Token.Reading.expect
  rw [run_bind_of_ok (reading_read h), if_pos ht]
  rfl

theorem expect_of_ne (ht : t.kind ≠ kind) :
    expect kind wanted c = .error ⟨t.position, .expected wanted t.text⟩ (c.past t ts) := by
  unfold expect reading Token.Reading.expect
  rw [run_bind_of_ok (reading_read h), if_neg ht]
  rfl

theorem expectLoose_of_ne (ht : t.kind ≠ kind) (hblank : t.kind ≠ .blank) :
    expectLoose kind wanted c = .error ⟨t.position, .expected wanted t.text⟩ (c.past t ts) :=
  (reading_loose h hblank).trans (expect_of_ne h ht)

theorem expectLoose_of_rest (ht : t.kind = kind) (hkind : kind ≠ .blank) :
    expectLoose kind wanted c = .ok t (c.past t ts) :=
  (reading_loose h (ht ▸ hkind)).trans (expect_of_rest h ht)

omit h in
theorem run_tokens (c : Compilation) : tokens c = .ok c.reader.rest c := rfl

end Compiling

/-! ## Arguments -/

section

variable {ctx : Context} {t : OpenTag} {us tokens : List Token} {sep u : Token}

theorem stops_of_isConstant (h : u.isConstant = true) :
    [Token.Kind.semicolon, .rightSquare].contains u.kind = false := by
  unfold Token.isConstant at h
  cases hkind : u.kind <;> simp_all [Token.Kind.isPlain]

namespace OpenTag

open Compiling

/-- The text of a constant argument is pushed. -/
theorem beginArgument_push {c₁ : Compilation} {text : String} (hmax : t.index < t.tag.max)
    (hmode : t.tag.mode t.index = .captured)
    (h : constantUntil [.semicolon, .rightSquare] c = .ok (some text) c₁) :
    t.beginArgument c = .ok (t, none) { c₁ with out := c₁.out.emitString .push text } := by
  unfold beginArgument
  rw [if_neg (Nat.not_le_of_lt hmax)]
  generalize t.tag.mode t.index = mode at hmode
  subst hmode
  dsimp only
  rw [run_bind_of_ok h]
  rfl

/-- The output of any other is captured. -/
theorem beginArgument_capture {c₁ : Compilation} (hmax : t.index < t.tag.max)
    (hmode : t.tag.mode t.index = .captured)
    (h : constantUntil [.semicolon, .rightSquare] c = .ok none c₁) :
    t.beginArgument c = .ok (t, some .capture) { c₁ with out := c₁.out.emit .newOutput } := by
  unfold beginArgument
  rw [if_neg (Nat.not_le_of_lt hmax)]
  generalize t.tag.mode t.index = mode at hmode
  subst hmode
  dsimp only
  rw [run_bind_of_ok h]
  rfl

theorem beginArgument_of_constant (hmax : t.index < t.tag.max) (hmode : t.tag.mode t.index = .captured)
    (h : c.reader.rest = ts ++ sep :: us) (hts : ∀ u ∈ ts, u.isConstant = true)
    (hsep : sep.kind = .semicolon ∨ sep.kind = .rightSquare) :
    ∃ last, t.beginArgument c = .ok (t, none)
      { c with
        reader := { c.reader with rest := sep :: us, last := last }
        out := c.out.emitString .push (String.join (ts.map (·.value))) } := by
  have hstops : [Token.Kind.semicolon, .rightSquare].contains sep.kind = true := by
    obtain hsep | hsep := hsep <;> rw [hsep] <;> rfl
  obtain ⟨last, hconstant⟩ := constantUntil_of_rest h
    (fun u hu => ⟨hts u hu, stops_of_isConstant (hts u hu)⟩) hstops
  exact ⟨last, beginArgument_push hmax hmode hconstant⟩

/-- The tag goes on behind a semicolon. -/
theorem endArgument_of_semicolon (hbetween : t.betweenArguments true = pure t)
    (h : c.reader.rest = sep :: us) (hsep : sep.kind = .semicolon) :
    t.endArgument ctx c = .ok (some { t with index := t.index + 1 }) (c.past sep us) := by
  unfold endArgument
  rw [run_bind_of_ok (read_of_rest h)]
  simp only [hsep, decide_true, hbetween]
  rfl

/-- A bracket ends it. -/
theorem endArgument_of_bracket (hbetween : t.betweenArguments false = pure t)
    (h : c.reader.rest = sep :: us) (hsep : sep.kind = .rightSquare) :
    t.endArgument ctx c = (do
      ({ t with index := t.index + 1 } : OpenTag).finish ctx
      return none : Compiling (Option OpenTag)) (c.past sep us) := by
  unfold endArgument
  have hmore : decide (Token.Kind.rightSquare = .semicolon) = false := rfl
  rw [run_bind_of_ok (read_of_rest h)]
  simp only [hsep, hmore, hbetween]
  rfl

/-- A constant argument with another one behind it. -/
theorem arguments_of_constant (hmax : t.index < t.tag.max) (hmode : t.tag.mode t.index = .captured)
    (hbetween : t.betweenArguments true = pure t) (h : c.reader.rest = ts ++ sep :: us)
    (hts : ∀ u ∈ ts, u.isConstant = true) (hsep : sep.kind = .semicolon) :
    t.arguments ctx (u :: tokens) c = ({ t with index := t.index + 1 } : OpenTag).arguments ctx tokens
      { c with
        reader := { c.reader with rest := us, last := sep.position }
        out := c.out.emitString .push (String.join (ts.map (·.value))) } := by
  obtain ⟨last, hbegin⟩ := beginArgument_of_constant hmax hmode h hts (.inl hsep)
  rw [arguments, run_bind_of_ok hbegin]
  simp only
  rw [run_bind_of_ok (endArgument_of_semicolon hbetween rfl hsep)]
  rfl

end OpenTag

end

/-- What has no meaning of its own is printed. -/
theorem pattern_cons_of_printed {stop : Terminator} (ht : t.kind.isPrinted = true)
    (hstop : stop.endsAt t.kind = false) (h : c.reader.rest = t :: ts) :
    pattern stop (t :: ts) c =
      pattern stop ts { c.past t ts with out := c.out.emitString .print t.value } := by
  rw [pattern, hstop, if_neg Bool.false_ne_true, run_bind_of_ok (Compiling.read_of_rest h)]
  cases hkind : t.kind <;> rw [hkind] at ht <;> first | rfl | cases ht

end Wordloom.Compile
