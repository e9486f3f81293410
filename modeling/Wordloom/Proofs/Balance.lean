import Wordloom.Engine
import Wordloom.Proofs.Checks
import Wordloom.Proofs.Traversal

/-!
# Wordloom.Proofs.Balance

The brackets of a source that compiles are properly nested, whatever of them a tag, a block, a query
or a constant argument has read on its way.
-/

namespace Wordloom

namespace Token

/-! ## Nested brackets -/

def Bracket.opening : Bracket → Kind
  | .square => .leftSquare
  | .curly => .leftCurly
  | .angle => .leftAngle

def Bracket.closing : Bracket → Kind
  | .square => .rightSquare
  | .curly => .rightCurly
  | .angle => .rightAngle

/-- What stands between an opening bracket and the closing one of its shape is nested in the same
way, and so is what follows. -/
inductive Balanced : List Kind → Prop where
  | nil : Balanced []
  | wrap (b : Bracket) {inner rest : List Kind} (hinner : Balanced inner) (hrest : Balanced rest) :
    Balanced (b.opening :: (inner ++ b.closing :: rest))

def Kind.isBracket : Kind → Bool
  | .leftSquare | .rightSquare | .leftCurly | .rightCurly | .leftAngle | .rightAngle => true
  | _ => false

/-- The brackets among some tokens. -/
def brackets (ts : List Token) : List Kind := (ts.map (·.kind)).filter Kind.isBracket

/-- Each of the open brackets is closed, from the innermost out, with nested ones in between. -/
def Closes : List Bracket → List Kind → Prop
  | [], ks => Balanced ks
  | b :: opened, ks =>
    ∃ inner rest, ks = inner ++ b.closing :: rest ∧ Balanced inner ∧ Closes opened rest

theorem Closes.wrap {opened : List Bracket} {inner rest : List Kind} (b : Bracket)
    (hinner : Balanced inner) (hrest : Closes opened rest) :
    Closes opened (b.opening :: (inner ++ b.closing :: rest)) := by
  cases opened with
  | nil => exact Balanced.wrap b hinner hrest
  | cons outer opened =>
    obtain ⟨between, after, rfl, hbetween, hafter⟩ := hrest
    exact ⟨b.opening :: (inner ++ b.closing :: between), after, by simp, .wrap b hinner hbetween, hafter⟩

/-! ## Matching finds them -/

/-- A token opens a bracket, closes the innermost one, or is none. -/
theorem Kind.openAfter_cases {kind : Kind} {o o' : List Bracket} (h : kind.openAfter o = some o') :
    (∃ b, kind = b.opening ∧ o' = b :: o) ∨ (∃ b, kind = b.closing ∧ o = b :: o') ∨
      (kind.isBracket = false ∧ o' = o) := by
  revert h
  fun_cases Kind.openAfter kind o <;> rintro ⟨⟩
  case case1 => exact .inl ⟨.square, rfl, rfl⟩
  case case2 => exact .inl ⟨.curly, rfl, rfl⟩
  case case3 => exact .inl ⟨.angle, rfl, rfl⟩
  case case4 => exact .inr (.inl ⟨.square, rfl, rfl⟩)
  case case5 => exact .inr (.inl ⟨.curly, rfl, rfl⟩)
  case case6 => exact .inr (.inl ⟨.angle, rfl, rfl⟩)
  case case11 => cases kind <;> simp_all [Kind.isBracket]

theorem isBracket_opening (b : Bracket) : b.opening.isBracket = true := by cases b <;> rfl

theorem isBracket_closing (b : Bracket) : b.closing.isBracket = true := by cases b <;> rfl

theorem closes_of_openAfter {ts : List Token} {o : List Bracket} (h : openAfter o ts = some []) :
    Closes o (brackets ts) := by
  induction ts generalizing o with
  | nil =>
    cases h
    exact .nil
  | cons t ts ih =>
    obtain ⟨o₁, ht, hts⟩ := Option.bind_eq_some_iff.1 h
    have hrest := ih hts
    obtain ⟨b, hb, rfl⟩ | ⟨b, hb, rfl⟩ | ⟨hnone, rfl⟩ := Kind.openAfter_cases ht
    · obtain ⟨inner, rest, heq, hinner, hclose⟩ := hrest
      have hcons : brackets (t :: ts) = b.opening :: brackets ts := by
        simp [brackets, hb, isBracket_opening]
      rw [hcons, heq]
      exact hclose.wrap b hinner
    · have hcons : brackets (t :: ts) = b.closing :: brackets ts := by
        simp [brackets, hb, isBracket_closing]
      rw [hcons]
      exact ⟨[], brackets ts, rfl, .nil, hrest⟩
    · have hcons : brackets (t :: ts) = brackets ts := by simp [brackets, hnone]
      rwa [hcons]

end Token

namespace Compile

/-- **A source that compiles is balanced**: each closing bracket among its tokens belongs to the
innermost bracket that is open there, and none is left open. -/
theorem balanced_of_compile {ctx : Context} {name source : String} {p : Program}
    (h : compile ctx name source = .ok p) : Token.Balanced (Token.brackets (Token.scan source)) :=
  Token.closes_of_openAfter (openAfter_scan_of_compile h)

/-- Brackets in a definition, in a weight, in a query and, without meaning, in a literal. -/
theorem balanced_of_compile_sample :
    (∃ p, compile { registry := Standard.registry } "main"
      "[$[f:a]:{*[arg:a]*x|<::=y>}][cat:\"]\";[$f:2]]" = .ok p) ∧
    Token.Balanced [.leftSquare, .leftSquare, .rightSquare, .leftCurly, .leftSquare, .rightSquare,
      .leftAngle, .rightAngle, .rightCurly, .rightSquare, .leftSquare, .leftSquare, .rightSquare,
      .rightSquare] := by
  have hcompiles : (compile { registry := Standard.registry } "main"
      "[$[f:a]:{*[arg:a]*x|<::=y>}][cat:\"]\";[$f:2]]").toOption.isSome := by
    decide +kernel
  have hbrackets : Token.brackets (Token.scan "[$[f:a]:{*[arg:a]*x|<::=y>}][cat:\"]\";[$f:2]]") =
      [.leftSquare, .leftSquare, .rightSquare, .leftCurly, .leftSquare, .rightSquare, .leftAngle,
        .rightAngle, .rightCurly, .rightSquare, .leftSquare, .leftSquare, .rightSquare,
        .rightSquare] := by
    decide +kernel
  obtain ⟨p, hp⟩ := Option.isSome_iff_exists.1 hcompiles
  have hp := toOption_eq_some.1 hp
  exact ⟨⟨p, hp⟩, hbrackets ▸ balanced_of_compile hp⟩

end Compile

end Wordloom
