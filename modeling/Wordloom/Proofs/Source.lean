import Wordloom.Compile.Pattern
import Wordloom.Proofs.Tree

/-!
# Wordloom.Proofs.Source

Patterns as trees, with the source text that each of them is written as. The trees have text,
literals, escapes of fixed characters, blocks, the tags of the language that work on values, and
subroutines. Names are resolved from left to right through the text: what is set or defined at one
place is known at every later place of the same body, whether or not the first place is ever run.
-/

namespace Wordloom

/-! ## Lexemes -/

/-- A token without its place. -/
inductive Lexeme where
  | text (s : String)
  | blank (s : String)
  /-- a literal, given by what it stands for -/
  | literal (s : String)
  /-- an escape: the digits of its count, if it has one, and its code -/
  | escape (digits code : List Char)
  /-- a token that has only one spelling -/
  | mark (kind : Token.Kind)
deriving DecidableEq

namespace Token

/-- Each quote is written twice. -/
def double : List Char → List Char
  | [] => []
  | c :: cs => if c = '"' then '"' :: '"' :: double cs else c :: double cs

/-- The spelling of the kinds that have only one. -/
def Kind.spelling : Kind → List Char
  | .leftSquare => ['[']
  | .rightSquare => [']']
  | .leftCurly => ['\x7b']
  | .rightCurly => ['\x7d']
  | .leftParen => ['(']
  | .rightParen => [')']
  | .pipe => ['|']
  | .colon => [':']
  | .semicolon => [';']
  | .doubleColon => [':', ':']
  | .at => ['@']
  | .question => ['?']
  | .without => ['?', '!']
  | .exclamation => ['!']
  | .dollar => ['$']
  | .hyphen => ['-']
  | .comma => [',']
  | .equal => ['=']
  | .ampersand => ['&']
  | .plus => ['+']
  | .asterisk => ['*']
  | .dot => ['.']
  | .tilde => ['~']
  | _ => []

/-- Punctuation that is printed where it has no other meaning. -/
def Kind.isMark : Kind → Bool
  | .leftParen | .rightParen | .pipe | .colon | .semicolon | .doubleColon | .at | .question
  | .without | .exclamation | .dollar | .hyphen | .comma | .equal | .ampersand | .plus | .asterisk
  | .dot | .tilde => true
  | _ => false

/-- Characters that are one text token: none is blank or special, and no two slashes are in a row. -/
def isText : List Char → Bool
  | [] => true
  | c :: cs =>
    !(Text.isBlank c || isSpecial c || (c == '/' && cs.head? == some '/')) && isText cs

/-- The code of an escape: one character, or `u` and four hexadecimal digits. -/
def isCode : List Char → Bool
  | [c] => c != 'u'
  | ['u', a, b, c, d] => [a, b, c, d].all fun x => (Text.hexDigit? x).isSome
  | _ => false

end Token

namespace Lexeme

def kind : Lexeme → Token.Kind
  | .text _ => .text
  | .blank _ => .blank
  | .literal _ => .literal
  | .escape .. => .escape
  | .mark kind => kind

/-- What an escape is written as behind its backslash. -/
def escapeBody (digits code : List Char) : List Char :=
  if digits = [] then code else digits ++ ',' :: code

/-- How it is written. -/
def chars : Lexeme → List Char
  | .text s | .blank s => s.toList
  | .literal s => '"' :: Token.double s.toList ++ ['"']
  | .escape digits code => '\\' :: escapeBody digits code
  | .mark kind => kind.spelling

/-- What an escape of a fixed character prints. -/
def escaped? (digits code : List Char) : Option String :=
  match (if digits = [] then some 1 else Text.ofDigits? digits), Compile.Escape.ofCode? code with
  | some count, some (.char c) =>
    if count ≤ Compile.Escape.maxRepeat then some (String.ofList (List.replicate count c)) else none
  | _, _ => none

/-- What it prints where it has no other meaning. -/
def prints : Lexeme → String
  | .text s | .blank s | .literal s => s
  | .escape digits code => (escaped? digits code).getD ""
  | .mark kind => String.ofList kind.spelling

/-- Whether it can stand in a pattern for something to be printed. -/
def isLeaf : Lexeme → Bool
  | .text _ | .blank _ | .literal _ => true
  | .escape digits code => (escaped? digits code).isSome
  | .mark kind => kind.isMark

/-- Whether it is known without running anything what it stands for. -/
def isConstant (l : Lexeme) : Bool := l.kind = .literal || l.kind.isPlain

/-- Whether it is a token of its own in front of `rest`. -/
def endsBefore (rest : List Char) : Lexeme → Bool
  | .text s =>
    s.toList != [] && Token.isText s.toList &&
      rest.head?.all fun c => Text.isBlank c || Token.isSpecial c
  | .blank s =>
    s.toList != [] && s.toList.all Text.isBlank && rest.head?.all fun c => !Text.isBlank c
  | .literal _ => rest.head? != some '"'
  | .escape digits code =>
    digits.all Char.isDigit && Token.isCode code &&
      (digits != [] || !(code.all Char.isDigit && (rest.dropWhile Char.isDigit).head? == some ','))
  | .mark kind =>
    kind.spelling != [] && (kind != .colon || rest.head? != some ':') &&
      (kind != .question || rest.head? != some '!')

/-- The text of some lexemes. -/
def spell (ls : List Lexeme) : List Char := ls.flatMap chars

/-- Whether each is a token of its own where it stands. -/
def apart : List Lexeme → Bool
  | [] => true
  | l :: ls => l.endsBefore (spell ls) && apart ls

end Lexeme

/-! ## Trees -/

/-- What a tag does. -/
inductive TagHead where
  | set
  | get
  | swap
  | arithmetic (op : Arithmetic)
  | concat
  | compare (test : Test)
  | argument
  | call (name : String)

mutual

/-- A pattern, from its first part on. -/
inductive Pattern where
  | nil
  /-- something that is printed -/
  | leaf (l : Lexeme) (next : Pattern)
  | block (items : Items) (next : Pattern)
  | define (name : String) (params : List String) (body next : Pattern)
  | tag (head : TagHead) (args : Arguments) (next : Pattern)

inductive Arguments where
  | nil
  | cons (first : Pattern) (rest : Arguments)

/-- The items of a block. -/
inductive Items where
  | nil
  | plain (body : Pattern) (rest : Items)
  /-- an item with a weight, which is what the first pattern prints -/
  | weighted (weight body : Pattern) (rest : Items)

end

/-! ### Their text -/

/-- How many operands are compared; with one, it is compared with zero. -/
def Test.operands : Test → Nat
  | .zero | .notZero => 1
  | _ => 2

/-- Whether numbers are compared. -/
def Test.numeric : Test → Bool
  | .equal | .notEqual => false
  | _ => true

namespace TagHead

def name : TagHead → String
  | .set => "set"
  | .get => "get"
  | .swap => "swap"
  | .arithmetic .add => "add"
  | .arithmetic .subtract => "sub"
  | .arithmetic .multiply => "mul"
  | .arithmetic .divide => "div"
  | .arithmetic .modulo => "mod"
  | .concat => "cat"
  | .compare .equal => "eq"
  | .compare .notEqual => "neq"
  | .compare .greater => "gt"
  | .compare .greaterEqual => "ge"
  | .compare .less => "lt"
  | .compare .lessEqual => "le"
  | .compare .zero => "zero"
  | .compare .notZero => "nonzero"
  | .argument => "arg"
  | .call name => name

def lexemes : TagHead → List Lexeme
  | .call name => [.mark .dollar, .text name]
  | head => [.text head.name]

end TagHead

/-- Names of parameters, the first of them behind `opening`. -/
def paramLexemes (opening : Token.Kind) : List String → List Lexeme
  | [] => []
  | p :: ps => .mark opening :: .text p :: paramLexemes .semicolon ps

mutual

def Pattern.lexemes : Pattern → List Lexeme
  | .nil => []
  | .leaf l next => l :: next.lexemes
  | .block items next => items.lexemes .leftCurly ++ .mark .rightCurly :: next.lexemes
  | .define name params body next =>
    .mark .leftSquare :: .mark .dollar :: .mark .leftSquare :: .text name ::
      (paramLexemes .colon params ++ .mark .rightSquare :: .mark .colon ::
        (body.lexemes ++ .mark .rightSquare :: next.lexemes))
  | .tag head args next =>
    .mark .leftSquare :: (head.lexemes ++
      (args.lexemes .colon ++ .mark .rightSquare :: next.lexemes))

/-- Arguments, the first of them behind `opening`. -/
def Arguments.lexemes (opening : Token.Kind) : Arguments → List Lexeme
  | .nil => []
  | .cons first rest => .mark opening :: (first.lexemes ++ rest.lexemes .semicolon)

/-- Items, the first of them behind `opening`. -/
def Items.lexemes (opening : Token.Kind) : Items → List Lexeme
  | .nil => []
  | .plain body rest => .mark opening :: (body.lexemes ++ rest.lexemes .pipe)
  | .weighted weight body rest =>
    .mark opening :: .mark .asterisk :: (weight.lexemes ++ .mark .asterisk ::
      (body.lexemes ++ rest.lexemes .pipe))

end

/-- The source text of a pattern. -/
def Pattern.source (p : Pattern) : String := String.ofList (Lexeme.spell p.lexemes)

/-! ### Constants -/

/-- The text of a pattern without anything that has to be run. -/
def Pattern.constant? : Pattern → Option String
  | .nil => some ""
  | .leaf l next => if l.isConstant then next.constant?.map (l.prints ++ ·) else none
  | _ => none

/-- The name that a pattern spells. -/
def Pattern.name? (p : Pattern) : Option String := p.constant?.map Text.trim

/-- Whether a pattern has nothing but things that are printed. -/
def Pattern.isText : Pattern → Bool
  | .nil => true
  | .leaf _ next => next.isText
  | _ => false

/-- Whether the items have constant weights, if any, and nothing but things that are printed. -/
def Items.isText : Items → Bool
  | .nil => true
  | .plain body rest => body.isText && rest.isText
  | .weighted weight body rest => weight.constant?.isSome && body.isText && rest.isText

mutual

/-- Whether a pattern only prints and chooses, by weights that are known without running anything. -/
def Pattern.isStatic : Pattern → Bool
  | .nil => true
  | .leaf _ next => next.isStatic
  | .block items next => items.isStatic && next.isStatic
  | .define .. | .tag .. => false

def Items.isStatic : Items → Bool
  | .nil => true
  | .plain body rest => body.isStatic && rest.isStatic
  | .weighted weight body rest => weight.constant?.isSome && body.isStatic && rest.isStatic

end

theorem Pattern.isStatic_of_isText : ∀ {p : Pattern}, p.isText = true → p.isStatic = true
  | .nil, _ => by rw [Pattern.isStatic]
  | .leaf _ _, h => by
    rw [Pattern.isStatic]
    exact isStatic_of_isText h

theorem Items.isStatic_of_isText : ∀ {items : Items}, items.isText = true → items.isStatic = true
  | .nil, _ => by rw [Items.isStatic]
  | .plain _ _, h => by
    rw [Items.isText, Bool.and_eq_true] at h
    rw [Items.isStatic, Pattern.isStatic_of_isText h.1, isStatic_of_isText h.2, Bool.and_self]
  | .weighted _ _ _, h => by
    rw [Items.isText, Bool.and_eq_true, Bool.and_eq_true] at h
    rw [Items.isStatic, h.1.1, Pattern.isStatic_of_isText h.1.2, isStatic_of_isText h.2, Bool.and_self,
      Bool.and_self]

namespace Arguments

def length : Arguments → Nat
  | .nil => 0
  | .cons _ rest => rest.length + 1

/-- The name that the argument of the given index spells. -/
def name? : Arguments → (index : Nat) → Option String
  | .nil, _ => none
  | .cons first _, 0 => first.name?
  | .cons _ rest, index + 1 => rest.name? index

end Arguments

/-! ## Names -/

/-- A subroutine. -/
structure Procedure where
  name : String
  params : List String
  body : Pattern

/-- The subroutine that a name stands for, and those that were known before it; the last one of that
name counts. -/
def Procedure.find? (name : String) : List Procedure → Option (Procedure × List Procedure)
  | [] => none
  | p :: outer => if p.name = name then some (p, outer) else find? name outer

/-- The place of a parameter; of two with the same name, the last one counts. -/
def placeOf? (name : String) : List String → Option Nat
  | [] => none
  | p :: ps =>
    match placeOf? name ps with
    | some i => some (i + 1)
    | none => if p = name then some 0 else none

mutual

/-- The subroutines known behind a pattern. -/
def Pattern.known (known : List Procedure) : Pattern → List Procedure
  | .nil => known
  | .leaf _ next => next.known known
  | .block items next => next.known (items.known known)
  | .define name params body next => next.known (⟨name, params, body⟩ :: known)
  | .tag _ args next => next.known (args.known known)

def Arguments.known (known : List Procedure) : Arguments → List Procedure
  | .nil => known
  | .cons first rest => rest.known (first.known known)

def Items.known (known : List Procedure) : Items → List Procedure
  | .nil => known
  | .plain body rest => rest.known (body.known known)
  | .weighted weight body rest => rest.known (body.known (weight.known known))

end

/-- The names that are known at some place in a body. -/
structure Scoping where
  params : List String := []
  /-- the variables that have been set, in the order of the places where each is set first -/
  locals : List String := []
  procedures : List Procedure := []

namespace Scoping

/-- A variable is set. -/
def declare (s : Scoping) (name : String) : Option Scoping :=
  if name ∈ s.locals then some s
  else if s.locals.length + 1 < 2 ^ 16 then some { s with locals := s.locals ++ [name] }
  else none

/-- Whether the name stands for a parameter; one that has been set as a variable does not. -/
def hasParam (s : Scoping) (name : String) : Bool :=
  decide (name ∉ s.locals) && decide (name ∈ s.params)

end Scoping

/-- Whether a tag has the right arguments, and the names that are known behind it. `before` is what is
known in front of the tag and `s` what is known behind its arguments. -/
def TagHead.check (before s : Scoping) (args : Arguments) : TagHead → Option Scoping
  | .set =>
    match args.length, args.name? 0 with
    | 2, some x => s.declare x
    | _, _ => none
  | .get =>
    match args.length, args.name? 0 with
    | 1, some x => if x ∈ s.locals then some s else none
    | _, _ => none
  | .swap =>
    match args.length, args.name? 0, args.name? 1 with
    | 2, some x, some y => if x ∈ s.locals ∧ y ∈ s.locals then some s else none
    | _, _, _ => none
  | .arithmetic _ | .concat => if args.length = 2 then some s else none
  | .compare test =>
    if args.length = test.operands + 1 ∨ args.length = test.operands + 2 then some s else none
  | .argument =>
    match args.length, args.name? 0 with
    | 1, some x => if s.hasParam x then some s else none
    | _, _ => none
  | .call name =>
    match Procedure.find? name before.procedures with
    | some (p, _) => if args.length = p.params.length then some s else none
    | none => none

/-- Whether a pattern can stand for a weight: a constant has to spell a number. -/
def Pattern.isWeight (p : Pattern) : Bool :=
  match p.constant? with
  | some text => (Decimal.bits? (Text.trim text)).isSome
  | none => true

/-- Whether the pattern begins with an asterisk, which would start a weight. -/
def Pattern.startsWeight : Pattern → Bool
  | .leaf (.mark .asterisk) _ => true
  | _ => false

mutual

/-- Whether all names in a pattern that ends at `stop` are known where they are used, and the names
that are known behind it. -/
def Pattern.check (stop : Compile.Terminator) (s : Scoping) : Pattern → Option Scoping
  | .nil => some s
  | .leaf l next => if l.isLeaf && !stop.endsAt l.kind then next.check stop s else none
  | .block items next => do
    match items with
    | .nil => none
    | _ =>
      let s ← items.check s
      next.check stop s
  | .define name params body next =>
    if params.length < 2 ^ 8 then do
      let procedures := ⟨name, params, body⟩ :: s.procedures
      let _ ← body.check .argument ⟨params, [], procedures⟩
      next.check stop { s with procedures }
    else none
  | .tag head args next => do
    let inner ← args.check s
    let s ← head.check s inner args
    next.check stop s

def Arguments.check (s : Scoping) : Arguments → Option Scoping
  | .nil => some s
  | .cons first rest => do
    let s ← first.check .argument s
    rest.check s

def Items.check (s : Scoping) : Items → Option Scoping
  | .nil => some s
  | .plain body rest =>
    if body.startsWeight then none
    else do
      let s ← body.check .blockItem s
      rest.check s
  | .weighted weight body rest =>
    if weight.isWeight then do
      let s ← weight.check .weight s
      let s ← body.check .blockItem s
      rest.check s
    else none

end

/-- A pattern that can be written and compiled: each lexeme is a token where it stands, and every name
is known where it is used. -/
def Pattern.Scoped (p : Pattern) : Prop :=
  Lexeme.apart p.lexemes = true ∧ (p.check .root {}).isSome = true

end Wordloom
