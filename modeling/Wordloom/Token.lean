import Wordloom.Position

/-!
# Wordloom.Token

The pieces a pattern's source is made of.
-/

namespace Wordloom

namespace Token

inductive Kind where
  | text
  | blank
  | escape
  | literal
  | regex
  | leftSquare
  | rightSquare
  | leftCurly
  | rightCurly
  | leftAngle
  | rightAngle
  | leftParen
  | rightParen
  | pipe
  | colon
  | semicolon
  | doubleColon
  | at
  | question
  | without
  | exclamation
  | dollar
  | hyphen
  | comma
  | equal
  | ampersand
  | plus
  | asterisk
  | dot
  | tilde
  /-- an escape, literal or regular expression that the source ends in the middle of -/
  | broken
deriving DecidableEq

/-- Every kind, in the order of their declaration. -/
def Kind.all : List Kind :=
  [.text, .blank, .escape, .literal, .regex, .leftSquare, .rightSquare, .leftCurly, .rightCurly,
   .leftAngle, .rightAngle, .leftParen, .rightParen, .pipe, .colon, .semicolon, .doubleColon, .at,
   .question, .without, .exclamation, .dollar, .hyphen, .comma, .equal, .ampersand, .plus,
   .asterisk, .dot, .tilde, .broken]

/-- How a kind is named in messages. -/
def Kind.description : Kind → String
  | .text => "text"
  | .blank => "whitespace"
  | .escape => "escape sequence"
  | .literal => "constant literal"
  | .regex => "regular expression"
  | .leftSquare => "'['"
  | .rightSquare => "']'"
  | .leftCurly => "'\x7b'"
  | .rightCurly => "'\x7d'"
  | .leftAngle => "'<'"
  | .rightAngle => "'>'"
  | .leftParen => "'('"
  | .rightParen => "')'"
  | .pipe => "'|'"
  | .colon => "':'"
  | .semicolon => "';'"
  | .doubleColon => "'::'"
  | .at => "'@'"
  | .question => "'?'"
  | .without => "'?!'"
  | .exclamation => "'!'"
  | .dollar => "'$'"
  | .hyphen => "'-'"
  | .comma => "','"
  | .equal => "'='"
  | .ampersand => "'&'"
  | .plus => "'+'"
  | .asterisk => "'*'"
  | .dot => "'.'"
  | .tilde => "'~'"
  | .broken => "unknown token"

/-- Kinds that mean nothing but their own text, wherever they stand. -/
def Kind.isPlain : Kind → Bool
  | .text | .blank | .hyphen | .dot | .plus | .comma | .colon | .doubleColon | .exclamation
  | .question | .without | .equal | .ampersand | .at | .tilde | .dollar | .leftParen | .rightParen
  | .pipe | .asterisk => true
  | _ => false

end Token

structure Token where
  kind : Token.Kind
  text : String
  position : Position
deriving DecidableEq

namespace Token

/-- Each pair of quotes is one quote. -/
def undouble : List Char → List Char
  | '"' :: '"' :: cs => '"' :: undouble cs
  | c :: cs => c :: undouble cs
  | [] => []

/-- What a literal stands for: its text without the quotes around it, and with each pair of
quotes inside as one. -/
def unquote (literal : String) : String :=
  let cs := literal.toList
  match cs with
  | '"' :: inner =>
    if inner.getLast? = some '"' then String.ofList (undouble inner.dropLast)
    else String.ofList (undouble cs)
  | _ => String.ofList (undouble cs)

/-- What the token prints where it has no other meaning. -/
def value (t : Token) : String := if t.kind = .literal then unquote t.text else t.text

end Token

end Wordloom
