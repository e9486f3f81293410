import Wordloom.Compile.Error
import Wordloom.Token

/-!
# Wordloom.Token.Reader

Reading tokens one after the other. The loose operations skip blank tokens first; what they skip
stays skipped. A token that turns out to be of the wrong kind has been read all the same.
-/

namespace Wordloom.Token

/-- The tokens still to be read, the place of the last one read, and the end of the source. -/
structure Reader where
  rest : List Token
  last : Position := .nowhere
  finish : Position
deriving DecidableEq

/-- An action on a reader. It leaves the reader changed also when it fails. -/
abbrev Reading := EStateM Compile.Error Reader

namespace Reader

def atEnd (r : Reader) : Bool := r.rest.isEmpty

/-- Place of the next token, or the end of the source. -/
def position (r : Reader) : Position :=
  match r.rest with
  | [] => r.finish
  | t :: _ => t.position

def peek (r : Reader) : Option Token := r.rest.head?

def peekKind (r : Reader) : Option Kind := r.peek.map (·.kind)

/-- Leaves out blank tokens from a list whose last token before it is at `last`. -/
def dropBlanks (last : Position) : List Token → Position × List Token
  | [] => (last, [])
  | t :: ts => if t.kind = .blank then dropBlanks t.position ts else (last, t :: ts)

def skipBlanks (r : Reader) : Reader :=
  let (last, rest) := dropBlanks r.last r.rest
  { r with rest := rest, last := last }

/-- Passes over the next token if it is of `kind`. -/
def take (kind : Kind) (r : Reader) : Bool × Reader :=
  match r.rest with
  | [] => (false, r)
  | t :: ts =>
    if t.kind = kind then (true, { r with rest := ts, last := t.position }) else (false, r)

/-- The text up to a token of one of the kinds `stops`, and the reader at that token, if all that
stands before it is plain. -/
def plainUntil (stops : List Kind) (last : Position) :
    List Token → Option (String × Position × List Token)
  | [] => none
  | t :: ts =>
    if stops.contains t.kind then some ("", last, t :: ts)
    else if t.kind = .literal || t.kind.isPlain then
      (plainUntil stops t.position ts).map fun (text, last, rest) => (t.value ++ text, last, rest)
    else none

end Reader

namespace Reading

/-- Reads the next token; `expected` says in the error what is missing at the end. -/
def read (expected : String) : Reading Token := fun r =>
  match r.rest with
  | [] => .error ⟨r.finish, .unexpectedEnd expected⟩ r
  | t :: ts => .ok t { r with rest := ts, last := t.position }

def readLoose (expected : String) : Reading Token := fun r => read expected r.skipBlanks

/-- Reads the next token, which has to be of `kind`. -/
def expect (kind : Kind) (expected : String) : Reading Token := do
  let t ← read expected
  if t.kind = kind then return t else throw ⟨t.position, .expected expected t.text⟩

def expectLoose (kind : Kind) (expected : String) : Reading Token := fun r =>
  expect kind expected r.skipBlanks

def take (kind : Kind) : Reading Bool := fun r =>
  let (taken, r) := r.take kind
  .ok taken r

def takeLoose (kind : Kind) : Reading Bool := fun r => take kind r.skipBlanks

def peekLoose : Reading (Option Token) := fun r =>
  let r := r.skipBlanks
  .ok r.peek r

/-- The text up to a token of one of the kinds `stops`, which is left in place. Nothing is read
when something on the way has a meaning of its own or the source ends. -/
def constantUntil (stops : List Kind) : Reading (Option String) := fun r =>
  match Reader.plainUntil stops r.last r.rest with
  | some (text, last, rest) => .ok (some text) { r with rest := rest, last := last }
  | none => .ok none r

end Reading

end Wordloom.Token
