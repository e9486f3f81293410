import Wordloom.Compile.Block
import Wordloom.Compile.Escape
import Wordloom.Compile.Query
import Wordloom.Compile.Tag

/-!
# Wordloom.Compile.Pattern

Patterns, and the compilation of a whole source. What has no meaning of its own in a pattern is
printed as it stands.
-/

namespace Wordloom.Compile

open Compiling

/-! ## Constructs -/

/-- Leaves a mark of the source position and goes on with a construct inside a pattern. -/
def enter (stop : Terminator) (token : Token) (child : Construct) : Compiling Step := do
  output (·.mark token.position)
  return .push (.pattern stop) child

/-- What is missing at the end of a source that stops in the middle of a token. -/
def brokenCause (text : String) : Cause :=
  match text.toList with
  | '\\' :: _ => .invalidEscape text
  | '"' :: _ => .unexpectedEnd "end of constant literal"
  | _ => .unexpectedEnd "end of regular expression"

/-- Compiles a pattern, the tokens that are left being `tokens`, up to a construct inside it. -/
def pattern (stop : Terminator) : (tokens : List Token) → Compiling Step
  | [] => do
    if stop = .root then return .done
    fail (← position) (.unexpectedEnd stop.description)
  | token :: tokens => do
    if stop.endsAt token.kind then return .done
    let _ ← read "pattern"
    match token.kind with
    | .rightSquare => fail token.position (.unexpected "function terminator")
    | .rightCurly => fail token.position (.unexpected "block terminator")
    | .rightAngle => fail token.position (.unexpected "query terminator")
    | .leftSquare => enter stop token (.tag token.position)
    | .leftCurly => enter stop token .block
    | .leftAngle => enter stop token (.query token.position)
    | .escape => enter stop token (.escape token)
    | .broken => fail token.position (brokenCause token.text)
    | _ =>
      emitString .print token.value
      pattern stop tokens

/-- Goes on with a construct. -/
def Construct.resume (ctx : Context) : Construct → Compiling Step
  | .pattern stop => do Compile.pattern stop (← get).reader.rest
  | .escape token => do
    Compile.escape token
    return .done
  | .query start => do
    Compile.query start
    return .done
  | .tag start => Tag.start ctx start
  | .argument t after => t.resume ctx after
  | .block => Block.start
  | .weight b offset => Block.afterWeight b offset
  | .item b => Block.afterItem b

/-! ## The whole source -/

/-- Goes on with the innermost construct until there is none left, at most `fuel` times. -/
def run (ctx : Context) : (fuel : Nat) → List Construct → Compiling Unit
  | _, [] => pure ()
  | 0, _ :: _ => do fail (← position) (.fault "construct without end")
  | fuel + 1, top :: rest => do
    match ← top.resume ctx with
    | .done => run ctx fuel rest
    | .push self child => run ctx fuel (child :: self :: rest)

/-- How often the constructs of a source of `tokens` tokens are gone on with at most: each token
opens or closes at most two of them, and each is gone on with after it is opened and whenever one
inside it is closed. -/
def stepBound (tokens : Nat) : Nat := 4 * tokens + 2

/-- Compiles all that is left to read. -/
def source (ctx : Context) : Compiling Unit := do
  run ctx (stepBound (← tokensLeft)) [.pattern .root]
  if 0x80000000 ≤ (← offset) then fail (← position) (.limit "bytecode exceeds 2 GiB")

/-- Compiles a source of the given name. -/
def compile (ctx : Context) (name source : String) : Except Error Program :=
  match Compile.source ctx (.start ctx source) with
  | .ok _ c => .ok (c.out.build name)
  | .error e _ => .error e

end Wordloom.Compile
