import Wordloom.Position
import Wordloom.Regex.Error

/-!
# Wordloom.Compile.Error

Why a pattern is refused, and where.
-/

namespace Wordloom.Compile

inductive Cause where
  | unexpectedEnd (wanted : String)
  | expected (wanted found : String)
  | unexpected (what : String)
  | invalidEscape (text : String)
  | unknownFunction (name : String)
  | argumentCount (name wanted : String) (found : Nat)
  | invalidQueryToken (text : String)
  | invalidCarrierToken (text : String)
  | emptyCarrier
  | deleteWithoutCarriers
  | negativeClassInExclusive
  | syllableRange (text : String)
  | invalidRegex (pattern : String) (error : Regex.Error)
  | invalidArgument (what value : String)
  | unknownSubroutine (name : String)
  | unknownVariable (name : String)
  | unknownImport (name : String)
  | limit (what : String)
  /-- the compiler itself has gone wrong -/
  | fault (what : String)
deriving DecidableEq

def Cause.message : Cause → String
  | .unexpectedEnd wanted => s!"Unexpected end of pattern, expected {wanted}"
  | .expected wanted found => s!"Expected {wanted}, found '{found}'"
  | .unexpected what => s!"Unexpected {what}"
  | .invalidEscape text => s!"Invalid escape sequence '{text}'"
  | .unknownFunction name => s!"Unknown function '{name}'"
  | .argumentCount name wanted found =>
    s!"Function '{name}' expects {wanted} arguments, got {found}"
  | .invalidQueryToken text => s!"Invalid token in query: '{text}'"
  | .invalidCarrierToken text => s!"Invalid token in query carrier: '{text}'"
  | .emptyCarrier => "Empty query carrier"
  | .deleteWithoutCarriers => "Carrier delete query specified without any carriers"
  | .negativeClassInExclusive =>
    "You can't define a negative class filter in an exclusive query"
  | .syllableRange text => s!"Unknown syllable range syntax '{text}'"
  | .invalidRegex pattern error =>
    s!"Invalid regular expression '{pattern}': {error.message}"
  | .invalidArgument what value => s!"Invalid {what}: '{value}'"
  | .unknownSubroutine name => s!"Unknown subroutine '{name}'"
  | .unknownVariable name => s!"Unknown variable '{name}'"
  | .unknownImport name => s!"Unknown import '{name}'"
  | .limit what => s!"Program too large: {what}"
  | .fault what => s!"A compiler bug was detected: {what}"

structure Error where
  position : Position
  cause : Cause
deriving DecidableEq

/-- The error as it is reported for the source of the given name. -/
def Error.message (e : Error) (name : String) : String :=
  s!"{name} @ Ln {e.position.line}, Col {e.position.column}: {e.cause.message}"

end Wordloom.Compile
