import Wordloom.Bytes
import Wordloom.Value

/-!
# Wordloom.Machine.Fault

What can go wrong while a program runs.
-/

namespace Wordloom

inductive Fault where
  | decode (e : Bytes.DecodeError)
  | stackUnderflow
  | stackOverflow (limit : Nat)
  | callStackOverflow (limit : Nat)
  | divideByZero (e : DivisionByZero)
  | insufficientArguments (expected actual : Nat)
  | invalidAddress (address : Int)
  | invalidIndex (table : String) (index : Int)
  | timeout
  | charLimitExceeded (limit : Nat)
  | noDictionary
  | unknownPool (name : String)
  | invalidArgument (function message : String)
  | internal (message : String)

def Fault.message : Fault → String
  | .decode e => s!"Malformed bytecode: {e.message}"
  | .stackUnderflow => "Stack underflow"
  | .stackOverflow limit => s!"Stack overflow, more than {limit} values"
  | .callStackOverflow limit => s!"Call stack overflow, more than {limit} frames"
  | .divideByZero e => e.message
  | .insufficientArguments expected actual =>
    s!"Insufficient arguments: expected {expected}, got {actual}"
  | .invalidAddress address => s!"Invalid address {address}"
  | .invalidIndex table index => s!"Invalid {table} index {index}"
  | .timeout => "Timed out"
  | .charLimitExceeded limit => s!"Character limit of {limit} exceeded"
  | .noDictionary => "A query was run, but no dictionary is attached"
  | .unknownPool name => s!"Unknown seed pool '{name}'"
  | .invalidArgument function message => s!"Invalid argument for '{function}': {message}"
  | .internal message => s!"Internal VM exception: {message}"

/-- A fault and where it happened: the program, the offset of the instruction and, if the program
has marks, the line and column in its source. -/
structure RuntimeError where
  program : String
  place : Option (Nat × Nat)
  address : Nat
  fault : Fault

def RuntimeError.message (e : RuntimeError) : String :=
  let address := Text.hex 4 e.address
  let place := match e.place with
    | some (line, column) => s!"Ln {line}, Col {column} (0x{address})"
    | none => s!"0x{address}"
  s!"Runtime error in {e.program} @ {place}: {e.fault.message}"

end Wordloom
