import Wordloom.Engine
import Wordloom.Program.Listing
import Wordloom.Text.Digits

/-!
# Wordloom.CommandLine.Session

A session in which every line is run as a pattern, each with the next seed. Lines that start with a
colon are commands.
-/

namespace Wordloom.CommandLine

/-- What is written to the two streams. -/
structure Written where
  out : String := ""
  err : String := ""
deriving DecidableEq

def Written.append (a b : Written) : Written := ⟨a.out ++ b.out, a.err ++ b.err⟩

inductive Command where
  | nothing
  | run (source : String)
  | setSeed (seed : UInt64)
  | disassemble (source : String)
  | help
  | quit
deriving DecidableEq

/-- Why a line is no command. -/
inductive CommandError where
  | unknown (name : String)
  | number (e : Text.NumberError)
deriving DecidableEq

def CommandError.message : CommandError → String
  | .unknown name => s!"unknown command ':{name}', try :help"
  | .number e => e.message

def helpText : String :=
  "Enter a pattern to run it. Every run uses the next seed.\n" ++
  "  :seed <n>      continue with seed n\n" ++
  "  :dis <pattern> show the bytecode of a pattern\n" ++
  "  :q             quit\n"

/-- The command of a line. -/
def Command.ofLine (line : String) : Except CommandError Command :=
  match Text.trimChars line.toList with
  | [] => .ok .nothing
  | ':' :: rest =>
    let argument := String.ofList ((rest.dropWhile (· ≠ ' ')).drop 1)
    match String.ofList (rest.takeWhile (· ≠ ' ')) with
    | "q" | "quit" => .ok .quit
    | "h" | "help" => .ok .help
    | "seed" =>
      match Text.uint64 (Text.trim argument) with
      | .ok seed => .ok (.setSeed seed)
      | .error e => .error (.number e)
    | "dis" => .ok (.disassemble argument)
    | name => .error (.unknown name)
  | _ => .ok (.run line)

structure Session where
  engine : Engine
  options : Options
  debug : Bool
  seed : UInt64

namespace Session

/-- The name that lines have in messages. -/
def sourceName : String := "repl"

/-- What is written when a program is run. -/
def resultOf : Outcome → Written
  | .output o => { out := o.main ++ "\n" }
  | .failure e => { err := e.message ++ "\n" }
  | .unfinished => {}

/-- Does a command. There is no session left after the last one. -/
def perform (s : Session) : Command → Option Session × Written
  | .nothing => (some s, {})
  | .quit => (none, {})
  | .help => (some s, { out := helpText })
  | .setSeed seed => (some { s with seed }, {})
  | .disassemble source =>
    match s.engine.compile sourceName source s.debug with
    | .ok p => (some s, { out := p.disassemble })
    | .error e => (some s, { err := e.message sourceName ++ "\n" })
  | .run source =>
    let written :=
      match s.engine.compile sourceName source s.debug with
      | .ok p => resultOf (s.engine.run p s.seed s.options)
      | .error e => { err := e.message sourceName ++ "\n" }
    (some { s with seed := s.seed + 1 }, written)

/-- Does what a line says. -/
def step (s : Session) (line : String) : Option Session × Written :=
  match Command.ofLine line with
  | .ok command => s.perform command
  | .error e => (some s, { err := s!"Error: {e.message}\n" })

/-- Does what the lines say, up to the one that ends the session. -/
def run (s : Session) : List String → Written
  | [] => {}
  | line :: lines =>
    match s.step line with
    | (none, written) => written
    | (some s, written) => written.append (s.run lines)

end Session

/-- Takes off the end of a line: a line feed, with or without a carriage return. -/
def chompChars (cs : List Char) : List Char :=
  match cs.reverse with
  | '\n' :: '\r' :: rest => rest.reverse
  | '\n' :: rest => rest.reverse
  | _ => cs

/-- The lines of a text, each with its line feed; the last one may lack it. -/
def splitLines : List Char → List (List Char)
  | [] => []
  | '\n' :: cs => ['\n'] :: splitLines cs
  | c :: cs =>
    match splitLines cs with
    | [] => [[c]]
    | line :: lines => (c :: line) :: lines

/-- The lines of a text without their ends. -/
def linesOf (text : String) : List String :=
  (splitLines text.toList).map fun line => String.ofList (chompChars line)

end Wordloom.CommandLine
