import Wordloom.Machine.State
import Wordloom.Text.Digits

/-!
# Wordloom.CommandLine.Settings

The arguments of the command line.
-/

namespace Wordloom.CommandLine

structure Settings where
  /-- a source, or a compiled program; without it lines are read and run -/
  script : Option String := none
  seed : UInt64 := 0
  compiled : Bool := false
  /-- where the compiled program goes, which is then not run -/
  output : Option String := none
  disassemble : Bool := false
  debug : Bool := false
  pools : List (String × UInt64) := []
  options : Options := {}
  channels : Bool := false

/-- Why the arguments are refused. -/
inductive UsageError where
  | unexpected (argument : String)
  | missingValue (option : String)
  | repeated (option : String)
  | invalidValue (option value : String)
deriving DecidableEq

def UsageError.message : UsageError → String
  | .unexpected argument => s!"error: unexpected argument '{argument}' found"
  | .missingValue option => s!"error: a value is required for '{option}' but none was supplied"
  | .repeated option => s!"error: the argument '{option}' cannot be used multiple times"
  | .invalidValue option value => s!"error: invalid value '{value}' for '{option}'"

/-- The options by their long names. -/
inductive Key where
  | seed
  | compiled
  | output
  | disassemble
  | debug
  | pool
  | timeout
  | charLimit
  | case
  | numberFormat
  | channels
deriving DecidableEq

namespace Key

def all : List Key :=
  [.seed, .compiled, .output, .disassemble, .debug, .pool, .timeout, .charLimit, .case,
   .numberFormat, .channels]

def name : Key → String
  | .seed => "--seed"
  | .compiled => "--compiled"
  | .output => "--output"
  | .disassemble => "--disassemble"
  | .debug => "--debug"
  | .pool => "--pool"
  | .timeout => "--timeout-ms"
  | .charLimit => "--char-limit"
  | .case => "--case"
  | .numberFormat => "--number-format"
  | .channels => "--channels"

def letter? : Key → Option Char
  | .seed => some 's'
  | .compiled => some 'c'
  | .output => some 'o'
  | .disassemble => some 'd'
  | .debug => some 'g'
  | _ => none

/-- Whether the option stands alone. -/
def isFlag : Key → Bool
  | .compiled | .disassemble | .debug | .channels => true
  | _ => false

def ofName? (s : String) : Option Key := all.find? (·.name == s)

def ofLetter? (c : Char) : Option Key := all.find? (·.letter? == some c)

end Key

namespace Settings

/-- The value of an option, if it is as it should be. -/
def valid (key : Key) (value : String) : Option α → Except UsageError α
  | some a => .ok a
  | none => .error (.invalidValue key.name value)

/-- A pool: its name and its seed with a colon between them. -/
def pool? (value : String) : Option (String × UInt64) :=
  match value.toList.dropWhile (· ≠ ':') with
  | _ :: seed =>
    (Text.uint64 (String.ofList seed)).toOption.map
      (String.ofList (value.toList.takeWhile (· ≠ ':')), ·)
  | [] => none

/-- Sets an option; the value of one that stands alone is of no account. -/
def put (s : Settings) (key : Key) (value : String) : Except UsageError Settings :=
  match key with
  | .seed => return { s with seed := ← valid key value (Text.uint64 value).toOption }
  | .compiled => return { s with compiled := true }
  | .output => return { s with output := some value }
  | .disassemble => return { s with disassemble := true }
  | .debug => return { s with debug := true }
  | .pool => return { s with pools := s.pools ++ [← valid key value (pool? value)] }
  | .timeout => do
    let n ← valid key value (Text.uint64 value).toOption
    return { s with options := { s.options with timeout := some n.toNat } }
  | .charLimit => do
    let n ← valid key value (Text.uint64 value).toOption
    return { s with options := { s.options with charLimit := some n.toNat } }
  | .case => do
    let mode ← valid key value (Capitals.ofName? value)
    return { s with options := { s.options with capitals := mode } }
  | .numberFormat => do
    let format ← valid key value (NumberFormat.ofName? value)
    return { s with options := { s.options with numberFormat := format } }
  | .channels => return { s with channels := true }

/-- The settings so far, and the options that have been given. -/
structure Given where
  settings : Settings := {}
  keys : List Key := []

/-- Sets an option that may be given once only, unless it is a pool. -/
def Given.put (g : Given) (key : Key) (value : String) : Except UsageError Given := do
  if g.keys.contains key && key ≠ .pool then throw (.repeated key.name)
  return ⟨← g.settings.put key value, key :: g.keys⟩

/-- Takes an argument that is no option. -/
def Given.putScript (g : Given) (argument : String) : Except UsageError Given :=
  match g.settings.script with
  | some _ => .error (.unexpected argument)
  | none => .ok { g with settings := { g.settings with script := some argument } }

/-- What an argument says. -/
inductive Piece where
  | script (argument : String)
  /-- options, of which the last may want the next argument as its value -/
  | options (values : List (Key × String)) (wants : Option Key)
  /-- all that follows are no options -/
  | separator

/-- Options by their letters, one behind the other. What follows an option with a value is the
value. -/
def letters (argument : String) : List Char → Except UsageError Piece
  | [] => .ok (.options [] none)
  | c :: cs =>
    match Key.ofLetter? c with
    | none => .error (.unexpected argument)
    | some key =>
      if key.isFlag then do
        match ← letters argument cs with
        | .options values wants => return .options ((key, "") :: values) wants
        | piece => return piece
      else
        match cs with
        | [] => .ok (.options [] (some key))
        | '=' :: value => .ok (.options [(key, String.ofList value)] none)
        | value => .ok (.options [(key, String.ofList value)] none)

/-- An option by its name, perhaps with its value behind an equals sign. -/
def long (argument : String) : Except UsageError Piece :=
  let name := String.ofList (argument.toList.takeWhile (· ≠ '='))
  match Key.ofName? name, argument.toList.dropWhile (· ≠ '=') with
  | none, _ => .error (.unexpected argument)
  | some key, [] =>
    .ok (if key.isFlag then .options [(key, "")] none else .options [] (some key))
  | some key, _ :: value =>
    if key.isFlag then .error (.unexpected argument)
    else .ok (.options [(key, String.ofList value)] none)

def piece (argument : String) : Except UsageError Piece :=
  match argument.toList with
  | ['-', '-'] => .ok .separator
  | '-' :: '-' :: _ => long argument
  | '-' :: c :: cs => letters argument (c :: cs)
  | _ => .ok (.script argument)

/-- Whether an argument can be the value of the option in front of it. -/
def isValue (argument : String) : Bool :=
  match argument.toList with
  | '-' :: _ :: _ => false
  | _ => true

/-- Reads the arguments, the first of them being the value of `wants` if there is such an option. -/
def parseFrom (g : Given) (wants : Option Key) : List String → Except UsageError Given
  | [] =>
    match wants with
    | some key => .error (.missingValue key.name)
    | none => .ok g
  | argument :: rest =>
    match wants with
    | some key =>
      if isValue argument then do parseFrom (← g.put key argument) none rest
      else .error (.missingValue key.name)
    | none => do
      match ← piece argument with
      | .script argument => parseFrom (← g.putScript argument) none rest
      | .options values wants =>
        let g ← values.foldlM (fun g (key, value) => g.put key value) g
        parseFrom g wants rest
      | .separator => rest.foldlM Given.putScript g

def parse (arguments : List String) : Except UsageError Settings := do
  let g ← parseFrom {} none arguments
  if g.settings.script = some "" then throw (.missingValue "[SCRIPT]")
  return g.settings

end Settings

end Wordloom.CommandLine
