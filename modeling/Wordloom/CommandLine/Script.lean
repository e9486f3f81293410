import Wordloom.CommandLine.Session
import Wordloom.CommandLine.Settings

/-!
# Wordloom.CommandLine.Script

Runs of the command line: a script is compiled or loaded and then listed, saved or run; without a
script the lines of the input are.
-/

namespace Wordloom.CommandLine

/-! ## Files -/

/-- Why a file cannot be read or written. -/
inductive FileError where
  | notFound
  | denied
  | notADirectory
  | isADirectory
  | invalidText
  | other (message : String)
deriving DecidableEq

def FileError.message : FileError → String
  | .notFound => "No such file or directory (os error 2)"
  | .denied => "Permission denied (os error 13)"
  | .notADirectory => "Not a directory (os error 20)"
  | .isADirectory => "Is a directory (os error 21)"
  | .invalidText => "stream did not contain valid UTF-8"
  | .other message => message

/-- The parts of a path, without those that mean the directory itself. -/
def pathParts (path : String) : List String :=
  (path.splitOn "/").filter fun part => part ≠ "" && part ≠ "."

/-- A file's name without its extension. -/
def stemChars (name : List Char) : List Char :=
  match name.reverse.dropWhile (· ≠ '.') with
  | _ :: c :: stem => (c :: stem).reverse
  | _ => name

/-- The name that a script has in messages. -/
def scriptName (path : String) : String :=
  match (pathParts path).getLast? with
  | none | some ".." => "main"
  | some name => String.ofList (stemChars name.toList)

/-- Files of one directory, by their paths. -/
abbrev Files := List (String × List UInt8)

namespace Files

/-- Whether there is a file below the path. -/
def hasBelow (files : Files) (parts : List String) : Bool :=
  files.any fun (path, _) => parts.isPrefixOf (pathParts path) && parts ≠ pathParts path

def get? (files : Files) (path : String) : Option (List UInt8) :=
  (files.find? fun (p, _) => pathParts p = pathParts path).map (·.2)

/-- Why there is no file to be read at the path. -/
def missing (files : Files) (path : String) : FileError :=
  let parts := pathParts path
  if parts.isEmpty && path ≠ "" || files.hasBelow parts then .isADirectory
  else if files.any fun (p, _) => (pathParts p).isPrefixOf parts then .notADirectory
  else .notFound

def read (files : Files) (path : String) : Except FileError (List UInt8) :=
  match files.get? path with
  | some bytes => .ok bytes
  | none => .error (files.missing path)

/-- Writes a file, if its directory is there. -/
def write (files : Files) (path : String) (bytes : List UInt8) : Except FileError Files :=
  let parts := pathParts path
  let rest := files.filter fun (p, _) => pathParts p ≠ parts
  if rest.length < files.length then .ok ((path, bytes) :: rest)
  else
    match files.missing path with
    | .notFound =>
      if parts.length = 1 || files.hasBelow parts.dropLast then .ok ((path, bytes) :: files)
      else .error .notFound
    | e => .error e

end Files

/-! ## Scripts -/

/-- What becomes of a script. -/
inductive Result where
  /-- the run is over, with this status -/
  | done (written : Written) (status : Nat)
  /-- these bytes are to be written to a file -/
  | save (path : String) (bytes : List UInt8)
deriving DecidableEq

/-- The end of a run that an error puts an end to. -/
def fail (message : String) : Result := .done { err := s!"Error: {message}\n" } 1

/-- The message of a file error and what was being done. -/
def fileMessage (activity path : String) (e : FileError) : String :=
  s!"{activity} {path}\n\nCaused by:\n    {e.message}"

/-- The number of seeds in a pool. -/
def poolSize : Nat := 16

def Settings.engine (s : Settings) : Engine :=
  s.pools.foldl (fun e (name, seed) => e.addPool name (.ofSeed seed poolSize)) {}

/-- Compiles or loads a script. -/
def Settings.program (s : Settings) (path : String) (content : Except FileError (List UInt8)) :
    Except String Program := do
  let bytes ← content.mapError (fileMessage "reading" path)
  if s.compiled then (s.engine.load bytes).mapError (·.message)
  else
    match Text.ofUtf8? bytes with
    | none => throw (fileMessage "reading" path .invalidText)
    | some source =>
      let name := scriptName path
      (s.engine.compile name source s.debug).mapError (·.message name)

def channelText (c : Channel) : String := s!"[{c.name} ({c.visibility.name})]\n{c.text}\n"

/-- What is written when a script is run. -/
def Settings.resultOf (s : Settings) : Outcome → Result
  | .output o =>
    let shown := if s.channels then String.join (o.channels.map channelText) else o.main ++ "\n"
    .done { out := shown } 0
  | .failure e => .done { err := e.message ++ "\n" } 1
  | .unfinished => .done {} 1

/-- Does what the settings say with a script, given what reading it has brought. -/
def Settings.runScript (s : Settings) (path : String) (content : Except FileError (List UInt8)) :
    Result :=
  match s.program path content with
  | .error message => fail message
  | .ok p =>
    if s.disassemble then .done { out := p.disassemble } 0
    else
      match s.output with
      | some target => .save target (Container.save p)
      | none => s.resultOf (s.engine.run p s.seed s.options)

/-- The end of a run that has written a file, or failed to. -/
def saved (path : String) : Except FileError α → Written × Nat
  | .ok _ => ({}, 0)
  | .error e => ({ err := "Error: " ++ fileMessage "writing" path e ++ "\n" }, 1)

def Settings.session (s : Settings) : Session :=
  { engine := s.engine, options := s.options, debug := s.debug, seed := s.seed }

/-! ## The command line -/

/-- What a run of the command line leaves. -/
structure Report where
  written : Written
  status : Nat
  files : Files

/-- Runs the command line in a directory of files, with a text as its input. -/
def run (files : Files) (arguments : List String) (input : String) : Report :=
  match Settings.parse arguments with
  | .error e => ⟨{ err := e.message ++ "\n" }, 2, files⟩
  | .ok s =>
    match s.script with
    | none => ⟨s.session.run (linesOf input), 0, files⟩
    | some path =>
      match s.runScript path (files.read path) with
      | .done written status => ⟨written, status, files⟩
      | .save target bytes =>
        let result := files.write target bytes
        let (written, status) := saved target result
        ⟨written, status, result.toOption.getD files⟩

end Wordloom.CommandLine
