import Wordloom.CommandLine.Script

/-!
# Wordloom.Main

The command line: it reads and writes files and streams, and leaves all else to
`Wordloom.CommandLine`.
-/

namespace Wordloom.CommandLine

def FileError.ofSystem : IO.Error → FileError
  | .noFileOrDirectory .. => .notFound
  | .permissionDenied .. => .denied
  | e => .other (toString e)

def Written.emit (w : Written) : IO Unit := do
  IO.print w.out
  IO.eprint w.err
  (← IO.getStdout).flush

def readFile (path : String) : IO (Except FileError (List UInt8)) := do
  try
    return .ok (← IO.FS.readBinFile path).data.toList
  catch e => return .error (.ofSystem e)

def writeFile (path : String) (bytes : List UInt8) : IO (Except FileError Unit) := do
  try
    IO.FS.writeBinFile path ⟨bytes.toArray⟩
    return .ok ()
  catch e => return .error (.ofSystem e)

/-- Reads lines and does what they say. -/
partial def converse (s : Session) : IO Unit := do
  let line ← (← IO.getStdin).getLine
  unless line.isEmpty do
    let (next, written) := s.step (String.ofList (chompChars line.toList))
    written.emit
    match next with
    | some s => converse s
    | none => pure ()

end Wordloom.CommandLine

open Wordloom.CommandLine in
def main (arguments : List String) : IO UInt32 := do
  match Settings.parse arguments with
  | .error e =>
    IO.eprintln e.message
    return 2
  | .ok s =>
    match s.script with
    | none =>
      converse s.session
      return 0
    | some path =>
      match s.runScript path (← readFile path) with
      | .done written status =>
        written.emit
        return status.toUInt32
      | .save target bytes =>
        let (written, status) := saved target (← writeFile target bytes)
        written.emit
        return status.toUInt32
