import Wordloom.Instr.Codec
import Wordloom.Program
import Wordloom.Text.Quoted

/-!
# Wordloom.Program.Listing

Programs as text: a line for each instruction with a note on what it refers to, then the strings.
-/

namespace Wordloom.Program

/-- What an instruction refers to. -/
def note? (p : Program) : Instr → Option String
  | .printString i | .pushString i | .openChannel i _ => (p.string? i).map Text.quote
  | .block i =>
    (p.block? i).map fun b =>
      let items := b.items.map fun item => Text.hex 4 item.offset.toNat
      "items [" ++ String.intercalate ", " items ++ "], end " ++ Text.hex 4 b.endAddress.toNat
  | .query i => (p.query? i).map fun q => "<" ++ q.table.getD "" ++ ">"
  | .callProgram i => p.referenceNames[i.toNat]?
  | _ => none

def instrLine (p : Program) (offset : Nat) (i : Instr) : String :=
  match p.note? i with
  | some note => s!"{Text.hex 4 offset}  {Text.padRight 36 i.text} ; {note}"
  | none => s!"{Text.hex 4 offset}  {i.text}"

def stringLine (i : Nat) (s : String) : String :=
  Text.padLeft ' ' 4 (toString i) ++ "  " ++ Text.quote s

/-- The lines of a listing. The code is listed up to the first byte that begins no instruction. -/
def lines (p : Program) : List String :=
  let (placed, error) := Instr.decodeAll p.code
  let code := placed.map fun (offset, i) => p.instrLine offset i
  let stop := match error with
    | some (offset, e) => [s!"{Text.hex 4 offset}  ; {e.message}"]
    | none => []
  let strings :=
    if p.strings.isEmpty then []
    else "; strings" :: p.strings.toList.zipIdx.map fun (s, i) => stringLine i s
  s!"; {p.name} ({p.code.size} bytes)" :: code ++ stop ++ strings

/-- The listing of a program. -/
def disassemble (p : Program) : String :=
  p.lines.foldl (fun out line => out ++ line ++ "\n") ""

end Wordloom.Program
