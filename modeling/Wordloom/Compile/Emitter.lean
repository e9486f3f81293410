import Wordloom.Instr.Codec
import Wordloom.Output.Chain
import Wordloom.Position
import Wordloom.Program

/-!
# Wordloom.Compile.Emitter

A program while it is being built. Instructions are encoded at once; a jump ahead is written with
no target and set right when the target is known. Prints that follow one another become one, and
equal strings are stored once.
-/

namespace Wordloom

/-- The instructions that refer to a string. -/
inductive StringUse where
  | print
  | push
  | openChannel (visibility : Visibility)
deriving DecidableEq

def StringUse.instr (index : Int32) : StringUse → Instr
  | .print => .printString index
  | .push => .pushString index
  | .openChannel visibility => .openChannel index visibility.toByte

/-- The last instruction, if it prints a string: its offset and the index of the string. -/
structure LastPrint where
  offset : Nat
  index : Nat
deriving DecidableEq

/-- Names in the order in which they were added. What is looked up in `indices` is what a search for the
first of the names would find, at less cost for long tables. -/
structure NameTable where
  indices : Std.TreeMap String Nat
  names : Array String
  getElem?_indices (name : String) : indices[name]? = names.findIdx? (· == name)

namespace NameTable

def empty : NameTable := ⟨{}, #[], by simp⟩

def index? (t : NameTable) (name : String) : Option Nat := t.indices[name]?

theorem index?_eq (t : NameTable) (name : String) : t.index? name = t.names.findIdx? (· == name) :=
  t.getElem?_indices name

def push (t : NameTable) (name : String) : NameTable where
  indices := t.indices.insertIfNew name t.names.size
  names := t.names.push name
  getElem?_indices other := by
    rw [Std.TreeMap.getElem?_insertIfNew, Array.findIdx?_push, ← t.getElem?_indices]
    by_cases heq : name = other
    · subst heq
      cases hfound : t.indices[name]? <;> simp [Std.TreeMap.mem_iff_isSome_getElem?, hfound]
    · simp [heq]

end NameTable

structure Emitter where
  debug : Bool
  code : Array UInt8 := #[]
  strings : Array String := #[]
  /-- where each string is -/
  stringIndex : Std.TreeMap String Nat := {}
  /-- how many instructions refer to each string -/
  uses : Array Nat := #[]
  lastPrint : Option LastPrint := none
  blocks : Array Block := #[]
  regexes : Array Regex := #[]
  queries : Array Query := #[]
  references : Array Program := #[]
  referenceTable : NameTable := .empty

namespace Emitter

/-- The offset of the next instruction. -/
def position (e : Emitter) : Nat := e.code.size

abbrev referenceNames (e : Emitter) : Array String := e.referenceTable.names

/-- Appends an instruction. -/
def emit (e : Emitter) (i : Instr) : Emitter :=
  { e with code := e.code ++ i.encode, lastPrint := none }

/-- A count as an operand, or the greatest operand there is. -/
def clamp (n : Nat) : Int32 := Int32.ofNat (min n 0x7fffffff)

/-- Appends a mark of the source position, if such marks are wanted. -/
def mark (e : Emitter) (p : Position) : Emitter :=
  if e.debug then e.emit (.debug (clamp p.line) (clamp p.column) (clamp p.offset)) else e

/-- Writes bytes over those from an offset on. -/
def overwrite (code : Array UInt8) (offset : Nat) : List UInt8 → Array UInt8
  | [] => code
  | b :: bs => overwrite (code.setIfInBounds offset b) (offset + 1) bs

/-- Puts an instruction in the place of one of the same size. -/
def replaceAt (e : Emitter) (offset : Nat) (i : Instr) : Emitter :=
  { e with code := overwrite e.code offset i.encode }

/-! ## Strings -/

/-- The index of a string, which is added if it is new, with one more use. -/
def intern (e : Emitter) (s : String) : Nat × Emitter :=
  match e.stringIndex[s]? with
  | some i => (i, { e with uses := e.uses.modify i (· + 1) })
  | none =>
    (e.strings.size,
      { e with
        strings := e.strings.push s
        stringIndex := e.stringIndex.insert s e.strings.size
        uses := e.uses.push 1 })

/-- Appends `s` to the string of the last print. The string grows in place if nothing else uses it
and the longer one is new; otherwise the print is pointed at the longer one. -/
def extendPrint (e : Emitter) (last : LastPrint) (s : String) : Emitter :=
  let old := e.strings.getD last.index ""
  let longer := old ++ s
  if e.uses.getD last.index 0 = 1 ∧ !e.stringIndex.contains longer then
    { e with
      strings := e.strings.setIfInBounds last.index longer
      stringIndex := (e.stringIndex.erase old).insert longer last.index }
  else
    let e := { e with uses := e.uses.modify last.index (· - 1) }
    let (i, e) := e.intern longer
    { e.replaceAt last.offset (.printString (Int32.ofNat i)) with
      lastPrint := some ⟨last.offset, i⟩ }

/-- Appends an instruction that refers to a string. -/
def emitString (e : Emitter) (use : StringUse) (s : String) : Emitter :=
  match use, e.lastPrint with
  | .print, some last => e.extendPrint last s
  | use, _ =>
    let (i, e) := e.intern s
    let offset := e.position
    let e := e.emit (use.instr (Int32.ofNat i))
    if use = .print then { e with lastPrint := some ⟨offset, i⟩ } else e

/-! ## Jumps -/

/-- Points the jump at `offset` to `target`. When that is where the next instruction goes, a print
there must not be joined with one before it. -/
def patch (e : Emitter) (offset target : Nat) : Emitter :=
  let e := if e.code.size ≤ target then { e with lastPrint := none } else e
  match Instr.decodeAt e.code offset with
  | .ok (i, _) =>
    if i.target?.isSome then e.replaceAt offset (i.withTarget (Int32.ofNat target)) else e
  | .error _ => e

/-- Points the jump at `offset` to where the next instruction goes. -/
def patchHere (e : Emitter) (offset : Nat) : Emitter := e.patch offset e.position

/-! ## Tables -/

/-- Adds a block that is to be filled in later. -/
def reserveBlock (e : Emitter) : Nat × Emitter :=
  (e.blocks.size, { e with blocks := e.blocks.push ⟨0, []⟩ })

def setBlock (e : Emitter) (index : Nat) (b : Block) : Emitter :=
  { e with blocks := e.blocks.setIfInBounds index b }

/-- The index of a regular expression, which is added if it is new. -/
def addRegex (e : Emitter) (source : String) : Except Regex.Error (Nat × Emitter) :=
  match e.regexes.findIdx? (·.source == source) with
  | some i => .ok (i, e)
  | none =>
    (Regex.compile source).map fun r => (e.regexes.size, { e with regexes := e.regexes.push r })

def addQuery (e : Emitter) (q : Query) : Nat × Emitter :=
  (e.queries.size, { e with queries := e.queries.push q })

/-- The index of an imported program, which is added if its name is new; 16 bits of it. -/
def addReference (e : Emitter) (name : String) (p : Program) : UInt16 × Emitter :=
  match e.referenceTable.index? name with
  | some i => (i.toUInt16, e)
  | none =>
    (e.references.size.toUInt16,
      { e with
        references := e.references.push p
        referenceTable := e.referenceTable.push name })

/-! ## The program -/

/-- The index of a string once those without uses are gone. -/
def newIndex (uses : Array Nat) (index : Int32) : Int32 :=
  if 0 ≤ index ∧ index.toInt < uses.size then
    Int32.ofNat ((uses.toList.take index.toInt.toNat).countP (0 < ·))
  else index

/-- The same instruction with another index for its string. -/
def renumber (index : Int32 → Int32) : Instr → Instr
  | .printString i => .printString (index i)
  | .pushString i => .pushString (index i)
  | .openChannel i visibility => .openChannel (index i) visibility
  | i => i

/-- Removes strings that nothing refers to and renumbers the others. -/
def dropUnused (e : Emitter) : Emitter :=
  if e.uses.all (0 < ·) then e
  else
    let kept := (e.strings.toList.zip e.uses.toList).filter (0 < ·.2)
    let code := (Instr.decodeAll e.code).1.foldl
      (fun code (offset, i) => overwrite code offset (renumber (newIndex e.uses) i).encode) e.code
    { e with
      code := code
      strings := (kept.map (·.1)).toArray
      stringIndex := .ofList (kept.map (·.1)).zipIdx
      uses := (kept.map (·.2)).toArray
      lastPrint := none }

/-- The finished program. -/
def build (e : Emitter) (name : String) : Program :=
  let e := e.dropUnused
  { name := name
    code := e.code
    strings := e.strings
    blocks := e.blocks
    regexes := e.regexes
    queries := e.queries
    references := e.references.toList
    referenceNames := e.referenceNames }

end Emitter

end Wordloom
