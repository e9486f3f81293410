import Wordloom.Instr
import Wordloom.Query
import Wordloom.Regex.Parse

/-!
# Wordloom.Program

Compiled patterns: code, the tables its instructions refer to, and the programs it calls.
-/

namespace Wordloom

/-- How likely an item of a block is, beside the others. -/
inductive Weight where
  | none
  | constant (bits : UInt64)
  /-- code at this address leaves the weight on the stack -/
  | interpreted (offset : UInt32)
deriving DecidableEq

structure BlockItem where
  offset : UInt32
  weight : Weight
deriving DecidableEq

/-- The alternatives of a block and the address behind it. -/
structure Block where
  endAddress : UInt32
  items : List BlockItem
deriving DecidableEq

/-- A compiled pattern. -/
structure Program where
  /-- tells programs apart that are otherwise alike -/
  id : Nat := 0
  name : String
  code : Array UInt8
  strings : Array String := #[]
  blocks : Array Block := #[]
  regexes : Array Regex := #[]
  queries : Array Query := #[]
  /-- the programs called by index -/
  references : List Program := []
  /-- the names by which they were imported -/
  referenceNames : Array String := #[]

namespace Program

/-- Looks up a table by an index that may be negative. -/
def lookup? (table : Array α) (index : Int32) : Option α :=
  if index < 0 then none else table[index.toInt.toNat]?

def string? (p : Program) (index : Int32) : Option String := lookup? p.strings index

def block? (p : Program) (index : Int32) : Option Block := lookup? p.blocks index

def query? (p : Program) (index : Int32) : Option Query := lookup? p.queries index

def reference? (p : Program) (index : UInt16) : Option Program := p.references[index.toNat]?

mutual

/-- Numbers the programs that a program refers to, from `n` on, so that they differ from one
another; gives the first number not used as well. -/
def numberReferences (n : Nat) : Program → Program × Nat
  | ⟨id, name, code, strings, blocks, regexes, queries, references, referenceNames⟩ =>
    let (references, n) := numberAll n references
    (⟨id, name, code, strings, blocks, regexes, queries, references, referenceNames⟩, n)

def numberAll (n : Nat) : List Program → List Program × Nat
  | [] => ([], n)
  | p :: ps =>
    let (p, next) := p.numberReferences (n + 1)
    let (ps, next) := numberAll next ps
    ({ p with id := n } :: ps, next)

end

end Program

end Wordloom
