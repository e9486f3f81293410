import Wordloom.Machine.Fault
import Wordloom.Output.Chain
import Wordloom.Rng

/-!
# Wordloom.Machine.Routine

Functions that patterns can call. What a function does is a routine: a sequence of requests that
the machine carries out one after the other, each of them choosing what comes next.
-/

namespace Wordloom

inductive Routine where
  | done
  | fail (fault : Fault)
  /-- prints to the current output -/
  | print (text : String) (next : Routine)
  /-- asks for the printed form of a value -/
  | textOf (value : Value) (next : String → Routine)
  /-- edits the current output -/
  | edit (e : Edit) (next : Routine)
  /-- sets how often the next block runs -/
  | setRepeat (count : Nat) (next : Routine)
  /-- sets what the next block prints between its runs -/
  | setSeparator (text : String) (next : Routine)
  | setNumberFormat (format : NumberFormat) (next : Routine)
  | getRng (next : Rng → Routine)
  | setRng (rng : Rng) (next : Routine)
  /-- asks for the seed pool of a name -/
  | getPool (name : String) (next : SeedPool → Routine)
  /-- runs code of the calling program, and asks for the value it leaves -/
  | evaluate (address : Nat) (next : Value → Routine)

/-- How an argument is prepared. -/
inductive ParamKind where
  /-- what it prints, as a string -/
  | text
  /-- what it prints, as a number -/
  | number
  /-- the address of its code, for the function to run -/
  | pattern
deriving DecidableEq

structure Function where
  name : String
  params : List ParamKind
  routine : List Value → Routine

/-- Functions by number, in the order in which they were registered. -/
structure Registry where
  functions : Array Function := #[]

namespace Registry

/-- Adds a function and gives its number. -/
def register (r : Registry) (f : Function) : Nat × Registry :=
  (r.functions.size, ⟨r.functions.push f⟩)

def get? (r : Registry) (id : Nat) : Option Function := r.functions[id]?

/-- The number of the function that was registered last under a name. -/
def lookup? (r : Registry) (name : String) : Option (Nat × Function) :=
  (r.functions.toList.zipIdx.reverse.find? (·.1.name == name)).map fun (f, id) => (id, f)

def size (r : Registry) : Nat := r.functions.size

end Registry

end Wordloom
