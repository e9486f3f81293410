import Wordloom.Machine.Routine
import Wordloom.Program

/-!
# Wordloom.Machine.Frame

One activation: a subroutine call, an imported program, or code that is evaluated on behalf of the
activation below it. Evaluated code works on the locals and arguments of that one, and carries what
is to be done with its value.
-/

namespace Wordloom

/-- A block that is being run: what it prints between two runs, and how many are left. -/
structure ActiveBlock where
  block : Block
  remaining : Nat
  separator : Option String

/-- What goes on when evaluated code is done, with the value that it leaves. -/
inductive Continuation where
  /-- a function that asked for the value -/
  | routine (next : Value → Routine)
  /-- the choice of an item of a block: the value is the weight of the item in front of `rest`,
  whose weights come behind `weights`. The block is entered if `entered` says so, and otherwise
  repeated. -/
  | choice (block : Block) (entered : Option ActiveBlock) (weights : List Float)
    (rest : List BlockItem)

/-- An instruction that is or was being executed. -/
structure Place where
  program : Program
  offset : Nat

/-- What an evaluation returns to. -/
structure Return where
  place : Place
  next : Continuation

structure Frame where
  program : Program
  /-- offset of the next instruction -/
  position : Nat
  /-- height of the stack when the frame was entered, without its arguments -/
  stackBase : Nat
  argBase : Nat
  argCount : Nat
  /-- for evaluated code, what it returns to -/
  evaluation : Option Return := none
  locals : Array Value := #[]
  /-- number of active blocks when the frame was entered -/
  blocks : Nat := 0

namespace Frame

/-- A frame of its own, whose arguments are the topmost `argCount` values above `stackBase`. -/
def new (program : Program) (position stackBase argCount : Nat) : Frame :=
  { program, position, stackBase, argBase := stackBase, argCount }

/-- The height down to which a frame may take values from the stack. -/
def floor (f : Frame) : Nat :=
  if f.evaluation.isSome then f.stackBase else f.stackBase + f.argCount

/-- A local that has not been set is undefined. -/
def getLocal (f : Frame) (i : Nat) : Value := f.locals.getD i .undefined

/-- Makes room for a local. -/
def reserve (f : Frame) (i : Nat) : Frame :=
  { f with locals := f.locals ++ Array.replicate (i + 1 - f.locals.size) Value.undefined }

def setLocal (f : Frame) (i : Nat) (v : Value) : Frame :=
  let f := f.reserve i
  { f with locals := f.locals.setIfInBounds i v }

end Frame

end Wordloom
