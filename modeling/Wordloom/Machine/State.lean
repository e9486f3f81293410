import Wordloom.Dictionary
import Wordloom.Machine.Frame
import Wordloom.Machine.Stack
import Wordloom.Output.Writer

/-!
# Wordloom.Machine.State

The state of a run, and the small steps that instructions are made of.
-/

namespace Wordloom

/-- Formats and limits of a run. -/
structure Options where
  capitals : Capitals := .none
  numberFormat : NumberFormat := .normal
  /-- in milliseconds -/
  timeout : Option Nat := none
  /-- how many characters may be printed to the run's own output -/
  charLimit : Option Nat := none
  maxCallDepth : Nat := 256
  maxStackSize : Nat := 4096

/-- What a run can reach beside its program. -/
structure Environment where
  registry : Registry
  pools : Std.TreeMap String SeedPool := {}
  dictionary : Option Dictionary := none
  /-- how many milliseconds a run has taken when it has executed so many instructions -/
  clock : Nat → Nat := fun _ => 0
  options : Options := {}

/-- How the next block is to be run. -/
structure Repeater where
  count : Option Nat := none
  separator : Option String := none

/-- A source position that a program has passed. -/
structure Marker where
  program : Nat
  line : Nat
  column : Nat

structure Machine where
  /-- the innermost frame -/
  frame : Frame
  /-- the frames below it, innermost first -/
  callers : List Frame := []
  stack : Stack
  /-- the output of the run -/
  root : Writer
  /-- outputs whose text is to become a value, innermost first -/
  nested : List Writer := []
  /-- the blocks being run, outermost first -/
  blocks : Array ActiveBlock := #[]
  repeater : Repeater := {}
  carriers : CarrierState := {}
  rng : Rng
  comparison : Comparison := .incomparable
  numberFormat : NumberFormat
  /-- the number of instructions executed -/
  executed : Nat := 0
  charsPrinted : Nat := 0
  /-- the instruction being executed -/
  current : Place
  marker : Option Marker := none

/-- A part of a run. -/
abbrev Running := EStateM Fault Machine

/-- What is left of a run. -/
inductive Status where
  | running
  | finished
deriving DecidableEq

namespace Machine

/-- A machine about to run a program. -/
def start (options : Options) (program : Program) (seed : UInt64) : Machine :=
  { frame := .new program 0 0 0
    stack := .withLimit options.maxStackSize
    root := .new options.capitals
    rng := .ofSeed seed
    numberFormat := options.numberFormat
    current := ⟨program, 0⟩ }

/-- The number of frames. -/
def depth (m : Machine) : Nat := m.callers.length + 1

/-- Changes the output that prints go to. -/
def onWriter (m : Machine) (f : Writer → Writer) : Machine :=
  match m.nested with
  | [] => { m with root := f m.root }
  | w :: ws => { m with nested := f w :: ws }

/-- The source position of the instruction being executed, if its program has passed a mark since
any other did. -/
def sourcePlace (m : Machine) : Option (Nat × Nat) :=
  match m.marker with
  | some mark => if mark.program = m.current.program.id then some (mark.line, mark.column) else none
  | none => none

/-- A fault at the instruction being executed. -/
def failure (m : Machine) (fault : Fault) : RuntimeError :=
  { program := m.current.program.name
    place := m.sourcePlace
    address := m.current.offset
    fault := fault }

end Machine

namespace Running

/-! ## Addresses -/

/-- Checks that an address is one of the program or its end. -/
def checkedAddress (address : Nat) : Running Nat := do
  if (← get).frame.program.code.size < address then throw (.invalidAddress address)
  else return address

/-- Checks the address of a jump or call. -/
def address (a : Int32) : Running Nat :=
  if a < 0 then throw (.invalidAddress a.toInt) else checkedAddress a.toInt.toNat

/-- Goes on at an offset. -/
def jump (offset : Nat) : Running Unit :=
  modify fun m => { m with frame := { m.frame with position := offset } }

/-! ## The stack -/

def push (v : Value) : Running Unit := fun m =>
  match m.stack.push v with
  | .ok stack => .ok () { m with stack }
  | .error fault => .error fault m

def pop : Running Value := fun m =>
  match m.stack.popAbove m.frame.floor with
  | .ok (v, stack) => .ok v { m with stack }
  | .error fault => .error fault m

/-- Checks that there are `n` values that the frame may take. -/
def need (n : Nat) : Running Unit := do
  let m ← get
  let available := m.stack.heightAbove m.frame.floor
  if available < n then throw (.insufficientArguments n available)

/-- Takes `n` values, in the order in which they were pushed. -/
def popArguments (n : Nat) : Running (List Value) := do
  need n
  let m ← get
  let (args, stack) := m.stack.splitAt (m.stack.size - n)
  set { m with stack }
  return args

/-- An argument of the frame. -/
def argument (i : Nat) : Running Value := do
  let m ← get
  if m.frame.argCount ≤ i then throw (.insufficientArguments (i + 1) m.frame.argCount)
  match m.stack.get? (m.frame.argBase + i) with
  | some v => return v
  | none => throw .stackUnderflow

/-! ## Tables -/

/-- What a table has at an index. -/
def entry (table : String) (index : Int) (found : Option α) : Running α :=
  match found with
  | some a => pure a
  | none => throw (.invalidIndex table index)

def string (index : Int32) : Running String := do
  entry "string" index.toInt ((← get).frame.program.string? index)

/-! ## Output -/

/-- Prints to the current output. Only what reaches the run's own output counts for the limit: text
that becomes a value counts when that is printed. -/
def print (options : Options) (text : String) : Running Unit := do
  let m ← get
  if m.nested.isEmpty then
    let printed := m.charsPrinted + text.length
    set { m with charsPrinted := printed }
    match options.charLimit with
    | some limit => if limit < printed then throw (.charLimitExceeded limit)
    | none => pure ()
  modify (·.onWriter (·.edit (.print text)))

/-- Opens an output whose text is to become a value. -/
def openOutput (options : Options) : Running Unit :=
  modify fun m => { m with nested := .new options.capitals :: m.nested }

/-- Closes the innermost such output and gives its text. -/
def closeOutput : Running String := do
  let m ← get
  match m.nested with
  | [] => throw (.internal "no nested output to return")
  | w :: ws =>
    set { m with nested := ws }
    return w.mainText

/-! ## Frames -/

/-- Enters a frame. -/
def enter (options : Options) (frame : Frame) : Running Unit := do
  let m ← get
  if options.maxCallDepth ≤ m.depth then throw (.callStackOverflow options.maxCallDepth)
  set { m with frame := { frame with blocks := m.blocks.size }, callers := m.frame :: m.callers }

/-- Calls the subroutine at an address, with the topmost `count` values as its arguments. -/
def call (options : Options) (address count : Nat) : Running Unit := do
  need count
  let m ← get
  enter options (.new m.frame.program address (m.stack.size - count) count)

def callProgram (options : Options) (index : UInt16) : Running Unit := do
  let m ← get
  let target ← entry "reference" index.toNat (m.frame.program.reference? index)
  enter options (.new target 0 m.stack.size 0)

/-- Runs the code at an address on behalf of the frame, and then goes on with its value. -/
def evaluate (options : Options) (address : Nat) (next : Continuation) : Running Unit := do
  let address ← checkedAddress address
  let m ← get
  enter options
    { m.frame with
      position := address
      stackBase := m.stack.size
      evaluation := some ⟨m.current, next⟩ }

end Running

end Wordloom
