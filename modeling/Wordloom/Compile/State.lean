import Wordloom.Compile.Emitter
import Wordloom.Compile.Scopes
import Wordloom.Machine.Routine
import Wordloom.Token.Reader
import Wordloom.Token.Scan

/-!
# Wordloom.Compile.State

What the compilation of a pattern works on: the tokens still to be read, the program so far, and
the names in scope.
-/

namespace Wordloom.Compile

/-- What a pattern may refer to beside itself. -/
structure Context where
  /-- whether the program gets marks of source positions -/
  debug : Bool := false
  registry : Registry
  imports : Std.TreeMap String Program := {}

/-- What a variable's name stands for, in the frame of the given number. -/
inductive Slot where
  | var (frame index : Nat)
  | arg (frame index : Nat)
deriving DecidableEq

structure Subroutine where
  address : Nat
  arity : Nat
deriving DecidableEq

structure Compilation where
  reader : Token.Reader
  out : Emitter
  slots : Scopes Slot := {}
  subroutines : Scopes Subroutine := {}
  /-- the number of locals in the innermost frame -/
  locals : Nat := 0
  /-- the numbers of locals in the frames around it, innermost first -/
  outerLocals : List Nat := []

/-- A step of a compilation. -/
abbrev Compiling := EStateM Error Compilation

namespace Compilation

/-- A compilation that has not read anything yet. -/
def start (ctx : Context) (source : String) : Compilation :=
  { reader := { rest := Token.scan source, finish := .endOf source }
    out := { debug := ctx.debug } }

/-! ## Frames and names -/

/-- The number of open frames. -/
def frame (c : Compilation) : Nat := c.outerLocals.length + 1

/-- Opens a frame, which has variables and subroutines of its own. -/
def openFrame (c : Compilation) : Compilation :=
  { c with
    slots := c.slots.openNew
    subroutines := c.subroutines.openNew
    locals := 0
    outerLocals := c.locals :: c.outerLocals }

/-- Closes the innermost frame; the outermost one stays. -/
def closeFrame (c : Compilation) : Compilation :=
  { c with
    slots := c.slots.closeInner.2
    subroutines := c.subroutines.closeInner.2
    locals := c.outerLocals.headD c.locals
    outerLocals := c.outerLocals.tail }

/-- The index of a local of the innermost frame. -/
def local? (c : Compilation) (name : String) : Option Nat :=
  match c.slots.find? name with
  | some (.var frame index) => if frame = c.frame then some index else none
  | _ => none

/-- The index of an argument of the innermost frame. -/
def argument? (c : Compilation) (name : String) : Option Nat :=
  match c.slots.find? name with
  | some (.arg frame index) => if frame = c.frame then some index else none
  | _ => none

def addLocal (c : Compilation) (name : String) : Compilation :=
  { c with slots := c.slots.add name (.var c.frame c.locals), locals := c.locals + 1 }

/-- Names the arguments of the innermost frame, the first of which has the index `index`. -/
def addArguments (c : Compilation) (index : Nat) : List String → Compilation
  | [] => c
  | name :: names =>
    { c with slots := c.slots.add name (.arg c.frame index) }.addArguments (index + 1) names

end Compilation

namespace Compiling

def fail (position : Position) (cause : Cause) : Compiling α := throw ⟨position, cause⟩

/-! ## Tokens -/

/-- Reads tokens. -/
def reading (action : Token.Reading α) : Compiling α := fun c =>
  match action c.reader with
  | .ok a reader => .ok a { c with reader }
  | .error e reader => .error e { c with reader }

def read (wanted : String) : Compiling Token := reading (.read wanted)

def readLoose (wanted : String) : Compiling Token := reading (.readLoose wanted)

def expect (kind : Token.Kind) (wanted : String) : Compiling Token := reading (.expect kind wanted)

def expectLoose (kind : Token.Kind) (wanted : String) : Compiling Token :=
  reading (.expectLoose kind wanted)

def take (kind : Token.Kind) : Compiling Bool := reading (.take kind)

def takeLoose (kind : Token.Kind) : Compiling Bool := reading (.takeLoose kind)

def peekLoose : Compiling (Option Token) := reading .peekLoose

def peekKindLoose : Compiling (Option Token.Kind) := return (← peekLoose).map (·.kind)

def constantUntil (stops : List Token.Kind) : Compiling (Option String) :=
  reading (.constantUntil stops)

/-- The place of the next token. -/
def position : Compiling Position := return (← get).reader.position

/-- The place of the last token read. -/
def lastPosition : Compiling Position := return (← get).reader.last

/-- The tokens that are still to be read. -/
def tokens : Compiling (List Token) := return (← get).reader.rest

/-- A bound for anything that reads a token each time round. -/
def tokensLeft : Compiling Nat := return (← get).reader.rest.length

/-! ## Code -/

def output (f : Emitter → Emitter) : Compiling Unit := modify fun c => { c with out := f c.out }

/-- The offset of the next instruction. -/
def offset : Compiling Nat := return (← get).out.position

def emit (i : Instr) : Compiling Unit := output (·.emit i)

/-- Appends an instruction and gives its offset. -/
def emitAt (i : Instr) : Compiling Nat := do
  let place ← offset
  emit i
  return place

def emitString (use : StringUse) (s : String) : Compiling Unit := output (·.emitString use s)

/-- Points the jump at `jump` to where the next instruction goes. -/
def land (jump : Nat) : Compiling Unit := output (·.patchHere jump)

/-! ## Names -/

/-- The index of a local of the innermost frame, which is added if it is new. -/
def declareLocal (name : String) (position : Position) : Compiling Nat := do
  let c ← get
  match c.local? name with
  | some index => return index
  | none =>
    if c.locals + 1 < UInt16.size then
      set (c.addLocal name)
      return c.locals
    else fail position (.limit "too many locals")

end Compiling

end Wordloom.Compile
