import Wordloom.Compile.State

/-!
# Wordloom.Compile.Construct

The constructs a pattern is made of, while they are being compiled. A construct that meets a
pattern inside it waits until that one is compiled; so constructs are kept in a list, the innermost
first, and nesting is as deep as the list is long.
-/

namespace Wordloom.Compile

/-! ## Patterns -/

/-- What a pattern ends at. -/
inductive Terminator where
  | root
  | argument
  | blockItem
  | weight
deriving DecidableEq

namespace Terminator

/-- Whether the pattern ends before a token of this kind. -/
def endsAt : Terminator → Token.Kind → Bool
  | .root, _ => false
  | .argument, k => k = .semicolon || k = .rightSquare
  | .blockItem, k => k = .pipe || k = .rightCurly
  | .weight, k => k = .asterisk

def description : Terminator → String
  | .root => "end of pattern"
  | .argument => "';' or ']'"
  | .blockItem => "'|' or '\x7d'"
  | .weight => "'*'"

end Terminator

/-! ## Blocks -/

/-- A block with the items it has so far. -/
structure OpenBlock where
  index : Nat
  items : List BlockItem := []

/-! ## Tags -/

/-- What a tag does with its arguments. -/
inductive Action where
  | openChannel
  | closeChannel
  | setLocal
  | getLocal
  | swapLocals
  | arithmetic (op : Arithmetic)
  | concat
  /-- compares two values; the jump is taken if the comparison holds -/
  | compare (jump : Instr) (numeric : Bool)
  /-- compares a number with zero -/
  | compareZero (jump : Instr)
  | getArgument
  | call (subroutine : Subroutine)
  /-- defines a subroutine; a jump at the offset leads around it -/
  | define (skip : Nat)
  | callProgram
  | native (id : Nat) (params : List ParamKind)

/-- How an argument is compiled. -/
inductive ArgumentMode where
  /-- a constant that the compiler uses itself -/
  | name
  /-- leaves a string on the stack -/
  | captured
  /-- leaves a number on the stack -/
  | number
  /-- prints -/
  | inline
  /-- leaves the address of its code on the stack -/
  | outOfLine
deriving DecidableEq

/-- A tag: its name in messages, what it does, and how many arguments it takes. -/
structure Tag where
  name : String
  action : Action
  min : Nat
  max : Nat

/-- What is to be done when an argument has been compiled. -/
inductive After where
  | capture
  | captureNumber
  | nothing
  | outOfLine (skip start : Nat)
deriving DecidableEq

/-- A tag with what is known of its arguments so far. -/
structure OpenTag where
  tag : Tag
  start : Position
  /-- the number of arguments compiled -/
  index : Nat := 0
  names : List String := []
  /-- a number that is pushed only if it cannot be computed with now -/
  deferred : Option UInt64 := none
  /-- whether the result has been computed -/
  folded : Bool := false
  /-- the jump that leads to what is printed if a comparison fails -/
  elseJump : Option Nat := none
  /-- the jump that leads around that -/
  endJump : Option Nat := none

/-! ## All together -/

inductive Construct where
  | pattern (stop : Terminator)
  | escape (token : Token)
  | query (start : Position)
  /-- a tag whose opening bracket has been read -/
  | tag (start : Position)
  /-- a tag that waits for an argument -/
  | argument (tag : OpenTag) (after : After)
  /-- a block whose opening bracket has been read -/
  | block
  /-- a block that waits for the weight of its next item, whose code starts at the offset -/
  | weight (block : OpenBlock) (offset : Nat)
  /-- a block that waits for an item -/
  | item (block : OpenBlock)

/-- Where the compilation of a construct has got to. -/
inductive Step where
  | done
  /-- `self` goes on when `child` is compiled -/
  | push (self child : Construct)

end Wordloom.Compile
