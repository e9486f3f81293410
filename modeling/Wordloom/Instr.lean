import Wordloom.Decimal.Layout

/-!
# Wordloom.Instr

The instructions of a program. Addresses are byte offsets into the code that the instruction is
part of; strings, blocks and queries are named by their indices in the program's tables. Numbers
are held as the bit patterns of doubles.
-/

namespace Wordloom

inductive Instr where
  /-- the source position of the code that follows -/
  | debug (line column offset : Int32)
  | printString (index : Int32)
  | printNumber (bits : UInt64)
  | openChannel (name : Int32) (visibility : UInt8)
  | closeChannel
  | block (index : Int32)
  | blockEnd
  /-- prints the value on top of the stack -/
  | print
  | printChars (charClass : UInt8) (count : Int32)
  | nativeCall (id : UInt16) (count : UInt8)
  | return
  | newOutput
  | returnOutput
  | pushString (index : Int32)
  | pushNumber (bits : UInt64)
  | pop
  | call (address : Int32) (count : UInt8)
  | loadArgument (index : UInt8)
  | query (index : Int32)
  | jump (address : Int32)
  | add
  | subtract
  | multiply
  | divide
  | modulo
  | swap (a b : UInt16)
  | concat
  | loadLocal (index : UInt16)
  | setLocal (index : UInt16)
  | compare
  | jumpEqual (address : Int32)
  | jumpNotEqual (address : Int32)
  | jumpGreater (address : Int32)
  | jumpGreaterEqual (address : Int32)
  | jumpLess (address : Int32)
  | jumpLessEqual (address : Int32)
  | jumpZero (address : Int32)
  | jumpNotZero (address : Int32)
  | pushNull
  | pushAddress (address : Int32)
  /-- leaves a slot for an article in the output -/
  | article
  | toNumber
  | callProgram (index : UInt16)
deriving DecidableEq

namespace Instr

/-! ## Names and codes -/

/-- The names of all instructions, in the order of their codes. -/
def names : List String :=
  ["Debug", "PrintString", "PrintNumber", "OpenChannel", "CloseChannel", "Block", "BlockEnd",
   "Print", "PrintChars", "NativeCall", "Return", "NewOutput", "ReturnOutput", "PushString",
   "PushNumber", "Pop", "Call", "LoadArgument", "Query", "Jump", "Add", "Subtract", "Multiply",
   "Divide", "Modulo", "Swap", "Concat", "LoadLocal", "SetLocal", "Compare", "JumpEqual",
   "JumpNotEqual", "JumpGreater", "JumpGreaterEqual", "JumpLess", "JumpLessEqual", "JumpZero",
   "JumpNotZero", "PushNull", "PushAddress", "Article", "ToNumber", "CallProgram"]

/-- The byte that says which instruction it is. -/
def code : Instr → UInt8
  | debug .. => 0x00
  | printString .. => 0x01
  | printNumber .. => 0x02
  | openChannel .. => 0x03
  | closeChannel => 0x04
  | block .. => 0x05
  | blockEnd => 0x06
  | print => 0x07
  | printChars .. => 0x08
  | nativeCall .. => 0x09
  | .return => 0x0a
  | newOutput => 0x0b
  | returnOutput => 0x0c
  | pushString .. => 0x0d
  | pushNumber .. => 0x0e
  | pop => 0x0f
  | call .. => 0x10
  | loadArgument .. => 0x11
  | query .. => 0x12
  | jump .. => 0x13
  | add => 0x14
  | subtract => 0x15
  | multiply => 0x16
  | divide => 0x17
  | modulo => 0x18
  | swap .. => 0x19
  | concat => 0x1a
  | loadLocal .. => 0x1b
  | setLocal .. => 0x1c
  | compare => 0x1d
  | jumpEqual .. => 0x1e
  | jumpNotEqual .. => 0x1f
  | jumpGreater .. => 0x20
  | jumpGreaterEqual .. => 0x21
  | jumpLess .. => 0x22
  | jumpLessEqual .. => 0x23
  | jumpZero .. => 0x24
  | jumpNotZero .. => 0x25
  | pushNull => 0x26
  | pushAddress .. => 0x27
  | article => 0x28
  | toNumber => 0x29
  | callProgram .. => 0x2a

/-- The short name of a code, in lower case. -/
def mnemonic? (code : UInt8) : Option String := names[code.toNat]?.map (·.toLower)

/-- The number of bytes that follow a code. -/
def operandSize? (code : UInt8) : Option Nat :=
  [12, 4, 8, 5, 0, 4, 0, 0, 5, 3, 0, 0, 0, 4, 8, 0, 5, 1, 4, 4, 0, 0, 0, 0, 0, 4, 0, 2, 2, 0, 4, 4,
   4, 4, 4, 4, 4, 4, 0, 4, 0, 0, 2][code.toNat]?

def name (i : Instr) : String := names.getD i.code.toNat "???"

def mnemonic (i : Instr) : String := (mnemonic? i.code).getD "???"

/-- The number of bytes of an instruction. -/
def size (i : Instr) : Nat := 1 + (operandSize? i.code).getD 0

/-! ## Jumps -/

/-- Where a jump goes. -/
def target? : Instr → Option Int32
  | jump a | jumpEqual a | jumpNotEqual a | jumpGreater a | jumpGreaterEqual a | jumpLess a
  | jumpLessEqual a | jumpZero a | jumpNotZero a => some a
  | _ => none

/-- The same jump to another place; other instructions stay as they are. -/
def withTarget (target : Int32) : Instr → Instr
  | jump _ => jump target
  | jumpEqual _ => jumpEqual target
  | jumpNotEqual _ => jumpNotEqual target
  | jumpGreater _ => jumpGreater target
  | jumpGreaterEqual _ => jumpGreaterEqual target
  | jumpLess _ => jumpLess target
  | jumpLessEqual _ => jumpLessEqual target
  | jumpZero _ => jumpZero target
  | jumpNotZero _ => jumpNotZero target
  | i => i

/-! ## Text -/

def numberText (bits : UInt64) : String := Decimal.Layout.listing.text (Float.ofBits bits)

/-- The operands as texts. -/
def operands : Instr → List String
  | debug line column offset => [toString line, toString column, toString offset]
  | printNumber bits | pushNumber bits => [numberText bits]
  | printString n | block n | pushString n | query n | jump n | jumpEqual n | jumpNotEqual n
  | jumpGreater n | jumpGreaterEqual n | jumpLess n | jumpLessEqual n | jumpZero n | jumpNotZero n
  | pushAddress n => [toString n]
  | openChannel n v => [toString n, toString v]
  | printChars c n => [toString c, toString n]
  | nativeCall id n => [toString id, toString n]
  | call a n => [toString a, toString n]
  | loadArgument n => [toString n]
  | swap a b => [toString a, toString b]
  | loadLocal n | setLocal n | callProgram n => [toString n]
  | _ => []

/-- The instruction as listings show it: its name and its operands. -/
def text (i : Instr) : String :=
  match i.operands with
  | [] => i.name
  | [x] => s!"{i.name}({x})"
  | xs => i.name ++ "((" ++ String.intercalate ", " xs ++ "))"

end Instr

end Wordloom
