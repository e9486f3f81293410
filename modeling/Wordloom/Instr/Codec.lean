import Wordloom.Bytes
import Wordloom.Instr

/-!
# Wordloom.Instr.Codec

The bytes of instructions: the code, then the operands in little-endian order.
-/

namespace Wordloom.Instr

open Bytes

/-! ## Writing -/

def operandBytes : Instr → List UInt8
  | debug line column offset => ofInt32 line ++ ofInt32 column ++ ofInt32 offset
  | printNumber bits | pushNumber bits => ofUInt64 bits
  | printString n | block n | pushString n | query n | jump n | jumpEqual n | jumpNotEqual n
  | jumpGreater n | jumpGreaterEqual n | jumpLess n | jumpLessEqual n | jumpZero n | jumpNotZero n
  | pushAddress n => ofInt32 n
  | openChannel n v => ofInt32 n ++ [v]
  | printChars c n => c :: ofInt32 n
  | nativeCall id n => ofUInt16 id ++ [n]
  | call a n => ofInt32 a ++ [n]
  | loadArgument n => [n]
  | swap a b => ofUInt16 a ++ ofUInt16 b
  | loadLocal n | setLocal n | callProgram n => ofUInt16 n
  | _ => []

def encode (i : Instr) : List UInt8 := i.code :: i.operandBytes

/-! ## Reading -/

open Decoder

/-- The operands of the instruction with the given code. -/
def decodeOperands (code : UInt8) : Decoder Instr :=
  match code.toNat with
  | 0x00 => return debug (← int32) (← int32) (← int32)
  | 0x01 => return printString (← int32)
  | 0x02 => return printNumber (← uint64)
  | 0x03 => return openChannel (← int32) (← uint8)
  | 0x04 => return closeChannel
  | 0x05 => return block (← int32)
  | 0x06 => return blockEnd
  | 0x07 => return print
  | 0x08 => return printChars (← uint8) (← int32)
  | 0x09 => return nativeCall (← uint16) (← uint8)
  | 0x0a => return .return
  | 0x0b => return newOutput
  | 0x0c => return returnOutput
  | 0x0d => return pushString (← int32)
  | 0x0e => return pushNumber (← uint64)
  | 0x0f => return Instr.pop
  | 0x10 => return call (← int32) (← uint8)
  | 0x11 => return loadArgument (← uint8)
  | 0x12 => return query (← int32)
  | 0x13 => return jump (← int32)
  | 0x14 => return add
  | 0x15 => return subtract
  | 0x16 => return multiply
  | 0x17 => return divide
  | 0x18 => return modulo
  | 0x19 => return swap (← uint16) (← uint16)
  | 0x1a => return concat
  | 0x1b => return loadLocal (← uint16)
  | 0x1c => return setLocal (← uint16)
  | 0x1d => return compare
  | 0x1e => return jumpEqual (← int32)
  | 0x1f => return jumpNotEqual (← int32)
  | 0x20 => return jumpGreater (← int32)
  | 0x21 => return jumpGreaterEqual (← int32)
  | 0x22 => return jumpLess (← int32)
  | 0x23 => return jumpLessEqual (← int32)
  | 0x24 => return jumpZero (← int32)
  | 0x25 => return jumpNotZero (← int32)
  | 0x26 => return pushNull
  | 0x27 => return pushAddress (← int32)
  | 0x28 => return article
  | 0x29 => return toNumber
  | 0x2a => return callProgram (← uint16)
  | _ => throw (.unknownCode code)

/-- The instruction at the front of the bytes. -/
def decode : Decoder Instr := do decodeOperands (← uint8)

/-- No instruction has more bytes than this. -/
def maxSize : Nat := 13

/-- The instruction at an offset into the code, and the offset behind it. -/
def decodeAt (code : Array UInt8) (offset : Nat) : Except DecodeError (Instr × Nat) :=
  (decode ⟨offset, (code.extract offset (offset + maxSize)).toList⟩).map fun (i, c) => (i, c.offset)

/-- An instruction and its offset. -/
abbrev Placed := Nat × Instr

/-- The instructions from `offset` to the end of the code, and the error that stopped the reading
before that. Every instruction has a byte, so `fuel` need not exceed the number of bytes. -/
def decodeFrom (code : Array UInt8) : Nat → Nat → List Placed × Option (Nat × DecodeError)
  | 0, _ => ([], none)
  | fuel + 1, offset =>
    if code.size ≤ offset then ([], none)
    else
      match decodeAt code offset with
      | .error e => ([], some (offset, e))
      | .ok (i, next) =>
        let (placed, error) := decodeFrom code fuel next
        ((offset, i) :: placed, error)

/-- All instructions of the code, as far as they can be read. -/
def decodeAll (code : Array UInt8) : List Placed × Option (Nat × DecodeError) :=
  decodeFrom code code.size 0

/-- All instructions of the code. -/
def listing (code : Array UInt8) : Except DecodeError (List Placed) :=
  match decodeAll code with
  | (placed, none) => .ok placed
  | (_, some (_, e)) => .error e

end Wordloom.Instr
