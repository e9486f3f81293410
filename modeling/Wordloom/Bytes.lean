import Wordloom.Text.Hex

/-!
# Wordloom.Bytes

Reading bytes from the front, and numbers in little-endian order.
-/

namespace Wordloom.Bytes

/-! ## Little-endian numbers -/

/-- The low `width` bytes of `n`, lowest first. -/
def ofNat : (width : Nat) → Nat → List UInt8
  | 0, _ => []
  | width + 1, n => UInt8.ofNat n :: ofNat width (n / 256)

/-- The number whose bytes these are, lowest first. -/
def toNat : List UInt8 → Nat
  | [] => 0
  | b :: bs => b.toNat + 256 * toNat bs

def ofUInt16 (n : UInt16) : List UInt8 := ofNat 2 n.toNat

def ofUInt32 (n : UInt32) : List UInt8 := ofNat 4 n.toNat

def ofUInt64 (n : UInt64) : List UInt8 := ofNat 8 n.toNat

def ofInt32 (n : Int32) : List UInt8 := ofUInt32 n.toUInt32

@[simp] theorem length_ofNat (width n : Nat) : (ofNat width n).length = width := by
  induction width generalizing n with
  | zero => rfl
  | succ width ih => simp [ofNat, ih]

theorem ofNat_toNat (bs : List UInt8) : ofNat bs.length (toNat bs) = bs := by
  induction bs with
  | nil => rfl
  | cons b bs ih =>
    have hlt := b.toNat_lt
    have hdiv : (b.toNat + 256 * toNat bs) / 256 = toNat bs := by omega
    have hbyte : UInt8.ofNat (b.toNat + 256 * toNat bs) = b := by
      apply UInt8.toNat_inj.mp
      rw [UInt8.toNat_ofNat']
      omega
    simp only [List.length_cons, ofNat, toNat, hdiv, hbyte, ih]

/-! ## Reading -/

/-- Why bytes cannot be read as instructions. -/
inductive DecodeError where
  | unknownCode (code : UInt8)
  /-- the bytes end in the middle of what starts at this offset -/
  | truncated (offset : Nat)
deriving DecidableEq

def DecodeError.message : DecodeError → String
  | .unknownCode code => "Unknown opcode 0x" ++ Text.hex 2 code.toNat
  | .truncated offset => s!"Unexpected end of bytecode at {offset}"

/-- The bytes still to be read and the offset of the first of them. -/
structure Cursor where
  offset : Nat
  bytes : List UInt8
deriving DecidableEq

/-- Reads from the front of the bytes, or fails. -/
abbrev Decoder := StateT Cursor (Except DecodeError)

namespace Decoder

/-- The next `n` bytes. -/
def take (n : Nat) : Decoder (List UInt8) := fun c =>
  let front := c.bytes.take n
  if front.length = n then .ok (front, ⟨c.offset + n, c.bytes.drop n⟩)
  else .error (.truncated c.offset)

def uint8 : Decoder UInt8 := do return UInt8.ofNat (toNat (← take 1))

def uint16 : Decoder UInt16 := do return UInt16.ofNat (toNat (← take 2))

def uint32 : Decoder UInt32 := do return UInt32.ofNat (toNat (← take 4))

def uint64 : Decoder UInt64 := do return UInt64.ofNat (toNat (← take 8))

def int32 : Decoder Int32 := do return (← uint32).toInt32

end Decoder

end Wordloom.Bytes
