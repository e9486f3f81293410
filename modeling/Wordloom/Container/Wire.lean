import Wordloom.Bytes
import Wordloom.Text.Utf8

/-!
# Wordloom.Container.Wire

The compact encoding of tables: numbers in base 128, lowest digit first, each byte but the last
with its high bit set; sequences and texts with their length in front; alternatives with their
number in front.
-/

namespace Wordloom.Wire

inductive Error where
  | unexpectedEnd
  | badVarint
  | badBool
  | badOption
  | badUtf8
  | badTag
deriving DecidableEq

def Error.message : Error → String
  | .unexpectedEnd => "Hit the end of buffer, expected more data"
  | .badVarint => "Found a varint that didn't terminate. Is the usize too big for this platform?"
  | .badBool => "Found a bool that wasn't 0 or 1"
  | .badOption => "Found an Option discriminant that wasn't 0 or 1"
  | .badUtf8 => "Tried to parse invalid utf-8"
  | .badTag => "Serde Deserialization Error"

/-! ## Writing -/

def putVarint (n : Nat) : List UInt8 :=
  if n < 128 then [UInt8.ofNat n] else UInt8.ofNat (n % 128 + 128) :: putVarint (n / 128)
termination_by n
decreasing_by omega

def putUInt32 (n : UInt32) : List UInt8 := putVarint n.toNat

def putUInt64Fixed (n : UInt64) : List UInt8 := Bytes.ofUInt64 n

def putBool (b : Bool) : List UInt8 := [if b then 1 else 0]

def putString (s : String) : List UInt8 :=
  let bytes := Text.toUtf8 s
  putVarint bytes.length ++ bytes

def putOption (put : α → List UInt8) : Option α → List UInt8
  | none => [0]
  | some a => 1 :: put a

def putList (put : α → List UInt8) (as : List α) : List UInt8 :=
  putVarint as.length ++ as.flatMap put

/-! ## Reading -/

/-- Reads from the front of the bytes, or fails. -/
abbrev Get := StateT (List UInt8) (Except Error)

def byte : Get UInt8 := fun bs =>
  match bs with
  | [] => .error .unexpectedEnd
  | b :: bs => .ok (b, bs)

def take (n : Nat) : Get (List UInt8) := fun bs =>
  let front := bs.take n
  if front.length = n then .ok (front, bs.drop n) else .error .unexpectedEnd

/-- A number of at most `digits` bytes, the last possible one of which is at most `top`. -/
def varint (top : UInt8) : (digits : Nat) → Get Nat
  | 0 => throw .badVarint
  | digits + 1 => do
    let b ← byte
    if b < 128 then
      if digits = 0 ∧ top < b then throw .badVarint else return b.toNat
    else
      let n ← varint top digits
      return b.toNat - 128 + 128 * n

/-- A length, which fits 64 bits. -/
def length : Get Nat := varint 1 10

def uint32 : Get UInt32 := do return UInt32.ofNat (← varint 15 5)

def uint64Fixed : Get UInt64 := do return UInt64.ofNat (Bytes.toNat (← take 8))

def bool : Get Bool := do
  match (← byte).toNat with
  | 0 => return false
  | 1 => return true
  | _ => throw .badBool

def string : Get String := do
  match Text.ofUtf8? (← take (← length)) with
  | some s => return s
  | none => throw .badUtf8

def option (get : Get α) : Get (Option α) := do
  match (← byte).toNat with
  | 0 => return none
  | 1 => return some (← get)
  | _ => throw .badOption

/-- `n` values one after the other. -/
def many (get : Get α) : Nat → Get (List α)
  | 0 => return []
  | n + 1 => do
    let a ← get
    return a :: (← many get n)

def list (get : Get α) : Get (List α) := do many get (← length)

/-- The number of an alternative. -/
def tag : Get Nat := varint 15 5

end Wordloom.Wire
