/-!
# Wordloom.Text.Utf8

Text as UTF-8 bytes, and where bytes fail to be such.
-/

namespace Wordloom.Text

/-- The first sequence of bytes that is no character: its offset, and its length unless the bytes
end in the middle of it. -/
structure Utf8Error where
  index : Nat
  length : Option Nat
deriving DecidableEq

def Utf8Error.message (e : Utf8Error) : String :=
  match e.length with
  | some n => s!"invalid utf-8 sequence of {n} bytes from index {e.index}"
  | none => s!"incomplete utf-8 byte sequence from index {e.index}"

/-- What may follow a leading byte: the range of the second byte, and the number of bytes in all. -/
def utf8Lead? (b : UInt8) : Option (UInt8 × UInt8 × Nat) :=
  if 0xC2 ≤ b && b ≤ 0xDF then some (0x80, 0xBF, 2)
  else if b = 0xE0 then some (0xA0, 0xBF, 3)
  else if b = 0xED then some (0x80, 0x9F, 3)
  else if 0xE1 ≤ b && b ≤ 0xEF then some (0x80, 0xBF, 3)
  else if b = 0xF0 then some (0x90, 0xBF, 4)
  else if 0xF1 ≤ b && b ≤ 0xF3 then some (0x80, 0xBF, 4)
  else if b = 0xF4 then some (0x80, 0x8F, 4)
  else none

/-- Checks bytes after the second one of a character, of which `read` have been read: `none` if
they are all right, else the length of the bad sequence. -/
def utf8Tail (read : Nat) : Nat → List UInt8 → Option (Option Nat)
  | 0, _ => none
  | _ + 1, [] => some none
  | n + 1, b :: bs => if 0x80 ≤ b && b ≤ 0xBF then utf8Tail (read + 1) n bs else some (some read)

/-- The length of the bad sequence that `b` begins, or the number of bytes of a good one. -/
def utf8Char (b : UInt8) (bs : List UInt8) : Except (Option Nat) Nat :=
  if b < 0x80 then .ok 1
  else
    match utf8Lead? b with
    | none => .error (some 1)
    | some (low, high, size) =>
      match bs with
      | [] => .error none
      | second :: rest =>
        if low ≤ second && second ≤ high then
          match utf8Tail 2 (size - 2) rest with
          | none => .ok size
          | some length => .error length
        else .error (some 1)

/-- The first bad sequence in bytes that are known to have one, `index` being the offset of the
first byte and `skip` the number of bytes that belong to a character already checked. -/
def utf8Fault (index : Nat) : (skip : Nat) → List UInt8 → Utf8Error
  | _, [] => ⟨index, none⟩
  | skip + 1, _ :: bs => utf8Fault (index + 1) skip bs
  | 0, b :: bs =>
    match utf8Char b bs with
    | .ok size => utf8Fault (index + 1) (size - 1) bs
    | .error length => ⟨index, length⟩

def toUtf8 (s : String) : List UInt8 := s.toByteArray.data.toList

def ofUtf8? (bytes : List UInt8) : Option String := String.fromUTF8? ⟨bytes.toArray⟩

def ofUtf8 (bytes : List UInt8) : Except Utf8Error String :=
  match ofUtf8? bytes with
  | some s => .ok s
  | none => .error (utf8Fault 0 0 bytes)

end Wordloom.Text
