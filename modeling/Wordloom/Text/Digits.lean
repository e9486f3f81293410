/-!
# Wordloom.Text.Digits

Decimal text of natural numbers.
-/

namespace Wordloom.Text

def digitValue (c : Char) : Nat := c.toNat - '0'.toNat

/-- The number written by decimal digits; `none` without digits or with anything else. -/
def ofDigits? : List Char → Option Nat
  | [] => none
  | cs =>
    if cs.all Char.isDigit then some (cs.foldl (fun n c => n * 10 + digitValue c) 0) else none

/-- Why a text is no number of 64 bits. -/
inductive NumberError where
  | empty
  | invalidDigit
  | tooLarge
deriving DecidableEq

def NumberError.message : NumberError → String
  | .empty => "cannot parse integer from empty string"
  | .invalidDigit => "invalid digit found in string"
  | .tooLarge => "number too large to fit in target type"

/-- Appends digits to a number, as long as it fits in 64 bits. -/
def appendDigits (n : Nat) : List Char → Except NumberError Nat
  | [] => .ok n
  | c :: cs =>
    if !c.isDigit then .error .invalidDigit
    else if UInt64.size ≤ n * 10 + digitValue c then .error .tooLarge
    else appendDigits (n * 10 + digitValue c) cs

/-- A number of 64 bits, with or without a plus sign. -/
def uint64 (s : String) : Except NumberError UInt64 := do
  match s.toList with
  | [] => throw .empty
  | ['+'] => throw .invalidDigit
  | '+' :: cs => return (← appendDigits 0 cs).toUInt64
  | cs => return (← appendDigits 0 cs).toUInt64

end Wordloom.Text
