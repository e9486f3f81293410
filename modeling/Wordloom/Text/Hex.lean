/-!
# Wordloom.Text.Hex

Hexadecimal text of natural numbers, lower case.
-/

namespace Wordloom.Text

/-- Repeats `fill` in front of `s` until it has `width` characters. -/
def padLeft (fill : Char) (width : Nat) (s : String) : String :=
  String.ofList (List.replicate (width - s.length) fill) ++ s

/-- Adds spaces behind `s` until it has `width` characters. -/
def padRight (width : Nat) (s : String) : String :=
  s ++ String.ofList (List.replicate (width - s.length) ' ')

/-- Hexadecimal digits of `n`, at least `width` of them. -/
def hex (width n : Nat) : String :=
  padLeft '0' width (String.ofList (Nat.toDigits 16 n))

def hexDigit? (c : Char) : Option Nat :=
  if '0' ≤ c ∧ c ≤ '9' then some (c.toNat - '0'.toNat)
  else if 'a' ≤ c ∧ c ≤ 'f' then some (c.toNat - 'a'.toNat + 10)
  else if 'A' ≤ c ∧ c ≤ 'F' then some (c.toNat - 'A'.toNat + 10)
  else none

/-- The number written by hexadecimal digits of either case; `none` without digits. -/
def ofHexChars? : List Char → Option Nat
  | [] => none
  | cs => cs.foldlM (fun n c => (hexDigit? c).map (n * 16 + ·)) 0

end Wordloom.Text
