import Wordloom.Decimal.Shortest
import Wordloom.Text.Hex

/-!
# Wordloom.Decimal.Layout

Written forms of a double: the digits are the shortest that read back, and a layout says how they
are set.
-/

namespace Wordloom.Decimal

/-- How digits are set: for which leading exponents without an exponent mark, and whether a whole
number shows a fraction. -/
structure Layout where
  positional : Int → Bool
  showsFraction : Bool

/-- Numbers in messages and printed text: never an exponent, no fraction for whole numbers. -/
def Layout.plain : Layout := ⟨fun _ => true, false⟩

/-- Numbers in listings: an exponent below `1e-4` and from `1e16` on, and `.0` for whole numbers. -/
def Layout.listing : Layout := ⟨fun e => -4 ≤ e && e ≤ 15, true⟩

def zeros (n : Nat) : String := String.ofList (List.replicate n '0')

/-- Splits off trailing zeros of the digits. -/
def stripZeros : Nat → Scaled → Scaled
  | 0, d => d
  | fuel + 1, d =>
    if d.digits ≠ 0 ∧ d.digits % 10 = 0 then stripZeros fuel ⟨d.digits / 10, d.exponent + 1⟩ else d

/-- `digits * 10 ^ exponent` without an exponent mark. -/
def positionalText (digits : String) (exponent : Int) (showsFraction : Bool) : String :=
  let count : Int := digits.length
  if 0 ≤ exponent then
    digits ++ zeros exponent.toNat ++ (if showsFraction then ".0" else "")
  else if 0 < count + exponent then
    let cs := digits.toList
    let whole := (count + exponent).toNat
    String.ofList (cs.take whole) ++ "." ++ String.ofList (cs.drop whole)
  else
    "0." ++ zeros (-(count + exponent)).toNat ++ digits

/-- `digits * 10 ^ exponent` with one digit before the point and an exponent mark. -/
def exponentText (digits : String) (exponent : Int) : String :=
  let cs := digits.toList
  let leading := exponent + digits.length - 1
  String.ofList (cs.take 1) ++ (if cs.length = 1 then "" else "." ++ String.ofList (cs.drop 1))
    ++ "e" ++ toString leading

def Layout.magnitudeText (layout : Layout) (x : Binary) : String :=
  let d := stripZeros 17 x.shortest
  let digits := toString d.digits
  if x.significand = 0 then if layout.showsFraction then "0.0" else "0"
  else if layout.positional (d.exponent + digits.length - 1) then
    positionalText digits d.exponent layout.showsFraction
  else exponentText digits d.exponent

/-- The text of a double: `NaN`, `inf`, `-inf`, or a sign and its digits. -/
def Layout.text (layout : Layout) (n : Float) : String :=
  if n.isNaN then "NaN"
  else if n.isInf then if n < 0 then "-inf" else "inf"
  else
    let x := Binary.ofBits n.toBits
    (if x.negative then "-" else "") ++ layout.magnitudeText x

end Wordloom.Decimal
