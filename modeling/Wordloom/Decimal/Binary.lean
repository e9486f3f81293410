/-!
# Wordloom.Decimal.Binary

A finite double as a sign, a significand and a power of two, so that exact arithmetic can be done
on naturals, and back again.
-/

namespace Wordloom.Decimal

/-- The number `± significand * 2 ^ exponent`. -/
structure Binary where
  negative : Bool
  significand : Nat
  exponent : Int
deriving DecidableEq

/-- The parts of a bit pattern that stands for neither infinity nor NaN. -/
def Binary.ofBits (bits : UInt64) : Binary :=
  let fraction : Nat := bits.toNat % (1 <<< 52)
  let biased : Nat := bits.toNat >>> 52 % (1 <<< 11)
  let negative := bits.toNat >>> 63 == 1
  if biased = 0 then ⟨negative, fraction, -1074⟩
  else ⟨negative, fraction + 1 <<< 52, (biased : Int) - 1075⟩

/-- Number of binary digits; none for zero. -/
def bitLength (n : Nat) : Nat := if n = 0 then 0 else n.log2 + 1

/-- The bit pattern of a number that a double holds exactly: its significand, less trailing
zeros, fits 53 bits and its exponent is in range. -/
def Binary.toBits (x : Binary) : UInt64 :=
  let sign := if x.negative then 1 <<< 63 else 0
  if x.significand = 0 then UInt64.ofNat sign
  else
    -- the exponent that gives the significand 53 bits, unless that is below the least one
    let exponent := max (-1074) (x.exponent + bitLength x.significand - 53)
    let significand :=
      x.significand <<< (x.exponent - exponent).toNat >>> (exponent - x.exponent).toNat
    if significand < 1 <<< 52 then UInt64.ofNat (sign + significand)
    else UInt64.ofNat (sign + (exponent + 1075).toNat <<< 52 + (significand - 1 <<< 52))

/-! ## Remainder -/

/-- Remainder of a division whose quotient is cut towards zero; it has the sign of `x`. It is
exact, because it is a multiple of the smaller unit of the two and smaller than `y`. -/
def Binary.rem (x y : Binary) : Binary :=
  let unit := min x.exponent y.exponent
  let dividend := x.significand <<< (x.exponent - unit).toNat
  let divisor := y.significand <<< (y.exponent - unit).toNat
  ⟨x.negative, dividend % divisor, unit⟩

/-- Remainder of `x / y`, with the sign of `x`; NaN when `x` is infinite or `y` is zero. -/
def rem (x y : Float) : Float :=
  if x.isNaN || y.isNaN || x.isInf || y == 0 then 0.0 / 0.0
  else if y.isInf then x
  else Float.ofBits ((Binary.ofBits x.toBits).rem (Binary.ofBits y.toBits)).toBits

end Wordloom.Decimal
