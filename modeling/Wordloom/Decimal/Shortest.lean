import Wordloom.Decimal.Binary

/-!
# Wordloom.Decimal.Shortest

The shortest decimal that reads back as a given double, and of those the nearest to it. The reals
that round to the double form an interval around it; the search tries one digit, two digits, and
so on, and takes the first decimal it finds inside.
-/

namespace Wordloom.Decimal

/-- The number `digits * 10 ^ exponent`. -/
structure Scaled where
  digits : Nat
  exponent : Int
deriving DecidableEq

/-- `a * 2 ^ i ≤ b * 10 ^ j`, compared without division. -/
def leScaled (a : Nat) (i : Int) (b : Nat) (j : Int) : Bool :=
  (a * Nat.pow 10 (-j).toNat) <<< i.toNat ≤ (b * Nat.pow 10 j.toNat) <<< (-i).toNat

/-- `b * 10 ^ j ≤ a * 2 ^ i`, compared without division. -/
def geScaled (a : Nat) (i : Int) (b : Nat) (j : Int) : Bool :=
  (b * Nat.pow 10 j.toNat) <<< (-i).toNat ≤ (a * Nat.pow 10 (-j).toNat) <<< i.toNat

/-- `d` lies in the interval of the reals that round to `x`. The interval ends halfway to the
neighbours, the one below being nearer at a power of two; the ends belong to it when the
significand is even. -/
def Binary.readsBack (x : Binary) (d : Scaled) : Bool :=
  let low := if x.significand = 1 <<< 52 then 4 * x.significand - 1 else 4 * x.significand - 2
  let high := 4 * x.significand + 2
  let unit := x.exponent - 2
  if x.significand % 2 = 0 then
    leScaled low unit d.digits d.exponent && geScaled high unit d.digits d.exponent
  else
    !geScaled low unit d.digits d.exponent && !leScaled high unit d.digits d.exponent

/-- The least power of ten above the value. The logarithm is estimated from the number of bits
and set right by comparison. -/
def Binary.magnitude (x : Binary) : Int :=
  let guess := ((bitLength x.significand : Int) - 1 + x.exponent) * 30103 / 100000
  let above (k : Int) := !geScaled x.significand x.exponent 1 k
  if above guess then guess else if above (guess + 1) then guess + 1 else guess + 2

/-- The neighbours of the value on the grid of multiples of `10 ^ exponent`: the one below, and
whether the one above is at least as near. -/
def Binary.onGrid (x : Binary) (exponent : Int) : Nat × Bool :=
  let numerator := (x.significand * Nat.pow 10 (-exponent).toNat) <<< x.exponent.toNat
  let denominator := Nat.pow 10 exponent.toNat <<< (-x.exponent).toNat
  (numerator / denominator, denominator ≤ 2 * (numerator % denominator))

/-- The decimal of `count` digits that reads back as `x`, the nearer one if there are two. -/
def Binary.withDigits (x : Binary) (count : Nat) : Option Scaled :=
  let exponent := x.magnitude - count
  let (below, nearAbove) := x.onGrid exponent
  let low : Scaled := ⟨below, exponent⟩
  let high : Scaled := ⟨below + 1, exponent⟩
  let (first, second) := if nearAbove then (high, low) else (low, high)
  if x.readsBack first then some first
  else if x.readsBack second then some second
  else none

/-- The shortest decimal that reads back as `x`. Seventeen digits are enough for every double. -/
def Binary.shortest (x : Binary) : Scaled :=
  if x.significand = 0 then ⟨0, 0⟩
  else
    match (List.range 17).findSome? fun n => x.withDigits (n + 1) with
    | some d => d
    | none => ⟨(x.onGrid (x.magnitude - 17)).1, x.magnitude - 17⟩

end Wordloom.Decimal
