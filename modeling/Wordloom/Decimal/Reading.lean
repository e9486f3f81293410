/-!
# Wordloom.Decimal.Reading

Reading a double. A number is a sign, digits with at most one point among or beside them, and an
exponent; `inf`, `infinity` and `nan` are read in either case. Blanks are not skipped.
-/

namespace Wordloom.Decimal

def digitsValue (cs : List Char) : Nat :=
  cs.foldl (fun n c => n * 10 + (c.toNat - '0'.toNat)) 0

/-- Splits off a leading sign: `true` for a minus. -/
def splitSign : List Char → Bool × List Char
  | '-' :: cs => (true, cs)
  | '+' :: cs => (false, cs)
  | cs => (false, cs)

/-- The value of an exponent part, which is absent, or a mark, a sign and digits. -/
def exponentValue? : List Char → Option Int
  | [] => some 0
  | c :: cs =>
    if c = 'e' ∨ c = 'E' then
      let (negative, digits) := splitSign cs
      if digits ≠ [] ∧ digits.all Char.isDigit then
        let n : Int := digitsValue digits
        some (if negative then -n else n)
      else none
    else none

/-- The digits before and after the point, and what follows them. -/
def splitNumber (cs : List Char) : List Char × List Char × List Char :=
  let whole := cs.takeWhile Char.isDigit
  match cs.dropWhile Char.isDigit with
  | '.' :: rest => (whole, rest.takeWhile Char.isDigit, rest.dropWhile Char.isDigit)
  | rest => (whole, [], rest)

/-- The double nearest to `digits * 10 ^ exponent`. Beyond these exponents the result is an
infinity or zero whatever the digits are. -/
def nearest (digits : Nat) (exponent : Int) : Float :=
  let leading := (toString digits).length + exponent
  if digits = 0 then 0.0
  else if 400 < leading then 1.0 / 0.0
  else if leading < -400 then 0.0
  else Float.ofScientific digits (exponent < 0) exponent.natAbs

/-- The bit pattern of an unsigned number. -/
def unsignedBits? (cs : List Char) : Option UInt64 :=
  let word := String.ofList (cs.map Char.toLower)
  if word = "nan" then some 0x7ff8000000000000
  else if word = "inf" ∨ word = "infinity" then some 0x7ff0000000000000
  else
    let (whole, fraction, rest) := splitNumber cs
    if whole = [] ∧ fraction = [] then none
    else
      (exponentValue? rest).map fun e =>
        let digits := whole ++ fraction
        (nearest (digitsValue digits) (e - fraction.length)).toBits

/-- The bit pattern of the double that the characters spell. The sign is kept, also that of zero
and NaN. -/
def bitsOfChars? (cs : List Char) : Option UInt64 :=
  let (negative, rest) := splitSign cs
  (unsignedBits? rest).map fun bits => if negative then bits ||| 0x8000000000000000 else bits

def bits? (s : String) : Option UInt64 := bitsOfChars? s.toList

def float? (s : String) : Option Float := (bits? s).map Float.ofBits

end Wordloom.Decimal
