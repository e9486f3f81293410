import Wordloom.Decimal.Layout

/-!
# Wordloom.Output.NumberFormat

How numbers are printed: plainly, or with the digits before the point in groups of three.
-/

namespace Wordloom

inductive NumberFormat where
  | normal
  /-- `1,234,567.5` -/
  | groupCommas
  /-- `1.234.567,5` -/
  | groupDots
deriving DecidableEq

namespace NumberFormat

def ofName? : String → Option NumberFormat
  | "normal" => some .normal
  | "group-commas" => some .groupCommas
  | "group-dots" => some .groupDots
  | _ => none

/-- Puts `separator` between groups of three digits, counted from the end. -/
def groupDigits (separator : Char) : List Char → List Char
  | [] => []
  | c :: cs =>
    if cs ≠ [] ∧ cs.length % 3 = 0 then c :: separator :: groupDigits separator cs
    else c :: groupDigits separator cs

/-- Groups the digits in front of the point, if there is one, and writes the point as `point`. -/
def groupUnsigned (separator point : Char) (cs : List Char) : List Char :=
  let whole := groupDigits separator (cs.takeWhile (· ≠ '.'))
  match cs.dropWhile (· ≠ '.') with
  | [] => whole
  | _ :: fraction => whole ++ point :: fraction

def group (separator point : Char) : List Char → List Char
  | '-' :: cs => '-' :: groupUnsigned separator point cs
  | cs => groupUnsigned separator point cs

/-- A whole number below `1e15` as an integer, so that zero has no sign; any other with the fewest
digits that read back. -/
def plain (n : Float) : String :=
  let whole := n.abs.toUInt64
  if whole.toFloat == n.abs && n.abs < 1e15 then (if n < 0 then "-" else "") ++ toString whole.toNat
  else Decimal.Layout.plain.text n

/-- The printed form of a number. -/
def text (format : NumberFormat) (n : Float) : String :=
  if n.isNaN then "NaN"
  else if n.isInf then if n < 0 then "-Infinity" else "Infinity"
  else
    match format with
    | .normal => plain n
    | .groupCommas => String.ofList (group ',' '.' (plain n).toList)
    | .groupDots => String.ofList (group '.' ',' (plain n).toList)

end NumberFormat

end Wordloom
