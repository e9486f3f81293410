/-!
# Wordloom.Regex.CharSet

Sets of characters, as ranges of code points. A set has one form only: its ranges are in ascending
order, and two that overlap or touch are one.
-/

namespace Wordloom.Regex

/-- The code points from the first to the second, both included. -/
abbrev CodeRange := Nat × Nat

def CodeRange.ofChar (c : Char) : CodeRange := (c.toNat, c.toNat)

def CodeRange.contains (r : CodeRange) (n : Nat) : Bool := r.1 ≤ n && n ≤ r.2

/-- The greatest code point. -/
def lastCode : Nat := 0x10FFFF

/-! ## Ranges in order -/

/-- Adds a range to ranges in order, as one with those that it overlaps or touches. -/
def insertRange (r : CodeRange) : List CodeRange → List CodeRange
  | [] => [r]
  | s :: ranges =>
    if r.2 + 1 < s.1 then r :: s :: ranges
    else if s.2 + 1 < r.1 then s :: insertRange r ranges
    else insertRange (min r.1 s.1, max r.2 s.2) ranges

/-- The ranges between ranges in order, from code point `next` on. -/
def complementFrom (next : Nat) : List CodeRange → List CodeRange
  | [] => if next ≤ lastCode then [(next, lastCode)] else []
  | (first, last) :: ranges =>
    if next < first then (next, first - 1) :: complementFrom (last + 1) ranges
    else complementFrom (last + 1) ranges

/-! ## Sets -/

structure CharSet where
  ranges : List CodeRange
deriving DecidableEq

namespace CharSet

def ofRanges (ranges : List CodeRange) : CharSet :=
  ⟨ranges.foldl (fun done r => insertRange r done) []⟩

def contains (s : CharSet) (c : Char) : Bool := s.ranges.any (·.contains c.toNat)

def complement (s : CharSet) : CharSet := ⟨complementFrom 0 s.ranges⟩

end CharSet

/-! ## Case -/

/-- The part of a range between two letters, moved by `shift`. -/
def shiftPart? (first last : Char) (shift : Int) (r : CodeRange) : Option CodeRange :=
  let low := max r.1 first.toNat
  let high := min r.2 last.toNat
  if low ≤ high then some ((low + shift).toNat, (high + shift).toNat) else none

/-- The ASCII letters of a range in the other case. Of a range with small letters only these count,
so that its capitals, if it has any, keep their case. -/
def otherCase? (r : CodeRange) : Option CodeRange :=
  (shiftPart? 'a' 'z' (-32) r).or (shiftPart? 'A' 'Z' 32 r)

/-- The set with the letters of its ranges in the other case. -/
def CharSet.foldCase (s : CharSet) : CharSet :=
  ofRanges (s.ranges ++ s.ranges.filterMap otherCase?)

end Wordloom.Regex
