/-!
# Wordloom.Text.Ranges

Sets of characters given by ranges of code points, the form in which a property of the
character standard is tabulated. In a large table the ranges are given by their lengths and by how far
they are apart.
-/

namespace Wordloom.Text

/-- Inclusive ranges of code points, in ascending order. -/
abbrev Ranges := List (Nat × Nat)

/-- The character lies in one of the ranges. -/
def Ranges.contains (ranges : Ranges) (c : Char) : Bool :=
  ranges.any fun (first, last) => first ≤ c.toNat && c.toNat ≤ last

/-- How many code points are outside, from zero on, how many after them inside, and so on in turn. -/
abbrev Spans := List Nat

/-- The code point that is `n` behind the first one lies inside. -/
def Spans.covers : Spans → Nat → Bool
  | outside :: inside :: spans, n =>
    outside ≤ n && (n < outside + inside || covers spans (n - (outside + inside)))
  | _, _ => false

def Spans.contains (spans : Spans) (c : Char) : Bool := spans.covers c.toNat

end Wordloom.Text
