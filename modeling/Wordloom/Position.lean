/-!
# Wordloom.Position

Places in a source text.
-/

namespace Wordloom

/-- A place before a character. Lines and columns count from one, the offset counts characters
from zero. -/
structure Position where
  line : Nat
  column : Nat
  offset : Nat
deriving DecidableEq

namespace Position

def start : Position := ⟨1, 1, 0⟩

/-- The place that stands for none at all. -/
def nowhere : Position := ⟨0, 0, 0⟩

/-- The place after one more character. -/
def next (p : Position) (c : Char) : Position :=
  if c = '\n' then ⟨p.line + 1, 1, p.offset + 1⟩ else ⟨p.line, p.column + 1, p.offset + 1⟩

/-- The place after all of `cs`. -/
def after (p : Position) (cs : List Char) : Position := cs.foldl next p

/-- The place after the last character of a source. -/
def endOf (source : String) : Position := start.after source.toList

end Position

end Wordloom
