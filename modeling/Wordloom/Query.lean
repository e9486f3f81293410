/-!
# Wordloom.Query

Questions to a dictionary: which table and form a word is taken from, which words are allowed, and
how the choice is tied to earlier ones by carriers.
-/

namespace Wordloom

/-- A class that a word has to have, or must not have. -/
structure ClassRule where
  name : String
  required : Bool
deriving DecidableEq

/-- A regular expression, by its index in the program, that a word has to match, or must not. -/
structure RegexFilter where
  wanted : Bool
  regex : UInt32
deriving DecidableEq

structure SyllableRange where
  min : Option UInt32
  max : Option UInt32
deriving DecidableEq

def SyllableRange.contains (r : SyllableRange) (count : Nat) : Bool :=
  r.min.all (·.toNat ≤ count) && r.max.all (count ≤ ·.toNat)

inductive CarrierKind where
  | matchWord
  | associative
  | dissociative
  | divergent
  | relational
  | matchAssociative
  | matchDissociative
  | matchDivergent
  | matchRelational
  | unique
  | matchUnique
  | rhyme
deriving DecidableEq

namespace CarrierKind

/-- Every kind, in the order of their numbers. -/
def all : List CarrierKind :=
  [.matchWord, .associative, .dissociative, .divergent, .relational, .matchAssociative,
   .matchDissociative, .matchDivergent, .matchRelational, .unique, .matchUnique, .rhyme]

/-- The form of an association that also matches. -/
def matching : CarrierKind → CarrierKind
  | .associative => .matchAssociative
  | .dissociative => .matchDissociative
  | .divergent => .matchDivergent
  | .relational => .matchRelational
  | k => k

end CarrierKind

/-- A tie between queries that name the same carrier. -/
structure Carrier where
  kind : CarrierKind
  id : String
deriving DecidableEq

structure Query where
  /-- none for a query that only makes its carriers forget -/
  table : Option String := none
  /-- a word has no classes but those the filter names -/
  exclusive : Bool := false
  /-- a word passes each of these if one of its rules holds -/
  classFilter : List (List ClassRule) := []
  regexFilters : List RegexFilter := []
  syllables : Option SyllableRange := none
  subtype : Option String := none
  carriers : List Carrier := []
deriving DecidableEq

end Wordloom
