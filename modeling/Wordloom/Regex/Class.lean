import Wordloom.Regex.CharSet

/-!
# Wordloom.Regex.Class

Named classes of characters, all within ASCII.
-/

namespace Wordloom.Regex

/-- The set of the characters between those of each pair. -/
def CharSet.ofPairs (pairs : List (Char × Char)) : CharSet :=
  .ofRanges (pairs.map fun (first, last) => (first.toNat, last.toNat))

def digits : CharSet := .ofPairs [('0', '9')]

def spaces : CharSet := .ofPairs [('\t', '\r'), (' ', ' ')]

def wordChars : CharSet := .ofPairs [('0', '9'), ('A', 'Z'), ('_', '_'), ('a', 'z')]

/-- Classes written as a backslash and a letter; the capital letter is the complement. -/
def letterClass? : Char → Option CharSet
  | 'd' => some digits
  | 's' => some spaces
  | 'w' => some wordChars
  | 'D' => some digits.complement
  | 'S' => some spaces.complement
  | 'W' => some wordChars.complement
  | _ => none

/-- Classes written as a name between colons. -/
def namedClass? : String → Option CharSet
  | "alnum" => some (.ofPairs [('0', '9'), ('A', 'Z'), ('a', 'z')])
  | "alpha" => some (.ofPairs [('A', 'Z'), ('a', 'z')])
  | "ascii" => some (.ofRanges [(0, 0x7F)])
  | "blank" => some (.ofPairs [('\t', '\t'), (' ', ' ')])
  | "cntrl" => some (.ofRanges [(0, 0x1F), (0x7F, 0x7F)])
  | "digit" => some digits
  | "graph" => some (.ofPairs [('!', '~')])
  | "lower" => some (.ofPairs [('a', 'z')])
  | "print" => some (.ofPairs [(' ', '~')])
  | "punct" => some (.ofPairs [('!', '/'), (':', '@'), ('[', '\x60'), ('\x7b', '~')])
  | "space" => some spaces
  | "upper" => some (.ofPairs [('A', 'Z')])
  | "word" => some wordChars
  | "xdigit" => some (.ofPairs [('0', '9'), ('A', 'F'), ('a', 'f')])
  | _ => none

end Wordloom.Regex
