import Wordloom.Text.Blank
import Wordloom.Text.CaseMap
import Wordloom.Text.Letter

/-!
# Wordloom.Output.Capitals

Capitalization of text as it is printed, piece by piece. Where a word or a sentence begins is
remembered from one piece to the next. But for lower case, where a sigma looks at its neighbours,
each character is treated by itself, so that it does not matter how a text is cut into pieces.
-/

namespace Wordloom

inductive Capitals where
  | none
  | upper
  | lower
  /-- the next letter, after that nothing -/
  | first
  | word
  | sentence
deriving DecidableEq

def Capitals.ofName? : String → Option Capitals
  | "none" => some .none
  | "upper" => some .upper
  | "lower" => some .lower
  | "first" => some .first
  | "word" => some .word
  | "sentence" => some .sentence
  | _ => Option.none

/-- A mode, and whether the next letter begins a word or a sentence. -/
structure Capitalizer where
  mode : Capitals
  wordStart : Bool := true
  sentenceStart : Bool := true
deriving DecidableEq

namespace Capitalizer

/-- What one character becomes, outside of lower case. -/
def step (z : Capitalizer) (c : Char) : List Char × Capitalizer :=
  match z.mode with
  | .none | .lower => ([c], z)
  | .upper => (Text.upperOf c, z)
  | .first => if Text.isLetter c then (Text.upperOf c, { z with mode := .none }) else ([c], z)
  | .word =>
    (if z.wordStart && Text.isLetter c then Text.upperOf c else [c],
      { z with wordStart := Text.isBlank c })
  | .sentence =>
    (if z.sentenceStart && Text.isLetter c then Text.upperOf c else [c],
      if c == '.' || c == '!' || c == '?' then { z with sentenceStart := true }
      else if Text.isLetterOrNumeral c then { z with sentenceStart := false }
      else z)

/-- Appends what `c` becomes to the text so far. -/
def push (acc : String × Capitalizer) (c : Char) : String × Capitalizer :=
  let (cs, z) := acc.2.step c
  (cs.foldl String.push acc.1, z)

/-- The text as it is printed, and the state after it. -/
def apply (z : Capitalizer) (text : String) : String × Capitalizer :=
  if z.mode = .lower then (Text.lower text, z) else text.toList.foldl push ("", z)

end Capitalizer

end Wordloom
