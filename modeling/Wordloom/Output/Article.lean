import Wordloom.Text.CaseMap
import Wordloom.Text.Letter

/-!
# Wordloom.Output.Article

The article that goes with an English word, judged by its spelling.
-/

namespace Wordloom

inductive Article where
  | a
  | an
  | the
deriving DecidableEq

namespace Article

def text : Article → String
  | .a => "a"
  | .an => "an"
  | .the => "the"

/-- Starts of words with an h that is not spoken. -/
def silentH : List String := ["hour", "honor", "honour", "honest", "heir", "herb"]

/-- Starts of words that are spelled with a vowel and spoken with a consonant. -/
def consonantSound : List String :=
  ["unani", "uni", "use", "usu", "uti", "ura", "ure", "uro", "eu", "ewe", "one", "once"]

def irregularPlurals : List String :=
  ["men", "women", "children", "people", "geese", "mice", "lice", "teeth", "feet", "oxen", "fungi",
   "cacti", "alumni", "nuclei", "radii", "stimuli", "criteria", "phenomena", "data", "sheep"]

def startsWithAny (word : List Char) (starts : List String) : Bool :=
  starts.any fun s => s.toList.isPrefixOf word

def endsWithAny (word : List Char) (ends : List String) : Bool :=
  ends.any fun s => s.toList.isSuffixOf word

/-- A plural by its spelling. A short word is judged by its length in bytes. -/
def looksPlural (word : String) : Bool :=
  let cs := word.toList
  if irregularPlurals.contains word then true
  else if word.utf8ByteSize < 4 || !endsWithAny cs ["s"] then false
  else if endsWithAny cs ["ses", "xes", "zes", "ches", "shes"] then true
  else !endsWithAny cs ["ss", "us", "is", "os", "as"]

/-- The article for the word that follows it. -/
def before (word : String) : Article :=
  let word := Text.lower word
  let cs := word.toList
  if word.isEmpty then .a
  else if looksPlural word then .the
  else if startsWithAny cs silentH then .an
  else if startsWithAny cs consonantSound then .a
  else if startsWithAny cs ["a", "e", "i", "o", "u"] then .an
  else .a

/-- The first word of a text: from its first letter or numeral on, with the apostrophes and
hyphens inside. -/
def firstWord? (text : String) : Option String :=
  match text.toList.dropWhile fun c => !Text.isLetterOrNumeral c with
  | [] => none
  | cs =>
    some (String.ofList (cs.takeWhile fun c => Text.isLetterOrNumeral c || c == '\'' || c == '-'))

end Article

end Wordloom
