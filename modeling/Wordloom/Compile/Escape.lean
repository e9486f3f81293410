import Wordloom.Compile.State
import Wordloom.Text.Digits
import Wordloom.Text.Letter

/-!
# Wordloom.Compile.Escape

Escapes: a backslash, a count and a comma if it is to be repeated, and a code. A code is a letter
with a meaning, a character that is no letter or numeral and stands for itself, or `u` and the four
hexadecimal digits of a character.
-/

namespace Wordloom.Compile

inductive Escape where
  | char (c : Char)
  /-- random characters of a class, which the letter names -/
  | randomChars (charClass : Char)
  | article
deriving DecidableEq

namespace Escape

/-- The letters of the classes of random characters. -/
def charClasses : List Char := ['c', 'C', 'd', 'D', 'w', 'W', 'x', 'X']

/-- How often a character may be repeated. -/
def maxRepeat : Nat := 65536

/-- The character of a code point. -/
def charOfNat? (n : Nat) : Option Char :=
  if n.isValidChar then some (Char.ofNat n) else none

/-- The letters with a meaning of their own. -/
def named : List (Char × Escape) :=
  [('n', .char '\n'), ('N', .char '\n'), ('r', .char '\r'), ('t', .char '\t'),
   ('f', .char '\x0c'), ('v', .char '\x0b'), ('b', .char '\x08'), ('s', .char ' '),
   ('0', .char '\x00'), ('a', .article)]

/-- The meaning of a code of one character. -/
def ofChar? (c : Char) : Option Escape :=
  match named.lookup c with
  | some escape => some escape
  | none =>
    if charClasses.contains c then some (.randomChars c)
    else if Text.isLetterOrNumeral c then none
    else some (.char c)

def ofCode? : List Char → Option Escape
  | [c] => ofChar? c
  | [u, a, b, c, d] =>
    if u = 'u' then do return .char (← charOfNat? (← Text.ofHexChars? [a, b, c, d])) else none
  | _ => none

/-- The count and the code of an escape. The count is one if there is none. -/
def split (body : List Char) : Nat × List Char :=
  match Text.ofDigits? (body.takeWhile (· ≠ ',')), body.dropWhile (· ≠ ',') with
  | some count, _ :: c :: code => (count, c :: code)
  | _, _ => (1, body)

/-- The count and the meaning of an escape's text. -/
def ofText? (text : String) : Option (Nat × Escape) :=
  let (count, code) := split (text.toList.drop 1)
  if count < UInt32.size then (ofCode? code).map (count, ·) else none

end Escape

/-- Compiles an escape. -/
def escape (token : Token) : Compiling Unit :=
  match Escape.ofText? token.text with
  | none => .fail token.position (.invalidEscape token.text)
  | some (count, .char c) =>
    if Escape.maxRepeat < count then
      .fail token.position
        (.limit s!"escape repeats {count} times, at most {Escape.maxRepeat} allowed")
    else if count = 0 then pure ()
    else .emitString .print (String.ofList (List.replicate count c))
  | some (count, .randomChars c) =>
    if count < 0x80000000 then .emit (.printChars c.toNat.toUInt8 (Int32.ofNat count))
    else .fail token.position (.invalidArgument "character count" (toString count))
  | some (_, .article) => .emit .article

end Wordloom.Compile
