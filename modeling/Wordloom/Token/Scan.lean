import Wordloom.Text.Blank
import Wordloom.Text.Hex
import Wordloom.Token

/-!
# Wordloom.Token.Scan

Cutting a source into tokens. Nothing is refused: an escape, literal or regular expression that
the source ends in the middle of becomes a broken token. The texts of the tokens, put together,
are the source again.
-/

namespace Wordloom.Token

/-- A token's kind, its text after the first character, and the characters after it. -/
structure Cut where
  kind : Kind
  tail : List Char
  rest : List Char

/-- The same cut with more characters in front. -/
def Cut.extend (front : List Char) (cut : Cut) : Cut := { cut with tail := front ++ cut.tail }

/-- Characters that never belong to a text token. -/
def isSpecial (c : Char) : Bool :=
  ['\\', '[', ']', '\x7b', '\x7d', '<', '>', '(', ')', '|', ':', ';', '@', '?', '!', '$', '-', ',',
   '"', '=', '&', '+', '*', '.', '~'].contains c

/-- Splits at the first character that ends a text: a blank, a special one or two slashes. -/
def splitText : List Char → List Char × List Char
  | [] => ([], [])
  | c :: cs =>
    if Text.isBlank c || isSpecial c || (c == '/' && cs.head? == some '/') then ([], c :: cs)
    else
      let (text, rest) := splitText cs
      (c :: text, rest)

/-- Splits behind the quote that closes a literal; two quotes in a row do not close it. -/
def splitLiteral : List Char → Cut
  | [] => ⟨.broken, [], []⟩
  | '"' :: '"' :: cs => (splitLiteral cs).extend ['"', '"']
  | '"' :: cs => ⟨.literal, ['"'], cs⟩
  | c :: cs => (splitLiteral cs).extend [c]

/-- Splits behind the slashes that close a regular expression and the letters that follow them;
a slash behind a backslash does not count. -/
def splitRegex : List Char → Cut
  | [] => ⟨.broken, [], []⟩
  | '/' :: '/' :: cs =>
    ⟨.regex, '/' :: '/' :: cs.takeWhile Char.isAlpha, cs.dropWhile Char.isAlpha⟩
  | '\\' :: '/' :: cs => (splitRegex cs).extend ['\\', '/']
  | c :: cs => (splitRegex cs).extend [c]

/-- Splits behind the code of an escape: `u` and four hexadecimal digits, or one character. -/
def splitCode : List Char → Cut
  | [] => ⟨.broken, [], []⟩
  | 'u' :: a :: b :: c :: d :: cs =>
    if [a, b, c, d].all fun x => (Text.hexDigit? x).isSome then ⟨.escape, ['u', a, b, c, d], cs⟩
    else ⟨.escape, ['u'], a :: b :: c :: d :: cs⟩
  | c :: cs => ⟨.escape, [c], cs⟩

/-- Splits behind an escape; digits and a comma in front of the code are its count. -/
def splitEscape (cs : List Char) : Cut :=
  match cs.takeWhile Char.isDigit, cs.dropWhile Char.isDigit with
  | d :: digits, ',' :: rest => (splitCode rest).extend (d :: digits ++ [','])
  | _, _ => splitCode cs

/-- The kind of a special character that stands for itself. -/
def Kind.ofChar : Char → Kind
  | '[' => .leftSquare
  | ']' => .rightSquare
  | '\x7b' => .leftCurly
  | '\x7d' => .rightCurly
  | '<' => .leftAngle
  | '>' => .rightAngle
  | '(' => .leftParen
  | ')' => .rightParen
  | '|' => .pipe
  | ':' => .colon
  | ';' => .semicolon
  | '@' => .at
  | '?' => .question
  | '!' => .exclamation
  | '$' => .dollar
  | '-' => .hyphen
  | ',' => .comma
  | '=' => .equal
  | '&' => .ampersand
  | '+' => .plus
  | '*' => .asterisk
  | '.' => .dot
  | '~' => .tilde
  | _ => .broken

/-- The token that begins with `c`. -/
def cut (c : Char) (cs : List Char) : Cut :=
  if Text.isBlank c then ⟨.blank, cs.takeWhile Text.isBlank, cs.dropWhile Text.isBlank⟩
  else
    match c, cs with
    | '/', '/' :: rest => (splitRegex rest).extend ['/']
    | '\\', cs => splitEscape cs
    | '"', cs => splitLiteral cs
    | ':', ':' :: rest => ⟨.doubleColon, [':'], rest⟩
    | '?', '!' :: rest => ⟨.without, ['!'], rest⟩
    | c, cs =>
      if isSpecial c then ⟨.ofChar c, [], cs⟩
      else ⟨.text, (splitText cs).1, (splitText cs).2⟩

/-! ## No character is lost -/

theorem splitText_append (cs : List Char) : (splitText cs).1 ++ (splitText cs).2 = cs := by
  induction cs with
  | nil => rfl
  | cons c cs ih => unfold splitText; split <;> simp [ih]

theorem splitLiteral_append (cs : List Char) :
    (splitLiteral cs).tail ++ (splitLiteral cs).rest = cs := by
  fun_induction splitLiteral cs <;> simp_all [Cut.extend]

theorem splitRegex_append (cs : List Char) :
    (splitRegex cs).tail ++ (splitRegex cs).rest = cs := by
  fun_induction splitRegex cs <;> simp_all [Cut.extend, List.takeWhile_append_dropWhile]

theorem splitCode_append (cs : List Char) : (splitCode cs).tail ++ (splitCode cs).rest = cs := by
  fun_cases splitCode cs <;> simp_all

theorem splitEscape_append (cs : List Char) :
    (splitEscape cs).tail ++ (splitEscape cs).rest = cs := by
  unfold splitEscape
  split
  · rename_i d digits rest hd hr
    have h := List.takeWhile_append_dropWhile (p := Char.isDigit) (l := cs)
    rw [hd, hr] at h
    simp [Cut.extend, splitCode_append, ← h]
  · exact splitCode_append cs

theorem cut_append (c : Char) (cs : List Char) : (cut c cs).tail ++ (cut c cs).rest = cs := by
  unfold cut
  split
  · simp [List.takeWhile_append_dropWhile]
  · split
    · simp [Cut.extend, splitRegex_append]
    · exact splitEscape_append _
    · exact splitLiteral_append _
    · rfl
    · rfl
    · split
      · rfl
      · exact splitText_append _

theorem cut_rest_length_le (c : Char) (cs : List Char) : (cut c cs).rest.length ≤ cs.length := by
  have h := congrArg List.length (cut_append c cs)
  rw [List.length_append] at h
  omega

/-! ## The tokens of a source -/

/-- The tokens of `cs`, the first of which is at `p`. -/
def scanFrom (p : Position) : List Char → List Token
  | [] => []
  | c :: cs =>
    let lexeme := c :: (cut c cs).tail
    ⟨(cut c cs).kind, String.ofList lexeme, p⟩ :: scanFrom (p.after lexeme) (cut c cs).rest
termination_by cs => cs.length
decreasing_by
  have := cut_rest_length_le c cs
  simp only [List.length_cons]
  omega

/-- The tokens of a source. -/
def scan (source : String) : List Token := scanFrom .start source.toList

end Wordloom.Token
