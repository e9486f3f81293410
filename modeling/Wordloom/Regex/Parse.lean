import Wordloom.Regex.Class
import Wordloom.Regex.Error
import Wordloom.Regex.Size
import Wordloom.Text.Blank
import Wordloom.Text.Hex
import Wordloom.Text.Letter

/-!
# Wordloom.Regex.Parse

Reading a regular expression. The reader keeps the groups that are open on a stack, so that it is
one loop over the characters; each round takes at least one of them.
-/

namespace Wordloom.Regex

/-! ## Flags -/

/-- Flags in force. Whether a repetition is greedy, and whether classes go beyond ASCII, has no
bearing on a match, so those flags are accepted and not kept. -/
structure Flags where
  ignoreCase : Bool := false
  multiLine : Bool := false
  dotNewline : Bool := false
  crlf : Bool := false
  spaced : Bool := false
deriving DecidableEq

def Flags.set? (flags : Flags) (name : Char) (on : Bool) : Option Flags :=
  match name with
  | 'i' => some { flags with ignoreCase := on }
  | 'm' => some { flags with multiLine := on }
  | 's' => some { flags with dotNewline := on }
  | 'R' => some { flags with crlf := on }
  | 'x' => some { flags with spaced := on }
  | 'U' | 'u' => some flags
  | _ => none

/-- Drops blanks and comments, which run from a number sign to the end of the line. -/
def skipSpaced (inComment : Bool) : List Char → List Char
  | [] => []
  | c :: cs =>
    if inComment then skipSpaced (c != '\n') cs
    else if Text.isBlank c then skipSpaced false cs
    else if c == '#' then skipSpaced true cs
    else c :: cs

/-- What is read next: blanks and comments only count without the `x` flag. -/
def Flags.skip (flags : Flags) (cs : List Char) : List Char :=
  if flags.spaced then skipSpaced false cs else cs

/-- The character that will be read after the current one, looking past blanks and the start of a
comment. -/
def Flags.peek (flags : Flags) (cs : List Char) : Option Char :=
  if flags.spaced then
    let rest := match cs.dropWhile Text.isBlank with
      | '#' :: rest => rest.dropWhile Text.isBlank
      | rest => rest
    rest.head?.or cs.head?
  else cs.head?

/-! ## Characters and escapes -/

/-- A single character, with its other case when case is ignored. -/
def Flags.literal (flags : Flags) (c : Char) : Expr :=
  if flags.ignoreCase && c.isAlpha then .set (CharSet.ofRanges [.ofChar c]).foldCase else .char c

def charOfCode? (n : Nat) : Option Char := if n.isValidChar then some (Char.ofNat n) else none

/-- `count` hexadecimal digits. -/
def readFixedHex (flags : Flags) (count : Nat) (cs : List Char) : Except Error (Char × List Char) :=
  go count cs 0
where
  go : Nat → List Char → Nat → Except Error (Char × List Char)
  | 0, cs, n =>
    match charOfCode? n with
    | some c => .ok (c, cs)
    | none => .error .hexInvalid
  | _ + 1, [], _ => .error .hexTooShort
  | k + 1, c :: cs, n =>
    match Text.hexDigit? c with
    | none => .error .hexNotHex
    | some d => go k (flags.skip cs) (n * 16 + d)

/-- Hexadecimal digits up to a closing brace. -/
def readBracedHex (flags : Flags) (cs : List Char) : Except Error (Char × List Char) :=
  go cs.length cs []
where
  go : Nat → List Char → List Char → Except Error (Char × List Char)
  | 0, _, _ => .error .braceUnclosed
  | fuel + 1, cs, digits =>
    match flags.skip cs with
    | [] => .error .braceUnclosed
    | '\x7d' :: rest =>
      match digits with
      | [] => .error .braceEmpty
      | digits =>
        match (Text.ofHexChars? digits.reverse).bind charOfCode? with
        | some c => .ok (c, flags.skip rest)
        | none => .error .braceInvalid
    | c :: rest =>
      if (Text.hexDigit? c).isSome then go fuel rest (c :: digits) else .error .braceNotHex

/-- The code point after `\x`, `\u` or `\U`. -/
def readHex (flags : Flags) (count : Nat) (cs : List Char) : Except Error (Char × List Char) :=
  match flags.skip cs with
  | [] => .error .hexMissing
  | '\x7b' :: rest => readBracedHex flags rest
  | cs => readFixedHex flags count cs

/-- A named word boundary in braces, such as `\b\x7bstart\x7d`. What cannot be a name is left to be
read as a count. -/
def readWordBoundary (flags : Flags) (cs : List Char) : Except Error (Look × List Char) :=
  match cs with
  | '\x7b' :: rest =>
    match flags.skip rest with
    | [] => .error .wordBoundaryOrCountUnclosed
    | c :: rest =>
      if !isNameChar c then .ok (.wordEdge, cs)
      else
        let (name, rest) := name rest.length (c :: rest) []
        match rest with
        | '\x7d' :: rest =>
          match String.ofList name with
          | "start" => .ok (.wordStart, rest)
          | "end" => .ok (.wordEnd, rest)
          | "start-half" => .ok (.noWordBefore, rest)
          | "end-half" => .ok (.noWordAfter, rest)
          | _ => .error .wordBoundaryUnknown
        | _ => .error .wordBoundaryUnclosed
  | _ => .ok (.wordEdge, cs)
where
  isNameChar (c : Char) : Bool := c.isAlpha || c == '-'
  name : Nat → List Char → List Char → List Char × List Char
  | _, [], read => (read.reverse, [])
  | 0, c :: cs, read =>
    if isNameChar c then ((c :: read).reverse, flags.skip cs) else (read.reverse, c :: cs)
  | fuel + 1, c :: cs, read =>
    if isNameChar c then name fuel (flags.skip cs) (c :: read) else (read.reverse, c :: cs)

/-- ASCII characters that stand for themselves after a backslash. -/
def isEscapable (c : Char) : Bool :=
  c.toNat < 128 && !c.isAlphanum && c != '<' && c != '>'

/-- What follows a backslash. -/
def readEscape (flags : Flags) : List Char → Except Error (Expr × List Char)
  | [] => .error .unfinishedEscape
  | c :: cs =>
    if c.isDigit then .error .backReference
    else if isEscapable c then .ok (flags.literal c, cs)
    else
      match letterClass? c with
      | some s => .ok (.set s, cs)
      | none =>
        match c with
        | 'p' | 'P' => .error .unicodeClass
        | 'x' => (readHex flags 2 cs).map fun (c, cs) => (flags.literal c, cs)
        | 'u' => (readHex flags 4 cs).map fun (c, cs) => (flags.literal c, cs)
        | 'U' => (readHex flags 8 cs).map fun (c, cs) => (flags.literal c, cs)
        | 'a' => .ok (.char '\x07', cs)
        | 'f' => .ok (.char '\x0c', cs)
        | 't' => .ok (.char '\t', cs)
        | 'n' => .ok (.char '\n', cs)
        | 'r' => .ok (.char '\r', cs)
        | 'v' => .ok (.char '\x0b', cs)
        | 'A' => .ok (.look .textStart, cs)
        | 'z' => .ok (.look .textEnd, cs)
        | 'b' => (readWordBoundary flags cs).map fun (l, cs) => (.look l, cs)
        | 'B' => .ok (.look .noWordEdge, cs)
        | '<' => .ok (.look .wordStart, cs)
        | '>' => .ok (.look .wordEnd, cs)
        | _ => .error .unknownEscape

def Flags.dot (flags : Flags) : Expr :=
  let excluded : List Char :=
    if flags.dotNewline then [] else if flags.crlf then ['\n', '\r'] else ['\n']
  .set (CharSet.ofRanges (excluded.map .ofChar)).complement

def Flags.lineStart (flags : Flags) : Look :=
  if !flags.multiLine then .textStart else if flags.crlf then .lineStartCrlf else .lineStart

def Flags.lineEnd (flags : Flags) : Look :=
  if !flags.multiLine then .textEnd else if flags.crlf then .lineEndCrlf else .lineEnd

/-! ## Bracketed classes -/

/-- A class name between `[:` and `:]`. Anything else is no such name. -/
def readNamedClass? (cs : List Char) : Option (List CodeRange × List Char) :=
  match cs with
  | '[' :: ':' :: rest =>
    let (negated, rest) := match rest with
      | '^' :: rest => (true, rest)
      | rest => (false, rest)
    match rest.dropWhile (· != ':') with
    | ':' :: ']' :: after =>
      (namedClass? (String.ofList (rest.takeWhile (· != ':')))).map fun s =>
        (if negated then s.complement.ranges else s.ranges, after)
    | _ => none
  | _ => none

/-- A member of a class: a character or an escape. -/
def readClassItem (flags : Flags) : List Char → Except Error (Expr × List Char)
  | [] => .error .classUnclosed
  | '\\' :: cs => readEscape flags cs
  | c :: cs => .ok (.char c, cs)

/-- The characters a member of a class stands for. -/
def Expr.members : Expr → Except Error (List CodeRange)
  | .char c => .ok [.ofChar c]
  | .set s => .ok s.ranges
  | _ => .error .classItem

/-- The end of a range has to be one character. -/
def Expr.rangeEnd : Expr → Except Error Nat
  | .char c => .ok c.toNat
  | _ => .error .classRangeItem

/-- A member, or a range from one character to another. -/
def readClassRange (flags : Flags) (cs : List Char) :
    Except Error (List CodeRange × List Char) := do
  let (first, cs) ← readClassItem flags cs
  match flags.skip cs with
  | [] => .error .classUnclosedAfterItem
  | c :: rest =>
    if c != '-' || flags.peek rest == some ']' || flags.peek rest == some '-' then
      return (← first.members, c :: rest)
    match flags.skip rest with
    | [] => .error .classUnclosedAfterDash
    | rest =>
      let (last, rest) ← readClassItem flags rest
      let low ← first.rangeEnd
      let high ← last.rangeEnd
      if high < low then .error .classRange else return ([(low, high)], rest)

/-- The members up to the closing bracket. -/
def readMembers (flags : Flags) :
    Nat → List Char → List CodeRange → Except Error (List CodeRange × List Char)
  | 0, _, _ => .error .classUnclosed
  | fuel + 1, cs, ranges =>
    match flags.skip cs with
    | [] => .error .classUnclosed
    | ']' :: rest => .ok (ranges, rest)
    | '&' :: '&' :: _ => .error .classIntersection
    | '-' :: '-' :: _ => .error .classDifference
    | '~' :: '~' :: _ => .error .classSymmetricDifference
    | '[' :: rest =>
      match readNamedClass? ('[' :: rest) with
      | some (more, rest) => readMembers flags fuel rest (ranges ++ more)
      | none => .error .classNested
    | cs => do
      let (more, rest) ← readClassRange flags cs
      readMembers flags fuel rest (ranges ++ more)

/-- Dashes in front stand for themselves. -/
def readDashes (flags : Flags) :
    Nat → List Char → List CodeRange → Except Error (List CodeRange × List Char)
  | fuel + 1, '-' :: cs, ranges =>
    match flags.skip cs with
    | [] => .error .classUnclosedAfterDash
    | rest => readDashes flags fuel rest (.ofChar '-' :: ranges)
  | _, cs, ranges => .ok (ranges, cs)

/-- The class after an opening bracket. A bracket that closes it right away stands for itself. -/
def readClass (flags : Flags) (cs : List Char) : Except Error (Expr × List Char) := do
  let cs := flags.skip cs
  if cs.isEmpty then throw .classUnclosed
  let (negated, cs) ← match cs with
    | '^' :: rest =>
      match flags.skip rest with
      | [] => throw .classUnclosedAfterNegation
      | rest => pure (true, rest)
    | cs => pure (false, cs)
  let (ranges, cs) ← readDashes flags cs.length cs []
  let (ranges, cs) ← match ranges, cs with
    | [], ']' :: rest =>
      match flags.skip rest with
      | [] => throw .classUnclosedAfterBracket
      | rest => pure ([.ofChar ']'], rest)
    | ranges, cs => pure (ranges, cs)
  let (ranges, cs) ← readMembers flags (cs.length + 1) cs ranges
  let members := CharSet.ofRanges ranges
  let members := if flags.ignoreCase then members.foldCase else members
  return (.set (if negated then members.complement else members), cs)

/-! ## Repetition -/

/-- A decimal number that fits 32 bits, blanks around it being skipped. -/
def readDecimal (flags : Flags) (cs : List Char) : Except Error (Nat × List Char) :=
  let cs := cs.dropWhile Text.isBlank
  let (digits, rest) := go cs.length cs []
  match digits with
  | [] => .error .noDigits
  | digits =>
    let n := digits.foldl (fun n c => n * 10 + (c.toNat - '0'.toNat)) 0
    if n < UInt32.size then .ok (n, blanks rest.length rest) else .error .badDecimal
where
  go : Nat → List Char → List Char → List Char × List Char
  | _ , [], read => (read.reverse, [])
  | 0, cs, read => (read.reverse, cs)
  | fuel + 1, c :: cs, read =>
    if c.isDigit then go fuel (flags.skip cs) (c :: read) else (read.reverse, c :: cs)
  blanks : Nat → List Char → List Char
  | fuel + 1, c :: cs => if Text.isBlank c then blanks fuel (flags.skip cs) else c :: cs
  | _, cs => cs

/-- Drops the mark that makes a repetition lazy. -/
def dropLazy : List Char → List Char
  | '?' :: cs => cs
  | cs => cs

def Expr.repeat (min : Nat) (max : Option Nat) (e : Expr) : Expr :=
  if max = some 0 then .empty else if min = 1 ∧ max = some 1 then e else .repeated min max e

/-- The bounds of a counted repetition, after its opening brace. -/
def readCount (flags : Flags) (cs : List Char) : Except Error ((Nat × Option Nat) × List Char) := do
  match flags.skip cs with
  | [] => throw .unclosedCount
  | cs =>
    let (min, cs) ← readDecimal flags cs
    let (max, cs) ← match cs with
      | [] => throw .unclosedCountMin
      | ',' :: rest =>
        match flags.skip rest with
        | [] => throw .unclosedCountComma
        | '\x7d' :: rest => pure (none, '\x7d' :: rest)
        | rest => do
          let (max, rest) ← readDecimal flags rest
          if rest.isEmpty then throw .unclosedCountMax
          pure (some max, rest)
      | cs => pure (some min, cs)
    match cs with
    | '\x7d' :: rest =>
      if max.any (· < min) then throw .emptyCountRange
      return ((min, max), dropLazy (flags.skip rest))
    | _ => throw .badCount

/-! ## Groups -/

def isGroupNameStart (c : Char) : Bool := c == '_' || Text.isLetter c

def isGroupNameChar (c : Char) : Bool :=
  c == '_' || c == '.' || c == '[' || c == ']' || Text.isLetterOrNumeral c

/-- A group name up to the closing angle bracket. -/
def readGroupName (cs : List Char) : Except Error (String × List Char) :=
  match cs with
  | [] => .error .missingGroupName
  | cs =>
    let name := cs.takeWhile (· != '>')
    let valid := match name with
      | [] => true
      | c :: rest => isGroupNameStart c && rest.all isGroupNameChar
    if !valid then .error .invalidGroupName
    else
      match cs.dropWhile (· != '>') with
      | [] => .error .unclosedGroupName
      | _ :: rest => if name.isEmpty then .error .emptyGroupName else .ok (String.ofList name, rest)

/-- The flags of a directive, up to the colon or parenthesis that ends them. -/
def readFlags (flags : Flags) : List Char → Except Error (Flags × List Char) :=
  go flags false false []
where
  go (flags : Flags) (negate last : Bool) (seen : List Char) :
      List Char → Except Error (Flags × List Char)
  | [] => .error .unclosedFlags
  | c :: cs =>
    if c == ':' || c == ')' then
      if last then .error .danglingNegation else .ok (flags, c :: cs)
    else if c == '-' then
      if negate then .error .repeatedNegation else go flags true true seen cs
    else
      match flags.set? c (!negate) with
      | none => .error .unknownFlag
      | some flags =>
        if seen.contains c then .error .duplicateFlag else go flags negate false (c :: seen) cs

/-- What an opening parenthesis begins. -/
inductive Opening where
  | group (capturing : Bool) (flags : Flags) (name : Option String)
  | flags (flags : Flags)

/-- The start of a group, after its parenthesis. The closing parenthesis of a flag directive is
left to be read. -/
def readOpening (flags : Flags) (cs : List Char) : Except Error (Opening × List Char) :=
  match flags.skip cs with
  | '?' :: '=' :: _ | '?' :: '!' :: _ | '?' :: '<' :: '=' :: _ | '?' :: '<' :: '!' :: _ =>
    .error .lookAround
  | '?' :: 'P' :: '<' :: rest | '?' :: '<' :: rest =>
    (readGroupName rest).map fun (name, rest) => (.group true flags (some name), rest)
  | '?' :: rest =>
    if rest.isEmpty then .error .unclosedGroupQuestion
    else
      match readFlags flags rest with
      | .error e => .error e
      | .ok (inner, ':' :: after) => .ok (.group false inner none, after)
      | .ok (inner, after) =>
        if after.length = rest.length then .error .emptyFlags else .ok (.flags inner, after)
  | cs => .ok (.group true flags none, cs)

/-! ## The reader -/

/-- The alternatives read so far, and the parts of the last one; both last first. -/
structure Parts where
  branches : List Expr := []
  items : List Expr := []

def seqOf : List Expr → Expr
  | [] => .empty
  | [e] => e
  | es => .seq es

def altOf : List Expr → Expr
  | [] => .empty
  | [e] => e
  | es => .alt es

def Parts.push (p : Parts) (e : Expr) : Parts := { p with items := e :: p.items }

def Parts.nextBranch (p : Parts) : Parts := ⟨seqOf p.items.reverse :: p.branches, []⟩

def Parts.expr (p : Parts) : Expr := altOf (seqOf p.items.reverse :: p.branches).reverse

/-- A group that is open: what stood before it, the flags to go back to, and its number and name if
it has a number. -/
structure OpenGroup where
  outer : Parts
  flags : Flags
  number : Option (Nat × Option String)

structure Reader where
  flags : Flags := {}
  names : List String := []
  /-- the number of the last group that has one -/
  lastGroup : Nat := 0
  parts : Parts := {}
  groups : List OpenGroup := []

/-- Groups may stand inside one another this deep. -/
def nestLimit : Nat := 50

def Reader.open (r : Reader) (opening : Opening) (cs : List Char) :
    Except Error (Reader × List Char) :=
  match opening with
  | .flags flags =>
    match cs with
    | ')' :: rest => .ok ({ r with flags := flags }, rest)
    | _ => .error .unclosedGroup
  | .group capturing flags name =>
    if name.any r.names.contains then .error .duplicateGroupName
    else if nestLimit ≤ r.groups.length then .error .tooMuchNesting
    else
      let lastGroup := if capturing then r.lastGroup + 1 else r.lastGroup
      let number := if capturing then some (lastGroup, name) else none
      .ok ({
        flags, lastGroup
        names := name.toList ++ r.names
        groups := ⟨r.parts, r.flags, number⟩ :: r.groups }, cs)

def Reader.close (r : Reader) : Except Error Reader :=
  match r.groups with
  | [] => .error .unopenedGroup
  | g :: groups =>
    let body := match g.number with
      | some (index, name) => .group index name r.parts.expr
      | none => r.parts.expr
    .ok { r with flags := g.flags, parts := g.outer.push body, groups := groups }

/-- Reads one piece of the expression, which starts with `c`. -/
def Reader.step (r : Reader) (c : Char) (cs : List Char) : Except Error (Reader × List Char) :=
  let push (e : Expr) (cs : List Char) : Reader × List Char :=
    ({ r with parts := r.parts.push e }, cs)
  let repetition (missing : Error) (bounds : Unit → Except Error ((Nat × Option Nat) × List Char)) :
      Except Error (Reader × List Char) :=
    match r.parts.items with
    | [] => .error missing
    | e :: items =>
      (bounds ()).map fun ((min, max), cs) =>
        ({ r with parts := { r.parts with items := e.repeat min max :: items } }, cs)
  match c with
  | '(' => do
    let (opening, cs) ← readOpening r.flags cs
    r.open opening cs
  | ')' => r.close.map (·, cs)
  | '|' => .ok ({ r with parts := r.parts.nextBranch }, cs)
  | '[' => (readClass r.flags cs).map fun (e, cs) => push e cs
  | '?' => repetition .nothingToRepeat fun _ => .ok ((0, some 1), dropLazy cs)
  | '*' => repetition .nothingToRepeat fun _ => .ok ((0, none), dropLazy cs)
  | '+' => repetition .nothingToRepeat fun _ => .ok ((1, none), dropLazy cs)
  | '\x7b' => repetition .nothingToCount fun _ => readCount r.flags cs
  | '\\' => (readEscape r.flags cs).map fun (e, cs) => push e cs
  | '.' => .ok (push r.flags.dot cs)
  | '^' => .ok (push (.look r.flags.lineStart) cs)
  | '$' => .ok (push (.look r.flags.lineEnd) cs)
  | c => .ok (push (r.flags.literal c) cs)

/-- Reads to the end. Every round takes a character, so `fuel` need not exceed their number. -/
def Reader.run : Nat → Reader → List Char → Except Error Expr
  | 0, r, _ => if r.groups.isEmpty then .ok r.parts.expr else .error .unclosedGroup
  | fuel + 1, r, cs =>
    match r.flags.skip cs with
    | [] => if r.groups.isEmpty then .ok r.parts.expr else .error .unclosedGroup
    | c :: cs => do
      let (r, cs) ← r.step c cs
      Reader.run fuel r cs

/-- An expression of more bytes is refused. -/
def sizeLimit : Nat := 10 <<< 20

/-- The expression that a text spells. -/
def Expr.parse (source : String) : Except Error Expr := do
  let cs := source.toList
  let e ← Reader.run (cs.length + 1) {} cs
  if nestLimit < e.depth then throw .tooMuchNesting
  if sizeLimit < e.size then throw .tooLarge
  return e

end Wordloom.Regex

namespace Wordloom

/-- A regular expression together with the text it was read from. -/
structure Regex where
  source : String
  expr : Regex.Expr
  parse_source : Regex.Expr.parse source = .ok expr

namespace Regex

def compile (source : String) : Except Error Regex :=
  match h : Expr.parse source with
  | .ok e => .ok ⟨source, e, h⟩
  | .error e => .error e

/-- The expression matches somewhere in the text. -/
def matchesIn (r : Regex) (text : String) : Bool := r.expr.matchesIn text

end Regex

end Wordloom
