import Wordloom.Compile.State
import Wordloom.Text.Digits
import Wordloom.Text.Letter

/-!
# Wordloom.Compile.Query

Queries: a table's name between angle brackets, followed by what narrows the choice.
-/

namespace Wordloom.Compile

namespace Query

open Compiling

/-- Letters, numerals, underscores and hyphens. -/
def isTableName (name : String) : Bool :=
  !name.isEmpty && name.all fun c => Text.isLetterOrNumeral c || c == '_' || c == '-'

/-! ## Regular expressions -/

/-- A slash with a backslash before it is a slash. -/
def unescapeSlashes : List Char → List Char
  | '\\' :: '/' :: cs => '/' :: unescapeSlashes cs
  | c :: cs => c :: unescapeSlashes cs
  | [] => []

/-- The flags of a regular expression stand in front of it, in a group of their own. -/
def withFlags (flags pattern : List Char) : List Char :=
  if flags.isEmpty then pattern else '(' :: '?' :: flags ++ ')' :: pattern

/-- What stands before and behind the last double slash of a text. It is searched from the end, and
`behind` has been passed. -/
def splitSlashes? (behind : List Char) : (reversed : List Char) → Option (List Char × List Char)
  | '/' :: '/' :: cs => some (cs.reverse, behind)
  | c :: cs => splitSlashes? (c :: behind) cs
  | [] => none

/-- The regular expression of a token's text: it stands between double slashes, and what is behind
the last of them are its flags. -/
def regexSource? (text : String) : Option String :=
  match text.toList with
  | '/' :: '/' :: body =>
    (splitSlashes? [] body.reverse).map fun (pattern, flags) =>
      String.ofList (withFlags flags (unescapeSlashes pattern))
  | _ => none

/-- Reads a regular expression and gives its index. -/
def regex : Compiling UInt32 := do
  let token ← expectLoose .regex "regex"
  match regexSource? token.text with
  | none => fail token.position (.fault s!"malformed regex token {token.text}")
  | some source =>
    let c ← get
    match c.out.addRegex source with
    | .ok (index, out) =>
      set { c with out }
      return index.toUInt32
    | .error e => fail token.position (.invalidRegex source e)

/-! ## Classes -/

/-- Reads classes with bars between them, of which at most `fuel`. An exclamation mark in front of
a class means that a word must not have it. -/
def classRules (exclusive : Bool) : (fuel : Nat) → Compiling (List ClassRule)
  | 0 => do fail (← position) (.fault "class filter without end")
  | fuel + 1 => do
    let negative ← take .exclamation
    if exclusive && negative then fail (← lastPosition) .negativeClassInExclusive
    let name ← expectLoose .text "class name"
    let rule : ClassRule := ⟨name.text, !negative⟩
    if ← takeLoose .pipe then return rule :: (← classRules exclusive fuel)
    else return [rule]

/-! ## Syllables -/

def syllableCount? (text : String) : Option UInt32 := do
  let n ← Text.ofDigits? text.toList
  if n < UInt32.size then some n.toUInt32 else none

/-- The range that the tokens between parentheses say. -/
def syllableRange? (parts : List Token) : Option SyllableRange :=
  match parts with
  | [⟨.text, n, _⟩] => do
    let n ← syllableCount? n
    return ⟨some n, some n⟩
  | [⟨.text, n, _⟩, ⟨.hyphen, _, _⟩] => do return ⟨some (← syllableCount? n), none⟩
  | [⟨.hyphen, _, _⟩, ⟨.text, n, _⟩] => do return ⟨none, some (← syllableCount? n)⟩
  | [⟨.text, m, _⟩, ⟨.hyphen, _, _⟩, ⟨.text, n, _⟩] => do
    return ⟨some (← syllableCount? m), some (← syllableCount? n)⟩
  | _ => none

/-- Reads the tokens up to a closing parenthesis, at most `fuel`. -/
def syllableParts : (fuel : Nat) → Compiling (List Token)
  | 0 => do fail (← position) (.fault "syllable range without end")
  | fuel + 1 => do
    let token ← readLoose "')'"
    match token.kind with
    | .rightParen => return []
    | .text | .hyphen => return token :: (← syllableParts fuel)
    | _ => fail token.position (.invalidQueryToken token.text)

/-- Reads a range behind its opening parenthesis, which stands at `start`. -/
def syllables (start : Position) : Compiling SyllableRange := do
  let parts ← syllableParts ((← tokensLeft) + 1)
  match syllableRange? parts with
  | some range => return range
  | none => fail start (.syllableRange s!"({String.join (parts.map (·.text))})")

/-! ## Carriers -/

/-- What the sign behind an at sign makes of an association. -/
def associationOf : Option Token.Kind → CarrierKind
  | some .exclamation => .dissociative
  | some .plus => .divergent
  | some .question => .relational
  | _ => .associative

/-- Reads an association behind its at sign. -/
def association : Compiling CarrierKind := do
  let kind := associationOf (← peekKindLoose)
  if kind ≠ .associative then
    let _ ← read "carrier"
  if ← takeLoose .equal then return kind.matching else return kind

/-- Reads the signs in front of a carrier's name; `none` if a part of the query comes that is no
carrier. -/
def carrierKind? : Compiling (Option CarrierKind) := do
  let place ← position
  match ← peekKindLoose with
  | none => fail place (.unexpectedEnd "'>'")
  | some .rightAngle | some .dot | some .hyphen | some .leftParen | some .question
  | some .without => return none
  | some .equal =>
    let _ ← read "carrier"
    return some .matchWord
  | some .at =>
    let _ ← read "carrier"
    return some (← association)
  | some .exclamation =>
    let _ ← read "carrier"
    if ← take .equal then return some .matchUnique else return some .unique
  | some .ampersand =>
    let _ ← read "carrier"
    return some .rhyme
  | some _ =>
    let token ← read "carrier"
    fail token.position (.invalidCarrierToken token.text)

/-- Reads carriers, at most `fuel`, behind those that the query already has. -/
def carriers (before : List Carrier) : (fuel : Nat) → Compiling (List Carrier)
  | 0 => do fail (← position) (.fault "carriers without end")
  | fuel + 1 => do
    let place ← position
    match ← carrierKind? with
    | none => if before.isEmpty then fail place .emptyCarrier else return before
    | some kind =>
      let id ← expectLoose .text "carrier identifier"
      carriers (before ++ [⟨kind, id.text⟩]) fuel

/-! ## The query -/

/-- Reads what narrows a query, at most `fuel` parts, up to its closing bracket. -/
def filters (q : Query) : (fuel : Nat) → Compiling Query
  | 0 => do fail (← position) (.fault "query without end")
  | fuel + 1 => do
    let token ← readLoose "'>'"
    match token.kind with
    | .rightAngle => return q
    | .dot =>
      let subtype ← expectLoose .text "subtype"
      filters { q with subtype := some subtype.text } fuel
    | .hyphen =>
      let rules ← classRules q.exclusive ((← tokensLeft) + 1)
      filters { q with classFilter := q.classFilter ++ [rules] } fuel
    | .leftParen =>
      let range ← syllables token.position
      filters { q with syllables := some range } fuel
    | .question | .without =>
      let filter : RegexFilter := ⟨token.kind = .question, ← regex⟩
      filters { q with regexFilters := q.regexFilters ++ [filter] } fuel
    | .doubleColon =>
      let carriers ← carriers q.carriers ((← tokensLeft) + 1)
      filters { q with carriers } fuel
    | _ => fail token.position (.invalidQueryToken token.text)

/-- Reads the name of a table, unless the query starts with its carriers. -/
def table : Compiling (Option String) := do
  if (← peekKindLoose) = some .doubleColon then return none
  let name ← expectLoose .text "table name"
  if isTableName name.text then return some name.text
  else fail name.position (.invalidArgument "table name" name.text)

/-- Reads a query behind its opening bracket, which stands at `start`. -/
def parse (start : Position) : Compiling Query := do
  let table ← table
  let exclusive ← take .dollar
  let q ← filters { table, exclusive } ((← tokensLeft) + 1)
  if q.table.isNone && q.carriers.isEmpty then fail start .deleteWithoutCarriers else return q

end Query

/-- Compiles a query. -/
def query (start : Position) : Compiling Unit := do
  let q ← Query.parse start
  let c ← get
  let (index, out) := c.out.addQuery q
  set { c with out := out.emit (.query (Int32.ofNat index)) }

end Wordloom.Compile
