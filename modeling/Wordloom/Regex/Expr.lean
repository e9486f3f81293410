import Wordloom.Regex.CharSet

/-!
# Wordloom.Regex.Expr

Regular expressions and the texts they occur in. Only whether an expression matches somewhere in
a text matters here, not where, so a repetition is neither greedy nor lazy.

A match is computed by marks: one for each gap between characters, the ends included. An
expression carries the marks at which it may begin to the marks at which it may end.
-/

namespace Wordloom.Regex

/-! ## Expressions -/

/-- Conditions on a gap between characters. -/
inductive Look where
  | textStart
  | textEnd
  | lineStart
  | lineEnd
  | lineStartCrlf
  | lineEndCrlf
  | wordEdge
  | noWordEdge
  | wordStart
  | wordEnd
  | noWordBefore
  | noWordAfter
deriving DecidableEq

inductive Expr where
  | empty
  | char (c : Char)
  | set (s : CharSet)
  | look (l : Look)
  /-- at least `min` times, and at most `max` times if there is such a bound -/
  | repeated (min : Nat) (max : Option Nat) (body : Expr)
  /-- with its number and, if it has one, its name -/
  | group (index : Nat) (name : Option String) (body : Expr)
  | seq (parts : List Expr)
  | alt (branches : List Expr)

/-! ## Gaps -/

/-- The characters on both sides of a gap. -/
structure Gap where
  before : Option Char
  after : Option Char

/-- The gaps of a text from its start to its end. -/
def gaps (text : List Char) : List Gap :=
  List.zipWith Gap.mk (none :: text.map some) (text.map some ++ [none])

/-- ASCII letters, digits and the underscore. -/
def isWordChar (c : Char) : Bool := c.isAlphanum || c == '_'

def Look.holds (l : Look) (g : Gap) : Bool :=
  let wordBefore := g.before.any isWordChar
  let wordAfter := g.after.any isWordChar
  match l with
  | .textStart => g.before.isNone
  | .textEnd => g.after.isNone
  | .lineStart => g.before.all (· == '\n')
  | .lineEnd => g.after.all (· == '\n')
  | .lineStartCrlf => g.before.all fun c => c == '\n' || (c == '\r' && g.after != some '\n')
  | .lineEndCrlf => g.after.all fun c => c == '\r' || (c == '\n' && g.before != some '\r')
  | .wordEdge => wordBefore != wordAfter
  | .noWordEdge => wordBefore == wordAfter
  | .wordStart => !wordBefore && wordAfter
  | .wordEnd => wordBefore && !wordAfter
  | .noWordBefore => !wordBefore
  | .noWordAfter => !wordAfter

/-! ## Marks -/

/-- One mark for each gap of a text. -/
abbrev Marks := List Bool

/-- Moves each mark over the character behind it, if that is in the class. -/
def Marks.over (text : List Char) (accepts : Char → Bool) (marks : Marks) : Marks :=
  false :: List.zipWith (fun mark c => mark && accepts c) marks text

def Marks.keep (text : List Char) (l : Look) (marks : Marks) : Marks :=
  List.zipWith (fun mark g => mark && l.holds g) marks (gaps text)

def Marks.join (a b : Marks) : Marks := List.zipWith (· || ·) a b

/-- `step` done `n` times; once no mark is left nothing changes any more. -/
def Marks.times (step : Marks → Marks) : Nat → Marks → Marks
  | 0, marks => marks
  | n + 1, marks => if marks.any id then Marks.times step n (step marks) else marks

/-- The marks reached by doing `step` up to `n` times. -/
def Marks.upTo (step : Marks → Marks) : Nat → Marks → Marks
  | 0, marks => marks
  | n + 1, marks =>
    let next := marks.join (step marks)
    if next = marks then marks else Marks.upTo step n next

/-! ## Matching -/

mutual

/-- The marks at which `e` may end, given those at which it may begin. -/
def Expr.advance (text : List Char) : Expr → Marks → Marks
  | .empty, marks => marks
  | .char c, marks => marks.over text (· == c)
  | .set s, marks => marks.over text s.contains
  | .look l, marks => marks.keep text l
  | .repeated min max body, marks =>
    let started := Marks.times (fun m => body.advance text m) min marks
    -- there are `text.length + 1` marks, so that many rounds reach all that can be reached
    let rounds := match max with
      | some max => max - min
      | none => text.length + 1
    Marks.upTo (fun m => body.advance text m) rounds started
  | .group _ _ body, marks => body.advance text marks
  | .seq parts, marks => advanceSeq text parts marks
  | .alt branches, marks => advanceAlt text branches marks

def advanceSeq (text : List Char) : List Expr → Marks → Marks
  | [], marks => marks
  | part :: parts, marks => advanceSeq text parts (part.advance text marks)

def advanceAlt (text : List Char) : List Expr → Marks → Marks
  | [], marks => marks.map fun _ => false
  | branch :: branches, marks => (branch.advance text marks).join (advanceAlt text branches marks)

end

/-- The expression matches somewhere in the text. -/
def Expr.matchesIn (e : Expr) (text : String) : Bool :=
  let cs := text.toList
  (e.advance cs (List.replicate (cs.length + 1) true)).any id

end Wordloom.Regex
