import Wordloom.Regex.Expr

/-!
# Wordloom.Regex.Size

How large an expression is: its levels, and the bytes that it takes as an automaton, in which
counted repetitions are written out.
-/

namespace Wordloom.Regex

/-! ## Levels -/

mutual

/-- Levels of expressions inside one another. -/
def Expr.depth : Expr → Nat
  | .empty | .char _ | .set _ | .look _ => 0
  | .repeated _ _ body => body.depth + 1
  | .group _ _ body => body.depth + 1
  | .seq parts => depthOfAll parts + 1
  | .alt branches => depthOfAll branches + 1

def depthOfAll : List Expr → Nat
  | [] => 0
  | e :: es => max e.depth (depthOfAll es)

end

/-! ## Empty matches -/

mutual

/-- Whether the expression can match without taking a character. -/
def Expr.nullable : Expr → Bool
  | .empty | .look _ => true
  | .char _ | .set _ => false
  | .repeated min _ body => min = 0 || body.nullable
  | .group _ _ body => body.nullable
  | .seq parts => allNullable parts
  | .alt branches => anyNullable branches

def allNullable : List Expr → Bool
  | [] => true
  | e :: es => e.nullable && allNullable es

def anyNullable : List Expr → Bool
  | [] => false
  | e :: es => e.nullable || anyNullable es

end

/-! ## States -/

/-- The bytes of a state. -/
def stateSize : Nat := 32

/-- The bytes of a state that leads on to several others. -/
def forkSize (ways : Nat) : Nat := stateSize + 4 * ways

/-- The bytes of a state that takes a character of a set. An empty set takes a state as well. -/
def setSize (s : CharSet) : Nat := stateSize + 8 * s.ranges.length

/-- The bytes of a repetition whose body takes `size` bytes. What repeats without end needs a way
around it that is apart from the way back if the body can match without taking a character. -/
def repetitionSize (nullable : Bool) (size min : Nat) : Option Nat → Nat
  | none =>
    if min = 0 && nullable then size + 2 * forkSize 2 + stateSize
    else Nat.max min 1 * size + forkSize 2
  | some max =>
    let least := if min = 0 then stateSize else min * size
    if min = max then least
    else if min = 0 && max = 1 then forkSize 2 + size + stateSize
    else least + stateSize + (max - min) * (forkSize 2 + size)

mutual

/-- The bytes of the states of an expression. -/
def Expr.statesSize : Expr → Nat
  | .empty | .char _ | .look _ => stateSize
  | .set s => setSize s
  | .repeated min max body => repetitionSize body.nullable body.statesSize min max
  | .group _ _ body => body.statesSize + 2 * stateSize
  | .seq parts => statesSizeOfAll parts
  | .alt branches => statesSizeOfAll branches + forkSize branches.length + stateSize

def statesSizeOfAll : List Expr → Nat
  | [] => 0
  | e :: es => e.statesSize + statesSizeOfAll es

end

/-! ## Groups -/

mutual

/-- The number of the last group, zero if there is none. -/
def Expr.lastGroup : Expr → Nat
  | .empty | .char _ | .set _ | .look _ => 0
  | .repeated _ _ body => body.lastGroup
  | .group index _ body => max index body.lastGroup
  | .seq parts => lastGroupOfAll parts
  | .alt branches => lastGroupOfAll branches

def lastGroupOfAll : List Expr → Nat
  | [] => 0
  | e :: es => max e.lastGroup (lastGroupOfAll es)

end

/-- The bytes that the name of a group takes. -/
def nameSize : Option String → Nat
  | none => 0
  | some name => name.utf8ByteSize + 4

mutual

/-- The bytes that the names of all groups take. -/
def Expr.namesSize : Expr → Nat
  | .empty | .char _ | .set _ | .look _ => 0
  | .repeated _ _ body => body.namesSize
  | .group _ name body => nameSize name + body.namesSize
  | .seq parts => namesSizeOfAll parts
  | .alt branches => namesSizeOfAll branches

def namesSizeOfAll : List Expr → Nat
  | [] => 0
  | e :: es => e.namesSize + namesSizeOfAll es

end

/-- The bytes of the automaton. The whole expression is a group as well, with the number zero, and
a last state accepts; each group has 16 bytes in a table. -/
def Expr.size (e : Expr) : Nat :=
  e.statesSize + 3 * stateSize + 16 * (e.lastGroup + 1) + e.namesSize

end Wordloom.Regex
