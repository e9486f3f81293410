import Std.Data.TreeMap

/-!
# Wordloom.Compile.Scopes

Names and what they stand for, in scopes inside one another. The outermost scope is always there.
-/

namespace Wordloom.Compile

/-- The names of one scope. -/
abbrev Scope (α : Type) := Std.TreeMap String α

structure Scopes (α : Type) where
  inner : Scope α := {}
  /-- the enclosing scopes, innermost first -/
  outer : List (Scope α) := []

namespace Scopes

def openNew (s : Scopes α) : Scopes α := ⟨{}, s.inner :: s.outer⟩

/-- Closes the innermost scope and gives what was in it; the outermost one stays. -/
def closeInner (s : Scopes α) : Option (Scope α) × Scopes α :=
  match s.outer with
  | [] => (none, s)
  | scope :: outer => (some s.inner, ⟨scope, outer⟩)

/-- The number of open scopes. -/
def depth (s : Scopes α) : Nat := s.outer.length + 1

/-- Adds a name to the innermost scope, in place of the same name there. -/
def add (s : Scopes α) (name : String) (a : α) : Scopes α :=
  { s with inner := s.inner.insert name a }

/-- What the innermost scope has for a name. -/
def findLocal? (s : Scopes α) (name : String) : Option α := s.inner[name]?

/-- What the innermost scope that has the name has for it. -/
def find? (s : Scopes α) (name : String) : Option α :=
  (s.inner :: s.outer).findSome? (·[name]?)

end Scopes

end Wordloom.Compile
