import Wordloom.Machine.Fault

/-!
# Wordloom.Machine.Stack

The values an activation works on. All activations share one stack; each may only take values from
above its own floor.
-/

namespace Wordloom

structure Stack where
  values : Array Value
  limit : Nat

namespace Stack

def withLimit (limit : Nat) : Stack := ⟨#[], limit⟩

def size (s : Stack) : Nat := s.values.size

def push (s : Stack) (v : Value) : Except Fault Stack :=
  if s.limit ≤ s.size then .error (.stackOverflow s.limit)
  else .ok { s with values := s.values.push v }

/-- Takes the value on top, unless that goes below the floor. -/
def popAbove (s : Stack) (floor : Nat) : Except Fault (Value × Stack) :=
  if s.size ≤ floor then .error .stackUnderflow
  else
    match s.values.back? with
    | some v => .ok (v, { s with values := s.values.pop })
    | none => .error .stackUnderflow

/-- The number of values above the floor. -/
def heightAbove (s : Stack) (floor : Nat) : Nat := s.size - floor

def get? (s : Stack) (i : Nat) : Option Value := s.values[i]?

/-- Removes the values from height `n` on. -/
def truncate (s : Stack) (n : Nat) : Stack := { s with values := s.values.take n }

/-- The values from height `n` on, and the stack without them. -/
def splitAt (s : Stack) (n : Nat) : List Value × Stack :=
  ((s.values.extract n s.size).toList, s.truncate n)

end Stack

end Wordloom
