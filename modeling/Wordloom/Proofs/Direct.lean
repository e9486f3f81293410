import Wordloom.Proofs.Meaning
import Wordloom.Proofs.Source

/-!
# Wordloom.Proofs.Direct

What a pattern prints, found by recursion on its tree, without code or a machine. Arguments are
evaluated from left to right, each into a text of its own; of a comparison one branch is evaluated,
and of a block the one item that its weights and the random numbers choose. Every call of a
subroutine has variables of its own, and its arguments by their position. The only thing that is not
recursion on the tree are calls, of which there can be so many inside one another.
-/

namespace Wordloom

/-! ## States -/

/-- What evaluation changes. -/
structure Scene where
  /-- what has been printed -/
  text : String := ""
  /-- the variables of the activation -/
  vars : String → Value := fun _ => .undefined
  rng : Rng

/-- A part of an evaluation. -/
abbrev Direct := StateT Scene (Except Fault)

namespace Direct

def fail (fault : Fault) : Direct α := fun _ => .error fault

def print (text : String) : Direct Unit := modify fun s => { s with text := s.text ++ text }

def printValue (v : Value) : Direct Unit := print (v.text .normal)

/-- What an evaluation prints to a text of its own. -/
def capture (x : Direct Unit) : Direct String := do
  let text := (← get).text
  modify fun s => { s with text := "" }
  x
  let captured := (← get).text
  modify fun s => { s with text }
  return captured

def getVar (name : String) : Direct Value := return (← get).vars name

def setVar (name : String) (v : Value) : Direct Unit :=
  modify fun s => { s with vars := fun x => if x = name then v else s.vars x }

def swapVars (a b : String) : Direct Unit :=
  modify fun s => { s with
    vars := fun x => if x = a then s.vars b else if x = b then s.vars a else s.vars x }

/-- An index that is chosen by weights. -/
def choose (weights : List Float) : Direct Nat :=
  modifyGet fun s =>
    ((s.rng.weightedChoice weights).1, { s with rng := (s.rng.weightedChoice weights).2 })

/-- An evaluation with variables of its own. -/
def activate (x : Direct Unit) : Direct Unit := do
  let vars := (← get).vars
  modify fun s => { s with vars := fun _ => .undefined }
  x
  modify fun s => { s with vars }

end Direct

/-! ## Patterns -/

/-- The parameters of a subroutine with the values they have in a call. -/
structure Parameters where
  names : List String := []
  values : List Value := []

/-- Evaluates a pattern, given the subroutines that are known at its start. -/
abbrev Interpreter := (known : List Procedure) → Parameters → Pattern → Direct Unit

/-- Evaluates the body of a subroutine, if calls may be any deeper. -/
def Direct.enter (lower : Option Interpreter) : Interpreter := fun known params p =>
  match lower with
  | none => fail (.callStackOverflow 0)
  | some run => run known params p

/-- The name that an argument spells. -/
def Arguments.name (args : Arguments) (index : Nat) : String := (args.name? index).getD ""

/-- What the operands of a comparison are compared with. -/
def Test.others : Test → List Value
  | .zero | .notZero => [.number 0]
  | _ => []

namespace TagHead

/-- The index of the first operand among the arguments. -/
def first : TagHead → Nat
  | .set => 1
  | _ => 0

/-- How many operands there are among so many arguments. -/
def operands (args : Nat) : TagHead → Nat
  | .get | .swap | .argument => 0
  | .set => 1
  | .arithmetic _ | .concat => 2
  | .compare test => test.operands
  | .call _ => args

/-- Whether the operands are numbers. -/
def numeric : TagHead → Bool
  | .arithmetic _ => true
  | .compare test => test.numeric
  | _ => false

open Direct in
/-- What a tag does that has no branches, with the values of its operands. -/
def perform (lower : Option Interpreter) (params : Parameters) (known : List Procedure)
    (args : Arguments) : TagHead → List Value → Direct Unit
  | .set, [v] => setVar (args.name 0) v
  | .get, _ => do printValue (← getVar (args.name 0))
  | .swap, _ => swapVars (args.name 0) (args.name 1)
  | .arithmetic op, [x, y] =>
    match op.apply x y with
    | .ok v => printValue v
    | .error e => fail (.divideByZero e)
  | .concat, [x, y] => printValue (x.concat y)
  | .argument, _ =>
    let index := (placeOf? (args.name 0) params.names).getD 0
    match params.values[index]? with
    | some v => printValue v
    | none => fail (.insufficientArguments (index + 1) params.values.length)
  | .call name, values =>
    match Procedure.find? name known with
    | some (p, outer) => activate (enter lower (p :: outer) ⟨p.params, values⟩ p.body)
    | none => fail (.internal name)
  | _, _ => fail .stackUnderflow

end TagHead

section

variable (lower : Option Interpreter) (params : Parameters)

mutual

/-- Evaluates a pattern. -/
def Pattern.eval (known : List Procedure) : Pattern → Direct Unit
  | .nil => pure ()
  | .leaf l next => do
    Direct.print l.prints
    next.eval known
  | .block items next => do
    let weights ← items.weights known
    items.run known (← Direct.choose weights)
    next.eval (items.known known)
  | .define name names body next => next.eval (⟨name, names, body⟩ :: known)
  | .tag head args next => do
    let values ← args.values known head.numeric head.first (head.operands args.length)
    match head with
    | .compare test =>
      if test.holdsFor (values ++ test.others) then args.branch known test.operands
      else args.branch known (test.operands + 1)
    | head => head.perform lower params known args values
    next.eval (args.known known)

/-- The values of `count` arguments behind the first `skip`. -/
def Arguments.values (known : List Procedure) (numeric : Bool) :
    Arguments → (skip count : Nat) → Direct (List Value)
  | .nil, _, _ => pure []
  | .cons first rest, skip + 1, count => rest.values (first.known known) numeric skip count
  | .cons _ _, 0, 0 => pure []
  | .cons first rest, 0, count + 1 => do
    let text ← Direct.capture (first.eval known)
    let values ← rest.values (first.known known) numeric 0 count
    return capturedValue numeric text :: values

/-- Evaluates the argument of the given index, if there is one. -/
def Arguments.branch (known : List Procedure) : Arguments → (index : Nat) → Direct Unit
  | .nil, _ => pure ()
  | .cons first _, 0 => first.eval known
  | .cons first rest, index + 1 => rest.branch (first.known known) index

/-- The weights of the items. -/
def Items.weights (known : List Procedure) : Items → Direct (List Float)
  | .nil => pure []
  | .plain body rest => do
    let weights ← rest.weights (body.known known)
    return 1 :: weights
  | .weighted weight body rest => do
    let text ← Direct.capture (weight.eval known)
    let weights ← rest.weights (body.known (weight.known known))
    return spelledWeight text :: weights

/-- Evaluates the item of the given index. -/
def Items.run (known : List Procedure) : Items → (index : Nat) → Direct Unit
  | .nil, _ => pure ()
  | .plain body _, 0 => body.eval known
  | .plain body rest, index + 1 => rest.run (body.known known) index
  | .weighted weight body _, 0 => body.eval (weight.known known)
  | .weighted weight body rest, index + 1 => rest.run (body.known (weight.known known)) index

end

end

/-- Evaluates patterns with at most so many calls inside one another. -/
def Interpreter.upTo : (depth : Nat) → Interpreter
  | 0 => fun known params p => p.eval none params known
  | depth + 1 => fun known params p => p.eval (some (upTo depth)) params known

/-- What a pattern prints, or how it fails, with at most so many calls inside one another. -/
def Pattern.result (p : Pattern) (depth : Nat) (seed : UInt64) : Except Fault String :=
  (Interpreter.upTo depth [] {} p { rng := .ofSeed seed }).map (·.2.text)

end Wordloom
