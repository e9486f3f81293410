import Wordloom.Machine.Routine

/-!
# Wordloom.Machine.Standard

The functions that every pattern can call.
-/

namespace Wordloom.Standard

open Routine

/-! ## Arguments -/

/-- A number that is finite. -/
def withNumber (function : String) (v : Value) (next : Float → Routine) : Routine :=
  match v with
  | .number n =>
    if n.isFinite then next n
    else fail (.invalidArgument function s!"expected a number, got {v.typeName}")
  | _ => fail (.invalidArgument function s!"expected a number, got {v.typeName}")

/-- A mode given by its name, blanks around it aside. -/
def withMode (function : String) (ofName? : String → Option α) (name : String)
    (next : α → Routine) : Routine :=
  match ofName? (Text.trim name) with
  | some mode => next mode
  | none => fail (.invalidArgument function s!"unknown mode '{name}'")

/-- A function of one argument. -/
def unary (f : Value → Routine) : List Value → Routine
  | [a] => f a
  | args => fail (.insufficientArguments 1 args.length)

/-- A function of two arguments. -/
def binary (f : Value → Value → Routine) : List Value → Routine
  | [a, b] => f a b
  | args => fail (.insufficientArguments 2 args.length)

/-- A function of three arguments. -/
def ternary (f : Value → Value → Value → Routine) : List Value → Routine
  | [a, b, c] => f a b c
  | args => fail (.insufficientArguments 3 args.length)

/-- Prints a number. -/
def printNumber (n : Float) : Routine := textOf (.number n) fun text => print text done

/-! ## The functions -/

/-- `rep`: how often the next block runs. -/
def rep : List Value → Routine :=
  unary fun count =>
    withNumber "rep" count fun n => setRepeat (if n < 0 then 0 else n.toUInt64.toNat) done

/-- `sep`: what the next block prints between its runs. -/
def sep : List Value → Routine := unary fun v => textOf v fun text => setSeparator text done

/-- `case`: the capitalization of what is printed from here on. -/
def case : List Value → Routine :=
  unary fun v => textOf v fun name =>
    withMode "case" Capitals.ofName? name fun mode => edit (.setCase mode) done

/-- `num`: a random whole number between two bounds. -/
def num : List Value → Routine :=
  binary fun a b =>
    withNumber "num" a fun a =>
      withNumber "num" b fun b =>
        getRng fun rng =>
          let (n, rng) := rng.nextBetween a.toInt64 b.toInt64
          setRng rng (printNumber n.toFloat)

/-- `pool`: runs a pattern with the random numbers that a key has in a seed pool, and then goes on
with the run's own ones. -/
def pool : List Value → Routine :=
  ternary fun name key pattern =>
    match pattern with
    | .pointer address =>
      textOf name fun name =>
        getPool name fun pool =>
          textOf key fun key =>
            getRng fun own =>
              setRng (pool.rngFor key) (evaluate address fun _ => setRng own done)
    | v => fail (.invalidArgument "pool" s!"expected a pattern, got {v.typeName}")

/-- `target`: a place that shows what is sent to a target. -/
def target : List Value → Routine := unary fun v => textOf v fun name => edit (.target name) done

/-- `send`: replaces what a target shows. -/
def send : List Value → Routine :=
  binary fun name text => textOf name fun name => textOf text fun text =>
    edit (.write name text true) done

/-- `append`: adds to what a target shows. -/
def append : List Value → Routine :=
  binary fun name text => textOf name fun name => textOf text fun text =>
    edit (.write name text false) done

/-- `clear`: empties a target. -/
def clear : List Value → Routine := unary fun v => textOf v fun name => edit (.clear name) done

/-- `len`: the number of characters of a text. -/
def len : List Value → Routine :=
  unary fun v => textOf v fun text => printNumber (Float.ofNat text.length)

/-- `numfmt`: the format of numbers from here on. -/
def numfmt : List Value → Routine :=
  unary fun v => textOf v fun name =>
    withMode "numfmt" NumberFormat.ofName? name fun format => setNumberFormat format done

/-- `rev`: a text from end to start. -/
def rev : List Value → Routine :=
  unary fun v => textOf v fun text => print (String.ofList text.toList.reverse) done

def functions : List Function :=
  [⟨"rep", [.number], rep⟩,
   ⟨"sep", [.text], sep⟩,
   ⟨"case", [.text], case⟩,
   ⟨"num", [.number, .number], num⟩,
   ⟨"pool", [.text, .text, .pattern], pool⟩,
   ⟨"target", [.text], target⟩,
   ⟨"send", [.text, .text], send⟩,
   ⟨"append", [.text, .text], append⟩,
   ⟨"clear", [.text], clear⟩,
   ⟨"len", [.text], len⟩,
   ⟨"numfmt", [.text], numfmt⟩,
   ⟨"rev", [.text], rev⟩]

/-- The registry that holds the standard functions only. -/
def registry : Registry := ⟨functions.toArray⟩

end Wordloom.Standard
