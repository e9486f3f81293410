import Wordloom.Decimal.Reading
import Wordloom.Output.NumberFormat
import Wordloom.Text.Blank

/-!
# Wordloom.Value

Values of a running pattern. Operations on values that do not go together give the undefined
value; only a division by zero is an error.
-/

namespace Wordloom

inductive Value where
  | number (n : Float)
  | string (s : String)
  | boolean (b : Bool)
  | list (items : List Value)
  /-- address of an instruction of the running program -/
  | pointer (address : Nat)
  | null
  | undefined

/-- Outcome of a comparison. -/
inductive Comparison where
  | less
  | equal
  | greater
  /-- different, and not in any order -/
  | unequal
  | incomparable
deriving DecidableEq

def Comparison.isEqual : Comparison → Bool
  | .equal => true
  | _ => false

def Comparison.isUnequal : Comparison → Bool
  | .less | .greater | .unequal => true
  | _ => false

/-- A division by zero, with what was to be divided. -/
structure DivisionByZero where
  dividend : Float

def DivisionByZero.message (e : DivisionByZero) : String :=
  s!"Attempted to divide {Decimal.Layout.plain.text e.dividend} by zero"

namespace Value

def typeName : Value → String
  | .number _ => "number"
  | .string _ => "string"
  | .boolean _ => "boolean"
  | .list _ => "list"
  | .pointer _ => "pointer"
  | .null => "null"
  | .undefined => "undefined"

mutual

/-- The printed form of a value. -/
def text (format : NumberFormat) : Value → String
  | .number n => format.text n
  | .string s => s
  | .boolean b => if b then "true" else "false"
  | .list items => "(" ++ textOfAll format items ++ ")"
  | .pointer address => "@0x" ++ Text.hex 1 address
  | .null => "null"
  | .undefined => "???"

def textOfAll (format : NumberFormat) : List Value → String
  | [] => ""
  | [v] => v.text format
  | v :: vs => v.text format ++ ", " ++ textOfAll format vs

end

/-- The number a value holds or spells. -/
def toNumber : Value → Value
  | .number n => .number n
  | .string s =>
    match Decimal.float? (Text.trim s) with
    | some n => .number n
    | none => .undefined
  | .boolean b => .number (if b then 1 else 0)
  | _ => .undefined

def asNumber? : Value → Option Float
  | .number n => some n
  | _ => none

/-- The printed forms of both values together. -/
def concat (a b : Value) : Value := .string (a.text .normal ++ b.text .normal)

def add : Value → Value → Value
  | .number a, .number b => .number (a + b)
  | .string a, .number b => concat (.string a) (.number b)
  | .string a, .string b => concat (.string a) (.string b)
  | .number a, .string b => concat (.number a) (.string b)
  | _, _ => .undefined

def sub : Value → Value → Value
  | .number a, .number b => .number (a - b)
  | _, _ => .undefined

/-- `s` written `count` times. -/
def repeatString (s : String) (count : Nat) : String :=
  if s.isEmpty then "" else String.join (List.replicate count s)

def mul : Value → Value → Value
  | .number a, .number b => .number (a * b)
  | .string s, .number n =>
    .string (repeatString s (if n.isFinite && 0 < n then n.toUInt64.toNat else 0))
  | _, _ => .undefined

def div : Value → Value → Except DivisionByZero Value
  | .number a, .number b => if b == 0 then .error ⟨a⟩ else .ok (.number (a / b))
  | _, _ => .ok .undefined

def rem : Value → Value → Except DivisionByZero Value
  | .number a, .number b => if b == 0 then .error ⟨a⟩ else .ok (.number (Decimal.rem a b))
  | _, _ => .ok .undefined

end Value

/-- The operations on two numbers. -/
inductive Arithmetic where
  | add
  | subtract
  | multiply
  | divide
  | modulo
deriving DecidableEq

def Arithmetic.apply : Arithmetic → Value → Value → Except DivisionByZero Value
  | .add, a, b => .ok (a.add b)
  | .subtract, a, b => .ok (a.sub b)
  | .multiply, a, b => .ok (a.mul b)
  | .divide, a, b => a.div b
  | .modulo, a, b => a.rem b

namespace Value

def compareNumbers (a b : Float) : Comparison :=
  if a < b then .less else if a == b then .equal else if b < a then .greater else .incomparable

def compareBy [BEq α] (a b : α) : Comparison := if a == b then .equal else .unequal

def compare : Value → Value → Comparison
  | .number a, .number b => compareNumbers a b
  | .string a, .string b => compareBy a b
  | .boolean a, .boolean b => compareBy a b
  | .pointer a, .pointer b => compareBy a b
  | .null, .null => .equal
  | _, _ => .incomparable

end Value

end Wordloom
