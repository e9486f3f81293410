import Wordloom.Compile.Tag
import Wordloom.Proofs.Script

/-!
# Wordloom.Proofs.Tree

Compiled code as a tree. A piece of code is a list of statements; a statement computes its operands
from left to right and then acts on them, or it chooses one of the codes inside it. The lines of a
tree are the instructions that the compiler emits for it, with every address computed from the offset
at which the code starts.
-/

namespace Wordloom

/-! ## Statements -/

/-- What is done with operands, or without any, inside one activation. -/
inductive Act where
  | print (s : String)
  | number (bits : UInt64)
  | openChannel (visibility : Visibility) (name : String)
  | closeChannel
  | chars (charClass : UInt8) (count : Int32)
  | article
  | mark (p : Position)
  | query (index : Nat)
  | setLocal (index : UInt16)
  | getLocal (index : UInt16)
  | swap (a b : UInt16)
  | arithmetic (op : Arithmetic)
  | concat
  | argument (index : UInt8)

/-- What a comparison of two values is asked for. -/
inductive Test where
  | equal
  | notEqual
  | greater
  | greaterEqual
  | less
  | lessEqual
  | zero
  | notZero

/-- An operand that needs no code of its own. -/
inductive Constant where
  | string (s : String)
  | number (bits : UInt64)
  /-- a text that is made a number when the code runs -/
  | spelled (s : String)

mutual

/-- A list of statements. -/
inductive Code where
  | nil
  | act (operands : Operands) (act : Act) (next : Code)
  | ifThen (operands : Operands) (test : Test) (yes : Code) (next : Code)
  | ifElse (operands : Operands) (test : Test) (yes no : Code) (next : Code)
  | block (index : Nat) (choices : Choices) (next : Code)
  | define (arity : Nat) (body : Code) (next : Code)
  | call (operands : Operands) (address : Nat) (count : UInt8) (next : Code)
  | native (operands : Operands) (id : UInt16) (count : UInt8) (next : Code)
  /-- runs another program, whose code is given as well -/
  | program (index : Nat) (target : Program) (code : Code) (next : Code)

/-- A list of operands. -/
inductive Operands where
  | nil
  | constant (c : Constant) (next : Operands)
  /-- what the code prints, made a number if it is to be one -/
  | capture (numeric : Bool) (body : Code) (next : Operands)
  /-- the address of the code -/
  | pointer (body : Code) (next : Operands)

/-- The items of a block. -/
inductive Choices where
  | nil
  | item (weight : Option UInt64) (body : Code) (next : Choices)
  /-- an item with code that prints its weight -/
  | weighted (weight body : Code) (next : Choices)

end

/-! ## Instructions -/

def Act.arity : Act → Nat
  | setLocal _ => 1
  | arithmetic _ | concat => 2
  | _ => 0

def Act.lines : Act → List Line
  | print s => [.text .print s]
  | number bits => [.plain (.printNumber bits)]
  | openChannel visibility name => [.text (.openChannel visibility) name]
  | closeChannel => [.plain .closeChannel]
  | chars charClass count => [.plain (.printChars charClass count)]
  | article => [.plain .article]
  | mark p => [.mark p]
  | query index => [.plain (.query (Int32.ofNat index))]
  | setLocal index => [.plain (.setLocal index)]
  | getLocal index => [.plain (.loadLocal index), .plain .print]
  | swap a b => [.plain (.swap a b)]
  | arithmetic op => [.plain (Compile.arithmeticInstr op), .plain .print]
  | concat => [.plain .concat, .plain .print]
  | argument index => [.plain (.loadArgument index), .plain .print]

/-- The jump that is taken if the test holds. -/
def Test.jump (target : Int32) : Test → Instr
  | equal => .jumpEqual target
  | notEqual => .jumpNotEqual target
  | greater => .jumpGreater target
  | greaterEqual => .jumpGreaterEqual target
  | less => .jumpLess target
  | lessEqual => .jumpLessEqual target
  | zero => .jumpZero target
  | notZero => .jumpNotZero target

def Test.holds : Test → Comparison → Bool
  | equal, c | zero, c => c.isEqual
  | notEqual, c | notZero, c => c.isUnequal
  | greater, c => c == .greater
  | greaterEqual, c => c == .greater || c == .equal
  | less, c => c == .less
  | lessEqual, c => c == .less || c == .equal

def Constant.lines : Constant → List Line
  | string s => [.text .push s]
  | number bits => [.plain (.pushNumber bits)]
  | spelled s => [.text .push s, .plain .toNumber]

/-- What follows the code of a captured operand. -/
def captureEnd (numeric : Bool) : List Line :=
  if numeric then [.plain .returnOutput, .plain .toNumber] else [.plain .returnOutput]

mutual

/-- The number of bytes. -/
def Code.size : Code → Nat
  | .nil => 0
  | .act operands a next => operands.size + Line.sizes a.lines + next.size
  | .ifThen operands _ yes next => operands.size + 11 + yes.size + next.size
  | .ifElse operands _ yes no next => operands.size + 11 + yes.size + 5 + no.size + next.size
  | .block _ choices next => 5 + choices.size + next.size
  | .define _ body next => 5 + body.size + 1 + next.size
  | .call operands _ _ next => operands.size + 6 + next.size
  | .native operands _ _ next => operands.size + 4 + next.size
  | .program _ _ _ next => 3 + next.size

def Operands.size : Operands → Nat
  | .nil => 0
  | .constant c next => Line.sizes c.lines + next.size
  | .capture numeric body next => 1 + body.size + Line.sizes (captureEnd numeric) + next.size
  | .pointer body next => 5 + body.size + 6 + next.size

def Choices.size : Choices → Nat
  | .nil => 0
  | .item _ body next => body.size + 1 + next.size
  | .weighted weight body next => 1 + weight.size + 2 + body.size + 1 + next.size

end

mutual

/-- The instructions, the first of which is at the offset `base`. -/
def Code.lines (base : Nat) : Code → List Line
  | .nil => []
  | .act operands a next =>
    operands.lines base ++ a.lines ++ next.lines (base + operands.size + Line.sizes a.lines)
  | .ifThen operands test yes next =>
    let first := base + operands.size + 11
    operands.lines base ++
      [.plain .compare, .plain (test.jump (Int32.ofNat first)),
        .plain (.jump (Int32.ofNat (first + yes.size)))] ++
      yes.lines first ++ next.lines (first + yes.size)
  | .ifElse operands test yes no next =>
    let first := base + operands.size + 11
    let second := first + yes.size + 5
    operands.lines base ++
      [.plain .compare, .plain (test.jump (Int32.ofNat first)),
        .plain (.jump (Int32.ofNat second))] ++
      yes.lines first ++ [.plain (.jump (Int32.ofNat (second + no.size)))] ++
      no.lines second ++ next.lines (second + no.size)
  | .block index choices next =>
    .plain (.block (Int32.ofNat index)) :: choices.lines (base + 5) ++
      next.lines (base + 5 + choices.size)
  | .define _ body next =>
    .plain (.jump (Int32.ofNat (base + 5 + body.size + 1))) :: body.lines (base + 5) ++
      [.plain .return] ++ next.lines (base + 5 + body.size + 1)
  | .call operands address count next =>
    operands.lines base ++ [.plain (.call (Int32.ofNat address) count)] ++
      next.lines (base + operands.size + 6)
  | .native operands id count next =>
    operands.lines base ++ [.plain (.nativeCall id count)] ++
      next.lines (base + operands.size + 4)
  | .program index _ _ next => .plain (.callProgram index.toUInt16) :: next.lines (base + 3)

def Operands.lines (base : Nat) : Operands → List Line
  | .nil => []
  | .constant c next => c.lines ++ next.lines (base + Line.sizes c.lines)
  | .capture numeric body next =>
    .plain .newOutput :: body.lines (base + 1) ++ captureEnd numeric ++
      next.lines (base + 1 + body.size + Line.sizes (captureEnd numeric))
  | .pointer body next =>
    .plain (.jump (Int32.ofNat (base + 5 + body.size + 1))) :: body.lines (base + 5) ++
      [.plain .return, .plain (.pushAddress (Int32.ofNat (base + 5)))] ++
      next.lines (base + 5 + body.size + 6)

def Choices.lines (base : Nat) : Choices → List Line
  | .nil => []
  | .item _ body next =>
    body.lines base ++ [.plain .blockEnd] ++ next.lines (base + body.size + 1)
  | .weighted weight body next =>
    .plain .newOutput :: weight.lines (base + 1) ++ [.plain .returnOutput, .plain .return] ++
      body.lines (base + 1 + weight.size + 2) ++ [.plain .blockEnd] ++
      next.lines (base + 1 + weight.size + 2 + body.size + 1)

end

/-- The entries of a block's table, for choices that start at `base`. -/
def Choices.entries (base : Nat) : Choices → List BlockItem
  | .nil => []
  | .item weight body next =>
    ⟨base.toUInt32, weight.elim .none .constant⟩ :: next.entries (base + body.size + 1)
  | .weighted weight body next =>
    ⟨(base + 1 + weight.size + 2).toUInt32, .interpreted base.toUInt32⟩ ::
      next.entries (base + 1 + weight.size + 2 + body.size + 1)

/-! ## Lists put together -/

def Code.append : Code → Code → Code
  | .nil, d => d
  | .act operands a next, d => .act operands a (next.append d)
  | .ifThen operands test yes next, d => .ifThen operands test yes (next.append d)
  | .ifElse operands test yes no next, d => .ifElse operands test yes no (next.append d)
  | .block index choices next, d => .block index choices (next.append d)
  | .define arity body next, d => .define arity body (next.append d)
  | .call operands address count next, d => .call operands address count (next.append d)
  | .native operands id count next, d => .native operands id count (next.append d)
  | .program index target code next, d => .program index target code (next.append d)

def Operands.append : Operands → Operands → Operands
  | .nil, d => d
  | .constant c next, d => .constant c (next.append d)
  | .capture numeric body next, d => .capture numeric body (next.append d)
  | .pointer body next, d => .pointer body (next.append d)

def Choices.append : Choices → Choices → Choices
  | .nil, d => d
  | .item weight body next, d => .item weight body (next.append d)
  | .weighted weight body next, d => .weighted weight body (next.append d)

theorem Code.append_nil : ∀ c : Code, c.append .nil = c
  | .nil => rfl
  | .act _ _ next | .ifThen _ _ _ next | .ifElse _ _ _ _ next | .block _ _ next | .define _ _ next
  | .call _ _ _ next | .native _ _ _ next | .program _ _ _ next => by
    rw [Code.append, Code.append_nil next]

theorem Code.append_assoc : ∀ a b c : Code, (a.append b).append c = a.append (b.append c)
  | .nil, _, _ => rfl
  | .act _ _ next, b, c | .ifThen _ _ _ next, b, c | .ifElse _ _ _ _ next, b, c
  | .block _ _ next, b, c | .define _ _ next, b, c | .call _ _ _ next, b, c
  | .native _ _ _ next, b, c | .program _ _ _ next, b, c => by
    simp only [Code.append, Code.append_assoc next]

/-! ### Sizes -/

theorem Test.size_jump (test : Test) (target : Int32) : (test.jump target).size = 5 := by
  cases test <;> rfl

theorem Test.namesString_jump (test : Test) (target : Int32) :
    (test.jump target).namesString = false := by
  cases test <;> rfl

theorem Test.target_jump (test : Test) (target : Int32) :
    (test.jump target).target?.isSome = true := by
  cases test <;> rfl

/-- A jump can be sent elsewhere. -/
theorem Test.withTarget_jump (test : Test) (target target' : Int32) :
    (test.jump target).withTarget target' = test.jump target' := by
  cases test <;> rfl

mutual

/-- The size of code is that of its lines, wherever it stands. -/
theorem Code.sizes_lines : ∀ (c : Code) (base : Nat), Line.sizes (c.lines base) = c.size
  | .nil, _ => rfl
  | .act operands a next, base => by
    simp only [Code.lines, Code.size, Line.sizes_append, Operands.sizes_lines operands,
      Code.sizes_lines next]
  | .ifThen operands test yes next, base => by
    simp only [Code.lines, Code.size, Line.sizes_append, Operands.sizes_lines operands,
      Code.sizes_lines yes, Code.sizes_lines next, Line.sizes_cons, Line.sizes_nil, Line.size,
      Test.size_jump]
    rfl
  | .ifElse operands test yes no next, base => by
    simp only [Code.lines, Code.size, Line.sizes_append, Operands.sizes_lines operands,
      Code.sizes_lines yes, Code.sizes_lines no, Code.sizes_lines next, Line.sizes_cons,
      Line.sizes_nil, Line.size, Test.size_jump]
    rfl
  | .block index choices next, base => by
    simp only [Code.lines, Code.size, Line.sizes_append, Line.sizes_cons,
      Choices.sizes_lines choices, Code.sizes_lines next]
    rfl
  | .define arity body next, base => by
    simp only [Code.lines, Code.size, Line.sizes_append, Line.sizes_cons, Line.sizes_nil,
      Code.sizes_lines body, Code.sizes_lines next]
    rfl
  | .call operands _ _ next, base | .native operands _ _ next, base => by
    simp only [Code.lines, Code.size, Line.sizes_append, Line.sizes_cons, Line.sizes_nil,
      Operands.sizes_lines operands, Code.sizes_lines next]
    rfl
  | .program index target code next, base => by
    simp only [Code.lines, Code.size, Line.sizes_cons, Code.sizes_lines next]
    rfl

/-- The same of operands. -/
theorem Operands.sizes_lines : ∀ (c : Operands) (base : Nat), Line.sizes (c.lines base) = c.size
  | .nil, _ => rfl
  | .constant c next, base => by
    simp only [Operands.lines, Operands.size, Line.sizes_append, Operands.sizes_lines next]
  | .capture numeric body next, base => by
    simp only [Operands.lines, Operands.size, Line.sizes_append, Line.sizes_cons,
      Code.sizes_lines body, Operands.sizes_lines next]
    rfl
  | .pointer body next, base => by
    simp only [Operands.lines, Operands.size, Line.sizes_append, Line.sizes_cons, Line.sizes_nil,
      Code.sizes_lines body, Operands.sizes_lines next]
    rfl

/-- The same of items. -/
theorem Choices.sizes_lines : ∀ (c : Choices) (base : Nat), Line.sizes (c.lines base) = c.size
  | .nil, _ => rfl
  | .item weight body next, base => by
    simp only [Choices.lines, Choices.size, Line.sizes_append, Line.sizes_cons, Line.sizes_nil,
      Code.sizes_lines body, Choices.sizes_lines next]
    rfl
  | .weighted weight body next, base => by
    simp only [Choices.lines, Choices.size, Line.sizes_append, Line.sizes_cons, Line.sizes_nil,
      Code.sizes_lines weight, Code.sizes_lines body, Choices.sizes_lines next]
    rfl

end

@[simp] theorem Code.size_append : ∀ c d : Code, (c.append d).size = c.size + d.size
  | .nil, d => by rw [Code.append, Code.size, Nat.zero_add]
  | .act _ _ next, d | .ifThen _ _ _ next, d | .ifElse _ _ _ _ next, d | .block _ _ next, d
  | .define _ _ next, d | .call _ _ _ next, d | .native _ _ _ next, d | .program _ _ _ next, d => by
    have ih := Code.size_append next d
    simp only [Code.append, Code.size, ih]
    omega

@[simp] theorem Choices.size_append : ∀ c d : Choices, (c.append d).size = c.size + d.size
  | .nil, d => by rw [Choices.append, Choices.size, Nat.zero_add]
  | .item _ _ next, d | .weighted _ _ next, d => by
    have ih := Choices.size_append next d
    simp only [Choices.append, Choices.size, ih]
    omega

/-! ### Lines -/

/-- Code behind other code stands where that ends. -/
theorem Code.lines_append : ∀ (c d : Code) (base : Nat),
    (c.append d).lines base = c.lines base ++ d.lines (base + c.size)
  | .nil, d, base => by simp [Code.append, Code.lines, Code.size]
  | .act _ _ next, d, base | .ifThen _ _ _ next, d, base | .ifElse _ _ _ _ next, d, base
  | .block _ _ next, d, base | .define _ _ next, d, base | .call _ _ _ next, d, base
  | .native _ _ _ next, d, base | .program _ _ _ next, d, base => by
    simp only [Code.append, Code.lines, Code.size, Code.lines_append next d, List.append_assoc,
      List.cons_append, Nat.add_assoc]

/-- The same of operands. -/
theorem Operands.lines_append : ∀ (c d : Operands) (base : Nat),
    (c.append d).lines base = c.lines base ++ d.lines (base + c.size)
  | .nil, d, base => by simp [Operands.append, Operands.lines, Operands.size]
  | .constant _ next, d, base | .capture _ _ next, d, base | .pointer _ next, d, base => by
    simp only [Operands.append, Operands.lines, Operands.size, Operands.lines_append next d,
      List.append_assoc, List.cons_append, Nat.add_assoc]

/-- The same of items. -/
theorem Choices.lines_append : ∀ (c d : Choices) (base : Nat),
    (c.append d).lines base = c.lines base ++ d.lines (base + c.size)
  | .nil, d, base => by simp [Choices.append, Choices.lines, Choices.size]
  | .item _ _ next, d, base | .weighted _ _ next, d, base => by
    simp only [Choices.append, Choices.lines, Choices.size, Choices.lines_append next d,
      List.append_assoc, List.cons_append, Nat.add_assoc]

/-- The entries of items behind others start where those end. -/
theorem Choices.entries_append : ∀ (c d : Choices) (base : Nat),
    (c.append d).entries base = c.entries base ++ d.entries (base + c.size)
  | .nil, d, base => by simp [Choices.append, Choices.entries, Choices.size]
  | .item _ _ next, d, base | .weighted _ _ next, d, base => by
    simp only [Choices.append, Choices.entries, Choices.size, Choices.entries_append next d,
      List.cons_append, Nat.add_assoc]

/-! ## Definitions -/

/-- A subroutine: where its body starts and how many arguments it takes. -/
structure Definition where
  address : Nat
  arity : Nat
  body : Code

mutual

/-- The subroutines defined anywhere in code that starts at `base`. -/
def Code.definitions (base : Nat) : Code → List Definition
  | .nil => []
  | .act operands a next =>
    operands.definitions base ++ next.definitions (base + operands.size + Line.sizes a.lines)
  | .ifThen operands _ yes next =>
    operands.definitions base ++ yes.definitions (base + operands.size + 11) ++
      next.definitions (base + operands.size + 11 + yes.size)
  | .ifElse operands _ yes no next =>
    operands.definitions base ++ yes.definitions (base + operands.size + 11) ++
      no.definitions (base + operands.size + 11 + yes.size + 5) ++
      next.definitions (base + operands.size + 11 + yes.size + 5 + no.size)
  | .block _ choices next =>
    choices.definitions (base + 5) ++ next.definitions (base + 5 + choices.size)
  | .define arity body next =>
    ⟨base + 5, arity, body⟩ :: body.definitions (base + 5) ++
      next.definitions (base + 5 + body.size + 1)
  | .call operands _ _ next =>
    operands.definitions base ++ next.definitions (base + operands.size + 6)
  | .native operands _ _ next =>
    operands.definitions base ++ next.definitions (base + operands.size + 4)
  | .program _ _ _ next => next.definitions (base + 3)

def Operands.definitions (base : Nat) : Operands → List Definition
  | .nil => []
  | .constant c next => next.definitions (base + Line.sizes c.lines)
  | .capture numeric body next =>
    body.definitions (base + 1) ++
      next.definitions (base + 1 + body.size + Line.sizes (captureEnd numeric))
  | .pointer body next =>
    body.definitions (base + 5) ++ next.definitions (base + 5 + body.size + 6)

def Choices.definitions (base : Nat) : Choices → List Definition
  | .nil => []
  | .item _ body next => body.definitions base ++ next.definitions (base + body.size + 1)
  | .weighted weight body next =>
    weight.definitions (base + 1) ++ body.definitions (base + 1 + weight.size + 2) ++
      next.definitions (base + 1 + weight.size + 2 + body.size + 1)

end

/-- The definitions in code behind other code, likewise. -/
theorem Code.definitions_append : ∀ (c d : Code) (base : Nat),
    (c.append d).definitions base = c.definitions base ++ d.definitions (base + c.size)
  | .nil, d, base => by simp [Code.append, Code.definitions, Code.size]
  | .act _ _ next, d, base | .ifThen _ _ _ next, d, base | .ifElse _ _ _ _ next, d, base
  | .block _ _ next, d, base | .define _ _ next, d, base | .call _ _ _ next, d, base
  | .native _ _ _ next, d, base | .program _ _ _ next, d, base => by
    simp only [Code.append, Code.definitions, Code.size, Code.definitions_append next d,
      List.append_assoc, List.cons_append, Nat.add_assoc]

theorem Operands.definitions_append : ∀ (c d : Operands) (base : Nat),
    (c.append d).definitions base = c.definitions base ++ d.definitions (base + c.size)
  | .nil, d, base => by simp [Operands.append, Operands.definitions, Operands.size]
  | .constant _ next, d, base | .capture _ _ next, d, base | .pointer _ next, d, base => by
    simp only [Operands.append, Operands.definitions, Operands.size,
      Operands.definitions_append next d, List.append_assoc, Nat.add_assoc]

theorem Choices.definitions_append : ∀ (c d : Choices) (base : Nat),
    (c.append d).definitions base = c.definitions base ++ d.definitions (base + c.size)
  | .nil, d, base => by simp [Choices.append, Choices.definitions, Choices.size]
  | .item _ _ next, d, base | .weighted _ _ next, d, base => by
    simp only [Choices.append, Choices.definitions, Choices.size,
      Choices.definitions_append next d, List.append_assoc, Nat.add_assoc]

/-! ## Code that only prints and chooses -/

/-- Acts that print a text or mark a place. -/
def Act.isStatic : Act → Bool
  | .print _ | .mark _ => true
  | _ => false

def Operands.isNil : Operands → Bool
  | .nil => true
  | _ => false

theorem Operands.eq_nil : ∀ {operands : Operands}, operands.isNil = true → operands = .nil
  | .nil, _ => rfl

mutual

/-- Code that only prints and chooses. -/
def Code.isStatic : Code → Bool
  | .nil => true
  | .act operands act next => operands.isNil && act.isStatic && next.isStatic
  | .block _ choices next => choices.isStatic && next.isStatic
  | .ifThen .. | .ifElse .. | .define .. | .call .. | .native .. | .program .. => false

def Choices.isStatic : Choices → Bool
  | .nil => true
  | .item _ body next => body.isStatic && next.isStatic
  | .weighted .. => false

end

/-- The size of the longest item. -/
def Choices.widest : Choices → Nat
  | .nil => 0
  | .item _ body next | .weighted _ body next => max body.size next.widest

/-- Code is static if both of its parts are. -/
theorem Code.isStatic_append : ∀ c d : Code, (c.append d).isStatic = (c.isStatic && d.isStatic)
  | .nil, d => by rw [Code.append, Code.isStatic, Bool.true_and]
  | .act _ _ next, d | .block _ _ next, d => by
    simp only [Code.append, Code.isStatic, Code.isStatic_append next, Bool.and_assoc]
  | .ifThen .., d | .ifElse .., d | .define .., d | .call .., d | .native .., d | .program .., d => by
    simp only [Code.append, Code.isStatic, Bool.false_and]

end Wordloom
