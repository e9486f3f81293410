import Wordloom.Machine.Step
import Wordloom.Proofs.Tree

/-!
# Wordloom.Proofs.Meaning

What code means, without a machine: a tree is evaluated by recursion on it. Operands are computed
from left to right, a captured operand prints to an output of its own, a block chooses an item as
often as the repeater says, and code that has an activation of its own is handed to a runner for the
next depth. So the depth of calls is the only measure beside the tree, and every evaluation ends.
-/

namespace Wordloom

/-! ## States -/

/-- What evaluation changes. -/
structure World where
  /-- the locals of the activation -/
  locals : Array Value := #[]
  /-- the output that prints go to -/
  out : Writer
  repeater : Repeater := {}
  carriers : CarrierState := {}
  rng : Rng
  numberFormat : NumberFormat
  charsPrinted : Nat := 0

/-- A part of an evaluation. -/
abbrev Evaluating := StateT World (Except Fault)

namespace World

/-- The world before anything is run. -/
def start (options : Options) (seed : UInt64) : World :=
  { out := .new options.capitals, rng := .ofSeed seed, numberFormat := options.numberFormat }

def onWriter (w : World) (f : Writer → Writer) : World := { w with out := f w.out }

def getLocal (w : World) (i : Nat) : Value := w.locals.getD i .undefined

/-- Locals with room for one more. -/
def reserve (locals : Array Value) (i : Nat) : Array Value :=
  locals ++ Array.replicate (i + 1 - locals.size) Value.undefined

/-- Locals of which one has been set. -/
def update (locals : Array Value) (i : Nat) (v : Value) : Array Value :=
  (reserve locals i).setIfInBounds i v

def setLocal (w : World) (i : Nat) (v : Value) : World := { w with locals := update w.locals i v }

def swapLocals (w : World) (a b : Nat) : World :=
  { w with
    locals := update (update (reserve w.locals b) b (w.getLocal a)) a
      ((reserve w.locals b).getD b .undefined) }

end World

namespace Evaluating

def fail (fault : Fault) : Evaluating α := fun _ => .error fault

/-- Prints to the current output. What is captured does not count for the limit: it counts when its
value is printed. -/
def print (options : Options) (captured : Bool) (text : String) : Evaluating Unit := fun w =>
  if captured then .ok ((), w.onWriter (·.edit (.print text)))
  else
    let printed := w.charsPrinted + text.length
    let w := { w with charsPrinted := printed }.onWriter (·.edit (.print text))
    match options.charLimit with
    | some limit => if limit < printed then .error (.charLimitExceeded limit) else .ok ((), w)
    | none => .ok ((), w)

def printValue (options : Options) (captured : Bool) (v : Value) : Evaluating Unit := fun w =>
  print options captured (v.text w.numberFormat) w

/-- What an evaluation prints to an output of its own. -/
def capture (options : Options) (x : Evaluating Unit) : Evaluating String := do
  let out := (← get).out
  modify fun w => { w with out := .new options.capitals }
  x
  let text := (← get).out.mainText
  modify fun w => { w with out }
  return text

/-- Prints random characters of a class. -/
def printChars (options : Options) (captured : Bool) (letter : Char) (count : Int32) :
    Evaluating Unit := fun w =>
  match Running.charClass? letter with
  | none => .error (.internal s!"unknown character class '{letter}'")
  | some chars =>
    let drawn := Running.drawChars chars.toList.toArray "" w.rng count.toInt.toNat
    print options captured drawn.1 { w with rng := drawn.2 }

/-- Answers a query of a program. -/
def answerQuery (env : Environment) (captured : Bool) (program : Program) (index : Nat) :
    Evaluating Unit := fun w =>
  match program.queries[index]? with
  | none => .error (.invalidIndex "query" index)
  | some q =>
    match q.table, env.dictionary with
    | none, _ => .ok ((), { w with carriers := w.carriers.delete q.carriers })
    | some _, none => .error .noDictionary
    | some table, some dictionary =>
      let answer := dictionary.query q program.regexes w.carriers w.rng
      print env.options captured (answer.1.getD s!"<missing: {table}>")
        { w with carriers := answer.2.1, rng := answer.2.2 }

end Evaluating

/-! ## Activations -/

/-- What the code of an activation can refer to. -/
structure Activation where
  program : Program
  /-- all of the program -/
  code : Code
  args : List Value
  /-- whether what is printed is to become a value -/
  captured : Bool

/-- Runs code that starts at an offset in an activation. -/
abbrev Runner := Activation → (base : Nat) → Code → Evaluating Unit

/-- Runs code one level deeper, if there is another level. -/
def Evaluating.enter (env : Environment) (lower : Option Runner) : Runner := fun a base code =>
  match lower with
  | none => fail (.callStackOverflow env.options.maxCallDepth)
  | some run => run a base code

/-- Runs code one level deeper, with locals of its own. -/
def Evaluating.call (env : Environment) (lower : Option Runner) : Runner := fun a base code => do
  let locals := (← get).locals
  modify fun w => { w with locals := #[] }
  enter env lower a base code
  modify fun w => { w with locals }

/-- The subroutine of a program at an address, if it takes so many arguments. -/
def Activation.definition? (a : Activation) (address arity : Nat) : Option Definition :=
  (a.code.definitions 0).find? fun d => d.address == address && d.arity == arity

open Evaluating in
/-- Carries out the requests of a function. The code that it may ask to be run is given by address. -/
def Routine.run (env : Environment) (captured : Bool) (codes : List (Nat × Evaluating Unit)) :
    Routine → Evaluating Unit
  | .done => pure ()
  | .fail fault => Evaluating.fail fault
  | .print text next => do
    Evaluating.print env.options captured text
    next.run env captured codes
  | .textOf v next => fun w => (next (v.text w.numberFormat)).run env captured codes w
  | .edit e next => do
    modify (·.onWriter (·.edit e))
    next.run env captured codes
  | .setRepeat count next => do
    modify fun w => { w with repeater := { w.repeater with count := some count } }
    next.run env captured codes
  | .setSeparator text next => do
    modify fun w => { w with repeater := { w.repeater with separator := some text } }
    next.run env captured codes
  | .setNumberFormat format next => do
    modify fun w => { w with numberFormat := format }
    next.run env captured codes
  | .getRng next => fun w => (next w.rng).run env captured codes w
  | .setRng rng next => do
    modify fun w => { w with rng }
    next.run env captured codes
  | .getPool name next =>
    match env.pools[name]? with
    | some pool => (next pool).run env captured codes
    | none => Evaluating.fail (.unknownPool name)
  | .evaluate address next =>
    match codes.lookup address with
    | some code => do
      code
      (next .undefined).run env captured codes
    | none => Evaluating.fail (.invalidAddress address)

/-! ## Acts and operands -/

open Evaluating in
def Act.perform (env : Environment) (a : Activation) : Act → List Value → Evaluating Unit
  | .print s, _ => Evaluating.print env.options a.captured s
  | .number bits, _ => printValue env.options a.captured (.number (.ofBits bits))
  | .openChannel visibility name, _ => modify (·.onWriter (·.openChannel name visibility))
  | .closeChannel, _ => modify (·.onWriter (·.closeChannel.2))
  | .chars charClass count, _ => printChars env.options a.captured (Char.ofNat charClass.toNat) count
  | .article, _ => modify (·.onWriter (·.edit .article))
  | .mark _, _ => pure ()
  | .query index, _ => answerQuery env a.captured a.program index
  | .setLocal index, [v] => modify (·.setLocal index.toNat v)
  | .getLocal index, _ => fun w => printValue env.options a.captured (w.getLocal index.toNat) w
  | .swap i j, _ => modify (·.swapLocals i.toNat j.toNat)
  | .arithmetic op, [x, y] =>
    match op.apply x y with
    | .ok v => printValue env.options a.captured v
    | .error e => fail (.divideByZero e)
  | .concat, [x, y] => printValue env.options a.captured (x.concat y)
  | .argument index, _ =>
    match a.args[index.toNat]? with
    | some v => printValue env.options a.captured v
    | none => fail (.insufficientArguments (index.toNat + 1) a.args.length)
  | _, _ => fail .stackUnderflow

def Constant.value : Constant → Value
  | .string s => .string s
  | .number bits => .number (.ofBits bits)
  | .spelled s => (Value.string s).toNumber

/-- Whether a test of two values holds. -/
def Test.holdsFor (test : Test) : List Value → Bool
  | [x, y] => test.holds (x.compare y)
  | _ => false

/-- The value of a text that was captured. -/
def capturedValue (numeric : Bool) (text : String) : Value :=
  if numeric then (Value.string text).toNumber else .string text

/-! ## Blocks -/

/-- The weight that a text spells. -/
def spelledWeight (text : String) : Float :=
  Running.usableWeight ((Value.string text).toNumber.asNumber?.getD 0)

/-- The weight of an item that has no code for it. -/
def constantWeight : Option UInt64 → Float
  | none => 1
  | some bits => Running.usableWeight (.ofBits bits)

namespace Evaluating

/-- Runs the body that is chosen by these weights. -/
def pick (bodies : List (Evaluating Unit)) (weights : List Float) : Evaluating Unit := do
  let choice ← modifyGet fun w =>
    ((w.rng.weightedChoice weights).1, { w with rng := (w.rng.weightedChoice weights).2 })
  match bodies[choice]? with
  | some body => body
  | none => fail (.internal s!"block item {choice} out of range")

/-- Chooses one of the bodies by their weights and runs it. -/
def choose (weights : List (Evaluating Float)) (bodies : List (Evaluating Unit)) :
    Evaluating Unit := do
  pick bodies (← weights.mapM id)

/-- Prints what stands between two runs of a block. -/
def separate (options : Options) (captured : Bool) : (separator : Option String) → Evaluating Unit
  | some text => print options captured text
  | none => pure ()

/-- Chooses and runs a body, and as often again as `more` says, with the separator in between. -/
def repeatChoice (options : Options) (captured : Bool) (weights : List (Evaluating Float))
    (bodies : List (Evaluating Unit)) (separator : Option String) : (more : Nat) → Evaluating Unit
  | 0 => choose weights bodies
  | more + 1 => do
    choose weights bodies
    separate options captured separator
    repeatChoice options captured weights bodies separator more

/-- Runs a block as the repeater says. -/
def block (options : Options) (captured : Bool) (weights : List (Evaluating Float))
    (bodies : List (Evaluating Unit)) : Evaluating Unit := do
  let repeater := (← get).repeater
  modify fun w => { w with repeater := {} }
  let count := repeater.count.getD 1
  if count = 0 || bodies.isEmpty then pure ()
  else repeatChoice options captured weights bodies repeater.separator (count - 1)

end Evaluating

section

variable (env : Environment) (lower : Option Runner)

/-- The code that operands point to, by address. -/
def Operands.codes (a : Activation) (base : Nat) : Operands → List (Nat × Evaluating Unit)
  | .nil => []
  | .constant c next => next.codes a (base + Line.sizes c.lines)
  | .capture numeric body next =>
    next.codes a (base + 1 + body.size + Line.sizes (captureEnd numeric))
  | .pointer body next =>
    (base + 5, Evaluating.enter env lower a (base + 5) body) ::
      next.codes a (base + 5 + body.size + 6)

/-- The weights of the items, each as it is found. -/
def Choices.weights (a : Activation) (base : Nat) : Choices → List (Evaluating Float)
  | .nil => []
  | .item weight body next => pure (constantWeight weight) :: next.weights a (base + body.size + 1)
  | .weighted weight body next =>
    (do
      let text ← Evaluating.capture env.options
        (Evaluating.enter env lower { a with captured := true } (base + 1) weight)
      return spelledWeight text) ::
      next.weights a (base + 1 + weight.size + 2 + body.size + 1)

mutual

/-- Runs code that starts at `base`. -/
def Code.run (a : Activation) (base : Nat) : Code → Evaluating Unit
  | .nil => pure ()
  | .act operands act next => do
    let values ← operands.run a base
    act.perform env a values
    next.run a (base + operands.size + Line.sizes act.lines)
  | .ifThen operands test yes next => do
    let values ← operands.run a base
    if test.holdsFor values then yes.run a (base + operands.size + 11) else pure ()
    next.run a (base + operands.size + 11 + yes.size)
  | .ifElse operands test yes no next => do
    let values ← operands.run a base
    if test.holdsFor values then yes.run a (base + operands.size + 11)
    else no.run a (base + operands.size + 11 + yes.size + 5)
    next.run a (base + operands.size + 11 + yes.size + 5 + no.size)
  | .block _ choices next => do
    Evaluating.block env.options a.captured (choices.weights env lower a (base + 5))
      (choices.bodies a (base + 5))
    next.run a (base + 5 + choices.size)
  | .define _ body next => next.run a (base + 5 + body.size + 1)
  | .call operands address count next => do
    let values ← operands.run a base
    match a.definition? address count.toNat with
    | some d => Evaluating.call env lower { a with args := values } address d.body
    | none => Evaluating.fail (.invalidAddress address)
    next.run a (base + operands.size + 6)
  | .native operands id _ next => do
    let values ← operands.run a base
    match env.registry.get? id.toNat with
    | some f => (f.routine values).run env a.captured (operands.codes env lower a base)
    | none => Evaluating.fail (.invalidIndex "function" id.toNat)
    next.run a (base + operands.size + 4)
  | .program _ target code next => do
    Evaluating.call env lower ⟨target, code, [], a.captured⟩ 0 code
    next.run a (base + 3)

/-- Computes operands that start at `base`. -/
def Operands.run (a : Activation) (base : Nat) : Operands → Evaluating (List Value)
  | .nil => pure []
  | .constant c next => do
    let values ← next.run a (base + Line.sizes c.lines)
    return c.value :: values
  | .capture numeric body next => do
    let text ← Evaluating.capture env.options (body.run { a with captured := true } (base + 1))
    let values ← next.run a (base + 1 + body.size + Line.sizes (captureEnd numeric))
    return capturedValue numeric text :: values
  | .pointer body next => do
    let values ← next.run a (base + 5 + body.size + 6)
    return .pointer (base + 5) :: values

/-- What the items do, for choices that start at `base`. -/
def Choices.bodies (a : Activation) (base : Nat) : Choices → List (Evaluating Unit)
  | .nil => []
  | .item _ body next => body.run a base :: next.bodies a (base + body.size + 1)
  | .weighted weight body next =>
    body.run a (base + 1 + weight.size + 2) ::
      next.bodies a (base + 1 + weight.size + 2 + body.size + 1)

end

end

/-- Runs code with at most `depth` activations inside its own. -/
def Code.runner (env : Environment) : (depth : Nat) → Runner
  | 0 => Code.run env none
  | depth + 1 => Code.run env (some (Code.runner env depth))

end Wordloom
