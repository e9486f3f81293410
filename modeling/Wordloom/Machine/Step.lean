import Wordloom.Instr.Codec
import Wordloom.Machine.State

/-!
# Wordloom.Machine.Step

What the machine does for each instruction, and when it leaves a frame. Leaving the outermost frame
ends the run; a frame is also left when its code is at its end.
-/

namespace Wordloom

namespace Running

/-! ## Functions -/

/-- Carries out the requests of a function, up to one for a value. -/
def routine (env : Environment) : Routine → Running Unit
  | .done => pure ()
  | .fail fault => throw fault
  | .print text next => do
    print env.options text
    routine env next
  | .textOf v next => do routine env (next (v.text (← get).numberFormat))
  | .edit e next => do
    modify (·.onWriter (·.edit e))
    routine env next
  | .setRepeat count next => do
    modify fun m => { m with repeater := { m.repeater with count := some count } }
    routine env next
  | .setSeparator text next => do
    modify fun m => { m with repeater := { m.repeater with separator := some text } }
    routine env next
  | .setNumberFormat format next => do
    modify fun m => { m with numberFormat := format }
    routine env next
  | .getRng next => do routine env (next (← get).rng)
  | .setRng rng next => do
    modify fun m => { m with rng }
    routine env next
  | .getPool name next => do
    match env.pools[name]? with
    | some pool => routine env (next pool)
    | none => throw (.unknownPool name)
  | .evaluate address next => evaluate env.options address (.routine next)

def nativeCall (env : Environment) (id : UInt16) (count : UInt8) : Running Unit := do
  let f ← entry "function" id.toNat (env.registry.get? id.toNat)
  let args ← popArguments count.toNat
  routine env (f.routine args)

/-! ## Blocks -/

/-- The weight that counts: one that is not positive or not finite is zero. -/
def usableWeight (w : Float) : Float := if w.isFinite && 0 < w then w else 0

/-- Chooses an item by the weights of all, and goes on with it. -/
def chooseItem (block : Block) (entered : Option ActiveBlock) (weights : List Float) :
    Running Unit := do
  let m ← get
  let (choice, rng) := m.rng.weightedChoice weights
  set { m with rng }
  match block.items[choice]? with
  | none => throw (.internal s!"block item {choice} out of range")
  | some item =>
    let offset ← checkedAddress item.offset.toNat
    match entered with
    | some active => modify fun m => { m with blocks := m.blocks.push active }
    | none => pure ()
    jump offset

/-- Finds the weights of the items in `rest`, behind those already known, and chooses one. -/
def weigh (env : Environment) (block : Block) (entered : Option ActiveBlock)
    (weights : List Float) : (rest : List BlockItem) → Running Unit
  | [] => chooseItem block entered weights
  | item :: rest =>
    match item.weight with
    | .none => weigh env block entered (weights ++ [1]) rest
    | .constant bits => weigh env block entered (weights ++ [usableWeight (.ofBits bits)]) rest
    | .interpreted offset =>
      evaluate env.options offset.toNat (.choice block entered weights rest)

/-- Runs a block as the repeater says. -/
def startBlock (env : Environment) (index : Int32) : Running Unit := do
  let m ← get
  let block ← entry "block" index.toInt (m.frame.program.block? index)
  set { m with repeater := {} }
  let count := m.repeater.count.getD 1
  if count = 0 || block.items.isEmpty then jump (← checkedAddress block.endAddress.toNat)
  else weigh env block (some ⟨block, count - 1, m.repeater.separator⟩) [] block.items

/-- Ends one run of the innermost block that the frame has started: either it is run again, or the
program goes on behind it. -/
def endBlock (env : Environment) : Running Unit := do
  let m ← get
  match m.blocks.back? with
  | none => throw (.internal "block end outside of a block")
  | some active =>
    if m.blocks.size ≤ m.frame.blocks then throw (.internal "block end outside of a block")
    if active.remaining = 0 then
      set { m with blocks := m.blocks.pop }
      jump (← checkedAddress active.block.endAddress.toNat)
    else
      let active := { active with remaining := active.remaining - 1 }
      set { m with blocks := m.blocks.pop.push active }
      match active.separator with
      | some text => print env.options text
      | none => pure ()
      weigh env active.block none [] active.block.items

/-! ## Parts of instructions -/

/-- The characters that a class of random characters is drawn from. -/
def charClass? (letter : Char) : Option String :=
  match letter with
  | 'c' => some "abcdefghijklmnopqrstuvwxyz"
  | 'C' => some "ABCDEFGHIJKLMNOPQRSTUVWXYZ"
  | 'd' => some "0123456789"
  | 'D' => some "123456789"
  | 'w' => some "abcdefghijklmnopqrstuvwxyz0123456789"
  | 'W' => some "ABCDEFGHIJKLMNOPQRSTUVWXYZ0123456789"
  | 'x' => some "0123456789abcdef"
  | 'X' => some "0123456789ABCDEF"
  | _ => none

/-- Appends `n` random characters of a class to a text. -/
def drawChars (chars : Array Char) (text : String) (rng : Rng) : (n : Nat) → String × Rng
  | 0 => (text, rng)
  | n + 1 =>
    let (i, rng) := rng.nextBelow chars.size
    drawChars chars (text.push (chars.getD i ' ')) rng n

def printChars (options : Options) (letter : Char) (count : Int32) : Running Unit := do
  match charClass? letter with
  | none => throw (.internal s!"unknown character class '{letter}'")
  | some chars =>
    let m ← get
    let (text, rng) := drawChars chars.toList.toArray "" m.rng count.toInt.toNat
    set { m with rng }
    print options text

def openChannel (name : Int32) (visibility : UInt8) : Running Unit := do
  let name ← string name
  match Visibility.ofByte? visibility with
  | some v => modify (·.onWriter (·.openChannel name v))
  | none => throw (.internal s!"unknown visibility {visibility}")

/-- Puts the result of an operation in the place of the two topmost values. -/
def binary (op : Value → Value → Except DivisionByZero Value) : Running Unit := do
  let b ← pop
  let a ← pop
  match op a b with
  | .ok v => push v
  | .error e => throw (.divideByZero e)

def swapLocals (a b : Nat) : Running Unit :=
  modify fun m =>
    let f := m.frame
    let first := f.getLocal a
    let f := f.reserve b
    let second := f.getLocal b
    { m with frame := (f.setLocal b first).setLocal a second }

/-- Jumps if the last comparison is as wanted. -/
def jumpIf (holds : Comparison → Bool) (target : Int32) : Running Unit := do
  if holds (← get).comparison then jump (← address target)

def answerQuery (env : Environment) (index : Int32) : Running Unit := do
  let m ← get
  let program := m.frame.program
  let q ← entry "query" index.toInt (program.query? index)
  match q.table, env.dictionary with
  | none, _ => set { m with carriers := m.carriers.delete q.carriers }
  | some _, none => throw .noDictionary
  | some table, some dictionary =>
    let (word, carriers, rng) := dictionary.query q program.regexes m.carriers m.rng
    set { m with carriers, rng }
    print env.options (word.getD s!"<missing: {table}>")

/-- Notes a source position. -/
def markPlace (line column : Int32) : Running Unit :=
  modify fun m =>
    { m with marker := some ⟨m.current.program.id, line.toInt.toNat, column.toInt.toNat⟩ }

/-! ## Leaving a frame -/

/-- The value that the innermost frame leaves, if any, and the machine without what the frame had
on the stack and the blocks it had started. -/
def dropFrameState (m : Machine) : Option Value × Machine :=
  let value := if m.frame.floor < m.stack.size then m.stack.values.back? else none
  (value,
    { m with
      stack := m.stack.truncate m.frame.stackBase
      blocks := m.blocks.take m.frame.blocks })

/-- Goes on with the value of evaluated code. -/
def continueWith (env : Environment) (v : Value) : Continuation → Running Unit
  | .routine next => routine env (next v)
  | .choice block entered weights rest =>
    weigh env block entered (weights ++ [usableWeight (v.toNumber.asNumber?.getD 0)]) rest

/-- Leaves the innermost frame. The value on top of what it has on the stack is what it leaves. -/
def leave (env : Environment) : Running Status := do
  let (value, m) := dropFrameState (← get)
  match m.callers with
  | [] => do
    set m
    return .finished
  | parent :: callers =>
    match m.frame.evaluation with
    | none =>
      set { m with frame := parent, callers }
      match value with
      | some v => push v
      | none => pure ()
    | some back =>
      set
        { m with
          frame := { parent with locals := m.frame.locals }
          callers
          current := back.place }
      continueWith env (value.getD .undefined) back.next
    return .running

/-! ## Instructions -/

/-- Executes an instruction. -/
def execute (env : Environment) (i : Instr) : Running Status := do
  match i with
  | .debug line column _ => markPlace line column
  | .printString index => print env.options (← string index)
  | .printNumber bits => print env.options ((← get).numberFormat.text (.ofBits bits))
  | .openChannel name visibility => openChannel name visibility
  | .closeChannel => modify (·.onWriter (·.closeChannel.2))
  | .block index => startBlock env index
  | .blockEnd => endBlock env
  | .print =>
    let v ← pop
    print env.options (v.text (← get).numberFormat)
  | .printChars charClass count => printChars env.options (Char.ofNat charClass.toNat) count
  | .nativeCall id count => nativeCall env id count
  | .return => return ← leave env
  | .newOutput => openOutput env.options
  | .returnOutput => push (.string (← closeOutput))
  | .pushString index => push (.string (← string index))
  | .pushNumber bits => push (.number (.ofBits bits))
  | .pop =>
    let _ ← pop
  | .call target count =>
    let offset ← address target
    call env.options offset count.toNat
  | .loadArgument index => push (← argument index.toNat)
  | .query index => answerQuery env index
  | .jump target => jump (← address target)
  | .add => binary (Arithmetic.add.apply · ·)
  | .subtract => binary (Arithmetic.subtract.apply · ·)
  | .multiply => binary (Arithmetic.multiply.apply · ·)
  | .divide => binary (Arithmetic.divide.apply · ·)
  | .modulo => binary (Arithmetic.modulo.apply · ·)
  | .swap a b => swapLocals a.toNat b.toNat
  | .concat => binary fun a b => .ok (a.concat b)
  | .loadLocal index => push ((← get).frame.getLocal index.toNat)
  | .setLocal index =>
    let v ← pop
    modify fun m => { m with frame := m.frame.setLocal index.toNat v }
  | .compare =>
    let b ← pop
    let a ← pop
    modify fun m => { m with comparison := a.compare b }
  | .jumpEqual target => jumpIf (·.isEqual) target
  | .jumpNotEqual target => jumpIf (·.isUnequal) target
  | .jumpGreater target => jumpIf (· == .greater) target
  | .jumpGreaterEqual target => jumpIf (fun c => c == .greater || c == .equal) target
  | .jumpLess target => jumpIf (· == .less) target
  | .jumpLessEqual target => jumpIf (fun c => c == .less || c == .equal) target
  | .jumpZero target => jumpIf (·.isEqual) target
  | .jumpNotZero target => jumpIf (·.isUnequal) target
  | .pushNull => push .null
  | .pushAddress target => push (.pointer (← address target))
  | .article => modify (·.onWriter (·.edit .article))
  | .toNumber => push (← pop).toNumber
  | .callProgram index => callProgram env.options index
  return .running

end Running

end Wordloom
