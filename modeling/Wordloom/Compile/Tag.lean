import Wordloom.Compile.Construct

/-!
# Wordloom.Compile.Tag

Tags: a name between square brackets, with arguments behind a colon. The name is that of an action
the compiler knows, of a subroutine, or of a function. An argument without any construct in it is a
constant and needs no code of its own; arithmetic on two constant numbers is done at once.
-/

namespace Wordloom.Compile

def arithmeticInstr : Arithmetic → Instr
  | .add => .add
  | .subtract => .subtract
  | .multiply => .multiply
  | .divide => .divide
  | .modulo => .modulo

namespace Tag

/-- The tags that are part of the language. -/
def intrinsic? (name : String) : Option Tag :=
  match name with
  | "open" => some ⟨name, .openChannel, 1, 2⟩
  | "close" => some ⟨name, .closeChannel, 0, 0⟩
  | "set" => some ⟨name, .setLocal, 2, 2⟩
  | "get" => some ⟨name, .getLocal, 1, 1⟩
  | "swap" => some ⟨name, .swapLocals, 2, 2⟩
  | "add" => some ⟨name, .arithmetic .add, 2, 2⟩
  | "sub" => some ⟨name, .arithmetic .subtract, 2, 2⟩
  | "mul" => some ⟨name, .arithmetic .multiply, 2, 2⟩
  | "div" => some ⟨name, .arithmetic .divide, 2, 2⟩
  | "mod" => some ⟨name, .arithmetic .modulo, 2, 2⟩
  | "cat" => some ⟨name, .concat, 2, 2⟩
  | "eq" => some ⟨name, .compare (.jumpEqual 0) false, 3, 4⟩
  | "neq" => some ⟨name, .compare (.jumpNotEqual 0) false, 3, 4⟩
  | "gt" => some ⟨name, .compare (.jumpGreater 0) true, 3, 4⟩
  | "ge" => some ⟨name, .compare (.jumpGreaterEqual 0) true, 3, 4⟩
  | "lt" => some ⟨name, .compare (.jumpLess 0) true, 3, 4⟩
  | "le" => some ⟨name, .compare (.jumpLessEqual 0) true, 3, 4⟩
  | "zero" => some ⟨name, .compareZero (.jumpZero 0), 2, 3⟩
  | "nonzero" => some ⟨name, .compareZero (.jumpNotZero 0), 2, 3⟩
  | "arg" => some ⟨name, .getArgument, 1, 1⟩
  | "import" => some ⟨name, .callProgram, 1, 1⟩
  | _ => none

/-- How the argument of the given index is compiled. -/
def mode (tag : Tag) (index : Nat) : ArgumentMode :=
  match tag.action with
  | .openChannel | .closeChannel | .getLocal | .swapLocals | .getArgument | .callProgram => .name
  | .setLocal => if index = 0 then .name else .captured
  | .arithmetic _ => .number
  | .concat | .call _ => .captured
  | .compare _ numeric => if 2 ≤ index then .inline else if numeric then .number else .captured
  | .compareZero _ => if index = 0 then .number else .inline
  | .define _ => .inline
  | .native _ params =>
    match params[index]? with
    | some .number => .number
    | some .pattern => .outOfLine
    | _ => .captured

/-- The number of arguments a tag takes, as it is put in messages. -/
def arity (tag : Tag) : String :=
  if tag.min = tag.max then toString tag.min else s!"{tag.min}-{tag.max}"

open Compiling

/-! ## The name -/

/-- Reads the parameters of a subroutine, at most `fuel`. -/
def parameters : (fuel : Nat) → Compiling (List String)
  | 0 => do fail (← position) (.fault "parameters without end")
  | fuel + 1 => do
    let name ← expectLoose .text "parameter name"
    if ← takeLoose .semicolon then return name.text :: (← parameters fuel)
    else return [name.text]

/-- Reads the head of a subroutine behind its opening bracket. The subroutine is known from here
on, in its own body too. -/
def define : Compiling Tag := do
  let name ← expectLoose .text "subroutine name"
  let params ←
    if ← takeLoose .colon then
      let fuel ← tokensLeft
      parameters (fuel + 1)
    else pure []
  let _ ← expectLoose .rightSquare "']'"
  if 255 < params.length then fail name.position (.limit "too many parameters")
  let skip ← emitAt (.jump 0)
  let c ← get
  let subroutine : Subroutine := ⟨c.out.position, params.length⟩
  let c := { c with subroutines := c.subroutines.add name.text subroutine }
  set (c.openFrame.addArguments 0 params)
  return ⟨name.text, .define skip, 1, 1⟩

/-- Reads the name of a tag whose opening bracket stands at `start`. -/
def resolve (ctx : Context) (start : Position) : Compiling Tag := do
  let first ← readLoose "function name"
  match first.kind with
  | .dollar =>
    if ← take .leftSquare then define
    else
      let name ← expect .text "subroutine name"
      match (← get).subroutines.find? name.text with
      | some s => return ⟨name.text, .call s, s.arity, s.arity⟩
      | none => fail start (.unknownSubroutine name.text)
  | .text =>
    match intrinsic? first.text, ctx.registry.lookup? first.text with
    | some tag, _ => return tag
    | none, some (id, f) =>
      return ⟨first.text, .native id f.params, f.params.length, f.params.length⟩
    | none, none => fail start (.unknownFunction first.text)
  | _ => fail first.position (.expected "function name" first.text)

end Tag

namespace OpenTag

open Compiling

def wrongCount (t : OpenTag) (found : Nat) : Compiling α :=
  fail t.start (.argumentCount t.tag.name t.tag.arity found)

/-! ## Arguments -/

/-- Pushes the number that was held back. -/
def pushDeferred (t : OpenTag) : Compiling OpenTag := do
  match t.deferred with
  | some bits => emit (.pushNumber bits)
  | none => pure ()
  return { t with deferred := none }

/-- Compiles a constant argument that is to be a number. -/
def constantNumber (t : OpenTag) (text : String) : Compiling OpenTag := do
  match Decimal.bits? (Text.trim text) with
  | none =>
    let t ← t.pushDeferred
    emitString .push text
    emit .toNumber
    return t
  | some bits =>
    let pushed : Compiling OpenTag := do
      let t ← t.pushDeferred
      emit (.pushNumber bits)
      return t
    match t.tag.action, t.deferred with
    | .arithmetic op, deferred =>
      if t.index = 0 then return { t with deferred := some bits }
      else
        match deferred with
        | none => pushed
        | some first =>
          match op.apply (.number (.ofBits first)) (.number (.ofBits bits)) with
          | .ok (.number result) =>
            emit (.printNumber result.toBits)
            return { t with deferred := none, folded := true }
          | _ => pushed
    | _, _ => pushed

/-- Starts the next argument. One that is constant is compiled at once, without anything to be
done after it. -/
def beginArgument (t : OpenTag) : Compiling (OpenTag × Option After) := do
  if t.tag.max ≤ t.index then t.wrongCount (t.index + 1)
  let stops : List Token.Kind := [.semicolon, .rightSquare]
  match t.tag.mode t.index with
  | .name =>
    let place ← position
    match ← constantUntil stops with
    | some text => return ({ t with names := t.names ++ [Text.trim text] }, none)
    | none =>
      let found := ((← peekLoose).map (·.text)).getD ""
      fail place (.expected "a constant name" found)
  | .captured =>
    match ← constantUntil stops with
    | some text =>
      emitString .push text
      return (t, none)
    | none =>
      emit .newOutput
      return (t, some .capture)
  | .number =>
    match ← constantUntil stops with
    | some text => return (← t.constantNumber text, none)
    | none =>
      let t ← t.pushDeferred
      emit .newOutput
      return (t, some .captureNumber)
  | .inline => return (t, some .nothing)
  | .outOfLine =>
    let skip ← emitAt (.jump 0)
    return (t, some (.outOfLine skip (← offset)))

/-- Does what is to be done when an argument has been compiled. -/
def afterArgument : After → Compiling Unit
  | .capture => emit .returnOutput
  | .captureNumber => do
    emit .returnOutput
    emit .toNumber
  | .nothing => pure ()
  | .outOfLine skip start => do
    emit .return
    land skip
    emit (.pushAddress (Int32.ofNat start))

/-! ## Branches -/

/-- Lets a failed comparison go on here. -/
def landElse (t : OpenTag) : Compiling OpenTag := do
  match t.elseJump with
  | some jump => land jump
  | none => pure ()
  return { t with elseJump := none }

/-- Emits the jumps that follow the current argument of a comparison with so many operands: those
that choose a branch behind the last operand, and the one around the second branch behind the
first. -/
def branch (t : OpenTag) (jump : Instr) (operands : Nat) (more : Bool) : Compiling OpenTag := do
  if t.index + 1 = operands then
    if operands = 1 then emit (.pushNumber 0)
    emit .compare
    let thenJump ← emitAt jump
    let elseJump ← emitAt (.jump 0)
    land thenJump
    return { t with elseJump := some elseJump }
  else if t.index = operands && more then
    let endJump ← emitAt (.jump 0)
    { t with endJump := some endJump }.landElse
  else return t

/-- Emits what follows the current argument. -/
def betweenArguments (t : OpenTag) (more : Bool) : Compiling OpenTag :=
  match t.tag.action with
  | .compare jump _ => t.branch jump 2 more
  | .compareZero jump => t.branch jump 1 more
  | _ => pure t

/-! ## The end -/

/-- The index of a local that has been set before. -/
def localIndex (t : OpenTag) (name : String) : Compiling UInt16 := do
  match (← get).local? name with
  | some index => return index.toUInt16
  | none => fail t.start (.unknownVariable name)

def visibility (t : OpenTag) : List String → Compiling Visibility
  | [] | "" :: _ => return .visible
  | name :: _ =>
    match Visibility.ofName? name with
    | some v => return v
    | none => fail t.start (.invalidArgument "visibility" name)

/-- Emits what a tag does when its arguments are there. -/
def perform (ctx : Context) (t : OpenTag) : Compiling Unit := do
  match t.tag.action, t.names with
  | .openChannel, name :: rest =>
    let visibility ← t.visibility rest
    emitString (.openChannel visibility) name
  | .closeChannel, _ => emit .closeChannel
  | .setLocal, name :: _ => emit (.setLocal (← declareLocal name t.start).toUInt16)
  | .getLocal, name :: _ =>
    emit (.loadLocal (← t.localIndex name))
    emit .print
  | .swapLocals, a :: b :: _ =>
    let a ← t.localIndex a
    let b ← t.localIndex b
    emit (.swap a b)
  | .arithmetic op, _ =>
    if !t.folded then
      emit (arithmeticInstr op)
      emit .print
  | .concat, _ =>
    emit .concat
    emit .print
  | .compare .., _ | .compareZero .., _ =>
    let t ← t.landElse
    match t.endJump with
    | some jump => land jump
    | none => pure ()
  | .getArgument, name :: _ =>
    match (← get).argument? name with
    | some index => emit (.loadArgument index.toUInt8)
    | none => fail t.start (.unknownVariable name)
    emit .print
  | .call s, _ => emit (.call (Int32.ofNat s.address) t.index.toUInt8)
  | .define skip, _ =>
    emit .return
    land skip
    modify (·.closeFrame)
  | .callProgram, name :: _ =>
    match ctx.imports[name]? with
    | none => fail t.start (.unknownImport name)
    | some program =>
      let c ← get
      let (index, out) := c.out.addReference name program
      set { c with out := out.emit (.callProgram index) }
  | .native id _, _ => emit (.nativeCall id.toUInt16 t.index.toUInt8)
  | _, names => fail t.start (.fault s!"name argument {names.length} missing")

/-- Ends a tag behind its closing bracket. -/
def finish (ctx : Context) (t : OpenTag) : Compiling Unit := do
  if t.index < t.tag.min || t.tag.max < t.index then t.wrongCount t.index
  t.perform ctx

/-- Reads what ends an argument. The tag goes on if that is a semicolon; otherwise it is done. -/
def endArgument (ctx : Context) (t : OpenTag) : Compiling (Option OpenTag) := do
  let terminator ← read "';' or ']'"
  let more := terminator.kind = .semicolon
  let t ← t.betweenArguments more
  let t := { t with index := t.index + 1 }
  if more then return some t
  t.finish ctx
  return none

/-- Compiles arguments, no more than there are `tokens`, up to one that is not constant. -/
def arguments (ctx : Context) (t : OpenTag) : (tokens : List Token) → Compiling Step
  | [] => do fail (← position) (.fault "arguments without end")
  | _ :: tokens => do
    match ← t.beginArgument with
    | (t, some after) => return .push (.argument t after) (.pattern .argument)
    | (t, none) =>
      match ← t.endArgument ctx with
      | some t => t.arguments ctx tokens
      | none => return .done

/-- Goes on when an argument is compiled. -/
def resume (ctx : Context) (t : OpenTag) (after : After) : Compiling Step := do
  afterArgument after
  let tokens ← tokens
  match ← t.endArgument ctx with
  | some t => t.arguments ctx tokens
  | none => return .done

end OpenTag

open Compiling in
/-- Compiles a tag whose opening bracket stands at `start`, up to an argument that is not
constant. -/
def Tag.start (ctx : Context) (start : Position) : Compiling Step := do
  let tag ← resolve ctx start
  let t : OpenTag := { tag, start }
  let tokens ← tokens
  if ← takeLoose .colon then t.arguments ctx tokens
  else
    let _ ← expectLoose .rightSquare "':' or ']'"
    t.finish ctx
    return .done

end Wordloom.Compile
