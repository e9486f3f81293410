import Wordloom.Compile.Construct

/-!
# Wordloom.Compile.Block

Blocks: alternatives between curly brackets with bars between them. An item may start with its
weight between asterisks, which is a number or a pattern that prints one. The code of a block is
one instruction followed by its items, each with an instruction that ends it; code of a weight
stands in front of the item and is entered only by its address.
-/

namespace Wordloom.Compile.Block

open Compiling

/-- Starts an item with the code that comes next. -/
def beginItem (b : OpenBlock) (weight : Weight) : Compiling Step := do
  let item : BlockItem := ⟨(← offset).toUInt32, weight⟩
  return .push (.item { b with items := b.items ++ [item] }) (.pattern .blockItem)

/-- Reads the weight of an item, if it has one. -/
def readWeight (b : OpenBlock) : Compiling Step := do
  if ← take .asterisk then
    let place ← position
    match ← constantUntil [.asterisk] with
    | some text =>
      match Decimal.bits? (Text.trim text) with
      | none => fail place (.invalidArgument "block weight" text)
      | some bits =>
        let _ ← read "'*'"
        beginItem b (.constant bits)
    | none =>
      let start ← emitAt .newOutput
      return .push (.weight b start) (.pattern .weight)
  else beginItem b .none

def start : Compiling Step := do
  let c ← get
  let (index, out) := c.out.reserveBlock
  set { c with out := out.emit (.block (Int32.ofNat index)) }
  readWeight ⟨index, []⟩

/-- Goes on when the code of a weight is compiled. -/
def afterWeight (b : OpenBlock) (start : Nat) : Compiling Step := do
  let _ ← read "'*'"
  emit .returnOutput
  emit .return
  beginItem b (.interpreted start.toUInt32)

/-- Goes on when an item is compiled. -/
def afterItem (b : OpenBlock) : Compiling Step := do
  emit .blockEnd
  let terminator ← read "'|' or '\x7d'"
  if terminator.kind = .rightCurly then
    let finish ← offset
    output (·.setBlock b.index ⟨finish.toUInt32, b.items⟩)
    return .done
  else readWeight b

end Wordloom.Compile.Block
