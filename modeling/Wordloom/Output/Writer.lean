import Wordloom.Output.Chain

/-!
# Wordloom.Output.Writer

The channels of a run and the stack of those that are open. Every write goes to the innermost
open channel and, as visibilities say, to others below it.
-/

namespace Wordloom

/-- What a channel holds when the run is over. -/
structure Channel where
  name : String
  visibility : Visibility
  text : String
deriving DecidableEq

/-- What a run has written, channels in the order of their names. -/
structure Output where
  seed : UInt64
  channels : List Channel
deriving DecidableEq

/-- The channel that is there from the start. -/
def mainChannel : String := "main"

def Output.get? (o : Output) (name : String) : Option Channel :=
  o.channels.find? (·.name == name)

def Output.main (o : Output) : String :=
  match o.get? mainChannel with
  | some channel => channel.text
  | none => ""

/-- All channels by index, main being the first, the index of each name, and the open channels,
innermost first. -/
structure Writer where
  chains : Array Chain
  byName : Std.TreeMap String Nat
  active : List Nat
  charsWritten : Nat
  defaultCase : Capitals

namespace Writer

def new (mode : Capitals) : Writer where
  chains := #[Chain.new mainChannel .visible mode]
  byName := Std.TreeMap.empty.insert mainChannel 0
  active := [0]
  charsWritten := 0
  defaultCase := mode

/-- Opens a channel, which is made if there is none of that name. A channel that is open already
stays as it is. -/
def openChannel (w : Writer) (name : String) (visibility : Visibility) : Writer :=
  match w.byName[name]? with
  | some i =>
    if w.active.contains i then w
    else
      { w with
        chains := w.chains.modify i fun chain => { chain with visibility := visibility }
        active := i :: w.active }
  | none =>
    { w with
      chains := w.chains.push (.new name visibility w.defaultCase)
      byName := w.byName.insert name w.chains.size
      active := w.chains.size :: w.active }

/-- Closes the innermost channel and says whether it did: main stays open. -/
def closeChannel (w : Writer) : Bool × Writer :=
  match w.active with
  | _ :: next :: rest => (true, { w with active := next :: rest })
  | _ => (false, w)

/-- The channels a write reaches, from the innermost of `active` on. Once an internal channel has
been passed, main is out of reach. -/
def reach (chains : Array Chain) (internal : Bool) : List Nat → List Nat
  | [] => []
  | i :: below =>
    if internal && i == 0 then []
    else
      match chains[i]? with
      | none => [i]
      | some chain =>
        match chain.visibility with
        | .visible => if !internal && i != 0 then [i, 0] else [i]
        | .hidden => [i]
        | .internal => i :: reach chains true below

/-- The channels a write reaches. -/
def targets (w : Writer) : List Nat := reach w.chains false w.active

/-- Does `f` to every channel a write reaches. -/
def onTargets (w : Writer) (f : Chain → Chain) : Writer :=
  { w with chains := w.targets.foldl (fun chains i => chains.modify i f) w.chains }

/-- Does an edit in every channel it reaches. Printing nothing does nothing. -/
def edit (w : Writer) (e : Edit) : Writer :=
  match e with
  | .print text =>
    if text.isEmpty then w
    else { w with charsWritten := w.charsWritten + text.length }.onTargets (·.edit e)
  | _ => w.onTargets (·.edit e)

def mainText (w : Writer) : String :=
  match w.chains[0]? with
  | some chain => chain.render
  | none => ""

/-- The channels as they are, in the order of their names. -/
def channels (w : Writer) : List Channel :=
  (w.chains.toList.map fun chain => ⟨chain.name, chain.visibility, chain.render⟩).mergeSort
    fun a b => !(b.name < a.name)

def finish (w : Writer) (seed : UInt64) : Output := ⟨seed, w.channels⟩

/-- What can be done to a writer. -/
inductive Op where
  | openChannel (name : String) (visibility : Visibility)
  | closeChannel
  | edit (e : Edit)
deriving DecidableEq

def apply (w : Writer) : Op → Writer
  | .openChannel name visibility => w.openChannel name visibility
  | .closeChannel => w.closeChannel.2
  | .edit e => w.edit e

end Writer

end Wordloom
