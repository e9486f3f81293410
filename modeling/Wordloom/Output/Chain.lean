import Std.Data.TreeMap
import Wordloom.Output.Article
import Wordloom.Output.Capitals

/-!
# Wordloom.Output.Chain

The text of one channel while it is being written. Besides text it holds slots: an article slot
is decided by the first word printed after it, and a target slot shows whatever its target holds
in the end.
-/

namespace Wordloom

/-- Who gets to see what is written to a channel. -/
inductive Visibility where
  /-- main as well, unless an internal channel is in between -/
  | visible
  /-- the channel itself only -/
  | hidden
  /-- the enclosing channel too, but never main -/
  | internal
deriving DecidableEq

namespace Visibility

def name : Visibility → String
  | .visible => "public"
  | .hidden => "private"
  | .internal => "internal"

def ofName? : String → Option Visibility
  | "public" => some .visible
  | "private" => some .hidden
  | "internal" => some .internal
  | _ => none

def toByte : Visibility → UInt8
  | .visible => 0
  | .hidden => 1
  | .internal => 2

def ofByte? (b : UInt8) : Option Visibility :=
  if b = 0 then some .visible
  else if b = 1 then some .hidden
  else if b = 2 then some .internal
  else none

end Visibility

/-- Letters of an article, fixed when its slot is made. -/
inductive ArticleCase where
  | lower
  | capital
  | upper
deriving DecidableEq

def ArticleCase.apply (c : ArticleCase) (article : Article) : String :=
  match c with
  | .lower => article.text
  | .upper => Text.upper article.text
  | .capital =>
    match article.text.toList with
    | [] => ""
    | c :: cs => String.ofList (Text.upperOf c ++ cs)

inductive Segment where
  | text (s : String)
  | article (decided : Option Article) (letters : ArticleCase)
  | target (name : String)
deriving DecidableEq

/-- What can be done to the text of a channel. -/
inductive Edit where
  | print (text : String)
  /-- makes a slot for an article -/
  | article
  | setCase (mode : Capitals)
  /-- makes a slot for a target -/
  | target (name : String)
  | write (name text : String) (overwrite : Bool)
  | clear (name : String)
deriving DecidableEq

/-- The segments that are finished, and the text after them. `pending` is the index of the
article slot that waits for a word. -/
structure Chain where
  name : String
  visibility : Visibility
  case : Capitalizer
  sealed : Array Segment := #[]
  current : String := ""
  pending : Option Nat := none
  targets : Std.TreeMap String String := {}

namespace Chain

def new (name : String) (visibility : Visibility) (mode : Capitals) : Chain :=
  { name := name, visibility := visibility, case := { mode := mode } }

/-- Decides an article slot. -/
def decideSegment (article : Article) : Segment → Segment
  | .article _ letters => .article (some article) letters
  | s => s

def print (chain : Chain) (text : String) : Chain :=
  let (text, case) := chain.case.apply text
  let chain := { chain with case := case, current := chain.current ++ text }
  match chain.pending, Article.firstWord? text with
  | some i, some word =>
    { chain with
      sealed := chain.sealed.modify i (decideSegment (.before word))
      pending := none }
  | _, _ => chain

def setCase (chain : Chain) (mode : Capitals) : Chain := { chain with case := { mode := mode } }

/-- Ends the current text segment. -/
def finishText (chain : Chain) : Chain :=
  if chain.current.isEmpty then chain
  else { chain with sealed := chain.sealed.push (.text chain.current), current := "" }

/-- Makes a slot for an article. It counts as a printed word for the capitalization. -/
def insertArticle (chain : Chain) : Chain :=
  let (letters, case) :=
    if chain.case.mode = .upper then (ArticleCase.upper, chain.case)
    else
      let (text, case) := chain.case.apply "a"
      (if text = "A" then .capital else .lower, case)
  let chain := { chain with case := case }.finishText
  { chain with
    sealed := chain.sealed.push (.article none letters)
    pending := some chain.sealed.size }

/-- Makes a slot that shows the target of that name. -/
def insertTarget (chain : Chain) (name : String) : Chain :=
  let chain := chain.finishText
  { chain with
    sealed := chain.sealed.push (.target name)
    targets := chain.targets.insertIfNew name "" }

/-- Writes to a target, behind what it holds or in place of it. -/
def writeTarget (chain : Chain) (name text : String) (overwrite : Bool) : Chain :=
  let held := if overwrite then "" else chain.targets.getD name ""
  { chain with targets := chain.targets.insert name (held ++ text) }

def clearTarget (chain : Chain) (name : String) : Chain :=
  if chain.targets.contains name then { chain with targets := chain.targets.insert name "" }
  else chain

/-- Does one edit. -/
def edit (chain : Chain) : Edit → Chain
  | .print text => chain.print text
  | .article => chain.insertArticle
  | .setCase mode => chain.setCase mode
  | .target name => chain.insertTarget name
  | .write name text overwrite => chain.writeTarget name text overwrite
  | .clear name => chain.clearTarget name

def segmentText (chain : Chain) : Segment → String
  | .text s => s
  | .article decided letters => letters.apply (decided.getD .a)
  | .target name => chain.targets.getD name ""

/-- The text the chain stands for at present. -/
def render (chain : Chain) : String :=
  chain.sealed.foldl (fun out s => out ++ chain.segmentText s) "" ++ chain.current

end Chain

end Wordloom
