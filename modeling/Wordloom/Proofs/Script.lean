import Wordloom.Compile.Emitter
import Wordloom.Proofs.Codec

/-!
# Wordloom.Proofs.Script

A program while it is being built, as a list of lines: instructions with their strings written out.
There are no tables and no offsets in it, and the text that was printed last is kept apart, as a
print that follows is joined to it. The operations of an emitter are told here for scripts; that the
emitter does the same is in `Wordloom.Proofs.Emitter`.
-/

namespace Wordloom

/-! ## Lines -/

/-- Whether an instruction refers to a string. -/
def Instr.namesString : Instr → Bool
  | .printString _ | .pushString _ | .openChannel .. => true
  | _ => false

/-- An instruction with its string, if it refers to one, written out. -/
inductive Line where
  | plain (i : Instr)
  | text (use : StringUse) (s : String)
deriving DecidableEq

namespace Line

/-- What an instruction of a program with the given strings says. -/
def ofInstr? (strings : Array String) : Instr → Option Line
  | .printString i => (Program.lookup? strings i).map (text .print)
  | .pushString i => (Program.lookup? strings i).map (text .push)
  | .openChannel i v =>
    match Visibility.ofByte? v, Program.lookup? strings i with
    | some v, some s => some (text (.openChannel v) s)
    | _, _ => none
  | i => some (plain i)

/-- The number of bytes of the instruction. -/
def size : Line → Nat
  | plain i => i.size
  | text use _ => (use.instr 0).size

def sizes (ls : List Line) : Nat := (ls.map size).sum

/-- The same line with another target, if it is a jump. -/
def withTarget (target : Int32) : Line → Line
  | plain i => plain (i.withTarget target)
  | l => l

/-- Points the jump at `offset` to `target`, in lines the first of which is at `place`. -/
def retarget (offset : Nat) (target : Int32) : (place : Nat) → List Line → List Line
  | _, [] => []
  | place, l :: ls =>
    (if place = offset then l.withTarget target else l) ::
      retarget offset target (place + l.size) ls

@[simp] theorem sizes_nil : sizes [] = 0 := rfl

@[simp] theorem sizes_cons (l : Line) (ls : List Line) : sizes (l :: ls) = l.size + sizes ls := by
  simp [sizes]

@[simp] theorem sizes_append (ls ms : List Line) : sizes (ls ++ ms) = sizes ls + sizes ms := by
  simp [sizes]

theorem size_pos (l : Line) : 0 < l.size := by
  cases l <;> exact Instr.size_pos _

theorem size_withTarget (i : Instr) (target : Int32) : (i.withTarget target).size = i.size := by
  cases i <;> rfl

theorem retarget_of_lt (offset : Nat) (target : Int32) (place : Nat) (ls : List Line)
    (h : offset < place) : retarget offset target place ls = ls := by
  induction ls generalizing place with
  | nil => rfl
  | cons l ls ih => rw [retarget, if_neg (by omega), ih _ (by omega)]

/-- Only the line at the offset changes. -/
theorem retarget_append (target : Int32) (place : Nat) (before : List Line) (l : Line)
    (after : List Line) :
    retarget (place + sizes before) target place (before ++ l :: after) =
      before ++ l.withTarget target :: after := by
  induction before generalizing place with
  | nil =>
    have hpos := l.size_pos
    rw [List.nil_append, sizes_nil, Nat.add_zero, retarget, if_pos rfl,
      retarget_of_lt _ _ _ _ (by omega), List.nil_append]
  | cons b before ih =>
    have hpos := b.size_pos
    rw [List.cons_append, sizes_cons, retarget, if_neg (by omega), ← Nat.add_assoc, ih,
      List.cons_append]

end Line

/-! ## Scripts -/

/-- The lines of a program so far. `pending` is the text printed last, unless something else came
after it. -/
structure Script where
  lines : List Line := []
  pending : Option String := none

namespace Script

/-- All lines, with the one that is still open. -/
def all (s : Script) : List Line := s.lines ++ (s.pending.map (Line.text .print)).toList

/-- The offset of what comes next. -/
def size (s : Script) : Nat := Line.sizes s.all

/-- Lets nothing be joined to the text printed last. -/
def close (s : Script) : Script := { lines := s.all }

/-- Appends a line. -/
def add (s : Script) (l : Line) : Script := { lines := s.all ++ [l] }

/-- Appends an instruction that refers to a string. A text that is printed is joined to the one
printed before it. -/
def addText (s : Script) (use : StringUse) (text : String) : Script :=
  if use = .print then { s with pending := some (s.pending.getD "" ++ text) }
  else s.add (.text use text)

/-- Points the jump at `offset` to `target`. What comes next is not joined to what is before a
target that is not before it. -/
def patch (s : Script) (offset target : Nat) : Script :=
  let s := if s.size ≤ target then s.close else s
  { s with lines := Line.retarget offset (Int32.ofNat target) 0 s.lines }

/-- There is a jump at the offset. -/
def HasJump (s : Script) (offset : Nat) : Prop :=
  ∃ before i after, s.lines = before ++ .plain i :: after ∧ Line.sizes before = offset ∧
    i.target?.isSome

end Script

/-! ## Tables -/

/-- The tables of a program, but for the strings. -/
structure Tables where
  blocks : Array Block
  regexes : Array Regex
  queries : Array Query
  references : Array Program
  referenceNames : Array String

def Program.tables (p : Program) : Tables :=
  ⟨p.blocks, p.regexes, p.queries, p.references.toArray, p.referenceNames⟩

/-! ## The operations of an emitter -/

/-- What can be done to an emitter. -/
inductive Emitter.Op where
  | emit (i : Instr)
  | mark (p : Position)
  | emitString (use : StringUse) (s : String)
  | patch (offset target : Nat)
  | reserveBlock
  | setBlock (index : Nat) (b : Block)
  | addRegex (source : String)
  | addQuery (q : Query)
  | addReference (name : String) (p : Program)

def Emitter.apply (e : Emitter) : Emitter.Op → Emitter
  | .emit i => e.emit i
  | .mark p => e.mark p
  | .emitString use s => e.emitString use s
  | .patch offset target => e.patch offset target
  | .reserveBlock => e.reserveBlock.2
  | .setBlock index b => e.setBlock index b
  | .addRegex source =>
    match e.addRegex source with
    | .ok (_, e) => e
    | .error _ => e
  | .addQuery q => (e.addQuery q).2
  | .addReference name p => (e.addReference name p).2

/-- The mark of a source position. -/
def Line.mark (p : Position) : Line :=
  .plain (.debug (Emitter.clamp p.line) (Emitter.clamp p.column) (Emitter.clamp p.offset))

namespace Script

/-- What an operation does to the lines. -/
def apply (debug : Bool) (s : Script) : Emitter.Op → Script
  | .emit i => s.add (.plain i)
  | .mark p => if debug then s.add (.mark p) else s
  | .emitString use text => s.addText use text
  | .patch offset target => s.patch offset target
  | _ => s

/-- An operation that may be done: instructions that refer to strings are appended with their
strings, and only jumps are pointed elsewhere. -/
def Allows (s : Script) : Emitter.Op → Prop
  | .emit i => i.namesString = false
  | .patch offset _ => s.HasJump offset
  | _ => True

/-- Operations that may be done one after the other. -/
def AllowsAll (debug : Bool) (s : Script) : List Emitter.Op → Prop
  | [] => True
  | op :: ops => s.Allows op ∧ AllowsAll debug (s.apply debug op) ops

end Script

end Wordloom
