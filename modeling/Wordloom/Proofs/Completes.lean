import Wordloom.Compile.Pattern
import Wordloom.Proofs.Actions

/-!
# Wordloom.Proofs.Completes

Compilations that succeed. The list of constructs that are being compiled is taken apart into a
relation that says, for each of them, how it is completed; and a step is described by what it yields
if it does not fail.
-/

/-! ## Readers -/

namespace Wordloom.Token

/-- A reader has gone on by at least `n` tokens. -/
def Reader.Passes (n : Nat) (r r' : Reader) : Prop := r'.rest.length + n ≤ r.rest.length

namespace Reader

variable {r r' : Reader}

theorem Passes.refl (r : Reader) : r.Passes 0 r := Nat.le_refl _

theorem dropBlanks_suffix (last : Position) (ts : List Token) : (dropBlanks last ts).2 <:+ ts := by
  induction ts generalizing last with
  | nil => exact List.suffix_refl _
  | cons t ts ih =>
    rw [dropBlanks]
    split
    · exact (ih t.position).trans (List.suffix_cons t ts)
    · exact List.suffix_refl _

theorem passes_skipBlanks (r : Reader) : r.Passes 0 r.skipBlanks :=
  (dropBlanks_suffix r.last r.rest).length_le

theorem passes_take (kind : Kind) (r : Reader) : r.Passes 0 (r.take kind).2 := by
  unfold Reader.take
  split
  · exact .refl r
  · rename_i t ts hrest
    split
    · rw [Passes, hrest, List.length_cons]
      exact Nat.le_succ _
    · exact .refl r

/-- Constant text is read from the front. -/
theorem plainUntil_suffix {stops : List Kind} {ts rest : List Token} {last last' : Position} {text : String}
    (h : plainUntil stops last ts = some (text, last', rest)) : rest <:+ ts := by
  induction ts generalizing last text with
  | nil => cases h
  | cons t ts ih =>
    rw [plainUntil] at h
    split at h
    · cases h
      exact List.suffix_refl _
    · split at h
      · obtain ⟨⟨text', last'', rest'⟩, htail, ⟨⟩⟩ := Option.map_eq_some_iff.1 h
        exact (ih htail).trans (List.suffix_cons t ts)
      · cases h

end Reader

namespace Reading

variable {r r' : Reader} {t : Token}

theorem passes_read {wanted : String} (h : read wanted r = .ok t r') : r.Passes 1 r' := by
  unfold read at h
  split at h
  · cases h
  · rename_i hrest
    cases h
    exact Nat.le_of_eq (by rw [hrest, List.length_cons])

theorem passes_expect {kind : Kind} {wanted : String} (h : expect kind wanted r = .ok t r') :
    r.Passes 1 r' ∧ t.kind = kind := by
  rw [expect, run_bind_eq_ok] at h
  obtain ⟨t', r₁, hread, h⟩ := h
  split at h
  · rename_i hkind
    cases h
    exact ⟨passes_read hread, hkind⟩
  · cases h

theorem passes_of_loose {n : Nat} (h : r.skipBlanks.Passes n r') : r.Passes n r' := by
  have hskip := r.passes_skipBlanks
  unfold Reader.Passes at h hskip ⊢
  omega

theorem passes_constantUntil {stops : List Kind} {text : Option String}
    (h : constantUntil stops r = .ok text r') : r.Passes 0 r' := by
  unfold constantUntil at h
  split at h
  · rename_i hplain
    cases h
    exact (Reader.plainUntil_suffix hplain).length_le
  · cases h
    exact .refl r

end Reading

end Wordloom.Token

namespace Wordloom.Compile

variable {ctx : Context} {α β : Type}

/-! ## Constructs -/

/-- A construct is completed: it is gone on with, alternating with what is inside it, until it is
done. -/
inductive Completes (ctx : Context) : Construct → Compilation → Compilation → Prop where
  | done {k : Construct} {c c' : Compilation} (h : k.resume ctx c = .ok .done c') :
    Completes ctx k c c'
  | push {k self child : Construct} {c c₁ c₂ c' : Compilation}
    (h : k.resume ctx c = .ok (.push self child) c₁) (hchild : Completes ctx child c₁ c₂)
    (hself : Completes ctx self c₂ c') : Completes ctx k c c'

/-- Constructs are completed one after the other. -/
inductive CompletesAll (ctx : Context) : List Construct → Compilation → Compilation → Prop where
  | nil {c : Compilation} : CompletesAll ctx [] c c
  | cons {k : Construct} {ks : List Construct} {c c₁ c' : Compilation}
    (h : Completes ctx k c c₁) (hrest : CompletesAll ctx ks c₁ c') :
    CompletesAll ctx (k :: ks) c c'

/-- A run that succeeds has completed what was on its stack. -/
theorem completesAll_of_run {fuel : Nat} {ks : List Construct} {c c' : Compilation}
    (h : run ctx fuel ks c = .ok () c') : CompletesAll ctx ks c c' := by
  induction fuel generalizing ks c with
  | zero =>
    cases ks with
    | nil =>
      cases h
      exact .nil
    | cons k ks => cases h
  | succ fuel ih =>
    cases ks with
    | nil =>
      cases h
      exact .nil
    | cons k ks =>
      rw [run, run_bind_eq_ok] at h
      obtain ⟨step, c₁, hstep, hrest⟩ := h
      cases step with
      | done => exact .cons (.done hstep) (ih hrest)
      | push self child =>
        cases ih hrest with
        | cons hchild hrest =>
          cases hrest with
          | cons hself hrest => exact .cons (.push hstep hchild hself) hrest

/-- A source is compiled if its pattern is completed. -/
theorem completes_of_source {c c' : Compilation} (h : source ctx c = .ok () c') :
    Completes ctx (.pattern .root) c c' ∧ c'.out.position < 2 ^ 31 := by
  rw [source, run_bind_eq_ok] at h
  obtain ⟨tokens, c₁, htokens, h⟩ := h
  cases htokens
  rw [run_bind_eq_ok] at h
  obtain ⟨_, c₂, hrun, h⟩ := h
  rw [run_bind_eq_ok] at h
  obtain ⟨size, c₃, hsize, h⟩ := h
  cases hsize
  split at h
  · rw [run_bind_eq_ok] at h
    obtain ⟨_, _, hposition, h⟩ := h
    cases h
  · rename_i hlt
    cases h
    cases completesAll_of_run hrun with
    | cons hpattern hrest =>
      cases hrest
      exact ⟨hpattern, by omega⟩

/-! ## Steps -/

end Wordloom.Compile

namespace Wordloom.Yields

open Compile

variable {α : Type} {c : Compilation} {Q : α → Compilation → Prop}

theorem fail {position : Position} {cause : Cause} : Yields (Compiling.fail position cause) c Q := throw

/-! ### Emitting -/

theorem output {f : Emitter → Emitter} {Q : Unit → Compilation → Prop}
    (h : Q () { c with out := f c.out }) : Yields (Compiling.output f) c Q := ok rfl h

theorem emitAt {i : Instr} {Q : Nat → Compilation → Prop}
    (h : Q c.out.position { c with out := c.out.emit i }) : Yields (Compiling.emitAt i) c Q := ok rfl h

theorem offset {Q : Nat → Compilation → Prop} (h : Q c.out.position c) :
    Yields Compiling.offset c Q := ok rfl h

theorem position {Q : Position → Compilation → Prop} (h : Q c.reader.position c) :
    Yields Compiling.position c Q := ok rfl h

theorem lastPosition {Q : Position → Compilation → Prop} (h : Q c.reader.last c) :
    Yields Compiling.lastPosition c Q := ok rfl h

theorem tokens {Q : List Token → Compilation → Prop} (h : Q c.reader.rest c) :
    Yields Compiling.tokens c Q := ok rfl h

theorem tokensLeft {Q : Nat → Compilation → Prop} (h : Q c.reader.rest.length c) :
    Yields Compiling.tokensLeft c Q := ok rfl h

/-! ### Reading -/

/-- A reader's action changes only the reader. -/
theorem reading {action : Token.Reading α}
    (h : ∀ a r, action c.reader = .ok a r → Q a { c with reader := r }) :
    Yields (Compiling.reading action) c Q := by
  intro a c' ha
  unfold Compiling.reading at ha
  split at ha
  · rename_i hread
    cases ha
    exact h _ _ hread
  · cases ha

section

variable {Q : Token → Compilation → Prop} {kind : Token.Kind} {wanted : String}

theorem read (h : ∀ t r, c.reader.Passes 1 r → Q t { c with reader := r }) :
    Yields (Compiling.read wanted) c Q :=
  reading fun t r hread => h t r (Token.Reading.passes_read hread)

theorem readLoose (h : ∀ t r, c.reader.Passes 1 r → Q t { c with reader := r }) :
    Yields (Compiling.readLoose wanted) c Q :=
  reading fun t r hread =>
    h t r (Token.Reading.passes_of_loose (Token.Reading.passes_read hread))

theorem expect (h : ∀ t r, c.reader.Passes 1 r → t.kind = kind → Q t { c with reader := r }) :
    Yields (Compiling.expect kind wanted) c Q :=
  reading fun t r hread =>
    h t r (Token.Reading.passes_expect hread).1 (Token.Reading.passes_expect hread).2

theorem expectLoose (h : ∀ t r, c.reader.Passes 1 r → Q t { c with reader := r }) :
    Yields (Compiling.expectLoose kind wanted) c Q :=
  reading fun t r hread =>
    h t r (Token.Reading.passes_of_loose (Token.Reading.passes_expect hread).1)

end

section

variable {Q : Bool → Compilation → Prop} {kind : Token.Kind}

theorem take (h : ∀ taken r, c.reader.Passes 0 r → Q taken { c with reader := r }) :
    Yields (Compiling.take kind) c Q :=
  reading fun _ _ htake => by
    cases htake
    exact h _ _ (Token.Reader.passes_take kind c.reader)

theorem takeLoose (h : ∀ taken r, c.reader.Passes 0 r → Q taken { c with reader := r }) :
    Yields (Compiling.takeLoose kind) c Q :=
  reading fun _ _ htake => by
    cases htake
    exact h _ _ (Token.Reading.passes_of_loose (Token.Reader.passes_take kind c.reader.skipBlanks))

end

theorem peekLoose {Q : Option Token → Compilation → Prop}
    (h : ∀ t r, c.reader.Passes 0 r → Q t { c with reader := r }) :
    Yields Compiling.peekLoose c Q :=
  reading fun _ _ hpeek => by
    cases hpeek
    exact h _ _ c.reader.passes_skipBlanks

theorem peekKindLoose {Q : Option Token.Kind → Compilation → Prop}
    (h : ∀ kind r, c.reader.Passes 0 r → Q kind { c with reader := r }) :
    Yields Compiling.peekKindLoose c Q :=
  bind (peekLoose fun t r hr => pure (h (t.map (·.kind)) r hr))

theorem constantUntil {stops : List Token.Kind} {Q : Option String → Compilation → Prop}
    (h : ∀ text r, c.reader.Passes 0 r → Q text { c with reader := r }) :
    Yields (Compiling.constantUntil stops) c Q :=
  reading fun text r hread => h text r (Token.Reading.passes_constantUntil hread)

end Wordloom.Yields

namespace Wordloom.Compile

/-- What `Tag.define` does in front of a body, with or without parameters. -/
def Tag.beginBody (name : Token) (params : List String) : Compiling Tag := do
  let _ ← Compiling.expectLoose .rightSquare "']'"
  if 255 < params.length then Compiling.fail name.position (.limit "too many parameters")
  let skip ← Compiling.emitAt (.jump 0)
  let c ← get
  let subroutine : Subroutine := ⟨c.out.position, params.length⟩
  let c := { c with subroutines := c.subroutines.add name.text subroutine }
  set (c.openFrame.addArguments 0 params)
  return ⟨name.text, .define skip, 1, 1⟩

end Wordloom.Compile
