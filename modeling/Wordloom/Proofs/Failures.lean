import Wordloom.Proofs.Completes

/-!
# Wordloom.Proofs.Failures

Which errors an action of a compilation can fail with, and where they are. `Ensures` is `Yields` with
a word on the errors. A reader hands out the places of tokens and the place behind the last of them. The
loops inside a construct are bounded; that they go on for too long is a fault of the compiler, which is
told apart from all other errors.
-/

namespace Wordloom

/-! ## Readers -/

namespace Token.Reader

/-- What is left to read, and the end, is at places of which `P` holds. -/
structure Within (P : Position → Prop) (r : Reader) : Prop where
  rest : ∀ t ∈ r.rest, P t.position
  finish : P r.finish

variable {P : Position → Prop} {r : Reader}

theorem Within.position (h : r.Within P) : P r.position := by
  unfold Reader.position
  split
  · exact h.finish
  · next t ts hrest => exact h.rest t (hrest ▸ List.mem_cons_self)

/-- Going on in what is left to read. -/
theorem Within.suffix (h : r.Within P) {r' : Reader} (hrest : r'.rest <:+ r.rest)
    (hfinish : r'.finish = r.finish) : r'.Within P :=
  ⟨fun t ht => h.rest t (hrest.subset ht), hfinish ▸ h.finish⟩

theorem Within.skipBlanks (h : r.Within P) : r.skipBlanks.Within P :=
  h.suffix (dropBlanks_suffix r.last r.rest) rfl

end Token.Reader

namespace Compile

variable {α β : Type} {c : Compilation} {E : Error → Prop}

/-- Nothing is asked of a result. -/
abbrev anything (_ : α) : Prop := True

end Compile

namespace Ensures

open Compile

variable {α : Type} {c : Compilation} {E : Error → Prop} {Q : α → Compilation → Prop}

theorem fail {position : Position} {cause : Cause} (h : E ⟨position, cause⟩) :
    Ensures E (Compiling.fail position cause) c Q := error rfl h

theorem output {g : Emitter → Emitter} {Q : Unit → Compilation → Prop} (h : Q () { c with out := g c.out }) :
    Ensures E (Compiling.output g) c Q := ok rfl h

theorem reading {action : Token.Reading α}
    (hok : ∀ a r, action c.reader = .ok a r → Q a { c with reader := r })
    (herror : ∀ e r, action c.reader = .error e r → E e) :
    Ensures E (Compiling.reading action) c Q := by
  cases hread : action c.reader with
  | ok a r => exact ok (by rw [Compiling.reading, hread]) (hok a r hread)
  | error e r => exact error (by rw [Compiling.reading, hread]) (herror e r hread)

end Ensures

namespace Compile

/-! ## Faults of loops -/

/-- The faults that stand for a loop that did not come to its end. -/
def Cause.endless : List Cause :=
  [.fault "construct without end", .fault "parameters without end", .fault "arguments without end",
    .fault "class filter without end", .fault "syllable range without end",
    .fault "carriers without end", .fault "query without end"]

/-- An error that is not due to a loop without end. -/
def Error.Definite (e : Error) : Prop := e.cause ∉ Cause.endless

/-- Such an error at a given place. -/
def Error.DefiniteAt (position : Position) (e : Error) : Prop := e.position = position ∧ e.Definite

/-- Such an error at a place of which `P` holds. -/
def Error.Within (P : Position → Prop) (e : Error) : Prop := P e.position ∧ e.Definite

variable {position : Position}

theorem Error.DefiniteAt.within {P : Position → Prop} {e : Error} (h : e.DefiniteAt position)
    (hposition : P position) : e.Within P := ⟨h.1 ▸ hposition, h.2⟩

def Cause.isFault : Cause → Bool
  | .fault _ => true
  | _ => false

/-- Only faults of the compiler are not definite. -/
theorem definite_of_isFault {cause : Cause} (h : cause.isFault = false) :
    (⟨position, cause⟩ : Error).Definite := by
  cases cause with
  | fault what => cases h
  | _ => simp [Error.Definite, Cause.endless]

/-- Faults with other messages are definite as well. -/
theorem definite_of_head {what : String} {c : Char} (h : what.toList.head? = some c)
    (hc : c ∉ ['c', 'p', 'a', 's', 'q']) : (⟨position, .fault what⟩ : Error).Definite := by
  simp only [Error.Definite, Cause.endless, List.mem_cons, List.not_mem_nil, or_false,
    Cause.fault.injEq]
  rintro (rfl | rfl | rfl | rfl | rfl | rfl | rfl) <;> cases h <;> exact hc (by decide)

end Compile

end Wordloom
