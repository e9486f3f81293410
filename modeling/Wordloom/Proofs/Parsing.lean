import Mathlib.Data.List.DropRight
import Wordloom.Proofs.Readings

/-!
# Wordloom.Proofs.Parsing

Actions that succeed on given tokens: what they give, and which tokens and which program they leave.
Such facts are put together along the actions. Where the tokens stand is left out of them, since it
is only told by errors.
-/

namespace Wordloom

namespace Token

/-- The tokens without the blank ones in front. -/
def skip (ts : List Token) : List Token := ts.dropWhile (·.kind = .blank)

@[simp] theorem skip_blank {t : Token} {ts : List Token} (h : t.kind = .blank) :
    skip (t :: ts) = skip ts := List.dropWhile_cons_of_pos (by simpa using h)

@[simp] theorem skip_cons {t : Token} {ts : List Token} (h : t.kind ≠ .blank) :
    skip (t :: ts) = t :: ts := List.dropWhile_cons_of_neg (by simpa using h)

theorem skip_skip (ts : List Token) : skip (skip ts) = skip ts := List.dropWhile_idempotent _ _

theorem length_skip_le (ts : List Token) : (skip ts).length ≤ ts.length :=
  List.length_dropWhile_le _ _

theorem Reader.rest_skipBlanks (r : Reader) : r.skipBlanks.rest = skip r.rest := by
  have hdrop (last : Position) (ts : List Token) : (dropBlanks last ts).2 = skip ts := by
    induction ts generalizing last with
    | nil => rfl
    | cons t ts ih =>
      rw [dropBlanks]
      split
      · rename_i ht
        rw [ih, skip_blank ht]
      · rename_i ht
        rw [skip_cons ht]
  exact hdrop r.last r.rest

end Token

variable {wanted : String}

namespace Compile

open Token (skip)

variable {α β : Type} {ts us vs : List Token} {e e' e'' : Emitter} {a : α} {b : β} {t : Token}

/-- With the tokens `ts` and the program `e` in front of it, an action gives `a` and leaves the
tokens `us` and the program `e'`. -/
def Parses (x : Compiling α) (ts : List Token) (e : Emitter) (a : α) (us : List Token)
    (e' : Emitter) : Prop :=
  ∀ c : Compilation, c.reader.rest = ts → c.out = e →
    ∃ c', x c = .ok a c' ∧ c'.reader.rest = us ∧ c'.out = e'

namespace Parses

theorem pure : Parses (Pure.pure a) ts e a ts e := fun c hrest hout => ⟨c, rfl, hrest, hout⟩

/-- One action after the other reads the tokens in turn. -/
theorem bind {x : Compiling α} {f : α → Compiling β} (hx : Parses x ts e a us e')
    (hf : Parses (f a) us e' b vs e'') : Parses (x >>= f) ts e b vs e'' := by
  intro c hrest hout
  obtain ⟨c₁, hx, hrest₁, hout₁⟩ := hx c hrest hout
  obtain ⟨c₂, hf, hrest₂, hout₂⟩ := hf c₁ hrest₁ hout₁
  exact ⟨c₂, by rw [run_bind_of_ok hx, hf], hrest₂, hout₂⟩

/-- The place of the next token makes no difference. -/
theorem position {f : Position → Compiling β} (hf : ∀ p, Parses (f p) ts e b us e') :
    Parses (Compiling.position >>= f) ts e b us e' :=
  fun c hrest hout => hf c.reader.position c hrest hout

theorem tokensLeft : Parses Compiling.tokensLeft ts e ts.length ts e :=
  fun c hrest hout => ⟨c, by rw [← hrest]; rfl, hrest, hout⟩

theorem output (f : Emitter → Emitter) : Parses (Compiling.output f) ts e () ts (f e) :=
  fun c hrest hout => ⟨{ c with out := f c.out }, rfl, hrest, by rw [hout]⟩

theorem offset : Parses Compiling.offset ts e e.position ts e :=
  fun c hrest hout => ⟨c, by rw [← hout]; rfl, hrest, hout⟩

/-- The tokens that are left can be looked at. -/
theorem rest {f : List Token → Compiling α}
    (h : Parses (f ts) ts e a us e') : Parses (do f (← get).reader.rest) ts e a us e' := by
  intro c hrest hout
  subst hrest
  exact h c rfl hout

theorem read : Parses (Compiling.read wanted) (t :: ts) e t ts e :=
  fun c hrest hout => ⟨c.past t ts, Compiling.read_of_rest hrest, rfl, hout⟩

variable {kind : Token.Kind}

theorem expect (ht : t.kind = kind) : Parses (Compiling.expect kind wanted) (t :: ts) e t ts e :=
  fun c hrest hout => ⟨c.past t ts, Compiling.expect_of_rest hrest ht, rfl, hout⟩

theorem take (ht : t.kind = kind) : Parses (Compiling.take kind) (t :: ts) e true ts e :=
  fun c hrest hout => ⟨c.past t ts, Compiling.take_of_rest hrest ht, rfl, hout⟩

theorem take_of_ne (ht : t.kind ≠ kind) :
    Parses (Compiling.take kind) (t :: ts) e false (t :: ts) e :=
  fun c hrest hout => ⟨c, Compiling.take_of_ne hrest ht, hrest, hout⟩

/-- A loose action does what a strict one does behind the blanks. -/
theorem loose {action : Token.Reading α} (h : Parses (Compiling.reading action) (skip ts) e a us e') :
    Parses (Compiling.reading fun r => action r.skipBlanks) ts e a us e' := by
  rintro c rfl rfl
  exact h { c with reader := c.reader.skipBlanks } c.reader.rest_skipBlanks rfl

theorem readLoose (h : skip ts = t :: us) :
    Parses (Compiling.readLoose wanted) ts e t us e := loose (h ▸ read)

theorem expectLoose (h : skip ts = t :: us) (ht : t.kind = kind) :
    Parses (Compiling.expectLoose kind wanted) ts e t us e :=
  loose (h ▸ expect ht)

theorem takeLoose (h : skip ts = t :: us) (ht : t.kind = kind) :
    Parses (Compiling.takeLoose kind) ts e true us e := loose (h ▸ take ht)

theorem takeLoose_of_ne (h : skip ts = t :: us) (ht : t.kind ≠ kind) :
    Parses (Compiling.takeLoose kind) ts e false (t :: us) e := loose (h ▸ take_of_ne ht)

theorem expectText (ht : t.kind = .text) :
    Parses (Compiling.expectLoose .text wanted) (t :: ts) e t ts e :=
  expectLoose (Token.skip_cons (by rw [ht]; decide)) ht

theorem peekKindLoose (h : skip ts = t :: us) :
    Parses Compiling.peekKindLoose ts e (some t.kind) (t :: us) e := by
  have hpeek : Parses (Compiling.reading fun r => .ok r.peek r) (skip ts) e (some t) (t :: us) e := by
    rw [h]
    intro c hrest hout
    exact ⟨c, by simp [Compiling.reading, Token.Reader.peek, hrest], hrest, hout⟩
  exact (loose hpeek).bind pure

end Parses

end Compile

end Wordloom
