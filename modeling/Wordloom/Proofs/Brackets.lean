import Wordloom.Proofs.Completes

/-!
# Wordloom.Proofs.Brackets

Brackets. Which of them are open behind some tokens is found by matching them one by one; where they
match, the square ones alone can be counted. A reader goes on over tokens, and so over brackets.
-/

namespace Wordloom.Token

/-! ## Matching -/

/-- The brackets that have to be closed. -/
inductive Bracket where
  | square
  | curly
  | angle
deriving DecidableEq

/-- Which brackets are open behind a token, the innermost first, if `opened` are so before it. Only
the innermost can be closed, and no token may be broken. -/
def Kind.openAfter : Kind → List Bracket → Option (List Bracket)
  | .leftSquare, opened => some (.square :: opened)
  | .leftCurly, opened => some (.curly :: opened)
  | .leftAngle, opened => some (.angle :: opened)
  | .rightSquare, .square :: opened => some opened
  | .rightCurly, .curly :: opened => some opened
  | .rightAngle, .angle :: opened => some opened
  | .rightSquare, _ => none
  | .rightCurly, _ => none
  | .rightAngle, _ => none
  | .broken, _ => none
  | _, opened => some opened

/-- The same for tokens that follow one another. -/
def openAfter (opened : List Bracket) (ts : List Token) : Option (List Bracket) :=
  ts.foldlM (fun opened t => t.kind.openAfter opened) opened

theorem openAfter_append (opened : List Bracket) (ts us : List Token) :
    openAfter opened (ts ++ us) = (openAfter opened ts).bind (openAfter · us) := List.foldlM_append

theorem openAfter_cons (opened : List Bracket) (t : Token) (ts : List Token) :
    openAfter opened (t :: ts) = (t.kind.openAfter opened).bind (openAfter · ts) := rfl

variable {o o' : List Bracket}

/-- Brackets further out make no difference. -/
theorem Kind.openAfter_under {kind : Kind} (h : kind.openAfter o = some o') (outer : List Bracket) :
    kind.openAfter (o ++ outer) = some (o' ++ outer) := by
  revert h
  fun_cases Kind.openAfter kind o <;> rintro ⟨⟩ <;> simp_all [Kind.openAfter]

/-- Brackets further out are left alone. -/
theorem openAfter_under {ts : List Token} (h : openAfter o ts = some o') (outer : List Bracket) :
    openAfter (o ++ outer) ts = some (o' ++ outer) := by
  induction ts generalizing o with
  | nil =>
    cases h
    rfl
  | cons t ts ih =>
    obtain ⟨o₁, ht, hts⟩ := Option.bind_eq_some_iff.1 h
    rw [openAfter_cons, Kind.openAfter_under ht]
    exact ih hts

theorem Kind.openAfter_of_isPlain {kind : Kind} (h : kind = .literal ∨ kind.isPlain = true)
    (opened : List Bracket) : kind.openAfter opened = some opened := by
  cases kind <;> simp_all [Kind.isPlain, Kind.openAfter]

/-! ## Counting -/

/-- How many square brackets are open behind a token, if `n` are before it. None may be closed that is
not open, and no token may be broken. -/
def Kind.nest : Kind → Nat → Option Nat
  | .leftSquare, n => some (n + 1)
  | .rightSquare, n + 1 => some n
  | .rightSquare, 0 => none
  | .broken, _ => none
  | _, n => some n

/-- The same for tokens that follow one another. -/
def nest (n : Nat) (ts : List Token) : Option Nat := ts.foldlM (fun n t => t.kind.nest n) n

theorem nest_append (n : Nat) (ts us : List Token) :
    nest n (ts ++ us) = (nest n ts).bind (nest · us) := List.foldlM_append

theorem nest_cons (n : Nat) (t : Token) (ts : List Token) :
    nest n (t :: ts) = (t.kind.nest n).bind (nest · ts) := rfl

/-- The depth in tags is the number of open square brackets. -/
theorem Kind.nest_of_openAfter {kind : Kind} (h : kind.openAfter o = some o') :
    kind.nest (o.count .square) = some (o'.count .square) := by
  revert h
  fun_cases Kind.openAfter kind o <;> rintro ⟨⟩ <;> simp_all [Kind.nest]

/-- Where brackets match, the square ones alone can be counted. -/
theorem nest_of_openAfter {ts : List Token} (h : openAfter o ts = some o') :
    nest (o.count .square) ts = some (o'.count .square) := by
  induction ts generalizing o with
  | nil =>
    cases h
    rfl
  | cons t ts ih =>
    obtain ⟨o₁, ht, hts⟩ := Option.bind_eq_some_iff.1 h
    rw [nest_cons, Kind.nest_of_openAfter ht]
    exact ih hts

/-! ## Readers -/

namespace Reader

variable {r r' r'' : Reader} {s s' s'' : Option (List Bracket)} {o o' : List Bracket} {t : Token}

/-- A reader has gone on over tokens behind which `s'` are open, if `s` are before them. Where brackets
have not matched, they do not match later on. -/
def Reads (s s' : Option (List Bracket)) (r r' : Reader) : Prop :=
  ∃ ts, r.rest = ts ++ r'.rest ∧ s.bind (openAfter · ts) = s'

theorem Reads.refl (s : Option (List Bracket)) (r : Reader) : r.Reads s s r := by
  refine ⟨[], rfl, ?_⟩
  cases s <;> rfl

theorem Reads.trans (h : r.Reads s s' r') (h' : r'.Reads s' s'' r'') : r.Reads s s'' r'' := by
  obtain ⟨ts, hrest, rfl⟩ := h
  obtain ⟨us, hrest', rfl⟩ := h'
  refine ⟨ts ++ us, by rw [hrest, hrest', List.append_assoc], ?_⟩
  cases s with
  | none => rfl
  | some o => exact openAfter_append o ts us

theorem Reads.under (h : r.Reads (some o) (some o') r') (outer : List Bracket) :
    r.Reads (some (o ++ outer)) (some (o' ++ outer)) r' := by
  obtain ⟨ts, hrest, hopen⟩ := h
  exact ⟨ts, hrest, openAfter_under hopen outer⟩

theorem Reads.token (h : r.rest = t :: r'.rest) (o : List Bracket) :
    r.Reads (some o) (t.kind.openAfter o) r' := by
  refine ⟨[t], h, ?_⟩
  change (t.kind.openAfter o).bind some = _
  exact Option.bind_fun_some _

/-- Blanks open and close nothing. -/
theorem reads_skipBlanks (o : List Bracket) (r : Reader) : r.Reads (some o) (some o) r.skipBlanks := by
  have hblanks (last : Position) (ts : List Token) :
      ∃ us, ts = us ++ (dropBlanks last ts).2 ∧ openAfter o us = some o := by
    induction ts generalizing last with
    | nil => exact ⟨[], rfl, rfl⟩
    | cons t ts ih =>
      rw [dropBlanks]
      split
      · rename_i hblank
        obtain ⟨us, hus, hopen⟩ := ih t.position
        refine ⟨t :: us, congrArg (t :: ·) hus, ?_⟩
        rw [openAfter_cons, hblank]
        exact hopen
      · exact ⟨[], rfl, rfl⟩
  exact hblanks r.last r.rest

/-- Constant text has no brackets and ends at one of the stops. -/
theorem reads_plainUntil {stops : List Kind} {ts rest : List Token} {last last' : Position}
    {text : String} (h : plainUntil stops last ts = some (text, last', rest)) (o : List Bracket) :
    (∃ us, ts = us ++ rest ∧ openAfter o us = some o) ∧
      ∃ t more, rest = t :: more ∧ stops.contains t.kind := by
  induction ts generalizing last text with
  | nil => cases h
  | cons t ts ih =>
    rw [plainUntil] at h
    split at h
    · rename_i hstop
      cases h
      exact ⟨⟨[], rfl, rfl⟩, t, ts, rfl, hstop⟩
    · split at h
      · rename_i hplain
        obtain ⟨⟨text', last'', rest'⟩, htail, ⟨⟩⟩ := Option.map_eq_some_iff.1 h
        obtain ⟨⟨us, hus, hopen⟩, hstop⟩ := ih htail
        refine ⟨⟨t :: us, congrArg (t :: ·) hus, ?_⟩, hstop⟩
        rw [openAfter_cons, Kind.openAfter_of_isPlain (by simpa using hplain)]
        exact hopen
      · cases h

end Reader

end Wordloom.Token
