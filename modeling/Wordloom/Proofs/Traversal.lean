import Wordloom.Proofs.Brackets
import Wordloom.Proofs.Emissions

/-!
# Wordloom.Proofs.Traversal

What constructs read, and where they fail. `Walks` says of an action that all of this stays within the
source: the tokens it leaves to be read, what it fails with and what it gives. It counts the tokens
that are left too: each loop inside a construct reads one each time round, so the bound on how often it
goes round is never what stops it. And it matches brackets. What a construct reads closes the brackets
that it opens, and beside them the one that it stands in, if it is a tag, a block or a query; so where a
construct ends can be found by matching brackets alone, whatever stands inside.
-/

namespace Wordloom.Compile

open Token (Reader Bracket)

variable {α β : Type} {ctx : Context} {c c' : Compilation} {P : Position → Prop} {A B : Reader → Prop}
  {s s' : Option (List Bracket)} {o : List Bracket} {m k : Nat} {d e : Bool}

/-! ## Actions -/

/-- Where an action that gives `a` has led from the reader `r`: to places of which `P` holds, over `d`
tokens at least. If `A` holds at the start, then `s` are the open brackets there and `finish a` those
at the end, where `Q a` holds. -/
structure Arrives (P : Position → Prop) (A : Reader → Prop) (s : Option (List Bracket)) (d : Nat)
    (finish : α → Option (List Bracket)) (V : α → Prop) (Q : α → Reader → Prop) (r : Reader) (a : α)
    (r' : Reader) : Prop where
  within : r'.Within P
  passes : r.Passes d r'
  value : V a
  reads : A r → Q a r' ∧ (finish a).isSome ∧ r.Reads s (finish a) r'

/-- The same from further ahead. -/
theorem Arrives.behind {finish : β → Option (List Bracket)} {V : β → Prop} {Q : β → Reader → Prop}
    {r r₁ r₂ : Reader} {b : β} {d j e : Nat} (h : Arrives P B s' e finish V Q r₁ b r₂)
    (hpasses : r.Passes j r₁) (hd : d ≤ j + e) (hreads : A r → B r₁ ∧ r.Reads s s' r₁) :
    Arrives P A s d finish V Q r b r₂ := by
  obtain ⟨hwithin, hpasses', hb, hreads'⟩ := h
  unfold Reader.Passes at hpasses hpasses'
  refine ⟨hwithin, by unfold Reader.Passes; omega, hb, fun hA => ?_⟩
  obtain ⟨hB, hfirst⟩ := hreads hA
  obtain ⟨hQ, hsome, hrest⟩ := hreads' hB
  exact ⟨hQ, hsome, hfirst.trans hrest⟩

/-- An action leads there wherever fewer than `m` tokens are left, at places of which `P` holds; if it
fails, then at such a place. It reads a token if `d` says so. Where brackets did not match before, it
fails. -/
def Walks (P : Position → Prop) (A : Reader → Prop) (s : Option (List Bracket)) (m : Nat) (d : Bool)
    (finish : α → Option (List Bracket)) (V : α → Prop) (Q : α → Reader → Prop) (x : Compiling α) : Prop :=
  ∀ c, c.reader.Within P → c.reader.rest.length < m →
    Ensures (Error.Within P) x c fun a c' => Arrives P A s d.toNat finish V Q c.reader a c'.reader

/-- An action between which and its end the open brackets change from `o` to `o'`. -/
abbrev Closes (P : Position → Prop) (o o' : List Bracket) (m : Nat) (x : Compiling α) : Prop :=
  Walks P anything (some o) m false (fun _ => some o') anything (fun _ => anything) x

/-- An action that reads nothing. -/
def Still (P : Position → Prop) (V : α → Prop) (x : Compiling α) : Prop :=
  ∀ c, Ensures (Error.Within P) x c fun a c' => V a ∧ c'.reader = c.reader

namespace Still

theorem output {g : Emitter → Emitter} : Still P anything (Compiling.output g) := fun _ => .ok rfl ⟨trivial, rfl⟩

theorem emitAt {i : Instr} : Still P anything (Compiling.emitAt i) := fun _ => .ok rfl ⟨trivial, rfl⟩

theorem offset : Still P anything Compiling.offset := fun _ => .ok rfl ⟨trivial, rfl⟩

/-- What only emits reads nothing. -/
theorem emits {place : Position} {V : α → Prop} {x : Compiling α} {n : Nat} (h : Emits place V x n)
    (hplace : P place) : Still P V x := fun c =>
  (h c).mono (fun _ he => he.within hplace) fun _ _ ⟨ha, _, hc', _⟩ => ⟨ha, by rw [hc']⟩

end Still

/-- The next token is of a kind of which `K` holds. -/
def Next (K : Token.Kind → Prop) (r : Reader) : Prop := ∃ t ts, r.rest = t :: ts ∧ K t.kind

namespace Walks

variable {x y : Compiling α} {f : α → Compiling β} {U : α → Prop} {kind : Token.Kind} {wanted : String}
  {finish : β → Option (List Bracket)} {V : β → Prop} {Q : β → Reader → Prop} {place : Position}
  {cause : Cause}

theorem zero {x : Compiling β} : Walks P A s 0 d finish V Q x := fun _ _ h => absurd h (Nat.not_lt_zero _)

/-- It is enough to know the brackets where `B` holds. -/
theorem when {x : Compiling β} (h : Walks P A s m d finish V Q x) (hB : ∀ r, B r → A r ∧ s' = s) :
    Walks P B s' m d finish V Q x := fun c hc hm =>
  (h c hc hm).imp fun _ _ h => h.behind (.refl _) (by omega) fun hr => by
    obtain ⟨hA, rfl⟩ := hB _ hr
    exact ⟨hA, .refl _ _⟩

theorem fewer {x : Compiling β} (h : Walks P A s m d finish V Q x) (hk : k ≤ m) :
    Walks P A s k d finish V Q x := fun c hc hm => h c hc (Nat.lt_of_lt_of_le hm hk)

theorem «at» {x : Compiling β} (h : Walks P anything s m d finish V Q x) : Walks P A s m d finish V Q x :=
  h.when fun _ _ => ⟨trivial, rfl⟩

theorem imp {x : Compiling β} {W : β → Prop} {R : β → Reader → Prop} (h : Walks P A s m d finish V Q x)
    (hV : ∀ b, V b → W b) (hQ : ∀ b r, Q b r → R b r) : Walks P A s m false finish W R x := fun c hc hm =>
  (h c hc hm).imp fun _ _ ⟨hwithin, hpasses, hb, hreads⟩ =>
    ⟨hwithin, Nat.le_trans (Nat.le_add_right _ d.toNat) hpasses, hV _ hb, fun hA => (hreads hA).imp_left (hQ _ _)⟩

theorem gives {b : β} (hb : V b) (h : ∀ r, A r → s = finish b ∧ s.isSome ∧ Q b r) :
    Walks P A s m false finish V Q (Pure.pure b) := fun c hc _ =>
  .pure ⟨hc, .refl _, hb, fun hA => by
    obtain ⟨rfl, hsome, hQ⟩ := h _ hA
    exact ⟨hQ, hsome, .refl _ _⟩⟩

theorem pure {b : β} : Walks P A (some o) m false (fun _ => some o) anything (fun _ => anything) (Pure.pure b) :=
  gives trivial fun _ _ => ⟨rfl, rfl, trivial⟩

theorem fail (h : Error.Within P ⟨place, cause⟩) :
    Walks P A s m d finish V Q (Compiling.fail place cause) := fun _ _ _ => .fail h

theorem refuse (h : P place) (hcause : cause.isFault = false) :
    Walks P A s m d finish V Q (Compiling.fail place cause) := fail ⟨h, definite_of_isFault hcause⟩

theorem refuse_bind (h : P place) (hcause : cause.isFault = false) :
    Walks P A s m d finish V Q (Compiling.fail place cause >>= f) := fun _ _ _ =>
  .bind (.fail ⟨h, definite_of_isFault hcause⟩)

theorem ite {p : Prop} [Decidable p] {x y : Compiling β} (hx : p → Walks P A s m d finish V Q x)
    (hy : ¬ p → Walks P A s m d finish V Q y) : Walks P A s m d finish V Q (if p then x else y) := by
  split
  · exact hx ‹p›
  · exact hy ‹¬ p›

/-- What comes behind a reader that has gone on. -/
theorem after {x : Compiling β} {r : Reader} {j n : Nat} (h : Walks P B s' k e finish V Q x)
    (hc : c.reader.Within P) (hpasses : r.Passes j c.reader) (hk : c.reader.rest.length < k)
    (hn : n ≤ j + e.toNat) (hreads : A r → B c.reader ∧ r.Reads s s' c.reader) :
    Ensures (Error.Within P) x c fun b c' => Arrives P A s n finish V Q r b c'.reader :=
  (h c hc hk).imp fun _ _ h => h.behind hpasses hn hreads

/-- One action after the other: the brackets behind the first are those before the second. -/
theorem bind {middle : α → Option (List Bracket)} {R : α → Reader → Prop}
    (hx : Walks P A s m d middle U R x)
    (hf : ∀ a, U a → Walks P (R a) (middle a) (m - d.toNat) false finish V Q (f a)) :
    Walks P A s m d finish V Q (x >>= f) := fun c hc hm =>
  .bind ((hx c hc hm).imp fun a c₁ ⟨hwithin, hpasses, ha, hreads⟩ =>
    have hlength : c₁.reader.rest.length < m - d.toNat := by
      unfold Reader.Passes at hpasses
      omega
    (hf a ha).after hwithin hpasses hlength (Nat.le_refl _) fun hA => ⟨(hreads hA).1, (hreads hA).2.2⟩)

theorem still (hx : Still P U x) (hf : ∀ a, U a → Walks P A s m d finish V Q (f a)) :
    Walks P A s m d finish V Q (x >>= f) := fun c hc hm =>
  .bind ((hx c).imp fun a c' ⟨ha, hreader⟩ => by
    have hnext := hf a ha c'
    rw [hreader] at hnext
    exact hnext hc hm)

theorem closed (hx : Still P U x) : Closes P o o m x := fun c hc _ =>
  (hx c).imp fun _ c' ⟨_, hreader⟩ => by
    rw [hreader]
    exact ⟨hc, .refl _, trivial, fun _ => ⟨trivial, rfl, .refl _ _⟩⟩

/-- The machine is looked at. -/
theorem get {f : Compilation → Compiling β}
    (hf : ∀ c, c.reader.Within P → Walks P (fun r => A r ∧ r = c.reader) s m d finish V Q (f c)) :
    Walks P A s m d finish V Q (get >>= f) := fun c hc hm =>
  .bind (.get ((hf c hc c hc hm).imp fun _ _ ⟨hwithin, hpasses, hb, hreads⟩ =>
    ⟨hwithin, hpasses, hb, fun hA => hreads ⟨hA, rfl⟩⟩))

theorem position {f : Position → Compiling β} (hf : ∀ place, P place → Walks P A s m d finish V Q (f place)) :
    Walks P A s m d finish V Q (Compiling.position >>= f) := fun c hc hm =>
  (hf _ hc.position c hc hm).congr rfl

/-- What goes on with the tokens that are left. -/
theorem tokens {f : List Token → Compiling β}
    (hf : ∀ ts, ts.length < m → Walks P A s (ts.length + 1) d finish V Q (f ts)) :
    Walks P A s m d finish V Q (Compiling.tokens >>= f) := fun c hc hm =>
  (hf _ hm c hc (Nat.lt_succ_self _)).congr rfl

/-- What goes on with their number. -/
theorem tokensLeft {f : Nat → Compiling β} (hf : ∀ n < m, Walks P A s (n + 1) d finish V Q (f n)) :
    Walks P A s m d finish V Q (Compiling.tokensLeft >>= f) := fun c hc hm =>
  (hf _ hm c hc (Nat.lt_succ_self _)).congr rfl

/-! ### Reading -/

/-- The token that is read next. -/
theorem read {f : Token → Compiling β} (hf : ∀ t, P t.position →
      Walks P (fun r => ∃ r₀, A r₀ ∧ r₀.rest = t :: r.rest) (t.kind.openAfter o) (m - 1) false finish V Q (f t)) :
    Walks P A (some o) m d finish V Q (Compiling.read wanted >>= f) :=
  fun c hc hm => by
    refine .bind (.reading (fun t r hread => ?_) fun e r herror => ?_)
    · have hpasses := Token.Reading.passes_read hread
      unfold Token.Reading.read at hread
      split at hread
      · cases hread
      · rename_i ts hrest
        cases hread
        refine (hf t (hc.rest t (hrest ▸ List.mem_cons_self))).after
          (hc.suffix (hrest ▸ List.suffix_cons t ts) rfl) hpasses ?_ d.toNat_le
          fun hA => ⟨⟨c.reader, hA, hrest⟩, .token hrest o⟩
        rw [hrest, List.length_cons] at hm
        dsimp only
        omega
    · unfold Token.Reading.read at herror
      split at herror
      · cases herror
        exact ⟨hc.finish, definite_of_isFault rfl⟩
      · cases herror

/-- The same where its kind is known. -/
theorem readAs {f : Token → Compiling β}
    (hf : ∀ t, P t.position → Walks P anything (kind.openAfter o) (m - 1) false finish V Q (f t)) :
    Walks P (Next (· = kind)) (some o) m d finish V Q (Compiling.read wanted >>= f) :=
  .read fun t ht => (hf t ht).when fun r ⟨r₀, ⟨t', ts, hrest, hkind⟩, hr₀⟩ => by
    rw [hrest] at hr₀
    cases hr₀
    exact ⟨trivial, by rw [hkind]⟩

/-- What is expected is read, and it is an error if it is not of that kind. -/
theorem expect_bind (f : Token → Compiling β) : (Compiling.expect kind wanted >>= f) =
    (Compiling.read wanted >>= fun t =>
      if t.kind = kind then f t else Compiling.fail t.position (.expected wanted t.text)) := by
  funext c
  have hread := run_bind (Compiling.read wanted) (fun t =>
    if t.kind = kind then f t else Compiling.fail t.position (.expected wanted t.text)) c
  rw [hread, run_bind]
  unfold Compiling.expect Compiling.read Compiling.reading Token.Reading.expect
  rw [run_bind]
  cases Token.Reading.read wanted c.reader with
  | error e r => rfl
  | ok t r =>
    by_cases hkind : t.kind = kind
    · simp only [if_pos hkind]
      rfl
    · simp only [if_neg hkind]
      rfl

theorem expect {f : Token → Compiling β}
    (hf : ∀ t, P t.position → Walks P anything (kind.openAfter o) (m - 1) false finish V Q (f t)) :
    Walks P A (some o) m d finish V Q (Compiling.expect kind wanted >>= f) := by
  rw [expect_bind]
  refine .read fun t ht => .ite (fun hkind => ?_) fun _ => .refuse ht rfl
  exact (hf t ht).when fun _ _ => ⟨trivial, by rw [hkind]⟩

theorem ofLoose {action : Token.Reading α}
    (h : Walks P anything (some o) m d finish V Q (Compiling.reading action >>= f)) :
    Walks P A (some o) m d finish V Q (Compiling.reading (fun r => action r.skipBlanks) >>= f) :=
  fun c hc hm => by
    have hensures := h.after (c := { c with reader := c.reader.skipBlanks }) (j := 0) (n := d.toNat) (A := A)
      hc.skipBlanks c.reader.passes_skipBlanks (Nat.lt_of_le_of_lt c.reader.passes_skipBlanks hm) (by omega)
      fun _ => ⟨trivial, c.reader.reads_skipBlanks o⟩
    exact hensures.congr rfl

theorem readLoose {f : Token → Compiling β}
    (hf : ∀ t, P t.position → Walks P anything (t.kind.openAfter o) (m - 1) false finish V Q (f t)) :
    Walks P A (some o) m d finish V Q (Compiling.readLoose wanted >>= f) :=
  ofLoose (read fun t ht => (hf t ht).at)

theorem expectLoose {f : Token → Compiling β}
    (hf : ∀ t, P t.position → Walks P anything (kind.openAfter o) (m - 1) false finish V Q (f t)) :
    Walks P A (some o) m d finish V Q (Compiling.expectLoose kind wanted >>= f) := ofLoose (expect hf)

/-- Where a token is passed over, it is the last one read. -/
theorem takeLast {f : Bool → Compiling β}
    (htrue : ∀ c, P c.reader.last → c.reader.Within P → c.reader.rest.length < m - 1 →
      Ensures (Error.Within P) (f true) c fun b c' =>
        Arrives P anything (kind.openAfter o) 0 finish V Q c.reader b c'.reader)
    (hfalse : Walks P A (some o) m false finish V Q (f false)) :
    Walks P A (some o) m false finish V Q (Compiling.take kind >>= f) := fun c hc hm => by
  have hrun : (Compiling.take kind >>= f) c =
      f (c.reader.take kind).1 { c with reader := (c.reader.take kind).2 } := rfl
  refine .congr ?_ hrun
  unfold Reader.take
  split
  · exact hfalse c hc hm
  · rename_i t ts hrest
    split
    · rename_i hkind
      rw [hrest] at hm
      have hpasses : c.reader.Passes 0 { c.reader with rest := ts, last := t.position } := by
        rw [Reader.Passes, hrest]
        exact Nat.le_succ _
      have hensures := htrue { c with reader := { c.reader with rest := ts, last := t.position } }
        (hc.rest t (hrest ▸ List.mem_cons_self)) (hc.suffix (hrest ▸ List.suffix_cons t ts) rfl)
        (Nat.lt_sub_of_add_lt hm)
      refine hensures.imp fun _ _ h => h.behind hpasses (Nat.le_refl 0) fun _ => ⟨trivial, ?_⟩
      exact hkind ▸ .token hrest o
    · exact hfalse c hc hm

theorem take {f : Bool → Compiling β}
    (htrue : Walks P anything (kind.openAfter o) (m - 1) false finish V Q (f true))
    (hfalse : Walks P A (some o) m false finish V Q (f false)) :
    Walks P A (some o) m false finish V Q (Compiling.take kind >>= f) := takeLast (fun c _ => htrue c) hfalse

theorem takeLoose {f : Bool → Compiling β}
    (htrue : Walks P anything (kind.openAfter o) (m - 1) false finish V Q (f true))
    (hfalse : Walks P anything (some o) m false finish V Q (f false)) :
    Walks P A (some o) m false finish V Q (Compiling.takeLoose kind >>= f) := ofLoose (take htrue hfalse)

theorem peekLoose {f : Option Token → Compiling β}
    (hf : ∀ found, Walks P (·.peek = found) (some o) m d finish V Q (f found)) :
    Walks P A (some o) m d finish V Q (Compiling.peekLoose >>= f) := fun c hc hm => by
  have hensures := (hf c.reader.skipBlanks.peek).after (c := { c with reader := c.reader.skipBlanks }) (j := 0)
    (n := d.toNat) (A := A) hc.skipBlanks c.reader.passes_skipBlanks
    (Nat.lt_of_le_of_lt c.reader.passes_skipBlanks hm) (by omega) fun _ => ⟨rfl, c.reader.reads_skipBlanks o⟩
  exact hensures.congr rfl

theorem peekKindLoose {f : Option Token.Kind → Compiling β}
    (hnone : Walks P anything (some o) m d finish V Q (f none))
    (hsome : ∀ kind, Walks P (Next (· = kind)) (some o) m d finish V Q (f (some kind))) :
    Walks P A (some o) m d finish V Q (Compiling.peekKindLoose >>= f) := by
  have hpeek : Walks P A (some o) m d finish V Q
      (Compiling.peekLoose >>= fun found => f (found.map (·.kind))) := by
    refine .peekLoose fun found => ?_
    cases found with
    | none => exact hnone.at
    | some t =>
      refine (hsome t.kind).when fun r hr => ?_
      obtain ⟨ts, hrest⟩ := List.head?_eq_some_iff.1 hr
      exact ⟨⟨t, ts, hrest, rfl⟩, rfl⟩
  exact fun c hc hm => (hpeek c hc hm).congr rfl

/-- A constant, behind which there is one of the tokens that may end it. -/
theorem constantUntil {stops : List Token.Kind} {f : Option String → Compiling β}
    (hsome : ∀ text, Walks P (Next (stops.contains ·)) (some o) m d finish V Q (f (some text)))
    (hnone : Walks P A (some o) m d finish V Q (f none)) :
    Walks P A (some o) m d finish V Q (Compiling.constantUntil stops >>= f) := fun c hc hm => by
  refine .bind (.reading (fun text r hread => ?_) fun e r herror => ?_)
  · have hpasses := Token.Reading.passes_constantUntil hread
    unfold Token.Reading.constantUntil at hread
    split at hread
    · rename_i hplain
      cases hread
      obtain ⟨hreads, hstop⟩ := Reader.reads_plainUntil hplain o
      exact (hsome _).after (hc.suffix (Reader.plainUntil_suffix hplain) rfl) hpasses
        (Nat.lt_of_le_of_lt hpasses hm) (by omega) fun _ => ⟨hstop, hreads⟩
    · cases hread
      exact hnone c hc hm
  · unfold Token.Reading.constantUntil at herror
    split at herror <;> cases herror

end Walks

/-! ## Queries -/

namespace Query

theorem closes_regex : Closes P o o m regex := by
  refine .expectLoose fun token htoken => ?_
  split
  · exact .fail ⟨htoken, definite_of_head (c := 'm') (by simp [toString]) (by decide)⟩
  · refine .closed (U := anything) fun c => .bind (.get ?_)
    split
    · exact .bind (.set (.pure ⟨trivial, rfl⟩))
    · exact .fail ⟨htoken, definite_of_isFault rfl⟩

/-- The place of the last token is asked for only behind an exclamation mark. -/
theorem closes_classRules (exclusive : Bool) (fuel : Nat) :
    Closes P o o fuel (classRules exclusive fuel) := by
  induction fuel with
  | zero => exact .zero
  | succ fuel ih =>
    have hrest (negative : Bool) : Closes P o o (fuel + 1) (do
        let name ← Compiling.expectLoose .text "class name"
        let rule : ClassRule := ⟨name.text, !negative⟩
        if ← Compiling.takeLoose .pipe then return rule :: (← classRules exclusive fuel)
        else return [rule]) :=
      .expectLoose fun _ _ => .takeLoose (.bind (ih.fewer (Nat.sub_le _ 1)) fun _ _ => .pure) .pure
    refine .takeLast (fun c hlast hc hm => ?_) (.ite (fun h => ?_) fun _ => hrest false)
    · split
      · exact .error rfl ⟨hlast, definite_of_isFault rfl⟩
      · exact hrest true c hc (Nat.lt_succ_of_lt hm)
    · simp at h

theorem closes_syllableParts (fuel : Nat) : Closes P o o fuel (syllableParts fuel) := by
  induction fuel with
  | zero => exact .zero
  | succ fuel ih =>
    refine .readLoose fun token htoken => ?_
    split
    · rename_i hkind
      rw [hkind]
      exact .pure
    · rename_i hkind
      rw [hkind]
      exact .bind ih fun _ _ => .pure
    · rename_i hkind
      rw [hkind]
      exact .bind ih fun _ _ => .pure
    · exact .refuse htoken rfl

theorem closes_syllables {start : Position} (h : P start) : Closes P o o m (syllables start) := by
  refine .tokensLeft fun n _ => .bind (closes_syllableParts (n + 1)) fun parts _ => ?_
  split
  · exact .pure
  · exact .refuse h rfl

theorem closes_association : Closes P o o m association := by
  have hequal {m : Nat} (kind : CarrierKind) : Closes P o o m (do
      if ← Compiling.takeLoose .equal then return kind.matching else return kind) :=
    .takeLoose .pure .pure
  refine .peekKindLoose (hequal _) fun kind => ?_
  cases kind
  case exclamation | plus | question => exact .readAs fun _ _ => hequal _
  all_goals exact (hequal _).at

theorem closes_carrierKind? : Closes P o o m carrierKind? := by
  refine .position fun place hplace => .peekKindLoose (.refuse hplace rfl) fun kind => ?_
  cases kind
  case rightAngle | dot | hyphen | leftParen | question | without => exact .pure
  case equal | ampersand => exact .readAs fun _ _ => .pure
  case «at» => exact .readAs fun _ _ => .bind closes_association fun _ _ => .pure
  case exclamation => exact .readAs fun _ _ => .take .pure .pure
  all_goals exact .readAs fun _ htoken => .refuse htoken rfl

theorem closes_carriers (before : List Carrier) (fuel : Nat) :
    Closes P o o fuel (carriers before fuel) := by
  induction fuel generalizing before with
  | zero => exact .zero
  | succ fuel ih =>
    refine .position fun place hplace => .bind closes_carrierKind? fun kind _ => ?_
    split
    · exact .ite (fun _ => .refuse hplace rfl) fun _ => .pure
    · exact .expectLoose fun id _ => ih _

/-- A query ends with its own bracket. -/
theorem closes_filters (q : Query) (fuel : Nat) : Closes P (.angle :: o) o fuel (filters q fuel) := by
  induction fuel generalizing q with
  | zero => exact .zero
  | succ fuel ih =>
    refine .readLoose fun token htoken => ?_
    split
    all_goals (try rename_i hkind; rw [hkind])
    · exact .pure
    · exact .expectLoose fun _ _ => (ih _).fewer (Nat.pred_le _)
    · exact .tokensLeft fun n hn => .bind (closes_classRules _ _) fun _ _ => (ih _).fewer hn
    · exact .bind (closes_syllables htoken) fun _ _ => ih _
    · exact .bind closes_regex fun _ _ => ih _
    · exact .bind closes_regex fun _ _ => ih _
    · exact .tokensLeft fun n hn => .bind (closes_carriers _ _) fun _ _ => (ih _).fewer hn
    · exact .refuse htoken rfl

theorem closes_table : Closes P o o m table := by
  have hname : Closes P o o m (do
      let name ← Compiling.expectLoose .text "table name"
      if isTableName name.text then return some name.text
      else Compiling.fail name.position (.invalidArgument "table name" name.text)) :=
    .expectLoose fun name hname => .ite (fun _ => .pure) fun _ => .refuse hname rfl
  exact .peekKindLoose hname fun kind => .ite (fun _ => .pure) fun _ => hname.at

/-- A query is read up to the bracket that closes it. -/
theorem closes_parse {start : Position} (h : P start) : Closes P (.angle :: o) o m (parse start) := by
  refine .bind closes_table fun table _ => .take ?_ ?_
  all_goals
    refine .tokensLeft fun n _ => .bind (closes_filters _ _) fun q _ => ?_
    exact .ite (fun _ => .refuse h rfl) fun _ => .pure

end Query

/-- A query ends with its bracket. -/
theorem closes_query {start : Position} (h : P start) : Closes P (.angle :: o) o m (query start) :=
  .bind (Query.closes_parse h) fun _ _ => .closed (U := anything) fun _ => .bind (.get (.set ⟨trivial, rfl⟩))

/-! ## Constructs -/

/-- The next token is one at which a pattern ends. -/
def Terminator.Stops (stop : Terminator) (r : Reader) : Prop :=
  match r.rest with
  | [] => stop = .root
  | t :: _ => stop.endsAt t.kind

theorem Terminator.stops_iff {stop : Terminator} {r : Reader} {t : Token} {ts : List Token}
    (h : r.rest = t :: ts) : stop.Stops r ↔ stop.endsAt t.kind := by
  rw [Stops, h]

namespace Construct

/-- The brackets that a construct finds open and has to close. -/
def level : Construct → List Bracket
  | .tag _ | .argument .. => [.square]
  | .block | .weight .. | .item _ => [.curly]
  | .query _ => [.angle]
  | .pattern _ | .escape _ => []

/-- Where a construct can be gone on with. -/
def Ready : Construct → Reader → Prop
  | .argument .., r => Terminator.argument.Stops r
  | .weight .., r => Terminator.weight.Stops r
  | .item _, r => Terminator.blockItem.Stops r
  | _, _ => True

/-- Where a construct ends. -/
def Leaves : Construct → Reader → Prop
  | .pattern stop, r => stop.Stops r
  | _, _ => True

/-- The places a construct has kept. -/
def At (P : Position → Prop) : Construct → Prop
  | .escape token => P token.position
  | .query start | .tag start => P start
  | .argument t _ => P t.start
  | .pattern _ | .block | .weight .. | .item _ => True

/-- What a construct is charged. A block is the only one that can open another without reading a
token. -/
def charge : Construct → Nat
  | .block => 3
  | _ => 1

end Construct

namespace Step

/-- The brackets that are open behind a step, which goes on with a construct inside another one only if
that can be gone on with where the inner one ends. -/
def level? : Step → Option (List Bracket)
  | .done => some []
  | .push (.pattern _) (.tag _) => some [.square]
  | .push (.pattern _) .block => some [.curly]
  | .push (.pattern _) (.query _) => some [.angle]
  | .push (.pattern _) (.escape _) => some []
  | .push (.argument ..) (.pattern .argument) => some [.square]
  | .push (.weight ..) (.pattern .weight) => some [.curly]
  | .push (.item _) (.pattern .blockItem) => some [.curly]
  | _ => none

/-- The places that the constructs a step leaves have kept. -/
def At (P : Position → Prop) : Step → Prop
  | .done => True
  | .push self child => self.At P ∧ child.At P

def charge : Step → Nat
  | .done => 0
  | .push self child => self.charge + child.charge

/-- A construct ends where it should if it is done, or else where it is gone on with. -/
def Ends (k : Construct) (r : Reader) : Step → Prop
  | .done => k.Leaves r
  | .push self _ => ∀ r, self.Leaves r → k.Leaves r

/-- A construct that may end anywhere ends well after every step. -/
theorem ends_of_leaves {k : Construct} (h : ∀ r, k.Leaves r) (step : Step) (r : Reader) : step.Ends k r := by
  cases step with
  | done => exact h r
  | push self child => exact fun r _ => h r

/-- A construct inside another one can be gone on with at once, and the one around it where that
ends. -/
theorem fits_of_level? {self child : Construct} (h : (Step.push self child).level? = some o) :
    o = child.level ++ self.level ∧ (∀ r, child.Ready r) ∧ ∀ r, child.Leaves r → self.Ready r := by
  unfold level? at h
  split at h <;> simp_all [Construct.level, Construct.Ready, Construct.Leaves]

end Step

/-- An action of a construct, which leaves constructs that are charged at most `n`. -/
abbrev Steps (P : Position → Prop) (A : Reader → Prop) (s : Option (List Bracket)) (m : Nat) (d : Bool)
    (n : Nat) (x : Compiling Step) : Prop :=
  Walks P A s m d Step.level? (fun step => step.At P ∧ step.charge ≤ n) (fun _ => anything) x

theorem Walks.done {n : Nat} : Steps P A (some []) m false n (Pure.pure .done) :=
  .gives ⟨trivial, Nat.zero_le n⟩ fun _ _ => ⟨rfl, rfl, trivial⟩

/-! ### Blocks -/

namespace Block

variable {b : OpenBlock}

theorem steps_beginItem {weight : Weight} : Steps P anything (some [.curly]) m false 2 (beginItem b weight) :=
  .still .offset fun _ _ => .gives ⟨⟨trivial, trivial⟩, Nat.le_refl 2⟩ fun _ _ => ⟨rfl, rfl, trivial⟩

/-- A weight is read or comes next as a pattern; the block stays open. -/
theorem steps_readWeight : Steps P anything (some [.curly]) m false 2 (readWeight b) := by
  refine .take (.position fun place hplace => .constantUntil (fun text => ?_) ?_) steps_beginItem
  · dsimp only
    split
    · exact .refuse hplace rfl
    · refine Walks.when (A := Next (· = .asterisk)) (.readAs fun _ _ => steps_beginItem) fun r hr => ?_
      simpa [Next] using hr
  · exact .still .emitAt fun _ _ => .gives ⟨⟨trivial, trivial⟩, Nat.le_refl 2⟩
      fun _ _ => ⟨rfl, rfl, trivial⟩

theorem steps_start : Steps P anything (some [.curly]) m false 2 start := fun c hc hm => by
  refine .bind (.get ?_)
  dsimp only
  exact .bind (.set (steps_readWeight _ hc hm))

theorem steps_afterWeight {offset : Nat} :
    Steps P Terminator.weight.Stops (some [.curly]) m true 2 (afterWeight b offset) := by
  refine .read fun t _ => .still .output fun _ _ => .still .output fun _ _ => steps_beginItem.when ?_
  rintro r ⟨r₀, hstops, hrest⟩
  have hkind : t.kind = .asterisk := by simpa [Terminator.endsAt] using (Terminator.stops_iff hrest).1 hstops
  exact ⟨trivial, by rw [hkind]; rfl⟩

/-- Behind an item, the block goes on or its bracket is closed. -/
theorem steps_afterItem : Steps P Terminator.blockItem.Stops (some [.curly]) m true 2 (afterItem b) := by
  refine .still .output fun _ _ => .read fun t _ => .ite (fun hkind => ?_) fun hkind => ?_
  · rw [hkind]
    exact .still .offset fun _ _ => .still .output fun _ _ => .done
  · refine steps_readWeight.when ?_
    rintro r ⟨r₀, hstops, hrest⟩
    have hpipe : t.kind = .pipe := by
      simpa [Terminator.endsAt, hkind] using (Terminator.stops_iff hrest).1 hstops
    exact ⟨trivial, by rw [hpipe]; rfl⟩

end Block

/-! ### Tags -/

namespace Tag

theorem closes_parameters (fuel : Nat) : Closes P o o fuel (parameters fuel) := by
  induction fuel with
  | zero => exact .zero
  | succ fuel ih =>
    exact .expectLoose fun _ _ => .takeLoose (.bind (ih.fewer (Nat.sub_le _ 1)) fun _ _ => .pure) .pure

theorem reader_addArguments (c : Compilation) (index : Nat) (names : List String) :
    (c.addArguments index names).reader = c.reader := by
  induction names generalizing c index with
  | nil => rfl
  | cons name names ih => exact ih _ _

/-- A definition ends with the bracket of its head. -/
theorem closes_define : Closes P (.square :: o) o m define := by
  have hrest {m : Nat} {name : Token} (hname : P name.position) (params : List String) :
      Closes P (.square :: o) o m (beginBody name params) := by
    unfold beginBody
    refine .expectLoose fun _ _ => .ite (fun _ => .refuse_bind hname rfl) fun _ => .still .emitAt fun _ _ => ?_
    exact .closed (U := anything) fun _ =>
      .bind (.get (.bind (.set (.pure ⟨trivial, reader_addArguments _ _ _⟩))))
  refine .expectLoose fun name hname => .takeLoose ?_ (hrest hname [])
  exact .tokensLeft fun _ _ => .bind (closes_parameters _) fun params _ => hrest hname params

/-- The name of a tag leaves its bracket open. -/
theorem walks_resolve {start : Position} (h : P start) : Walks P anything (some (.square :: o)) m true
    (fun _ => some (.square :: o)) anything (fun _ => anything) (resolve ctx start) := by
  refine .readLoose fun first hfirst => ?_
  split
  · rename_i hkind
    rw [hkind]
    refine .take closes_define (.expect fun name _ => .closed (U := anything) fun c => .bind (.get ?_))
    split
    · exact .pure ⟨trivial, rfl⟩
    · exact .fail ⟨h, definite_of_isFault rfl⟩
  · rename_i hkind
    rw [hkind]
    split
    · exact .pure
    · exact .pure
    · exact .refuse h rfl
  · exact .refuse hfirst rfl

end Tag

namespace OpenTag

variable {t : OpenTag}

theorem still_finish (t : OpenTag) (h : P t.start) : Still P anything (t.finish ctx) := fun c => by
  unfold finish
  split
  · exact .bind (.fail ⟨h, definite_of_isFault rfl⟩)
  · refine (t.perform_turns ctx c).mono (fun _ he => he.within h) fun _ _ ⟨_, _, hturns, hc', _⟩ => ?_
    rw [hc']
    exact ⟨trivial, hturns.reader⟩

/-- Where an argument is begun: it is compiled already and ends here, or it comes next. -/
abbrev Begins (P : Position → Prop) (A : Reader → Prop) (o : List Bracket) (m : Nat)
    (x : Compiling (OpenTag × Option After)) : Prop :=
  Walks P A (some o) m false (fun _ => some o) (P ·.1.start)
    (fun begun r => begun.2 = none → Terminator.argument.Stops r) x

theorem begins_beginArgument (h : P t.start) : Begins P anything o m t.beginArgument := by
  have hends {m : Nat} {t : OpenTag} (ht : P t.start) :
      Begins P (Next ([.semicolon, .rightSquare].contains ·)) o m (pure (t, none)) := by
    refine .gives ht fun r ⟨token, ts, hrest, hstop⟩ => ⟨rfl, rfl, fun _ => ?_⟩
    simpa [Terminator.stops_iff hrest, Terminator.endsAt] using hstop
  have hbegins {m : Nat} {t : OpenTag} {after : After} (ht : P t.start) :
      Begins P anything o m (pure (t, some after)) := .gives ht fun _ _ => ⟨rfl, rfl, nofun⟩
  unfold beginArgument
  refine .ite (fun _ => .refuse_bind h rfl) fun _ => ?_
  dsimp only
  split
  · refine .position fun place hplace => .constantUntil (fun text => ?_) ?_
    · exact hends h
    · exact .peekLoose fun _ => .refuse hplace rfl
  · refine .constantUntil (fun text => ?_) ?_
    · exact .still .output fun _ _ => hends h
    · exact .still .output fun _ _ => hbegins h
  · refine .constantUntil (fun text => ?_) ?_
    · exact .still (.emits (t.emits_constantNumber text) h) fun _ ht => hends (ht ▸ h)
    · exact .still (.emits t.emits_pushDeferred h) fun _ ht => .still .output fun _ _ => hbegins (ht ▸ h)
  · exact hbegins h
  · exact .still .emitAt fun _ _ => .still .offset fun _ _ => hbegins h

/-- Behind an argument, the tag goes on or its bracket is closed. -/
theorem walks_endArgument (h : P t.start) : Walks P Terminator.argument.Stops (some [.square]) m true
    (fun more => some (more.toList.map fun _ => .square)) (∀ t ∈ ·, P t.start) (fun _ => anything)
    (t.endArgument ctx) := by
  refine .read fun terminator _ => .still (.emits (t.emits_betweenArguments _) h) fun t' ht => ?_
  have hstart : P t'.start := ht ▸ h
  refine .ite (fun hmore => ?_) fun hmore => ?_
  · rw [hmore]
    exact .gives (by simpa using hstart) fun _ _ => ⟨rfl, rfl, trivial⟩
  · refine .still (still_finish { t' with index := t'.index + 1 } hstart) fun _ _ => ?_
    refine .gives (by simp) fun r ⟨r₀, hstops, hrest⟩ => ?_
    have hkind : terminator.kind = .rightSquare := by
      simpa [Terminator.endsAt, hmore] using (Terminator.stops_iff hrest).1 hstops
    rw [hkind]
    exact ⟨rfl, rfl, trivial⟩

/-- An argument has ended, and what comes behind it. -/
theorem steps_afterArgument (ctx : Context) (h : P t.start) {f : OpenTag → Compiling Step}
    (hf : ∀ t : OpenTag, P t.start → Steps P anything (some [.square]) (m - 1) false 2 (f t)) :
    Steps P Terminator.argument.Stops (some [.square]) m true 2 (do
      match ← t.endArgument ctx with
      | some t => f t
      | none => return .done) := by
  refine .bind (walks_endArgument h) fun more hmore => ?_
  cases more with
  | some t => exact hf t (hmore t rfl)
  | none => exact .done

theorem steps_arguments (h : P t.start) (tokens : List Token) :
    Steps P anything (some [.square]) tokens.length false 2 (t.arguments ctx tokens) := by
  induction tokens generalizing t with
  | nil => exact .zero
  | cons _ tokens ih =>
    refine .bind (begins_beginArgument h) fun begun hbegun => ?_
    obtain ⟨t, _ | after⟩ := begun
    · have hsteps := steps_afterArgument (m := tokens.length + 1) ctx hbegun fun t ht => ih ht
      exact (hsteps.imp (fun _ => id) fun _ _ => id).when fun _ hstops => ⟨hstops rfl, rfl⟩
    · exact .gives ⟨⟨hbegun, trivial⟩, Nat.le_refl 2⟩ fun _ _ => ⟨rfl, rfl, trivial⟩

theorem steps_resume (h : P t.start) {after : After} :
    Steps P Terminator.argument.Stops (some [.square]) m true 2 (t.resume ctx after) :=
  .still (.emits (emits_afterArgument _ after) h) fun _ _ => .tokens fun tokens _ =>
    steps_afterArgument ctx h fun _ ht => steps_arguments ht tokens

end OpenTag

theorem Tag.steps_start {start : Position} (h : P start) :
    Steps P anything (some [.square]) m true 2 (Tag.start ctx start) := by
  refine .bind (walks_resolve h) fun tag _ => .tokens fun tokens _ => .takeLoose ?_ ?_
  · exact OpenTag.steps_arguments h tokens
  · exact .expectLoose fun _ _ => .still (OpenTag.still_finish _ h) fun _ _ => .done

/-! ### Patterns -/

/-- A broken token is no fault of the compiler. -/
theorem brokenCause_isFault (text : String) : (brokenCause text).isFault = false := by
  unfold brokenCause
  split <;> rfl

/-- A pattern goes on to a construct inside it, to which it hands the place of the token that opens it,
or it is at its end. -/
theorem walks_pattern (stop : Terminator) {tokens : List Token} (h : ∀ t ∈ tokens, P t.position) :
    Walks P (·.rest = tokens) (some []) m false Step.level? (Step.At P)
      (fun step r => step.Ends (.pattern stop) r) (pattern stop tokens) := by
  have hdone {m : Nat} {tokens : List Token} (hstops : ∀ r : Reader, r.rest = tokens → stop.Stops r) :
      Walks P (·.rest = tokens) (some []) m false Step.level? (Step.At P)
        (fun step r => step.Ends (.pattern stop) r) (pure .done) :=
    .gives trivial fun r hr => ⟨rfl, rfl, hstops r hr⟩
  induction tokens generalizing m with
  | nil =>
    refine .ite (fun hroot => hdone fun r hr => ?_) fun _ => .position fun _ hplace => .refuse hplace rfl
    rwa [Terminator.Stops, hr]
  | cons token tokens ih =>
    refine .ite (fun hends => hdone fun r hr => (Terminator.stops_iff hr).2 hends) fun _ => .read fun t _ => ?_
    -- the token that is read is the one that was looked at
    refine Walks.when (A := (·.rest = tokens)) (s := token.kind.openAfter []) ?_ fun r ⟨r₀, h₀, hr₀⟩ => by
      rw [h₀] at hr₀
      cases hr₀
      exact ⟨rfl, rfl⟩
    have htoken := h token List.mem_cons_self
    have henter {child : Construct} {opened : List Bracket} (hchild : child.At P)
        (hlevel : (Step.push (.pattern stop) child).level? = some opened) :
        Walks P (·.rest = tokens) (some opened) (m - 1) false Step.level? (Step.At P)
          (fun step r => step.Ends (.pattern stop) r) (enter stop token child) :=
      .still .output fun _ _ => .gives ⟨trivial, hchild⟩ fun _ _ => ⟨hlevel.symm, rfl, fun _ => id⟩
    split
    all_goals (try rename_i hkind; rw [hkind])
    · exact .refuse htoken rfl
    · exact .refuse htoken rfl
    · exact .refuse htoken rfl
    · exact henter htoken rfl
    · exact henter trivial rfl
    · exact henter htoken rfl
    · exact henter htoken rfl
    · exact .refuse htoken (brokenCause_isFault _)
    · have hflat : token.kind.openAfter [] = some [] := by
        cases hkind : token.kind <;> simp_all [Token.Kind.openAfter]
      rw [hflat]
      exact .still .output fun _ _ => ih fun t ht => h t (List.mem_cons_of_mem _ ht)

/-- A construct that is not a pattern reads a token, or what it leaves is charged less than it. -/
theorem Construct.steps_resume (ctx : Context) (m : Nat) {k : Construct} (h : k.At P) (hk : ∀ stop, k ≠ .pattern stop) :
    ∃ (d : Bool) (n : Nat), n < 4 * d.toNat + k.charge ∧ Steps P k.Ready (some k.level) m d n (k.resume ctx) := by
  cases k with
  | pattern stop => exact absurd rfl (hk stop)
  | escape token => exact ⟨false, 0, by simp [charge], .still (.emits (emits_escape token) h) fun _ _ => .done⟩
  | query start => exact ⟨false, 0, by simp [charge], .bind (closes_query h).at fun _ _ => .done⟩
  | tag start => exact ⟨true, 2, by simp [charge], (Tag.steps_start h).at⟩
  | argument t after => exact ⟨true, 2, by simp [charge], OpenTag.steps_resume h⟩
  | block => exact ⟨false, 2, by simp [charge], Block.steps_start.at⟩
  | weight b offset => exact ⟨true, 2, by simp [charge], Block.steps_afterWeight⟩
  | item b => exact ⟨true, 2, by simp [charge], Block.steps_afterItem⟩

/-- What a step of a construct leads to. -/
theorem Construct.walks_resume (ctx : Context) {k : Construct} (h : k.At P) :
    Walks P k.Ready (some k.level) m false Step.level? (Step.At P) (fun step r => step.Ends k r)
      (k.resume ctx) := by
  by_cases hk : ∃ stop, k = .pattern stop
  · obtain ⟨stop, rfl⟩ := hk
    exact .get fun c hc => (walks_pattern stop hc.rest).when fun r hr => ⟨by rw [hr.2], rfl⟩
  · obtain ⟨d, n, _, hsteps⟩ := steps_resume ctx m h fun stop hstop => hk ⟨stop, hstop⟩
    refine hsteps.imp (fun _ hstep => hstep.1) fun step r _ => step.ends_of_leaves (fun r => ?_) r
    cases k with
    | pattern stop => exact absurd ⟨stop, rfl⟩ hk
    | _ => trivial

/-- A step of a construct, whatever places it has kept. -/
theorem Construct.ensures_resume (k : Construct) (c : Compilation) :
    Ensures Error.Definite (k.resume ctx) c fun step c' => k.Ready c.reader →
      step.Ends k c'.reader ∧ step.level?.isSome ∧ c.reader.Reads (some k.level) step.level? c'.reader := by
  have hplaces : k.At fun _ => True := by cases k <;> trivial
  exact (walks_resume ctx hplaces c ⟨fun _ _ => trivial, trivial⟩ (Nat.lt_succ_self _)).mono
    (fun _ he => he.2) fun _ _ harrives => harrives.reads

/-- **A construct closes its brackets.** -/
theorem Completes.nests {k : Construct} (h : Completes ctx k c c') (hready : k.Ready c.reader) :
    c.reader.Reads (some k.level) (some []) c'.reader ∧ k.Leaves c'.reader := by
  induction h with
  | done h =>
    obtain ⟨hleaves, _, hreads⟩ := (Construct.ensures_resume _ _).yields _ _ h hready
    exact ⟨hreads, hleaves⟩
  | @push k self child c c₁ c₂ c' h _ _ ihchild ihself =>
    obtain ⟨houter, hsome, hreads⟩ := (Construct.ensures_resume _ _).yields _ _ h hready
    obtain ⟨o, ho⟩ := Option.isSome_iff_exists.1 hsome
    rw [ho] at hreads
    obtain ⟨rfl, hstart, hnext⟩ := Step.fits_of_level? ho
    obtain ⟨hchild, hleaves⟩ := ihchild (hstart _)
    obtain ⟨hself, hends⟩ := ihself (hnext _ hleaves)
    exact ⟨hreads.trans ((hchild.under self.level).trans hself), houter _ hends⟩

/-- A source that compiles leaves no bracket open. -/
theorem openAfter_scan_of_compile {title source : String} {p : Program}
    (h : compile ctx title source = .ok p) : Token.openAfter [] (Token.scan source) = some [] := by
  unfold compile at h
  split at h
  · rename_i c hc
    obtain ⟨⟨ts, hts, hopen⟩, hstops⟩ := (completes_of_source hc).1.nests trivial
    have hrest : c.reader.rest = [] := by
      have hroot : Terminator.root.Stops c.reader := hstops
      unfold Terminator.Stops at hroot
      split at hroot
      · assumption
      · cases hroot
    rw [hrest, List.append_nil] at hts
    have hscan : Token.scan source = ts := hts
    rw [hscan]
    exact hopen
  · cases h

end Wordloom.Compile
