import Wordloom.Dictionary

/-!
# Wordloom.Proofs.Carriers

What carriers guarantee over any sequence of queries and deletes. A query answers with the word that one of
its match carriers remembers and changes nothing, or with a candidate that all of its carriers then remember
(`WordList.query_cases`). So nothing but a delete makes a carrier forget: a word used under a unique carrier
stays used (`CarrierState.isUsed_after`), and a bound match carrier keeps its word
(`CarrierState.matched?_after`).
-/

namespace Wordloom

namespace CarrierState

variable (s : CarrierState) (id word v : String) (c : Carrier) (cs : List Carrier)

/-! ## What is remembered and forgotten -/

theorem matched?_note :
    (note word s c).matched? id = if c = ⟨.matchWord, id⟩ then some word else s.matched? id := by
  obtain ⟨kind, i⟩ := c
  cases kind <;>
    simp [note, matched?, Std.TreeMap.getElem?_insert, Std.LawfulEqCmp.compare_eq_iff_eq]

theorem isUsed_note :
    (note word s c).isUsed id v = ((c = ⟨.unique, id⟩ ∧ v = word) || s.isUsed id v) := by
  obtain ⟨kind, i⟩ := c
  cases kind <;>
    simp [note, isUsed, Std.TreeMap.getD_insert, Std.LawfulEqCmp.compare_eq_iff_eq]
  by_cases h : i = id <;> simp [h]

theorem matched?_erase :
    (s.erase c).matched? id =
      if c = ⟨.matchWord, id⟩ ∨ c = ⟨.matchUnique, id⟩ then none else s.matched? id := by
  obtain ⟨kind, i⟩ := c
  cases kind <;>
    simp [erase, matched?, Std.TreeMap.getElem?_erase, Std.LawfulEqCmp.compare_eq_iff_eq]

theorem isUsed_erase :
    (s.erase c).isUsed id v = (c ≠ ⟨.unique, id⟩ && s.isUsed id v) := by
  obtain ⟨kind, i⟩ := c
  cases kind <;>
    simp [erase, isUsed, Std.TreeMap.getD_erase, Std.LawfulEqCmp.compare_eq_iff_eq]

/-- All match carriers are bound to the word. -/
theorem matched?_remember :
    (s.remember cs word).matched? id =
      if ⟨.matchWord, id⟩ ∈ cs then some word else s.matched? id := by
  induction cs generalizing s with
  | nil => simp [remember]
  | cons c cs ih =>
    rw [remember, List.foldl_cons, ← remember, ih, matched?_note]
    by_cases hc : c = ⟨.matchWord, id⟩
    · simp [hc]
    · simp [hc, Ne.symm hc]

/-- The word is used under all unique carriers. -/
theorem isUsed_remember :
    (s.remember cs word).isUsed id v = ((⟨.unique, id⟩ ∈ cs ∧ v = word) || s.isUsed id v) := by
  induction cs generalizing s with
  | nil => simp [remember]
  | cons c cs ih =>
    rw [remember, List.foldl_cons, ← remember, ih, isUsed_note]
    by_cases hc : c = ⟨.unique, id⟩
    · by_cases hv : v = word <;> simp [hc, hv]
    · simp [hc, Ne.symm hc]

theorem matched?_delete :
    (s.delete cs).matched? id =
      if ⟨.matchWord, id⟩ ∈ cs ∨ ⟨.matchUnique, id⟩ ∈ cs then none else s.matched? id := by
  induction cs generalizing s with
  | nil => simp [delete]
  | cons c cs ih =>
    rw [delete, List.foldl_cons, ← delete, ih, matched?_erase]
    grind

theorem isUsed_delete :
    (s.delete cs).isUsed id v = (⟨.unique, id⟩ ∉ cs && s.isUsed id v) := by
  induction cs generalizing s with
  | nil => simp [delete]
  | cons c cs ih =>
    rw [delete, List.foldl_cons, ← delete, ih, isUsed_erase]
    grind

end CarrierState

/-! ## What a query does -/

namespace WordList

variable {s : CarrierState} {q : Query}

theorem remembered?_eq_none :
    remembered? s q = none ↔ ∀ c ∈ q.carriers, c.kind = .matchWord → s.matched? c.id = none := by
  simp [remembered?, List.findSome?_eq_none_iff]

/-- Where one carrier is the only match carrier, its word is the one that is remembered. -/
theorem remembered?_of_only {id : String} (hmem : ⟨.matchWord, id⟩ ∈ q.carriers)
    (honly : ∀ c ∈ q.carriers, c.kind = .matchWord → c.id = id) :
    remembered? s q = s.matched? id := by
  cases hword : s.matched? id with
  | none =>
    rw [remembered?_eq_none]
    intro c hc hkind
    rw [honly c hc hkind, hword]
  | some word =>
    cases hfound : remembered? s q with
    | none =>
      have hnone := remembered?_eq_none.1 hfound _ hmem rfl
      simp [hword] at hnone
    | some found =>
      obtain ⟨c, hc, hmatched⟩ := List.exists_of_findSome?_eq_some hfound
      obtain ⟨hc, hkind⟩ := List.mem_filter.1 hc
      rw [honly c hc (by simpa using hkind), hword] at hmatched
      exact hmatched.symm

/-- A query answers with a remembered word and changes nothing, or with a word that its carriers allow and
then remember, or not at all. -/
theorem query_cases (d : WordList) (q : Query) (regexes : Array Regex) (s : CarrierState) (rng : Rng) :
    (∃ word, remembered? s q = some word ∧ d.query q regexes s rng = (some word, s, rng)) ∨
    (∃ word rng', remembered? s q = none ∧ passesCarriers s q word = true ∧
      d.query q regexes s rng = (some word, s.remember q.carriers word, rng')) ∨
    ∃ rng', d.query q regexes s rng = (none, s, rng') := by
  cases htable : q.table.bind (d.tables[·]?) with
  | none => exact .inr (.inr ⟨rng, by simp [query, htable]⟩)
  | some t =>
    cases hform : t.subtypeIndex? q.subtype with
    | none => exact .inr (.inr ⟨rng, by simp [query, htable, hform]⟩)
    | some i =>
      cases hremembered : remembered? s q with
      | some word => exact .inl ⟨word, rfl, by simp [query, htable, hform, hremembered]⟩
      | none =>
        cases hwords : candidates t i regexes s q with
        | nil => exact .inr (.inr ⟨rng, by simp [query, htable, hform, hremembered, hwords]⟩)
        | cons first others =>
          obtain ⟨k, rng', hdraw⟩ : ∃ k rng', rng.nextBelow (others.length + 1) = (k, rng') :=
            ⟨_, _, rfl⟩
          cases hpick : (first :: others)[k]? with
          | none =>
            refine .inr (.inr ⟨rng', ?_⟩)
            simp [query, htable, hform, hremembered, hwords, hdraw, hpick]
          | some word =>
            have hmem : word ∈ candidates t i regexes s q := hwords ▸ List.mem_of_getElem? hpick
            simp only [candidates, List.mem_filter, Bool.and_eq_true] at hmem
            refine .inr (.inl ⟨word, rng', rfl, hmem.2.2, ?_⟩)
            simp [query, htable, hform, hremembered, hwords, hdraw, hpick]

end WordList

/-! ## Histories -/

/-- A query as it is put: to a dictionary, by a program with its expressions, at some point of a stream of
random numbers. -/
structure Ask where
  dictionary : WordList
  query : Query
  regexes : Array Regex := #[]
  rng : Rng

namespace Ask

def answer (a : Ask) (s : CarrierState) : Option String × CarrierState × Rng :=
  a.dictionary.query a.query a.regexes s a.rng

/-- The word that answers it. -/
def word? (a : Ask) (s : CarrierState) : Option String := (a.answer s).1

/-- What the carriers remember after it. -/
def carriers (a : Ask) (s : CarrierState) : CarrierState := (a.answer s).2.1

/-- Whether there are the table and the form that are asked for. -/
def isFound (a : Ask) : Bool :=
  (a.query.table.bind (a.dictionary.tables[·]?)).any fun t => (t.subtypeIndex? a.query.subtype).isSome

/-- Whether the query is tied to others by this unique carrier and by no match carrier. -/
def isUnique (a : Ask) (id : String) : Bool :=
  a.query.carriers.contains ⟨.unique, id⟩ && a.query.carriers.all (·.kind != .matchWord)

/-- Whether this is a match carrier of the query, and there is no other one. -/
def isMatch (a : Ask) (id : String) : Bool :=
  a.query.carriers.contains ⟨.matchWord, id⟩ &&
    a.query.carriers.all fun c => c.kind != .matchWord || c.id == id

/-- `WordList.query_cases`, for the word and the carriers: only a word that is picked changes them. -/
theorem answer_cases (a : Ask) (s : CarrierState) :
    (∃ word, WordList.remembered? s a.query = some word ∧ a.word? s = some word ∧ a.carriers s = s) ∨
    (∃ word, WordList.remembered? s a.query = none ∧ WordList.passesCarriers s a.query word = true ∧
      a.word? s = some word ∧ a.carriers s = s.remember a.query.carriers word) ∨
    (a.word? s = none ∧ a.carriers s = s) := by
  obtain ⟨word, hsome, hquery⟩ | ⟨word, rng, hnone, hpasses, hquery⟩ | ⟨rng, hquery⟩ :=
    a.dictionary.query_cases a.query a.regexes s a.rng
  · exact .inl ⟨word, hsome, by simp [word?, answer, hquery], by simp [carriers, answer, hquery]⟩
  · refine .inr (.inl ⟨word, hnone, hpasses, ?_, ?_⟩)
    · simp [word?, answer, hquery]
    · simp [carriers, answer, hquery]
  · exact .inr (.inr ⟨by simp [word?, answer, hquery], by simp [carriers, answer, hquery]⟩)

end Ask

namespace CarrierState

/-- What happens to carriers. -/
inductive Event where
  | ask (a : Ask)
  | delete (carriers : List Carrier)

def Event.deletes (c : Carrier) : Event → Bool
  | .ask _ => false
  | .delete cs => cs.contains c

def apply (s : CarrierState) : Event → CarrierState
  | .ask a => a.carriers s
  | .delete cs => s.delete cs

/-- What the carriers remember after a history. -/
def after (s : CarrierState) (events : List Event) : CarrierState := events.foldl apply s

variable {s : CarrierState} {id word : String} {e : Event} {events : List Event}

/-- What holds of the carriers and is kept by each event of a history holds after it. -/
theorem after_of_apply {P : CarrierState → Prop} (hstep : ∀ e ∈ events, ∀ s, P s → P (s.apply e))
    (h : P s) : P (s.after events) := by
  induction events generalizing s with
  | nil => exact h
  | cons e events ih =>
    have hnext : P (s.apply e) := hstep e List.mem_cons_self s h
    exact ih (fun e' he' => hstep e' (List.mem_cons_of_mem e he')) hnext

/-- Nothing but a delete makes a unique carrier forget a word. -/
theorem isUsed_apply (hkept : e.deletes ⟨.unique, id⟩ = false) (h : s.isUsed id word = true) :
    (s.apply e).isUsed id word = true := by
  cases e with
  | ask a =>
    rw [apply]
    obtain ⟨w, -, -, hsame⟩ | ⟨w, -, -, -, hnext⟩ | ⟨-, hsame⟩ := a.answer_cases s
    · rw [hsame, h]
    · simp [hnext, isUsed_remember, h]
    · rw [hsame, h]
  | delete cs =>
    have hmem : ⟨.unique, id⟩ ∉ cs := by simpa [Event.deletes] using hkept
    simp [apply, isUsed_delete, hmem, h]

theorem isUsed_after (hkept : ∀ e ∈ events, e.deletes ⟨.unique, id⟩ = false)
    (h : s.isUsed id word = true) : (s.after events).isUsed id word = true :=
  after_of_apply (P := fun s => s.isUsed id word = true) (fun e he _ => isUsed_apply (hkept e he)) h

/-- Nothing but a delete takes its word from a match carrier: a query that carries it does not pick a word,
so there is no new one to remember. -/
theorem matched?_apply (hmatch : e.deletes ⟨.matchWord, id⟩ = false)
    (hunique : e.deletes ⟨.matchUnique, id⟩ = false) (h : s.matched? id = some word) :
    (s.apply e).matched? id = some word := by
  cases e with
  | ask a =>
    rw [apply]
    obtain ⟨w, -, -, hsame⟩ | ⟨w, hnone, -, -, hnext⟩ | ⟨-, hsame⟩ := a.answer_cases s
    · rw [hsame, h]
    · have hmem : ⟨.matchWord, id⟩ ∉ a.query.carriers := by
        intro hmem
        have hfree := WordList.remembered?_eq_none.1 hnone _ hmem rfl
        simp [h] at hfree
      rw [hnext, matched?_remember, if_neg hmem, h]
    · rw [hsame, h]
  | delete cs =>
    have hmem : ⟨.matchWord, id⟩ ∉ cs := by simpa [Event.deletes] using hmatch
    have hmem' : ⟨.matchUnique, id⟩ ∉ cs := by simpa [Event.deletes] using hunique
    simp [apply, matched?_delete, hmem, hmem', h]

theorem matched?_after (hmatch : ∀ e ∈ events, e.deletes ⟨.matchWord, id⟩ = false)
    (hunique : ∀ e ∈ events, e.deletes ⟨.matchUnique, id⟩ = false) (h : s.matched? id = some word) :
    (s.after events).matched? id = some word :=
  after_of_apply (P := fun s => s.matched? id = some word)
    (fun e he _ => matched?_apply (hmatch e he) (hunique e he)) h

end CarrierState

namespace Ask

variable {a : Ask} {s : CarrierState} {id word : String}

/-! ## Unique carriers -/

/-- A word that is picked under a unique carrier is new to it, and used from then on. -/
theorem isUsed_of_isUnique (h : a.isUnique id = true) (hword : a.word? s = some word) :
    s.isUsed id word = false ∧ (a.carriers s).isUsed id word = true := by
  obtain ⟨hmem, hothers⟩ : ⟨.unique, id⟩ ∈ a.query.carriers ∧
      ∀ c ∈ a.query.carriers, c.kind ≠ .matchWord := by simpa [isUnique] using h
  have hfree : WordList.remembered? s a.query = none :=
    WordList.remembered?_eq_none.2 fun c hc hkind => absurd hkind (hothers c hc)
  obtain ⟨w, hsome, -⟩ | ⟨w, -, hpasses, hpicked, hnext⟩ | ⟨hnone, -⟩ := a.answer_cases s
  · simp [hfree] at hsome
  · obtain rfl : w = word := by simpa [hpicked] using hword
    constructor
    · have hallowed := List.all_eq_true.1 hpasses _ hmem
      simpa using hallowed
    · simp [hnext, CarrierState.isUsed_remember, hmem]
  · simp [hnone] at hword

/-- Two queries under one unique carrier, neither of them with a match carrier, never get the same word,
whatever happens before and between them, unless a delete makes the carrier forget. -/
theorem words_ne_of_isUnique (first later : Ask) (s : CarrierState) (between : List CarrierState.Event)
    (id : String) {w₁ w₂ : String} (hfirst : first.isUnique id = true)
    (hlater : later.isUnique id = true) (hkept : ∀ e ∈ between, e.deletes ⟨.unique, id⟩ = false)
    (h₁ : first.word? s = some w₁)
    (h₂ : later.word? ((first.carriers s).after between) = some w₂) : w₁ ≠ w₂ := by
  rintro rfl
  have hused := CarrierState.isUsed_after hkept (isUsed_of_isUnique hfirst h₁).2
  rw [(isUsed_of_isUnique hlater h₂).1] at hused
  cases hused

/-- A query for one of two nouns. -/
def forPet (carriers : List Carrier) (rng : Rng) : Ask :=
  { dictionary := .ofTables [⟨"noun", ["singular"], [⟨["dog"], []⟩, ⟨["cat"], []⟩]⟩]
    query := { table := some "noun", carriers }
    rng }

/-- In between, the word is used and forgotten under another carrier, and a delete names the carrier, but as
one that matches. -/
def useOfOthers : List CarrierState.Event :=
  [.ask (forPet [⟨.unique, "v"⟩, ⟨.matchWord, "u"⟩] (.ofSeed 0)),
    .delete [⟨.unique, "v"⟩, ⟨.matchUnique, "u"⟩]]

theorem words_ne_of_isUnique_pets :
    (forPet [⟨.unique, "u"⟩] (.ofSeed 0)).word? {} = some "cat" ∧
      (forPet [⟨.unique, "u"⟩] (.ofSeed 0)).word?
        (((forPet [⟨.unique, "u"⟩] (.ofSeed 0)).carriers {}).after useOfOthers) = some "dog" ∧
      "cat" ≠ "dog" := by
  have h₁ : (forPet [⟨.unique, "u"⟩] (.ofSeed 0)).word? {} = some "cat" := by decide +kernel
  have h₂ : (forPet [⟨.unique, "u"⟩] (.ofSeed 0)).word?
      (((forPet [⟨.unique, "u"⟩] (.ofSeed 0)).carriers {}).after useOfOthers) = some "dog" := by
    decide +kernel
  have hunique : (forPet [⟨.unique, "u"⟩] (.ofSeed 0)).isUnique "u" = true := by decide +kernel
  exact ⟨h₁, h₂, words_ne_of_isUnique _ _ _ _ "u" hunique hunique (by decide +kernel) h₁ h₂⟩

/-! ## Match carriers -/

/-- What a query leaves bound: a match carrier keeps the word that it had, and gets the word that was picked
if no match carrier of the query had any. -/
theorem matched?_carriers (hmem : ⟨.matchWord, id⟩ ∈ a.query.carriers) (hword : a.word? s = some word)
    (hown : s.matched? id = some word ∨
      ∀ c ∈ a.query.carriers, c.kind = .matchWord → s.matched? c.id = none) :
    (a.carriers s).matched? id = some word := by
  obtain hown | hown := hown
  · exact CarrierState.matched?_apply (e := .ask a) rfl rfl hown
  · obtain ⟨w, hsome, -⟩ | ⟨w, -, -, hpicked, hnext⟩ | ⟨hnone, -⟩ := a.answer_cases s
    · simp [WordList.remembered?_eq_none.2 hown] at hsome
    · obtain rfl : w = word := by simpa [hpicked] using hword
      rw [hnext, CarrierState.matched?_remember, if_pos hmem]
    · simp [hnone] at hword

/-- A query that finds its table and form is answered by the word of its only match carrier. -/
theorem word?_of_isMatch (hfound : a.isFound = true) (h : a.isMatch id = true)
    (hbound : s.matched? id = some word) : a.word? s = some word := by
  obtain ⟨t, htable, hform⟩ : ∃ t, a.query.table.bind (a.dictionary.tables[·]?) = some t ∧
      (t.subtypeIndex? a.query.subtype).isSome = true := by
    simpa [isFound, Option.any_eq_true] using hfound
  obtain ⟨i, hform⟩ := Option.isSome_iff_exists.1 hform
  obtain ⟨hmem, honly⟩ : ⟨.matchWord, id⟩ ∈ a.query.carriers ∧
      ∀ c ∈ a.query.carriers, c.kind ≠ .matchWord ∨ c.id = id := by simpa [isMatch] using h
  have hremembered : WordList.remembered? s a.query = some word := by
    rw [WordList.remembered?_of_only hmem fun c hc hkind => (honly c hc).resolve_left (by simp [hkind]),
      hbound]
  simp [word?, answer, WordList.query, htable, hform, hremembered]

/-- A match carrier stays bound: once a query that carries it has been answered by its word, or by a word
that was picked for all match carriers of the query, every later query with no other match carrier gets the
same word, until a delete makes the carrier forget. -/
theorem word_eq_of_bound (first later : Ask) (s : CarrierState) (between : List CarrierState.Event)
    (id : String) {word : String} (hmem : ⟨.matchWord, id⟩ ∈ first.query.carriers)
    (hword : first.word? s = some word)
    (hown : s.matched? id = some word ∨
      ∀ c ∈ first.query.carriers, c.kind = .matchWord → s.matched? c.id = none)
    (hmatch : ∀ e ∈ between, e.deletes ⟨.matchWord, id⟩ = false)
    (hunique : ∀ e ∈ between, e.deletes ⟨.matchUnique, id⟩ = false)
    (hfound : later.isFound = true) (hlater : later.isMatch id = true) :
    later.word? ((first.carriers s).after between) = some word := by
  have hbound := matched?_carriers hmem hword hown
  exact word?_of_isMatch hfound hlater (CarrierState.matched?_after hmatch hunique hbound)

theorem word_eq_of_bound_pets :
    (forPet [⟨.unique, "u"⟩, ⟨.matchWord, "a"⟩, ⟨.matchWord, "b"⟩] (.ofSeed 0)).word? {} = some "cat" ∧
      (forPet [⟨.unique, "u"⟩, ⟨.matchWord, "b"⟩] (.ofSeed 2)).word?
        (((forPet [⟨.unique, "u"⟩, ⟨.matchWord, "a"⟩, ⟨.matchWord, "b"⟩] (.ofSeed 0)).carriers {}).after
          [.ask (forPet [⟨.matchWord, "c"⟩] (.ofSeed 2)), .delete [⟨.matchWord, "a"⟩, ⟨.unique, "b"⟩],
            .ask (forPet [⟨.matchWord, "c"⟩, ⟨.matchWord, "b"⟩] (.ofSeed 2))]) = some "cat" := by
  have hword : (forPet [⟨.unique, "u"⟩, ⟨.matchWord, "a"⟩, ⟨.matchWord, "b"⟩] (.ofSeed 0)).word? {} =
      some "cat" := by decide +kernel
  refine ⟨hword, word_eq_of_bound _ _ _ _ "b" (by decide +kernel) hword (.inr (by decide +kernel)) ?_ ?_ ?_ ?_⟩
  all_goals decide +kernel

/-- Where two match carriers of a query have different words only one can answer, the first, and the other
keeps its own: `a` is bound to "cat" and `b` to "dog", a query with both gets "dog", and `a` alone still gets
"cat". -/
theorem word_of_two_bound :
    let s := CarrierState.after {} [.ask (forPet [⟨.matchWord, "a"⟩] (.ofSeed 0)),
      .ask (forPet [⟨.matchWord, "b"⟩] (Rng.ofSeed 0).next.2)]
    let first := forPet [⟨.matchWord, "b"⟩, ⟨.matchWord, "a"⟩] (Rng.ofSeed 0).next.2.next.2
    let later := forPet [⟨.matchWord, "a"⟩] (Rng.ofSeed 0).next.2.next.2
    ⟨.matchWord, "a"⟩ ∈ first.query.carriers ∧ first.word? s = some "dog" ∧ later.isFound = true ∧
      later.isMatch "a" = true ∧ later.word? (first.carriers s) = some "cat" := by
  decide +kernel

end Ask

end Wordloom
