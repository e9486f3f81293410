import Wordloom.Proofs.Capitalization
import Wordloom.Proofs.Checks
import Wordloom.Proofs.Concealment
import Wordloom.Proofs.Correctness
import Wordloom.Proofs.Delivery

/-!
# Wordloom.Proofs.Marks

What marks of source positions do to a program. A mark keeps the texts around it from being joined, so
that they are printed in pieces. That makes no difference to an output where no article waits for a word
and no letters are made small (`Writer.Joins.run_of_cut`). An article is decided by the first piece that
has a word in it, which may be half a word (`Engine.article_of_marks`).
-/

namespace Wordloom

/-! ## Texts in pieces -/

/-- No article waits for a word, and letters are not made small. -/
def Chain.Joins (chain : Chain) : Prop := chain.case.mode ≠ .lower ∧ chain.pending = none

/-- Neither makes a slot for an article nor has letters made small. -/
def Writer.Op.isPlain : Op → Bool
  | .edit .article | .edit (.setCase .lower) => false
  | _ => true

theorem Chain.Joins.edit {chain : Chain} (h : chain.Joins) {e : Edit}
    (he : (Writer.Op.edit e).isPlain = true) : (chain.edit e).Joins := by
  obtain ⟨hmode, hpending⟩ := h
  cases e with
  | print text =>
    rw [Chain.edit, print_of_pending_eq_none hpending]
    exact ⟨Capitalizer.mode_apply_ne_lower hmode text, hpending⟩
  | article => cases he
  | setCase mode =>
    refine ⟨?_, hpending⟩
    rintro rfl
    cases he
  | target name =>
    rw [Chain.edit, insertTarget]
    unfold finishText
    split <;> exact ⟨hmode, hpending⟩
  | write => exact ⟨hmode, hpending⟩
  | clear name =>
    rw [Chain.edit, clearTarget]
    split <;> exact ⟨hmode, hpending⟩

namespace Writer

variable {w : Writer}

/-- In no channel it makes a difference how a text is cut, nor will it in those that are made. -/
structure Joins (w : Writer) : Prop where
  chains : ∀ (i : Nat) chain, w.chains[i]? = some chain → chain.Joins
  defaultCase : w.defaultCase ≠ .lower

theorem joins_new {mode : Capitals} (h : mode ≠ .lower) : (new mode).Joins where
  chains i chain hchain := by
    obtain ⟨-, rfl⟩ := Array.getElem?_eq_some_iff.1 hchain
    simpa [new, Chain.new, Chain.Joins] using h
  defaultCase := h

theorem Joins.openChannel (h : w.Joins) (name : String) (visibility : Visibility) :
    (w.openChannel name visibility).Joins := by
  unfold Writer.openChannel
  split
  · split
    · exact h
    · refine ⟨fun j chain hchain => ?_, h.defaultCase⟩
      rw [Array.getElem?_modify] at hchain
      split at hchain
      · obtain ⟨old, hold, rfl⟩ := Option.map_eq_some_iff.1 hchain
        exact h.chains j old hold
      · exact h.chains j chain hchain
  · refine ⟨fun j chain hchain => ?_, h.defaultCase⟩
    rw [Array.getElem?_push] at hchain
    split at hchain
    · cases hchain
      exact ⟨h.defaultCase, rfl⟩
    · exact h.chains j chain hchain

theorem Joins.apply (hvalid : w.Valid) (h : w.Joins) {op : Op} (hop : op.isPlain = true) :
    (w.apply op).Joins := by
  cases op with
  | openChannel name visibility => exact h.openChannel name visibility
  | closeChannel =>
    rw [Writer.apply]
    unfold closeChannel
    split
    · exact ⟨h.chains, h.defaultCase⟩
    · exact h
  | edit e =>
    refine ⟨fun i chain hchain => ?_, ?_⟩
    · rw [Writer.apply, hvalid.getElem?_edit] at hchain
      split at hchain
      · obtain ⟨old, hold, rfl⟩ := Option.map_eq_some_iff.1 hchain
        exact (h.chains i old hold).edit hop
      · exact h.chains i chain hchain
    · rw [Writer.apply, (w.edit_sameChannels e).defaultCase]
      exact h.defaultCase

/-- Besides the texts, printing changes the number of characters only. -/
theorem edit_print (w : Writer) (text : String) : w.edit (.print text) = { w with
    chains := (w.edit (.print text)).chains
    charsWritten := w.charsWritten + text.length } := by
  by_cases htext : text = ""
  · subst htext
    rfl
  · simp [edit, htext, onTargets]

theorem Joins.edit_print_append (hvalid : w.Valid) (h : w.Joins) (a b : String) :
    w.edit (.print (a ++ b)) = (w.edit (.print a)).edit (.print b) := by
  have hsame := w.edit_sameChannels (.print a)
  have htargets : (w.edit (.print a)).targets = w.targets := by
    rw [targets, targets, hsame.active, reach_congr hsame.labels]
  have hchains : (w.edit (.print (a ++ b))).chains =
      ((w.edit (.print a)).edit (.print b)).chains := by
    refine Array.ext_getElem? fun i => ?_
    rw [hvalid.getElem?_edit, (hvalid.of_sameChannels hsame).getElem?_edit, htargets,
      hvalid.getElem?_edit]
    split
    · rw [Option.map_map]
      refine Option.map_congr fun chain hchain => ?_
      exact Chain.print_append (h.chains i chain hchain).1 (h.chains i chain hchain).2 a b
    · rfl
  rw [edit_print, edit_print (w.edit _), hchains, edit_print w a, String.length_append, Nat.add_assoc]

/-- What is done at once, or in pieces if it is to print a text. -/
inductive Op.Cut : Op → List Op → Prop where
  | whole (op : Op) : Cut op [op]
  | pieces (texts : List String) :
    Cut (.edit (.print (String.join texts))) (texts.map fun text => .edit (.print text))

theorem Joins.run_cut (hvalid : w.Valid) (h : w.Joins) {op : Op} {cut : List Op} (hcut : op.Cut cut) :
    w.run cut = w.apply op := by
  cases hcut with
  | whole => rfl
  | pieces texts =>
    induction texts generalizing w with
    | nil => rfl
    | cons text texts ih =>
      have hnext : (w.apply (.edit (.print text))).Joins := h.apply hvalid rfl
      rw [List.map_cons, run_cons, ih (hvalid.apply _) hnext, String.join_cons]
      exact (h.edit_print_append hvalid text _).symm

theorem Joins.run_of_cut (hvalid : w.Valid) (h : w.Joins) {ops : List Op} {cuts : List (List Op)}
    (hcuts : List.Forall₂ Op.Cut ops cuts) (hplain : ∀ op ∈ ops, op.isPlain = true) :
    w.run cuts.flatten = w.run ops := by
  induction hcuts generalizing w with
  | nil => rfl
  | cons hcut _ ih =>
    obtain ⟨hop, hplain⟩ := List.forall_mem_cons.1 hplain
    rw [List.flatten_cons, run_cons, ← ih (hvalid.apply _) (h.apply hvalid hop) hplain,
      ← h.run_cut hvalid hcut]
    exact List.foldl_append

end Writer

/-! ## Programs with and without marks -/

/-- Two runs are over and put out the same or failed with the same fault, unless a limit ended one. -/
def Outcome.EndsLike : Outcome → Outcome → Prop
  | .output o, .output o' => o = o'
  | .output _, .failure e | .failure e, .output _ => e.fault.CutsOff
  | .failure e, .failure e' => e.fault.CutsOff ∨ e'.fault.CutsOff ∨ e.fault = e'.fault
  | .unfinished, _ | _, .unfinished => False

theorem Outcome.ComesTo.endsLike {seed : UInt64} {result : Except Fault String} {o o' : Outcome}
    (h : o.ComesTo seed result) (h' : o'.ComesTo seed result) : o.EndsLike o' := by
  cases o with
  | unfinished => cases h
  | output o =>
    obtain ⟨text, rfl, rfl⟩ := h
    cases o' with
    | unfinished => cases h'
    | output o' =>
      obtain ⟨_, htext, rfl⟩ := h'
      cases htext
      rfl
    | failure e => exact h'.resolve_right (by simp)
  | failure e =>
    cases o' with
    | unfinished => cases h'
    | output o' =>
      obtain ⟨text, rfl, rfl⟩ := h'
      exact h.resolve_right (by simp)
    | failure e' =>
      obtain hcut | rfl := h
      · exact .inl hcut
      · exact .inr (h'.imp_right fun hfault => Except.error.inj hfault)

/-- **Marks make no difference to a pattern.** An output is the same however the texts that are printed
to it are cut, unless an article is to be made or letters are to be made small. A pattern whose names are
known is compiled with marks and without them, and both programs put out the same or fail alike, unless a
limit ends a run. -/
theorem Engine.endsLike_marked {e : Engine} (hregistry : e.registry.Sound) {p : Pattern} (hp : p.Scoped)
    (hlength : p.source.length ≤ 2 ^ 23) (name : String) :
    (∀ (mode : Capitals) (ops : List Writer.Op) (cuts : List (List Writer.Op)), mode ≠ .lower →
      (∀ op ∈ ops, op.isPlain = true) → List.Forall₂ Writer.Op.Cut ops cuts →
      (Writer.new mode).run cuts.flatten = (Writer.new mode).run ops) ∧
    ∃ plain marked, e.compile name p.source false = .ok plain ∧
      e.compile name p.source true = .ok marked ∧
      ∀ (options : Options) (seed : UInt64), options.capitals = .none →
        options.numberFormat = .normal → ∃ n, ∀ steps, n ≤ steps →
          ((Machine.start options plain seed).run (e.environment options) seed steps).EndsLike
            ((Machine.start options marked seed).run (e.environment options) seed steps) := by
  constructor
  · intro mode ops cuts hmode hplain hcuts
    exact (Writer.joins_new hmode).run_of_cut (Writer.valid_new mode) hcuts hplain
  · have hlong : p.source.length ≤ 2 ^ 31 := Nat.le_trans hlength (by decide)
    have hcompiles (debug : Bool) : ∃ program, e.compile name p.source debug = .ok program := by
      obtain ⟨htoo, -⟩ | ⟨program, -, -, -, hprogram, -⟩ := hp.compile hlong
        ⟨debug, e.registry, e.programs⟩ e.registry name (e.environment {}) rfl
      · exact absurd hlength (Nat.not_le.2 htoo)
      · exact ⟨program, hprogram⟩
    obtain ⟨plain, hplain⟩ := hcompiles false
    obtain ⟨marked, hmarked⟩ := hcompiles true
    refine ⟨plain, marked, hplain, hmarked, fun options seed hcapitals hformat => ?_⟩
    have hdepth : options.maxCallDepth ≤ options.maxCallDepth + 1 := Nat.le_succ _
    obtain ⟨n, -, hends⟩ := hp.halts hregistry hlong hplain hcapitals hformat hdepth seed
    obtain ⟨k, -, hends'⟩ := hp.halts hregistry hlong hmarked hcapitals hformat hdepth seed
    refine ⟨max n k, fun steps hsteps => ?_⟩
    exact (hends steps (Nat.le_trans (Nat.le_max_left n k) hsteps)).endsLike
      (hends' steps (Nat.le_trans (Nat.le_max_right n k) hsteps))

/-- A word with an escape in it that stands for nothing. -/
def Pattern.cutWord : Pattern :=
  .leaf (.text "a") (.leaf (.escape ['0'] ['s']) (.leaf (.text "pples") .nil))

theorem Engine.endsLike_marked_cutWord :
    Pattern.cutWord.source = "a\\0,spples" ∧
    (Writer.new .sentence).run [.edit (.print "a"), .edit (.print "pples"), .edit (.target "x")] =
      (Writer.new .sentence).run [.edit (.print "apples"), .edit (.target "x")] ∧
    ∃ plain marked, ({} : Engine).compile "main" Pattern.cutWord.source false = .ok plain ∧
      ({} : Engine).compile "main" Pattern.cutWord.source true = .ok marked ∧
      ∃ n, ∀ steps, n ≤ steps →
        ((Machine.start {} plain 7).run (({} : Engine).environment {}) 7 steps).EndsLike
          ((Machine.start {} marked 7).run (({} : Engine).environment {}) 7 steps) := by
  have hscoped : Pattern.cutWord.Scoped := by
    unfold Pattern.Scoped
    decide +kernel
  obtain ⟨hcuts, plain, marked, hplain, hmarked, hruns⟩ := endsLike_marked (e := {}) Standard.sound_registry
    hscoped (by decide +kernel) "main"
  refine ⟨by decide +kernel, ?_, plain, marked, hplain, hmarked, hruns {} 7 rfl rfl⟩
  exact hcuts .sentence [.edit (.print "apples"), .edit (.target "x")] _ (by decide) (by decide)
    (.cons (.pieces ["a", "pples"]) (.cons (.whole _) .nil))

/-- With an empty escape in it, a plural is taken for a plural only by a program without marks. -/
theorem Engine.article_of_marks :
    ∃ p q o o', ({} : Engine).compile "main" "\\a a\\0,spples" false = .ok p ∧
      ({} : Engine).compile "main" "\\a a\\0,spples" true = .ok q ∧
      ({} : Engine).run p 0 {} = .output o ∧ ({} : Engine).run q 0 {} = .output o' ∧
      o.main = "the apples" ∧ o'.main = "an apples" := by
  obtain ⟨p, o, hp, ho, htext⟩ :=
    exists_output {} "\\a a\\0,spples" false 0 {} "the apples" (by decide +kernel)
  obtain ⟨q, o', hq, ho', htext'⟩ :=
    exists_output {} "\\a a\\0,spples" true 0 {} "an apples" (by decide +kernel)
  exact ⟨p, q, o, o', hp, hq, ho, ho', htext, htext'⟩

end Wordloom
