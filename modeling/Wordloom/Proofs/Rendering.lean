import Mathlib.Data.List.DropRight
import Wordloom.Proofs.Channels

/-!
# Wordloom.Proofs.Rendering

What a channel shows in the end, said without the channel: a list of edits stands for slices of text and
slots, in the order of the edits. An article is decided by what is printed behind it, and a target shows
what the edits of its name have left, wherever its slots stand.
-/

namespace Wordloom

/-! ## Slices -/

/-- What an edit adds to a channel: a text as it is printed, or a slot. -/
inductive Slice where
  | text (s : String)
  | article (letters : ArticleCase)
  | target (name : String)

/-- The letters of an article that is made now. -/
def Capitalizer.articleCase (z : Capitalizer) : ArticleCase :=
  match z.mode with
  | .none | .lower => .lower
  | .upper => .upper
  | .first => .capital
  | .word => if z.wordStart then .capital else .lower
  | .sentence => if z.sentenceStart then .capital else .lower

namespace Edit

/-- What edits add, `z` being the capitalization in front of them. An article counts as a word. -/
def slices (z : Capitalizer) : List Edit → List Slice
  | [] => []
  | .print text :: edits => .text (z.apply text).1 :: slices (z.apply text).2 edits
  | .article :: edits => .article z.articleCase :: slices (z.apply "a").2 edits
  | .setCase mode :: edits => slices { mode } edits
  | .target name :: edits => .target name :: slices z edits
  | .write .. :: edits => slices z edits
  | .clear _ :: edits => slices z edits

/-- Whether an edit drops what the target of that name holds. -/
def drops (name : String) : Edit → Bool
  | .write n _ overwrite => n == name && overwrite
  | .clear n => n == name
  | _ => false

/-- What an edit writes to the target of that name. -/
def written (name : String) : Edit → String
  | .write n text _ => if n = name then text else ""
  | _ => ""

/-- What the target of that name holds behind some edits: what the last edit has written that dropped what
was there before, and what has been written since. -/
def held (edits : List Edit) (name : String) : String :=
  ((edits.filter (drops name)).getLast?.map (written name)).getD "" ++
    String.join ((edits.rtakeWhile (!drops name ·)).map (written name))

end Edit

namespace Slice

def isArticle : Slice → Bool
  | .article _ => true
  | _ => false

/-- Whether there is a letter or numeral in a printed text. -/
def hasWord : Slice → Bool
  | .text s => s.toList.any Text.isLetterOrNumeral
  | _ => false

def firstWord : Slice → String
  | .text s => (Article.firstWord? s).getD ""
  | _ => ""

/-- The article that is decided by what comes behind it: by the first word that is printed in front of the
next article. -/
def article? (later : List Slice) : Option Article :=
  ((later.takeWhile (!·.isArticle)).find? hasWord).map fun s => .before s.firstWord

/-- What slices show, `held` being what the targets hold. -/
def shown (held : String → String) : List Slice → List String
  | [] => []
  | .text s :: later => s :: shown held later
  | .article letters :: later => letters.apply ((article? later).getD .a) :: shown held later
  | .target name :: later => held name :: shown held later

end Slice

/-! ## Targets -/

namespace Edit

variable {edits : List Edit} {e : Edit} {name : String}

theorem held_append_of_drops (h : e.drops name = true) :
    held (edits ++ [e]) name = e.written name := by
  simp [held, h]

theorem held_append_of_keeps (h : e.drops name = false) :
    held (edits ++ [e]) name = held edits name ++ e.written name := by
  simp [held, h, String.append_assoc]

end Edit

namespace Chain

theorem targets_finishText (chain : Chain) : chain.finishText.targets = chain.targets := by
  unfold finishText
  split <;> rfl

/-- What one edit does to a target. -/
theorem getD_targets_edit (chain : Chain) (e : Edit) (name : String) :
    (chain.edit e).targets.getD name "" =
      if e.drops name then e.written name else chain.targets.getD name "" ++ e.written name := by
  cases e with
  | print text =>
    simp only [edit, print]
    split <;> simp [Edit.drops, Edit.written]
  | article => simp [edit, insertArticle, targets_finishText, Edit.drops, Edit.written]
  | setCase mode => simp [edit, setCase, Edit.drops, Edit.written]
  | target n =>
    simp only [edit, insertTarget, targets_finishText, Std.TreeMap.getD_insertIfNew,
      Std.LawfulEqCmp.compare_eq_iff_eq, Edit.drops, Edit.written, String.append_empty]
    split
    · next h =>
      obtain ⟨rfl, hnew⟩ := h
      simp [Std.TreeMap.getD_eq_fallback hnew]
    · simp
  | write n text overwrite =>
    simp only [edit, writeTarget, Std.TreeMap.getD_insert, Std.LawfulEqCmp.compare_eq_iff_eq, Edit.drops,
      Edit.written]
    by_cases hn : n = name
    · cases overwrite <;> simp [hn]
    · simp [hn]
  | clear n =>
    simp only [edit, clearTarget, Edit.drops, Edit.written, String.append_empty]
    by_cases hn : n = name
    · subst hn
      split
      · simp
      · next h => simp [Std.TreeMap.getD_eq_fallback (by simpa using h)]
    · split <;> simp [Std.TreeMap.getD_insert, Std.LawfulEqCmp.compare_eq_iff_eq, hn]

/-- A target holds what the edits of its name have left. -/
theorem getD_targets (edits : List Edit) {chain : Chain} (hnew : chain.targets = {}) (name : String) :
    (edits.foldl edit chain).targets.getD name "" = Edit.held edits name := by
  induction edits using List.reverseRecOn with
  | nil => simp [hnew, Edit.held]
  | append_singleton edits e ih =>
    rw [List.foldl_append, List.foldl_cons, List.foldl_nil, getD_targets_edit, ih]
    cases hdrops : e.drops name with
    | true => rw [if_pos rfl, Edit.held_append_of_drops hdrops]
    | false => rw [if_neg Bool.false_ne_true, Edit.held_append_of_keeps hdrops]

end Chain

/-! ## Articles -/

theorem Article.isSome_firstWord? (s : String) :
    (firstWord? s).isSome = s.toList.any Text.isLetterOrNumeral := by
  unfold firstWord?
  split
  · next h =>
    rw [Option.isSome_none, eq_comm, List.any_eq_false]
    exact fun c hc => by simpa using List.dropWhile_eq_nil_iff.1 h c hc
  · next h =>
    rw [Option.isSome_some, eq_comm, List.any_eq_true]
    by_contra hnone
    exact h (List.dropWhile_eq_nil_iff.2 fun c hc => by simpa using fun hword => hnone ⟨c, hc, hword⟩)

namespace Slice

variable (later : List Slice)

theorem article?_text (s : String) :
    article? (.text s :: later) = ((Article.firstWord? s).map .before).or (article? later) := by
  have hword : (Slice.text s).hasWord = (Article.firstWord? s).isSome :=
    (Article.isSome_firstWord? s).symm
  rw [article?, List.takeWhile_cons_of_pos rfl, List.find?_cons, hword]
  cases h : Article.firstWord? s with
  | none => rfl
  | some word => simp [firstWord, h]

theorem article?_article (letters : ArticleCase) : article? (.article letters :: later) = none := rfl

theorem article?_target (name : String) : article? (.target name :: later) = article? later := rfl

end Slice

/-- The letters of an article are those of a word that is printed in its place. -/
theorem Capitalizer.articleCase_eq (z : Capitalizer) :
    (if z.mode = .upper then (ArticleCase.upper, z)
      else (if (z.apply "a").1 = "A" then .capital else .lower, (z.apply "a").2)) =
      (z.articleCase, (z.apply "a").2) := by
  have hletter : Text.isLetter 'a' = true := by decide +kernel
  have hupper : Text.upperOf 'a' = ['A'] := by decide +kernel
  obtain ⟨mode, wordStart, sentenceStart⟩ := z
  cases mode with
  | lower =>
    have hlower : Text.lower "a" = "a" := by decide +kernel
    simp [articleCase, apply, hlower]
  | word => cases wordStart <;> simp [articleCase, apply, push, step, hletter, hupper]
  | sentence => cases sentenceStart <;> simp [articleCase, apply, push, step, hletter, hupper]
  | _ => simp [articleCase, apply, push, step, hletter, hupper]

/-! ## Channels -/

/-- What a segment shows, `held` being what the targets hold. -/
def Segment.shown (held : String → String) : Segment → String
  | .text s => s
  | .article decided letters => letters.apply (decided.getD .a)
  | .target name => held name

theorem modify_push_of_lt {α : Type} {xs : Array α} {i : Nat} (h : i < xs.size) (f : α → α) (x : α) :
    (xs.push x).modify i f = (xs.modify i f).push x := by
  refine Array.ext_getElem? fun j => ?_
  simp only [Array.getElem?_modify, Array.getElem?_push, Array.size_modify]
  split
  · split
    · omega
    · rfl
  · rfl

namespace Chain

/-- The finished segments when the article that waits for a word has been decided. -/
def decided (chain : Chain) (article : Option Article) : Array Segment :=
  match chain.pending, article with
  | some i, some article => chain.sealed.modify i (decideSegment article)
  | _, _ => chain.sealed

/-- What a channel shows when the article that waits for a word has been decided. -/
def shown (chain : Chain) (held : String → String) (article : Option Article) : String :=
  String.join ((chain.decided article).toList.map (Segment.shown held)) ++ chain.current

/-- The article that waits for a word is one of the finished segments. -/
def Settled (chain : Chain) : Prop := ∀ i ∈ chain.pending, i < chain.sealed.size

variable {chain : Chain} {held : String → String} {article : Option Article}

theorem decided_none : chain.decided none = chain.sealed := by
  unfold decided
  split
  · contradiction
  · rfl

theorem render_eq_shown : chain.render = chain.shown (chain.targets.getD · "") none := by
  have hsegment : chain.segmentText = Segment.shown (chain.targets.getD · "") := by
    funext s
    cases s <;> rfl
  rw [render, shown, decided_none, hsegment, ← Array.foldl_toList, String.join, List.foldl_map]

theorem decided_push (h : chain.Settled) (s : Segment) (current : String) (targets : Std.TreeMap String String) :
    ({ chain with sealed := chain.sealed.push s, current, targets } : Chain).decided article =
      (chain.decided article).push s := by
  unfold decided
  dsimp only
  split
  · next i _ hpending => exact modify_push_of_lt (h i hpending) _ s
  · rfl

theorem current_finishText (chain : Chain) : chain.finishText.current = "" := by
  unfold finishText
  split
  · next h => simpa using h
  · rfl

theorem settled_finishText (h : chain.Settled) : chain.finishText.Settled := by
  unfold finishText
  split
  · exact h
  · intro i hi
    rw [Array.size_push]
    exact Nat.lt_succ_of_lt (h i hi)

/-- Ending the current text changes nothing that is shown. -/
theorem shown_finishText (h : chain.Settled) :
    chain.finishText.shown held article = chain.shown held article := by
  unfold finishText
  split
  · rfl
  · rw [shown, shown, decided_push h]
    simp [Segment.shown]

/-- A text that is printed is shown behind all else, and it decides the article that waits for a word. -/
theorem shown_print (chain : Chain) (text : String) :
    (chain.print text).shown held article =
      chain.shown held (((Article.firstWord? (chain.case.apply text).1).map .before).or article) ++
        (chain.case.apply text).1 := by
  unfold print
  cases hpending : chain.pending with
  | none => simp [shown, decided, hpending, String.append_assoc]
  | some i =>
    cases hword : Article.firstWord? (chain.case.apply text).1 with
    | none => simp [shown, decided, hpending, hword, String.append_assoc]
    | some word => simp [shown, decided, hpending, hword, String.append_assoc]

theorem shown_insertTarget (h : chain.Settled) (name : String) :
    (chain.insertTarget name).shown held article = chain.shown held article ++ held name := by
  unfold insertTarget
  rw [← shown_finishText h, shown, decided_push (settled_finishText h), shown]
  simp [Segment.shown, current_finishText]

/-- A slot for an article of these letters behind all else, and the capitalization from there on. -/
def withArticle (chain : Chain) (letters : ArticleCase) (case : Capitalizer) : Chain :=
  let finished := ({ chain with case } : Chain).finishText
  { finished with
    sealed := finished.sealed.push (.article none letters)
    pending := some finished.sealed.size }

theorem insertArticle_eq (chain : Chain) :
    chain.insertArticle = chain.withArticle chain.case.articleCase (chain.case.apply "a").2 := by
  have hcase := chain.case.articleCase_eq
  unfold insertArticle
  split at hcase
  · next hupper =>
    obtain ⟨hletters, hcase⟩ := Prod.mk.inj hcase
    rw [if_pos hupper, ← hletters, ← hcase]
    rfl
  · next hupper =>
    obtain ⟨hletters, -⟩ := Prod.mk.inj hcase
    rw [if_neg hupper, ← hletters]
    rfl

/-- The article that was waiting stays undecided, and the new one is shown as it will be decided. -/
theorem shown_withArticle (h : chain.Settled) (letters : ArticleCase) (case : Capitalizer) :
    (chain.withArticle letters case).shown held article =
      chain.shown held none ++ letters.apply (article.getD .a) := by
  have hsettled : ({ chain with case } : Chain).Settled := h
  have hfinish : ({ chain with case } : Chain).finishText.shown held none = chain.shown held none :=
    shown_finishText hsettled
  rw [← hfinish, withArticle]
  generalize hfinished : ({ chain with case } : Chain).finishText = c
  have hcurrent : c.current = "" := hfinished ▸ current_finishText _
  rw [shown, shown, decided_none, hcurrent]
  cases article with
  | none => simp [decided, Segment.shown]
  | some article =>
    have hdecided : (c.sealed.push (.article none letters)).modify c.sealed.size (decideSegment article) =
        c.sealed.push (.article (some article) letters) := by
      refine Array.ext_getElem? fun j => ?_
      simp only [Array.getElem?_modify, Array.getElem?_push]
      split
      · next hj => simp [← hj, decideSegment]
      · next hj => rw [if_neg (Ne.symm hj), if_neg (Ne.symm hj)]
    simp [decided, hdecided, Segment.shown]

/-! ## Edits -/

theorem settled_edit (h : chain.Settled) (e : Edit) : (chain.edit e).Settled := by
  cases e with
  | print text =>
    simp only [edit, print]
    split
    · exact fun i hi => by cases hi
    · exact h
  | article =>
    rw [edit, insertArticle_eq]
    rintro i ⟨⟩
    simp [withArticle]
  | target name =>
    intro i hi
    have hfinished := settled_finishText h i hi
    simp only [edit, insertTarget, Array.size_push]
    omega
  | setCase mode => exact h
  | write name text overwrite => exact h
  | clear name =>
    simp only [edit, clearTarget]
    split <;> exact h

/-- **What a channel shows.** After any edits, a channel shows what has been shown before them, with the
article that was waiting decided by the edits, and then what the edits add. -/
theorem shown_edits (h : chain.Settled) (edits : List Edit) :
    (edits.foldl edit chain).shown held none =
      chain.shown held (Slice.article? (Edit.slices chain.case edits)) ++
        String.join (Slice.shown held (Edit.slices chain.case edits)) := by
  induction edits generalizing chain with
  | nil => simp [Edit.slices, Slice.shown, Slice.article?]
  | cons e edits ih =>
    rw [List.foldl_cons, ih (settled_edit h e)]
    cases e with
    | print text =>
      have hcase : (chain.print text).case = (chain.case.apply text).2 := by
        simp only [print]
        split <;> rfl
      rw [edit, hcase, shown_print, Edit.slices, Slice.article?_text, Slice.shown, String.join_cons,
        String.append_assoc]
    | article =>
      have hcase : chain.insertArticle.case = (chain.case.apply "a").2 := by
        rw [insertArticle_eq]
        exact case_finishText _
      rw [edit, hcase, insertArticle_eq, shown_withArticle h, Edit.slices, Slice.article?_article,
        Slice.shown, String.join_cons, String.append_assoc]
    | target name =>
      have hcase : (chain.insertTarget name).case = chain.case := case_finishText chain
      rw [edit, hcase, shown_insertTarget h, Edit.slices, Slice.article?_target, Slice.shown,
        String.join_cons, String.append_assoc]
    | setCase mode => rfl
    | write name text overwrite => rfl
    | clear name =>
      simp only [edit, clearTarget]
      split <;> rfl

/-- **A channel renders to what its edits mean.** Whatever is done to a new channel, in the end it shows, in
the order of the edits, each text as it was capitalized when it was printed, each article as the first word
printed between it and the next article decides (`a` if there is none) in the letters that were fixed when
it was made, and for each slot of a target what the last edit that overwrote or cleared the target and those
behind it have written to it. -/
theorem render_edits (name : String) (visibility : Visibility) (mode : Capitals) (edits : List Edit) :
    (edits.foldl edit (new name visibility mode)).render =
      String.join (Slice.shown (Edit.held edits) (Edit.slices { mode } edits)) := by
  have hsettled : (new name visibility mode).Settled := fun i hi => by cases hi
  have htargets : ((edits.foldl edit (new name visibility mode)).targets.getD · "") = Edit.held edits :=
    funext (getD_targets edits rfl)
  have hempty (held : String → String) (article : Option Article) :
      (new name visibility mode).shown held article = "" := by
    simp [shown, decided, new]
  rw [render_eq_shown, htargets, shown_edits hsettled, hempty, String.empty_append]
  rfl

end Chain

end Wordloom
