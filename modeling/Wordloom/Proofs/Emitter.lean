import Wordloom.Proofs.Script

/-!
# Wordloom.Proofs.Emitter

An emitter follows a script: its code decodes to the lines of the script, however the strings were
merged, shared and renumbered on the way. The relation `Emitter.Follows` is kept by each operation
and by any number of them. The index of the strings stays in step with their table (`Indexes`), which is
why no string stands twice; `Emitter.build` ends with a table in which every string is used.
-/

namespace Wordloom

/-! ## Instructions and their strings -/

/-- An instruction in the code of an emitter: it has its string by index. -/
inductive Ref where
  | plain (i : Instr)
  | text (use : StringUse) (index : Nat)

namespace Ref

def instr : Ref → Instr
  | plain i => i
  | text use index => use.instr (Int32.ofNat index)

def line? (strings : Array String) : Ref → Option Line
  | plain i => some (.plain i)
  | text use index => strings[index]?.map (.text use)

/-- Whether the instruction refers to the string with the given index. -/
def refersTo (n : Nat) : Ref → Bool
  | plain _ => false
  | text _ index => index == n

/-- How many instructions refer to a string. -/
def uses (refs : List Ref) (n : Nat) : Nat := refs.countP (refersTo n)

theorem size_instr_text (use : StringUse) (i j : Int32) : (use.instr i).size = (use.instr j).size := by
  cases use <;> rfl

variable {strings : Array String} {refs : List Ref}

theorem size_of_line? {r : Ref} {l : Line} (h : r.line? strings = some l) :
    r.instr.size = l.size := by
  cases r with
  | plain i =>
    cases h
    rfl
  | text use index =>
    obtain ⟨s, -, rfl⟩ := Option.map_eq_some_iff.1 h
    exact size_instr_text use _ 0

/-- Instructions that have the sizes of lines one by one have their size together. -/
theorem sizes_of_map {α : Type} {f : α → Option Line} {g : α → Instr}
    (hsize : ∀ {a l}, f a = some l → (g a).size = l.size) {xs : List α} {ls : List Line}
    (h : xs.map f = ls.map some) : Instr.sizes (xs.map g) = Line.sizes ls := by
  induction xs generalizing ls with
  | nil =>
    cases ls with
    | nil => rfl
    | cons l ls => simp at h
  | cons x xs ih =>
    cases ls with
    | nil => simp at h
    | cons l ls =>
      rw [List.map_cons, List.map_cons, List.cons_eq_cons] at h
      rw [List.map_cons, Instr.sizes_cons, Line.sizes_cons, hsize h.1, ih h.2]

/-- What is said of a table is said of every longer one. -/
theorem line?_mono {more : Array String} (h : strings.toList <+: more.toList) {r : Ref} {l : Line}
    (hl : r.line? strings = some l) : r.line? more = some l := by
  cases r with
  | plain i => exact hl
  | text use index =>
    obtain ⟨s, hs, rfl⟩ := Option.map_eq_some_iff.1 hl
    rw [← Array.getElem?_toList] at hs
    have hlt := (List.getElem?_eq_some_iff.1 hs).1
    obtain ⟨rest, hrest⟩ := h
    rw [line?, ← Array.getElem?_toList, ← hrest, List.getElem?_append_left hlt, hs]
    rfl

theorem lines_mono {more : Array String} (h : strings.toList <+: more.toList) {ls : List Line}
    (hls : refs.map (line? strings) = ls.map some) : refs.map (line? more) = ls.map some := by
  induction refs generalizing ls with
  | nil => exact hls
  | cons r refs ih =>
    cases ls with
    | nil => simp at hls
    | cons l ls =>
      rw [List.map_cons, List.map_cons, List.cons_eq_cons] at hls ⊢
      exact ⟨line?_mono h hls.1, ih hls.2⟩

theorem exists_plain {before after : List Line} {i : Instr}
    (h : refs.map (line? strings) = (before ++ .plain i :: after).map some) :
    ∃ front back, refs = front ++ plain i :: back ∧
      front.map (line? strings) = before.map some ∧ back.map (line? strings) = after.map some := by
  rw [List.map_append, List.map_eq_append_iff] at h
  obtain ⟨front, rest, rfl, hfront, hrest⟩ := h
  obtain ⟨r, back, rfl, hr, hback⟩ := List.map_eq_cons_iff.1 hrest
  cases r with
  | plain j =>
    cases hr
    exact ⟨front, back, rfl, hfront, hback⟩
  | text use index => simp [line?] at hr

@[simp] theorem uses_append (refs more : List Ref) (n : Nat) :
    uses (refs ++ more) n = uses refs n + uses more n := List.countP_append

@[simp] theorem uses_plain (i : Instr) (n : Nat) : uses [plain i] n = 0 := rfl

theorem uses_text (use : StringUse) (index n : Nat) :
    uses [text use index] n = if index = n then 1 else 0 := by
  simp [uses, refersTo, List.countP_cons]

/-- A string without uses may be replaced. -/
theorem line?_set {n : Nat} {s : String} (h : uses refs n = 0) :
    refs.map (line? (strings.setIfInBounds n s)) = refs.map (line? strings) := by
  apply List.map_congr_left
  intro r hr
  have hn : r.refersTo n = false := by
    simpa using List.countP_eq_zero.1 h r hr
  cases r with
  | plain i => rfl
  | text use index =>
    have hne : n ≠ index := by
      rintro rfl
      simp [refersTo] at hn
    rw [line?, line?, Array.getElem?_setIfInBounds_ne hne]

end Ref

namespace Emitter

open Instr (flatten)

/-! ## Bytes written over others -/

theorem overwrite_toList (code : Array UInt8) (before old after new : List UInt8)
    (h : code.toList = before ++ old ++ after) (hlen : new.length = old.length) :
    (overwrite code before.length new).toList = before ++ new ++ after := by
  induction new generalizing code before old with
  | nil =>
    rw [List.length_eq_zero_iff.1 hlen.symm] at h
    exact h
  | cons b new ih =>
    obtain ⟨o, old, rfl⟩ : ∃ o os, old = o :: os := List.exists_cons_of_length_eq_add_one hlen.symm
    have hset : (code.setIfInBounds before.length b).toList = (before ++ [b]) ++ old ++ after := by
      rw [Array.toList_setIfInBounds, h]
      simp
    have hstep := ih _ (before ++ [b]) old hset (by simpa using hlen)
    rw [overwrite, ← List.length_singleton (a := b), ← List.length_append, hstep]
    simp

variable {e : Emitter} {s : Script} {refs : List Ref} {i : Instr} {before : List Ref} {e' : Emitter}
  {uses : Nat → Nat}

/-- An instruction may be put in the place of one of the same size. -/
theorem overwrite_flatten {code : Array UInt8} {before after : List Instr} {j : Instr}
    (h : code.toList = flatten (before ++ i :: after)) (hsize : j.size = i.size) :
    (overwrite code (Instr.sizes before) j.encode).toList = flatten (before ++ j :: after) := by
  rw [Instr.flatten_append, Instr.flatten_cons, ← List.append_assoc] at h
  have hlen : j.encode.length = i.encode.length := by
    rw [Instr.length_encode, Instr.length_encode, hsize]
  rw [← Instr.length_flatten, overwrite_toList code _ _ _ _ h hlen, Instr.flatten_append,
    Instr.flatten_cons, List.append_assoc]

/-! ## The table of strings -/

/-- The index is in step with the strings: it has each of them with its place, and nothing else. -/
def Indexes (index : Std.TreeMap String Nat) (strings : Array String) : Prop :=
  ∀ (s : String) (i : Nat), index[s]? = some i ↔ strings[i]? = some s

namespace Indexes

variable {index : Std.TreeMap String Nat} {strings : Array String} {s : String}

/-- A string that has one place in the index cannot stand at two. -/
theorem nodup (h : Indexes index strings) : strings.toList.Nodup := by
  refine List.pairwise_iff_getElem.2 fun i j hi hj hij heq => ?_
  have hfirst := (h strings.toList[j] i).2 (by simp [← heq])
  have hsecond := (h strings.toList[j] j).2 (by simp)
  rw [hfirst] at hsecond
  cases hsecond
  omega

/-- A new string goes to the end. -/
theorem push (h : Indexes index strings) (hnew : index[s]? = none) :
    Indexes (index.insert s strings.size) (strings.push s) := by
  intro t i
  rw [Std.TreeMap.getElem?_insert, Array.getElem?_push]
  by_cases hs : s = t
  · by_cases hi : i = strings.size
    · simp [hs, hi]
    · simp [← hs, hi, Ne.symm hi, ← h s i, hnew]
  · by_cases hi : i = strings.size
    · simp [hs, hi, h t strings.size]
    · simp [hs, hi, h t i]

/-- A string is replaced by a new one: the old one must not be found any more. -/
theorem replace (h : Indexes index strings) {n : Nat} {old : String} (hold : strings[n]? = some old)
    (hnew : index[s]? = none) :
    Indexes ((index.erase old).insert s n) (strings.setIfInBounds n s) := by
  intro t i
  obtain ⟨hn, hat⟩ := Array.getElem?_eq_some_iff.1 hold
  rw [Std.TreeMap.getElem?_insert, Std.TreeMap.getElem?_erase, Array.getElem?_setIfInBounds]
  by_cases hs : s = t
  · by_cases hi : n = i
    · simp [hs, ← hi, hn]
    · simp [← hs, hi, ← h s i, hnew]
  · by_cases hi : n = i
    · simp [hs, ← hi, hn, h t n, hat]
    · by_cases ht : old = t
      · -- the only place of the old string was `n`
        simp [← ht, ht ▸ hs, hi, ← h old i, (h old n).2 hold]
      · simp [hs, hi, ht, h t i]

/-- The index of a list without duplicates. -/
theorem ofList {strings : List String} (h : strings.Nodup) :
    Indexes (.ofList strings.zipIdx) strings.toArray := by
  have hdistinct : strings.zipIdx.Pairwise fun a b => ¬ compare a.1 b.1 = .eq := by
    have hfst : (strings.zipIdx.map (·.1)).Nodup := by simpa using h
    refine (List.pairwise_map.1 hfst).imp fun hne heq => hne ?_
    simpa using heq
  have hfound {s : String} {i : Nat} (hi : strings[i]? = some s) :
      (Std.TreeMap.ofList strings.zipIdx)[s]? = some i :=
    Std.TreeMap.getElem?_ofList_of_mem Std.compare_self hdistinct (List.mem_zipIdx_iff_getElem?.2 hi)
  intro s i
  rw [List.getElem?_toArray]
  refine ⟨fun hs => ?_, hfound⟩
  have hmem : s ∈ strings := by
    have hkey := Std.TreeMap.mem_iff_isSome_getElem?.2 (Option.isSome_of_eq_some hs)
    simpa using hkey
  obtain ⟨j, hj⟩ := List.getElem?_of_mem hmem
  rw [hfound hj] at hs
  cases hs
  exact hj

end Indexes

/-- The strings are indexed, and the uses of each are counted. -/
structure Counts (e : Emitter) (uses : Nat → Nat) : Prop where
  size : e.uses.size = e.strings.size
  count : ∀ n, e.uses.getD n 0 = uses n
  indexed : Indexes e.stringIndex e.strings

/-- There is a string more, or one more use of a string. -/
theorem intern_eq (e : Emitter) (s : String) :
    ∃ strings index uses,
      (e.intern s).2 = { e with strings := strings, stringIndex := index, uses := uses } := by
  unfold intern
  split <;> exact ⟨_, _, _, rfl⟩

theorem getD_modify (a : Array Nat) (i n : Nat) (f : Nat → Nat) (h : i < a.size) :
    (a.modify i f).getD n 0 = if n = i then f (a.getD n 0) else a.getD n 0 := by
  simp only [Array.getD_eq_getD_getElem?, Array.getElem?_modify]
  by_cases hn : n = i
  · subst hn
    simp [h]
  · simp [hn, Ne.symm hn]

/-- The string is found at its place, and the others stay where they are. -/
theorem Counts.interned (h : Counts e uses) (s : String) :
    (e.intern s).2.strings[(e.intern s).1]? = some s ∧
      e.strings.toList <+: (e.intern s).2.strings.toList := by
  unfold Emitter.intern
  split
  · next i hi => exact ⟨(h.indexed s i).1 hi, List.prefix_rfl⟩
  · refine ⟨by simp, ?_⟩
    rw [Array.toList_push]
    exact List.prefix_append _ _

/-- Interning a string counts one more use of it. -/
theorem Counts.intern (h : Counts e uses) (s : String) :
    Counts (e.intern s).2 fun n => uses n + if n = (e.intern s).1 then 1 else 0 := by
  unfold Emitter.intern
  split
  · next i hi =>
    obtain ⟨hlt, -⟩ := Array.getElem?_eq_some_iff.1 ((h.indexed s i).1 hi)
    refine ⟨by simpa using h.size, fun n => ?_, h.indexed⟩
    rw [getD_modify _ _ _ _ (h.size ▸ hlt), h.count]
    split <;> rfl
  · next hnew =>
    refine ⟨by simpa using h.size, fun n => ?_, h.indexed.push hnew⟩
    rw [← h.count n]
    simp only [Array.getD_eq_getD_getElem?, Array.getElem?_push, h.size]
    by_cases hn : n = e.strings.size
    · simp [hn, ← h.size]
    · simp [hn]

/-! ## Following a script -/

/-- The code consists of the given instructions. -/
structure Represents (e : Emitter) (refs : List Ref) : Prop where
  code : e.code.toList = flatten (refs.map Ref.instr)
  plain : ∀ i, Ref.plain i ∈ refs → i.namesString = false
  counts : Counts e (Ref.uses refs)

/-- The instruction that the next print is joined to is the last one. -/
def LastIs (refs : List Ref) : Option LastPrint → Option String → Prop
  | none, none => True
  | some last, some _ =>
    ∃ before, refs = before ++ [.text .print last.index] ∧
      last.offset = Instr.sizes (before.map Ref.instr)
  | _, _ => False

/-- The code says what the script says. -/
def Follows (e : Emitter) (s : Script) : Prop :=
  ∃ refs, Represents e refs ∧ refs.map (Ref.line? e.strings) = s.all.map some ∧
    LastIs refs e.lastPrint s.pending

theorem follows_empty (debug : Bool) : Follows { debug } {} :=
  ⟨[], ⟨rfl, by simp, ⟨rfl, fun _ => rfl, by simp [Indexes]⟩⟩, rfl, trivial⟩

theorem Follows.position (h : Follows e s) : e.position = s.size := by
  obtain ⟨refs, hrep, hlines, -⟩ := h
  rw [Emitter.position, ← Array.length_toList, hrep.code, Instr.length_flatten,
    Ref.sizes_of_map Ref.size_of_line? hlines, Script.size]

/-- What an emitter has written: its code, its strings and what it knows of them. -/
def written (e : Emitter) : Emitter :=
  ⟨false, e.code, e.strings, e.stringIndex, e.uses, e.lastPrint, #[], #[], #[], #[], .empty⟩

theorem follows_written : Follows e.written s ↔ Follows e s :=
  exists_congr fun _ => and_congr_left fun _ =>
    ⟨fun h => ⟨h.code, h.plain, ⟨h.counts.size, h.counts.count, h.counts.indexed⟩⟩,
      fun h => ⟨h.code, h.plain, ⟨h.counts.size, h.counts.count, h.counts.indexed⟩⟩⟩

/-- What an emitter follows depends on what it has written. -/
theorem Follows.congr (h : Follows e s) (hwritten : e'.written = e.written) : Follows e' s := by
  rw [← follows_written, hwritten]
  exact follows_written.2 h

theorem Represents.withLast (h : Represents e refs) (last : Option LastPrint) :
    Represents { e with lastPrint := last } refs :=
  ⟨h.code, h.plain, h.counts.size, h.counts.count, h.counts.indexed⟩

theorem Follows.close (h : Follows e s) : Follows { e with lastPrint := none } s.close := by
  obtain ⟨refs, hrep, hlines, -⟩ := h
  exact ⟨refs, hrep.withLast none, by simpa [Script.close, Script.all] using hlines, trivial⟩

theorem Represents.emit (h : Represents e refs) (r : Ref)
    (hplain : ∀ i, r = .plain i → i.namesString = false) (hcode : e'.code = e.code)
    (hcounts : Counts e' (Ref.uses (refs ++ [r]))) : Represents (e'.emit r.instr) (refs ++ [r]) := by
  refine ⟨?_, ?_, hcounts.size, hcounts.count, hcounts.indexed⟩
  · simp [Emitter.emit, hcode, h.code, Instr.flatten]
  · intro i hi
    rw [List.mem_append, List.mem_singleton] at hi
    obtain hi | hi := hi
    · exact h.plain i hi
    · exact hplain i hi.symm

theorem Follows.emit (h : Follows e s) (hi : i.namesString = false) :
    Follows (e.emit i) (s.add (.plain i)) := by
  obtain ⟨refs, hrep, hlines, -⟩ := h
  have hcounts : Counts e (Ref.uses (refs ++ [.plain i])) := by
    have huses : Ref.uses (refs ++ [.plain i]) = Ref.uses refs := by
      funext n
      simp
    rw [huses]
    exact hrep.counts
  refine ⟨_, hrep.emit (.plain i) ?_ rfl hcounts, ?_, trivial⟩
  · rintro _ ⟨⟩
    exact hi
  · simp only [List.map_append, Emitter.emit, hlines]
    simp [Script.add, Script.all, Ref.line?]

theorem Follows.mark (h : Follows e s) (p : Position) :
    Follows (e.mark p) (if e.debug then s.add (.mark p) else s) := by
  unfold Emitter.mark
  split
  · exact h.emit rfl
  · exact h

/-! ### Strings -/

/-- A string that is new to the instructions is interned and referred to. -/
theorem Represents.emitInterned (h : Represents e refs) (use : StringUse) (s : String) :
    Represents ((e.intern s).2.emit (use.instr (Int32.ofNat (e.intern s).1)))
      (refs ++ [.text use (e.intern s).1]) := by
  obtain ⟨_, _, _, hrest⟩ := intern_eq e s
  have hcode : (e.intern s).2.code = e.code := by rw [hrest]
  refine h.emit (.text use _) (by simp) hcode ?_
  have hcounts := h.counts.intern s
  have huses : Ref.uses (refs ++ [.text use (e.intern s).1]) =
      fun n => Ref.uses refs n + if n = (e.intern s).1 then 1 else 0 := by
    funext n
    rw [Ref.uses_append, Ref.uses_text]
    simp only [eq_comm]
  rw [huses]
  exact hcounts

theorem Counts.lines_intern (h : Counts e uses) {ls : List Line}
    (hlines : refs.map (Ref.line? e.strings) = ls.map some) (use : StringUse) (s : String) :
    (refs ++ [Ref.text use (e.intern s).1]).map (Ref.line? (e.intern s).2.strings) =
      (ls ++ [Line.text use s]).map some := by
  obtain ⟨hstring, hmore⟩ := h.interned s
  rw [List.map_append, List.map_append, Ref.lines_mono hmore hlines]
  simp [Ref.line?, hstring]

theorem emitString_of_ne_print (e : Emitter) (use : StringUse) (s : String) (h : use ≠ .print) :
    e.emitString use s = (e.intern s).2.emit (use.instr (Int32.ofNat (e.intern s).1)) := by
  cases use with
  | print => exact absurd rfl h
  | push | openChannel v => rfl

theorem emitString_print_of_none (e : Emitter) (s : String) (h : e.lastPrint = none) :
    e.emitString .print s =
      { (e.intern s).2.emit (.printString (Int32.ofNat (e.intern s).1)) with
        lastPrint := some ⟨(e.intern s).2.position, (e.intern s).1⟩ } := by
  simp only [emitString, h]
  rfl

/-- A string in the place of another one. -/
def withString (e : Emitter) (n : Nat) (old new : String) : Emitter :=
  { e with
    strings := e.strings.setIfInBounds n new
    stringIndex := (e.stringIndex.erase old).insert new n }

/-- The string of the last print grows in place: nothing else refers to it. -/
theorem Represents.grow {n : Nat} {old longer : String} (h : Represents e (before ++ [.text .print n]))
    (hone : e.uses.getD n 0 = 1) (hold : e.strings[n]? = some old)
    (hnew : e.stringIndex[longer]? = none) :
    Represents (e.withString n old longer) (before ++ [.text .print n]) ∧
      before.map (Ref.line? (e.strings.setIfInBounds n longer)) =
        before.map (Ref.line? e.strings) := by
  have hbefore : Ref.uses before n = 0 := by
    have hcount := h.counts.count n
    rw [hone, Ref.uses_append, Ref.uses_text, if_pos rfl] at hcount
    omega
  refine ⟨⟨h.code, h.plain, ?_, h.counts.count, ?_⟩, Ref.line?_set hbefore⟩
  · simpa [withString] using h.counts.size
  · exact h.counts.indexed.replace hold hnew

/-- One use of a string fewer. -/
def release (e : Emitter) (n : Nat) : Emitter := { e with uses := e.uses.modify n (· - 1) }

theorem extendPrint_of_new (e : Emitter) (last : LastPrint) (s : String) {old : String}
    (hold : e.strings.getD last.index "" = old)
    (h : e.uses.getD last.index 0 = 1 ∧ !e.stringIndex.contains (old ++ s)) :
    e.extendPrint last s = e.withString last.index old (old ++ s) := by
  subst hold
  exact if_pos h

theorem extendPrint_of_shared (e : Emitter) (last : LastPrint) (s : String) {old : String}
    (hold : e.strings.getD last.index "" = old)
    (h : ¬(e.uses.getD last.index 0 = 1 ∧ !e.stringIndex.contains (old ++ s))) {n : Nat}
    (he' : (e.release last.index).intern (old ++ s) = (n, e')) :
    e.extendPrint last s =
      { e'.replaceAt last.offset (.printString (Int32.ofNat n)) with
        lastPrint := some ⟨last.offset, n⟩ } := by
  subst hold
  rw [release] at he'
  rw [extendPrint, if_neg h]
  dsimp only
  rw [he']

/-- A text that is not printed after all is counted one time less. -/
theorem Represents.release {n : Nat} (h : Represents e (before ++ [.text .print n]))
    (hn : n < e.uses.size) : Counts (e.release n) (Ref.uses before) := by
  refine ⟨by simpa [Emitter.release] using h.counts.size, fun k => ?_, h.counts.indexed⟩
  rw [Emitter.release, getD_modify _ _ _ _ hn, h.counts.count, Ref.uses_append, Ref.uses_text]
  by_cases hk : k = n
  · simp [hk]
  · simp [hk, Ne.symm hk]

/-- The last print is pointed at another string. -/
theorem Represents.redirect {n m : Nat} (h : Represents e (before ++ [.text .print n]))
    (hcode : e'.code = e.code) (hcounts : Counts e' fun k => Ref.uses before k + if k = m then 1 else 0) :
    Represents
      (e'.replaceAt (Instr.sizes (before.map Ref.instr)) (.printString (Int32.ofNat m)))
      (before ++ [.text .print m]) := by
  have hbytes : e'.code.toList =
      flatten (before.map Ref.instr ++ (Ref.text .print n).instr :: []) := by
    rw [hcode, h.code, List.map_append, List.map_singleton]
  refine ⟨?_, ?_, ?_⟩
  · rw [List.map_append, List.map_singleton]
    exact overwrite_flatten hbytes (Ref.size_instr_text .print (Int32.ofNat m) _)
  · intro i hi
    exact h.plain i (by simpa using hi)
  · -- only the code is written to, so that the counts are those of `e'`
    unfold replaceAt
    refine ⟨hcounts.size, fun k => ?_, hcounts.indexed⟩
    rw [Ref.uses_append, Ref.uses_text]
    simpa only [eq_comm] using hcounts.count k

/-- A text behind one that was just printed joins it. -/
theorem Follows.extendPrint (h : Follows e s) {last : LastPrint} (hlast : e.lastPrint = some last)
    (text : String) : Follows (e.extendPrint last text) (s.addText .print text) := by
  obtain ⟨refs, hrep, hlines, hpending⟩ := h
  rw [hlast] at hpending
  cases hp : s.pending with
  | none =>
    rw [hp] at hpending
    exact hpending.elim
  | some printed =>
    rw [hp] at hpending
    obtain ⟨before, rfl, hoffset⟩ := hpending
    rw [Script.all, hp, List.map_append, List.map_append] at hlines
    obtain ⟨hbefore, hprinted⟩ := List.append_inj' hlines rfl
    have hstring : e.strings[last.index]? = some printed := by
      simpa [Ref.line?] using hprinted
    obtain ⟨hindex, -⟩ := Array.getElem?_eq_some_iff.1 hstring
    have hscript : s.addText .print text = { s with pending := some (printed ++ text) } := by
      simp [Script.addText, hp]
    have hold : e.strings.getD last.index "" = printed := by
      rw [Array.getD_eq_getD_getElem?, hstring, Option.getD_some]
    rw [hscript]
    by_cases hcond : e.uses.getD last.index 0 = 1 ∧ !e.stringIndex.contains (printed ++ text)
    · have hnew : e.stringIndex[printed ++ text]? = none :=
        Std.TreeMap.getElem?_eq_none_of_contains_eq_false (by simpa using hcond.2)
      obtain ⟨hgrown, hsame⟩ := hrep.grow hcond.1 hstring hnew
      rw [extendPrint_of_new e last text hold hcond]
      refine ⟨_, hgrown, ?_, ?_⟩
      · rw [withString, List.map_append, hsame, hbefore]
        simp [Script.all, Ref.line?, hindex]
      · rw [withString, hlast]
        exact ⟨before, rfl, hoffset⟩
    · have hreleased := hrep.release (hrep.counts.size ▸ hindex)
      have hcounts := hreleased.intern (printed ++ text)
      have hlines' := hreleased.lines_intern hbefore .print (printed ++ text)
      obtain ⟨_, _, _, hrest⟩ := intern_eq (e.release last.index) (printed ++ text)
      obtain ⟨n, e', he'⟩ : ∃ n e', (e.release last.index).intern (printed ++ text) = (n, e') :=
        ⟨_, _, rfl⟩
      rw [he'] at hcounts hlines' hrest
      have hcode : e'.code = e.code := by
        rw [show e' = _ from hrest]
        rfl
      have hrep' := hrep.redirect hcode hcounts
      rw [extendPrint_of_shared e last text hold hcond he', hoffset]
      refine ⟨before ++ [.text .print n], hrep'.withLast _, ?_, before, rfl, rfl⟩
      simpa [Script.all, replaceAt] using hlines'

/-- A text is added to the script, or to the text that was printed last. -/
theorem Follows.emitString (h : Follows e s) (use : StringUse) (text : String) :
    Follows (e.emitString use text) (s.addText use text) := by
  obtain ⟨refs, hrep, hlines, hpending⟩ := id h
  have hnew := hrep.emitInterned use text
  have hlines' := hrep.counts.lines_intern hlines use text
  by_cases huse : use = .print
  · subst huse
    cases hlast : e.lastPrint with
    | some last =>
      have hext := h.extendPrint hlast text
      simpa only [Emitter.emitString, hlast] using hext
    | none =>
      have hp : s.pending = none := by
        rw [hlast] at hpending
        cases hs : s.pending with
        | none => rfl
        | some t =>
          rw [hs] at hpending
          exact hpending.elim
      obtain ⟨_, _, _, hrest⟩ := intern_eq e text
      have hoffset : (e.intern text).2.position = Instr.sizes (refs.map Ref.instr) := by
        rw [hrest, Emitter.position, ← Array.length_toList, hrep.code, Instr.length_flatten]
      rw [emitString_print_of_none e text hlast]
      refine ⟨_, hnew.withLast _, ?_, refs, rfl, hoffset⟩
      rw [show ((e.intern text).2.emit _).strings = (e.intern text).2.strings from rfl, hlines']
      simp [Script.addText, Script.all, hp]
  · rw [emitString_of_ne_print e use text huse]
    refine ⟨_, hnew, ?_, ?_⟩
    · rw [show ((e.intern text).2.emit _).strings = (e.intern text).2.strings from rfl, hlines']
      simp [Script.addText, Script.add, Script.all, huse]
    · simp [Script.addText, Script.add, huse, Emitter.emit, LastIs]

/-! ### Jumps -/

theorem namesString_withTarget (i : Instr) (target : Int32) :
    (i.withTarget target).namesString = i.namesString := by
  cases i <;> rfl

/-- The print that the next one is joined to comes after the jump. -/
theorem LastIs.retarget {front back : List Ref} {last : Option LastPrint} {pending : Option String}
    (target : Int32) (h : LastIs (front ++ .plain i :: back) last pending) :
    LastIs (front ++ .plain (i.withTarget target) :: back) last pending := by
  match last, pending with
  | none, none => trivial
  | none, some _ => exact h.elim
  | some _, none => exact h.elim
  | some last, some _ =>
    obtain ⟨init, hinit, hoffset⟩ := h
    obtain rfl | ⟨back, r, rfl⟩ := List.eq_nil_or_concat back
    · have hlast := congrArg List.getLast? hinit
      simp at hlast
    · rw [List.concat_eq_append, ← List.cons_append, ← List.append_assoc] at hinit
      obtain ⟨rfl, hr⟩ := List.append_inj' hinit rfl
      refine ⟨front ++ .plain (i.withTarget target) :: back, ?_, ?_⟩
      · rw [List.concat_eq_append, hr]
        simp
      · rw [hoffset]
        simp [Ref.instr, Line.size_withTarget]

/-- A jump is given another target, whatever is behind it. -/
theorem Follows.retarget (h : Follows e s) {before after : List Line}
    (hs : s.lines = before ++ .plain i :: after) (target : Int32) :
    Follows (e.replaceAt (Line.sizes before) (i.withTarget target))
      { s with lines := before ++ .plain (i.withTarget target) :: after } := by
  obtain ⟨refs, hrep, hlines, hpending⟩ := h
  rw [Script.all, hs, List.append_assoc] at hlines
  obtain ⟨front, back, rfl, hfront, hback⟩ := Ref.exists_plain hlines
  have hcode : e.code.toList = flatten (front.map Ref.instr ++ i :: back.map Ref.instr) := by
    simpa [Ref.instr] using hrep.code
  have hsizes := Ref.sizes_of_map Ref.size_of_line? hfront
  refine ⟨front ++ .plain (i.withTarget target) :: back, ⟨?_, ?_, hrep.counts.size, ?_,
    hrep.counts.indexed⟩, ?_, ?_⟩
  · rw [replaceAt, ← hsizes, overwrite_flatten hcode (Line.size_withTarget i target)]
    simp [Ref.instr]
  · intro j hj
    rw [List.mem_append, List.mem_cons, Ref.plain.injEq] at hj
    obtain hj | rfl | hj := hj
    · exact hrep.plain j (by simp [hj])
    · rw [namesString_withTarget]
      exact hrep.plain i (by simp)
    · exact hrep.plain j (by simp [hj])
  · intro n
    have hcount := hrep.counts.count n
    simpa [replaceAt, Ref.uses, List.countP_cons, Ref.refersTo] using hcount
  · simp only [replaceAt, List.map_append, List.map_cons, hfront, hback]
    simp [Script.all, Ref.line?]
  · exact hpending.retarget target

theorem Follows.decodeAt (h : Follows e s) {before after : List Line}
    (hs : s.lines = before ++ .plain i :: after) :
    Instr.decodeAt e.code (Line.sizes before) = .ok (i, Line.sizes before + i.size) := by
  obtain ⟨refs, hrep, hlines, -⟩ := h
  rw [Script.all, hs, List.append_assoc] at hlines
  obtain ⟨front, back, rfl, hfront, -⟩ := Ref.exists_plain hlines
  rw [← Ref.sizes_of_map (g := Ref.instr) Ref.size_of_line? hfront]
  exact Instr.decodeAt_of_toList (by simpa [Ref.instr] using hrep.code)

/-- A jump gets its target. -/
theorem Follows.patch (h : Follows e s) {offset : Nat} (hjump : s.HasJump offset) (target : Nat) :
    Follows (e.patch offset target) (s.patch offset target) := by
  obtain ⟨before, i, after, hlines, rfl, htarget⟩ := hjump
  have hposition : e.code.size = s.size := h.position
  -- the jump stays where it is when the last print is closed
  obtain ⟨e', s', after', he', hs', h', hlines'⟩ :
      ∃ e' s' after', (if e.code.size ≤ target then { e with lastPrint := none } else e) = e' ∧
        (if s.size ≤ target then s.close else s) = s' ∧ Follows e' s' ∧
        s'.lines = before ++ .plain i :: after' := by
    by_cases hle : s.size ≤ target
    · refine ⟨_, s.close, after ++ (s.pending.map (Line.text .print)).toList, if_pos (by omega),
        if_pos hle, h.close, ?_⟩
      simp [Script.close, Script.all, hlines]
    · exact ⟨e, s, after, if_neg (by omega), if_neg hle, h, hlines⟩
  have hretarget := h'.retarget hlines' (Int32.ofNat target)
  have hline := Line.retarget_append (Int32.ofNat target) 0 before (.plain i) after'
  rw [Nat.zero_add, Line.withTarget] at hline
  simp only [Emitter.patch, Script.patch, he', hs', hlines', hline, h'.decodeAt hlines', htarget,
    if_true]
  exact hretarget

/-! ## What is changed -/

theorem size_overwrite (code : Array UInt8) (offset : Nat) (bs : List UInt8) :
    (overwrite code offset bs).size = code.size := by
  induction bs generalizing code offset with
  | nil => rfl
  | cons b bs ih => rw [overwrite, ih, Array.size_setIfInBounds]

theorem size_strings_intern_le (e : Emitter) (s : String) :
    (e.intern s).2.strings.size ≤ e.strings.size + 1 := by
  unfold intern
  split
  · exact Nat.le_succ _
  · simp

theorem extendPrint_eq (e : Emitter) (last : LastPrint) (s : String) :
    ∃ code strings index uses last', code.size = e.code.size ∧ strings.size ≤ e.strings.size + 1 ∧
      e.extendPrint last s =
        { e with
          code := code, strings := strings, stringIndex := index, uses := uses, lastPrint := last' } := by
  by_cases h : e.uses.getD last.index 0 = 1 ∧
      !e.stringIndex.contains (e.strings.getD last.index "" ++ s)
  · exact ⟨e.code, _, _, e.uses, e.lastPrint, rfl, by simp, extendPrint_of_new e last s rfl h⟩
  · obtain ⟨n, e', he'⟩ : ∃ n e', (e.release last.index).intern
        (e.strings.getD last.index "" ++ s) = (n, e') := ⟨_, _, rfl⟩
    obtain ⟨strings, index, uses, hrest⟩ := intern_eq (e.release last.index)
      (e.strings.getD last.index "" ++ s)
    have hsize := size_strings_intern_le (e.release last.index) (e.strings.getD last.index "" ++ s)
    rw [he'] at hrest hsize
    dsimp only at hrest
    subst hrest
    rw [extendPrint_of_shared e last s rfl h he']
    unfold replaceAt
    refine ⟨_, strings, index, uses, _, ?_, hsize, rfl⟩
    rw [size_overwrite, release]

/-- A string is added to the last print, or there is one more instruction. -/
theorem emitString_cases (e : Emitter) (use : StringUse) (s : String) :
    (∃ last, e.emitString use s = e.extendPrint last s) ∨
    ∃ last, e.emitString use s =
      { (e.intern s).2.emit (use.instr (Int32.ofNat (e.intern s).1)) with lastPrint := last } := by
  by_cases huse : use = .print
  · subst huse
    cases hlast : e.lastPrint with
    | some last => exact .inl ⟨last, by simp only [emitString, hlast]⟩
    | none => exact .inr ⟨_, emitString_print_of_none e s hlast⟩
  · exact .inr ⟨_, emitString_of_ne_print e use s huse⟩

theorem patch_eq (e : Emitter) (offset target : Nat) :
    ∃ code last, code.size = e.code.size ∧
      e.patch offset target = { e with code := code, lastPrint := last } := by
  obtain ⟨last, hclosed⟩ : ∃ last,
      (if e.code.size ≤ target then { e with lastPrint := none } else e) =
        { e with lastPrint := last } := by
    split <;> exact ⟨_, rfl⟩
  simp only [patch, hclosed]
  split
  · split
    · exact ⟨_, last, size_overwrite _ _ _, rfl⟩
    · exact ⟨e.code, last, rfl, rfl⟩
  · exact ⟨e.code, last, rfl, rfl⟩

/-! ## What is not in the code -/

/-- What an emitter has besides its code and its strings. -/
def fixed (e : Emitter) : Bool × Tables :=
  (e.debug, ⟨e.blocks, e.regexes, e.queries, e.references, e.referenceNames⟩)

/-- The tables that instructions refer to, but for the strings. -/
def tables (e : Emitter) : Tables := e.fixed.2

theorem fixed_mark (e : Emitter) (p : Position) : (e.mark p).fixed = e.fixed := by
  unfold mark
  split <;> rfl

theorem fixed_intern (e : Emitter) (s : String) : (e.intern s).2.fixed = e.fixed := by
  obtain ⟨_, _, _, hrest⟩ := intern_eq e s
  rw [hrest]
  rfl

theorem fixed_emitString (e : Emitter) (use : StringUse) (s : String) :
    (e.emitString use s).fixed = e.fixed := by
  obtain ⟨last, hsame⟩ | ⟨last, hsame⟩ := emitString_cases e use s
  · obtain ⟨_, _, _, _, _, -, -, hextend⟩ := extendPrint_eq e last s
    rw [hsame, hextend]
    rfl
  · rw [hsame]
    exact fixed_intern e s

theorem fixed_patch (e : Emitter) (offset target : Nat) :
    (e.patch offset target).fixed = e.fixed := by
  obtain ⟨_, _, -, hpatch⟩ := patch_eq e offset target
  rw [hpatch]
  rfl

@[simp] theorem tables_emit (e : Emitter) (i : Instr) : (e.emit i).tables = e.tables := rfl

@[simp] theorem tables_mark (e : Emitter) (p : Position) : (e.mark p).tables = e.tables :=
  congrArg Prod.snd (fixed_mark e p)

@[simp] theorem tables_emitString (e : Emitter) (use : StringUse) (s : String) :
    (e.emitString use s).tables = e.tables :=
  congrArg Prod.snd (fixed_emitString e use s)

@[simp] theorem tables_patch (e : Emitter) (offset target : Nat) :
    (e.patch offset target).tables = e.tables :=
  congrArg Prod.snd (fixed_patch e offset target)

/-! ## Runs -/

theorem apply_addRegex (e : Emitter) (source : String) :
    ∃ regexes, e.apply (.addRegex source) = { e with regexes := regexes } := by
  cases hfind : e.regexes.findIdx? (·.source == source) with
  | some i =>
    refine ⟨e.regexes, ?_⟩
    simp only [apply, addRegex, hfind]
  | none =>
    cases hcompile : Regex.compile source with
    | ok r =>
      refine ⟨e.regexes.push r, ?_⟩
      simp only [apply, addRegex, hfind, hcompile, Except.map]
    | error x =>
      refine ⟨e.regexes, ?_⟩
      simp only [apply, addRegex, hfind, hcompile, Except.map]

theorem addReference_eq (e : Emitter) (name : String) (p : Program) :
    ∃ references table,
      (e.addReference name p).2 = { e with references := references, referenceTable := table } := by
  cases hfind : e.referenceTable.index? name with
  | some i =>
    refine ⟨e.references, e.referenceTable, ?_⟩
    simp only [addReference, hfind]
  | none =>
    refine ⟨e.references.push p, e.referenceTable.push name, ?_⟩
    simp only [addReference, hfind]

/-- Every operation that may be done is done alike by an emitter and by the script. -/
theorem Follows.apply (h : Follows e s) {op : Op} (hop : s.Allows op) :
    Follows (e.apply op) (s.apply e.debug op) := by
  cases op with
  | emit i => exact h.emit hop
  | mark p => exact h.mark p
  | emitString use text => exact h.emitString use text
  | patch offset target => exact h.patch hop target
  | reserveBlock | setBlock index b | addQuery q => exact h.congr rfl
  | addRegex source =>
    obtain ⟨regexes, hregexes⟩ := apply_addRegex e source
    rw [hregexes]
    exact h.congr rfl
  | addReference name p =>
    obtain ⟨references, names, hreferences⟩ := addReference_eq e name p
    rw [Emitter.apply, hreferences]
    exact h.congr rfl

theorem debug_apply (e : Emitter) (op : Op) : (e.apply op).debug = e.debug := by
  cases op with
  | emit i => rfl
  | mark p => exact congrArg Prod.fst (fixed_mark e p)
  | emitString use text => exact congrArg Prod.fst (fixed_emitString e use text)
  | patch offset target => exact congrArg Prod.fst (fixed_patch e offset target)
  | reserveBlock | setBlock index b | addQuery q => rfl
  | addRegex source =>
    obtain ⟨regexes, hregexes⟩ := apply_addRegex e source
    rw [hregexes]
  | addReference name p =>
    obtain ⟨references, names, hreferences⟩ := addReference_eq e name p
    rw [apply, hreferences]

/-- Operations one after the other. -/
theorem Follows.applyAll (h : Follows e s) {ops : List Op} (hops : s.AllowsAll e.debug ops) :
    Follows (ops.foldl Emitter.apply e) (ops.foldl (Script.apply e.debug) s) := by
  induction ops generalizing e s with
  | nil => exact h
  | cons op ops ih =>
    have hnext := ih (h.apply hops.1) (by rw [debug_apply]; exact hops.2)
    rwa [debug_apply] at hnext

end Emitter

end Wordloom
