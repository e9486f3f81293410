import Wordloom.Proofs.Emitter

/-!
# Wordloom.Proofs.StringTable

The strings of a finished program. Those that merging left without a use are dropped and the
instructions are renumbered; the program still says what the script says. The main statement,
`Emitter.build_lines`, is about any operations one after the other.
-/

namespace Wordloom

/-! ## Operands as indices -/

theorem Program.lookup?_ofNat {α : Type} (table : Array α) {n : Nat} (h : n < 2 ^ 31) :
    Program.lookup? table (Int32.ofNat n) = table[n]? := by
  have hint : (Int32.ofNat n).toInt = n := Int32.toInt_ofNat_of_lt h
  have hnonneg : ¬ Int32.ofNat n < 0 := by
    rw [Int32.lt_iff_toInt_lt, hint]
    simp
  rw [lookup?, if_neg hnonneg, hint, Int.toNat_natCast]

theorem Visibility.ofByte?_toByte (v : Visibility) : Visibility.ofByte? v.toByte = some v := by
  cases v <;> rfl

variable {ls : List Line} {strings : Array String}

namespace Ref

/-- An instruction says what its string, looked up by its operand, says. -/
theorem ofInstr?_instr (hsize : strings.size ≤ 2 ^ 31) {r : Ref} {l : Line}
    (hplain : ∀ i, r = plain i → i.namesString = false) (h : r.line? strings = some l) :
    Line.ofInstr? strings r.instr = some l := by
  cases r with
  | plain i =>
    have hi := hplain i rfl
    cases i with
    | printString n | pushString n | openChannel n v => cases hi
    | _ => exact h
  | text use n =>
    obtain ⟨s, hs, rfl⟩ := Option.map_eq_some_iff.1 h
    obtain ⟨hn, -⟩ := Array.getElem?_eq_some_iff.1 hs
    have hlookup : Program.lookup? strings (Int32.ofNat n) = some s := by
      rw [Program.lookup?_ofNat _ (by omega), hs]
    cases use with
    | print | push => simp [instr, StringUse.instr, Line.ofInstr?, hlookup]
    | openChannel v =>
      simp [instr, StringUse.instr, Line.ofInstr?, hlookup, Visibility.ofByte?_toByte]

theorem ofInstr?_instrs (hsize : strings.size ≤ 2 ^ 31) {refs : List Ref}
    (hplain : ∀ i, plain i ∈ refs → i.namesString = false)
    (h : refs.map (line? strings) = ls.map some) :
    (refs.map instr).map (Line.ofInstr? strings) = ls.map some := by
  induction refs generalizing ls with
  | nil => exact h
  | cons r refs ih =>
    cases ls with
    | nil => simp at h
    | cons l ls =>
      rw [List.map_cons, List.map_cons, List.cons_eq_cons] at h
      have hr := ofInstr?_instr hsize (fun i hi => hplain i (by simp [hi])) h.1
      have hrefs := ih (fun i hi => hplain i (List.mem_cons_of_mem _ hi)) h.2
      simp only [List.map_cons, hr, hrefs]

/-- The same instruction with another index for its string. -/
def renumber (f : Nat → Nat) : Ref → Ref
  | plain i => plain i
  | text use n => text use (f n)

end Ref

namespace Emitter

open Instr (flatten)

/-! ## Dropping strings -/

/-- The number of elements kept before one that is kept is its index among those kept. -/
theorem getElem?_filter_countP {α : Type} (p : α → Bool) (l : List α) (n : Nat) {a : α}
    (h : l[n]? = some a) (ha : p a) : (l.filter p)[(l.take n).countP p]? = some a := by
  induction l generalizing n with
  | nil => simp at h
  | cons b l ih =>
    cases n with
    | zero =>
      cases h
      simp [ha]
    | succ n =>
      have hnext := ih n (by simpa using h)
      by_cases hb : p b
      · simpa [List.filter_cons, List.countP_cons, hb] using hnext
      · simpa [List.filter_cons, List.countP_cons, hb] using hnext

/-- Instructions are replaced one after the other by others of the same sizes. -/
theorem foldl_overwrite {f : Instr → Instr} (hf : ∀ i, (f i).size = i.size) {code : Array UInt8}
    {before after : List Instr} (h : code.toList = flatten (before ++ after)) :
    ((Instr.place (Instr.sizes before) after).foldl
      (fun code (placed : Instr.Placed) => overwrite code placed.1 (f placed.2).encode)
        code).toList = flatten (before ++ after.map f) := by
  induction after generalizing code before with
  | nil => simpa [Instr.place] using h
  | cons i after ih =>
    have hstep := overwrite_flatten h (hf i)
    have hnext := ih (by simpa using hstep :
      _ = flatten ((before ++ [f i]) ++ after))
    rw [Instr.place, List.foldl_cons]
    simpa [hf] using hnext

theorem size_renumber (f : Int32 → Int32) (i : Instr) : (renumber f i).size = i.size := by
  cases i <;> rfl

theorem renumber_of_plain {f : Int32 → Int32} {i : Instr} (h : i.namesString = false) :
    renumber f i = i := by
  cases i <;> first | rfl | cases h

/-- How many strings before one are kept. -/
def kept (uses : Array Nat) (n : Nat) : Nat := (uses.toList.take n).countP (0 < ·)

theorem newIndex_ofNat {uses : Array Nat} {n : Nat} (hn : n < uses.size) (hsize : uses.size ≤ 2 ^ 31) :
    newIndex uses (Int32.ofNat n) = Int32.ofNat (kept uses n) := by
  have hint : (Int32.ofNat n).toInt = n := Int32.toInt_ofNat_of_lt (by omega)
  have hnonneg : 0 ≤ Int32.ofNat n := by
    rw [Int32.le_iff_toInt_le, hint]
    simp
  rw [newIndex, if_pos ⟨hnonneg, by omega⟩, hint, Int.toNat_natCast]
  rfl

/-- The strings with a use. -/
def keptStrings (e : Emitter) : List (String × Nat) :=
  (e.strings.toList.zip e.uses.toList).filter (0 < ·.2)

variable {e : Emitter} {refs : List Ref}

/-- A string that is kept is found under its new index. -/
theorem getElem?_keptStrings {n : Nat} {s : String} (hsize : e.uses.size = e.strings.size)
    (hs : e.strings[n]? = some s) (huse : 0 < e.uses.getD n 0) :
    (e.keptStrings.map (·.1))[kept e.uses n]? = some s := by
  obtain ⟨hn, -⟩ := Array.getElem?_eq_some_iff.1 hs
  have huses : e.uses.toList[n]? = some (e.uses.getD n 0) := by
    simp [Array.getD_eq_getD_getElem?, hsize, hn]
  have hzip : (e.strings.toList.zip e.uses.toList)[n]? = some (s, e.uses.getD n 0) := by
    rw [List.getElem?_zip_eq_some]
    exact ⟨by simpa using hs, huses⟩
  have hcount : kept e.uses n =
      ((e.strings.toList.zip e.uses.toList).take n).countP (0 < ·.2) := by
    have hsnd : (e.strings.toList.zip e.uses.toList).map (·.2) = e.uses.toList :=
      List.map_snd_zip (by simp [hsize])
    have htake : e.uses.toList.take n =
        ((e.strings.toList.zip e.uses.toList).take n).map (·.2) := by
      rw [List.map_take, hsnd]
    rw [kept, htake, List.countP_map]
    rfl
  rw [List.getElem?_map, hcount, keptStrings,
    getElem?_filter_countP (0 < ·.2) _ _ hzip (by simpa using huse)]
  rfl

theorem mem_keptStrings {s : String} (h : s ∈ e.keptStrings.map (·.1)) :
    ∃ n, e.strings[n]? = some s ∧ 0 < e.uses.getD n 0 := by
  obtain ⟨⟨_, u⟩, hmem, rfl⟩ := List.mem_map.1 h
  obtain ⟨hzip, hu⟩ := List.mem_filter.1 hmem
  obtain ⟨n, hn⟩ := List.getElem?_of_mem hzip
  obtain ⟨hs, huses⟩ := List.getElem?_zip_eq_some.1 hn
  rw [Array.getElem?_toList] at hs huses
  exact ⟨n, hs, by simpa [Array.getD_eq_getD_getElem?, huses] using hu⟩

theorem nodup_keptStrings (hsize : e.uses.size = e.strings.size) (h : e.strings.toList.Nodup) :
    (e.keptStrings.map (·.1)).Nodup := by
  have hfst : (e.strings.toList.zip e.uses.toList).map (·.1) = e.strings.toList :=
    List.map_fst_zip (by simp [hsize])
  rw [← hfst] at h
  exact h.sublist (List.filter_sublist.map _)

/-- The code says the lines, and its table has nothing that they do not need. -/
structure Finished (e : Emitter) (ls : List Line) : Prop where
  refs : ∃ refs : List Ref, e.code.toList = flatten (refs.map Ref.instr) ∧
    (∀ i, Ref.plain i ∈ refs → i.namesString = false) ∧
    refs.map (Ref.line? e.strings) = ls.map some
  indexed : Indexes e.stringIndex e.strings
  used : ∀ s ∈ e.strings.toList, ∃ use, Line.text use s ∈ ls

/-- A string that is used is in a line. -/
theorem Represents.exists_line (h : Represents e refs)
    (hlines : refs.map (Ref.line? e.strings) = ls.map some) {n : Nat} {s : String}
    (hs : e.strings[n]? = some s) (huse : 0 < e.uses.getD n 0) : ∃ use, Line.text use s ∈ ls := by
  rw [h.counts.count, Ref.uses, List.countP_pos_iff] at huse
  obtain ⟨r, hr, hn⟩ := huse
  cases r with
  | plain i => cases hn
  | text use m =>
    obtain rfl : m = n := by simpa [Ref.refersTo] using hn
    have hline : some (Line.text use s) ∈ ls.map some := by
      rw [← hlines]
      exact List.mem_map.2 ⟨_, hr, by simp [Ref.line?, hs]⟩
    exact ⟨use, by simpa using hline⟩

/-- The new number of a reference. -/
theorem renumber_instr (h : Represents e refs) (hsize : e.strings.size ≤ 2 ^ 31) {r : Ref}
    (hr : r ∈ refs) {l : Line} (hl : r.line? e.strings = some l) :
    renumber (newIndex e.uses) r.instr = (r.renumber (kept e.uses)).instr := by
  cases r with
  | plain i => exact renumber_of_plain (h.plain i hr)
  | text use n =>
    obtain ⟨s, hs, -⟩ := Option.map_eq_some_iff.1 hl
    obtain ⟨hn, -⟩ := Array.getElem?_eq_some_iff.1 hs
    have hnew := newIndex_ofNat (h.counts.size ▸ hn) (h.counts.size ▸ hsize)
    cases use <;> simp [Ref.instr, Ref.renumber, StringUse.instr, renumber, hnew]

theorem line?_renumber (h : Represents e refs) {r : Ref} (hr : r ∈ refs) {l : Line}
    (hl : r.line? e.strings = some l) :
    (r.renumber (kept e.uses)).line? (e.keptStrings.map (·.1)).toArray = some l := by
  cases r with
  | plain i => exact hl
  | text use n =>
    obtain ⟨s, hs, rfl⟩ := Option.map_eq_some_iff.1 hl
    have huse : 0 < e.uses.getD n 0 := by
      rw [h.counts.count, Ref.uses, List.countP_pos_iff]
      exact ⟨_, hr, by simp [Ref.refersTo]⟩
    have hkept := getElem?_keptStrings h.counts.size hs huse
    simp only [Ref.renumber, Ref.line?, List.getElem?_toArray, hkept, Option.map_some]

theorem Represents.finished (h : Represents e refs)
    (hlines : refs.map (Ref.line? e.strings) = ls.map some) (hsize : e.strings.size ≤ 2 ^ 31) :
    Finished e.dropUnused ls := by
  unfold dropUnused
  split
  case isTrue hall =>
    refine ⟨⟨refs, h.code, h.plain, hlines⟩, h.counts.indexed, fun s hs => ?_⟩
    obtain ⟨n, hn⟩ := List.getElem?_of_mem hs
    rw [Array.getElem?_toList] at hn
    obtain ⟨hlt, -⟩ := Array.getElem?_eq_some_iff.1 hn
    have hpos : 0 < e.uses.getD n 0 := by
      have := Array.all_eq_true.1 hall n (h.counts.size ▸ hlt)
      simpa [Array.getD_eq_getD_getElem?, h.counts.size, hlt] using this
    exact h.exists_line hlines hn hpos
  case isFalse =>
    have hline : ∀ r ∈ refs, ∃ l, r.line? e.strings = some l := by
      intro r hr
      have hmem : r.line? e.strings ∈ ls.map some := hlines ▸ List.mem_map.2 ⟨r, hr, rfl⟩
      obtain ⟨l, -, hl⟩ := List.mem_map.1 hmem
      exact ⟨l, hl.symm⟩
    refine ⟨⟨refs.map (Ref.renumber (kept e.uses)), ?_, ?_, ?_⟩,
      .ofList (nodup_keptStrings h.counts.size h.counts.indexed.nodup), fun s hs => ?_⟩
    · have hcode : e.code.toList = flatten ([] ++ refs.map Ref.instr) := h.code
      have hfold := foldl_overwrite (size_renumber (newIndex e.uses)) hcode
      have hrenumber : (refs.map Ref.instr).map (renumber (newIndex e.uses)) =
          (refs.map (Ref.renumber (kept e.uses))).map Ref.instr := by
        rw [List.map_map, List.map_map]
        apply List.map_congr_left
        intro r hr
        obtain ⟨l, hl⟩ := hline r hr
        exact renumber_instr h hsize hr hl
      rw [List.nil_append, hrenumber] at hfold
      rw [← hfold, Instr.decodeAll_flatten h.code]
      rfl
    · intro i hi
      obtain ⟨r, hr, hri⟩ := List.mem_map.1 hi
      cases r with
      | plain j =>
        cases hri
        exact h.plain _ hr
      | text use n => cases hri
    · rw [← hlines, List.map_map]
      apply List.map_congr_left
      intro r hr
      obtain ⟨l, hl⟩ := hline r hr
      rw [hl]
      exact line?_renumber h hr hl
    · obtain ⟨n, hn, huse⟩ := mem_keptStrings (e := e) (by simpa [keptStrings] using hs)
      exact h.exists_line hlines hn huse

end Emitter

/-! ## Programs -/

/-- The instructions of a program with their strings written out, if all of it can be read. -/
def Program.lines? (p : Program) : Option (List Line) :=
  match Instr.decodeAll p.code with
  | (placed, none) => (placed.map (·.2)).mapM (Line.ofInstr? p.strings)
  | (_, some _) => none

/-- The code of the program consists of the given lines. -/
def Program.Reads (p : Program) (ls : List Line) : Prop :=
  ∃ is, p.code.toList = Instr.flatten is ∧ is.map (Line.ofInstr? p.strings) = ls.map some

theorem Line.mapM_ofInstr? {is : List Instr} (h : is.map (Line.ofInstr? strings) = ls.map some) :
    is.mapM (Line.ofInstr? strings) = some ls := by
  have hmap : (is.map (Line.ofInstr? strings)).mapM id = some ls := by
    rw [h, List.mapM_map]
    simpa using List.mapM_pure (m := Option) (f := id) (l := ls)
  rwa [List.mapM_map] at hmap

theorem Program.Reads.lines? {p : Program} (h : p.Reads ls) : p.lines? = some ls := by
  obtain ⟨is, hcode, hlines⟩ := h
  simp only [Program.lines?, Instr.decodeAll_flatten hcode, Instr.map_snd_place,
    Line.mapM_ofInstr? hlines]

namespace Emitter

theorem size_dropUnused_le (e : Emitter) : e.dropUnused.strings.size ≤ e.strings.size := by
  unfold dropUnused
  split
  · exact Nat.le_refl _
  · have hlen : ((e.strings.toList.zip e.uses.toList).filter (0 < ·.2)).length ≤
        (e.strings.toList.zip e.uses.toList).length := List.length_filter_le _ _
    simp only [List.size_toArray, List.length_map]
    simp at hlen
    omega

/-- The finished program says what the script says. -/
theorem Follows.build {e : Emitter} {s : Script} (h : Follows e s)
    (hsize : e.strings.size ≤ 2 ^ 31) (name : String) : (e.build name).Reads s.all := by
  obtain ⟨refs, hrep, hlines, -⟩ := h
  obtain ⟨refs', hcode, hplain, hlines'⟩ := (hrep.finished hlines hsize).refs
  have hsize' : e.dropUnused.strings.size ≤ 2 ^ 31 := Nat.le_trans e.size_dropUnused_le hsize
  exact ⟨_, hcode, Ref.ofInstr?_instrs hsize' hplain hlines'⟩

/-- Whatever is done to an emitter, its program consists of the instructions in the order in which
they were appended, with texts that are printed one after the other joined and with the targets that
were set last. Its table has every string once, and none that no instruction refers to. The index has
all strings where they are and nothing else, while the program is built and when unused strings have been
dropped. Operands have 31 bits for an index, so there cannot be more strings than that. -/
theorem build_lines (debug : Bool) (ops : List Op) (name : String)
    (hops : ({} : Script).AllowsAll debug ops)
    (hsize : (ops.foldl apply { debug }).strings.size ≤ 2 ^ 31) :
    ((ops.foldl apply { debug }).build name).lines? =
        some (ops.foldl (Script.apply debug) {}).all ∧
      ((ops.foldl apply { debug }).build name).strings.toList.Nodup ∧
      (∀ s ∈ ((ops.foldl apply { debug }).build name).strings,
        ∃ use, Line.text use s ∈ (ops.foldl (Script.apply debug) {}).all) ∧
      Indexes (ops.foldl apply { debug }).stringIndex (ops.foldl apply { debug }).strings ∧
      Indexes (ops.foldl apply { debug }).dropUnused.stringIndex
        ((ops.foldl apply { debug }).build name).strings := by
  have hfollows := (follows_empty debug).applyAll hops
  obtain ⟨refs, hrep, hlines, -⟩ := id hfollows
  have hfinished := hrep.finished hlines hsize
  exact ⟨(hfollows.build hsize name).lines?, hfinished.indexed.nodup,
    fun s hs => hfinished.used s hs.val, hrep.counts.indexed, hfinished.indexed⟩

/-- A jump ahead over a text that is printed in two parts, and one that is printed again. -/
def sampleOps : List Op :=
  [.emit (.jump 0), .emitString .print "a", .emitString .push "a", .emitString .print "b",
    .emitString .print "c", .patch 0 20, .emitString .print "a"]

theorem build_lines_sample :
    ({} : Script).AllowsAll false sampleOps ∧
    ((sampleOps.foldl apply { debug := false }).build "sample").lines? =
      some [.plain (.jump 20), .text .print "a", .text .push "a", .text .print "bc",
        .text .print "a"] := by
  have hops : ({} : Script).AllowsAll false sampleOps :=
    ⟨rfl, trivial, trivial, trivial, trivial, ⟨[], .jump 0, _, rfl, rfl, rfl⟩, trivial, trivial⟩
  refine ⟨hops, ?_⟩
  rw [(build_lines false sampleOps "sample" hops (by decide +kernel)).1]
  decide +kernel

/-- A target past the end keeps two texts apart as well. -/
theorem lines_of_patch_past_end :
    let e := [Op.emit (.jump 0), .emitString .print "a"].foldl apply { debug := false }
    e.position = 10 ∧
      ([Op.patch 0 1000, .emitString .print "b"].foldl apply e |>.build "sample").lines? =
        some [.plain (.jump 1000), .text .print "a", .text .print "b"] := by
  decide +kernel

end Emitter

end Wordloom
