import Wordloom.Proofs.Checks
import Wordloom.Proofs.Container

/-!
# Wordloom.Proofs.Directory

Which entries of a directory a program is read from, when an identifier stands in it more than once.
A section that is taken out leaves its place to the last one. So an entry from the end of the directory
may come to stand before the first one of its identifier; all others stay where they are. As at most one
section is taken out for each identifier, only as many entries can have moved as identifiers come before
the one that is looked for.
-/

namespace Wordloom

theorem ok_of_bind {ε α β : Type} {x : Except ε α} {f : α → Except ε β} {b : β}
    (h : x >>= f = .ok b) : ∃ a, x = .ok a ∧ f a = .ok b := by
  cases x with
  | error e => cases h
  | ok a => exact ⟨a, rfl, h⟩

namespace Container

open Bytes

/-! ## Taking sections out -/

variable {id : SectionId}

theorem exists_find? {sections : List Section} {s : Section} (hs : s ∈ sections) (hid : s.id = id) :
    ∃ t, sections.find? (·.id == id) = some t := by
  rw [← Option.isSome_iff_exists, List.find?_isSome]
  exact ⟨s, hs, by simpa using hid⟩

/-- The section that is taken out is the first of those that are left. -/
theorem fst_takeSection (id : SectionId) (sections : List Section) :
    (takeSection id sections).1 = sections.find? (·.id == id) := by
  cases hfind : sections.findIdx? (·.id == id) with
  | none =>
    have hnone : sections.find? (·.id == id) = none := by
      simpa [List.find?_eq_none] using List.findIdx?_eq_none_iff.1 hfind
    simp [takeSection, hfind, hnone]
  | some i =>
    obtain ⟨hlt, hid, hbefore⟩ := List.findIdx?_eq_some_iff_getElem.1 hfind
    have hsome : sections.find? (·.id == id) = some sections[i] := by
      rw [List.find?_eq_some_iff_getElem]
      exact ⟨hid, i, hlt, rfl, fun j hj => by simpa using hbefore j hj⟩
    have hne : sections ≠ [] := List.ne_nil_of_mem (List.getElem_mem hlt)
    simp [takeSection, hfind, hsome, List.getLast?_eq_some_getLast hne, List.getElem?_eq_getElem hlt]

theorem getElem?_moved (sections : List Section) (k : Nat) (last : Section) (i : Nat) :
    ((sections.set k last).dropLast)[i]? =
      if i + 1 < sections.length then if i = k then some last else sections[i]? else none := by
  rw [List.getElem?_dropLast, List.length_set, List.getElem?_set]
  split <;> split <;> grind

/-- What is left of some sections when those of the identifiers `taken` have been taken out, one of
each. -/
structure Rearranged (entries : List Section) (taken : List SectionId) (left : List Section) :
    Prop where
  length : entries.length ≤ left.length + taken.length
  keeps : ∀ s ∈ entries, s.id ∉ taken → s ∈ left
  /-- each section is at its own place or was one of the last -/
  place : ∀ (i : Nat) s, left[i]? = some s →
    entries[i]? = some s ∨ s ∈ entries.drop (entries.length - taken.length)
  /-- those before the last ones have not moved -/
  stays : ∀ (i : Nat) s, entries[i]? = some s → s.id ∉ taken → i < entries.length - taken.length →
    left[i]? = some s

namespace Rearranged

variable {entries left : List Section} {taken : List SectionId} {id : SectionId}

theorem refl (entries : List Section) : Rearranged entries [] entries where
  length := by simp
  keeps s hs _ := hs
  place i s hs := .inl hs
  stays i s hs _ _ := hs

theorem mem_drop_of_place {i : Nat} {s : Section} (hs : entries[i]? = some s) {n : Nat}
    (hi : entries.length ≤ i + n) : s ∈ entries.drop (entries.length - n) := by
  rw [List.mem_iff_getElem?]
  refine ⟨i - (entries.length - n), ?_⟩
  rw [List.getElem?_drop, ← hs]
  congr 1
  omega

theorem mem_entries (h : Rearranged entries taken left) {s : Section} (hs : s ∈ left) :
    s ∈ entries := by
  obtain ⟨i, hi⟩ := List.getElem?_of_mem hs
  obtain hplace | hlast := h.place i s hi
  · exact List.mem_of_getElem? hplace
  · exact List.mem_of_mem_drop hlast

/-- The last entries are among the last ones if one more counts. -/
theorem mem_drop_succ {s : Section} {n : Nat} (hs : s ∈ entries.drop (entries.length - n)) :
    s ∈ entries.drop (entries.length - (n + 1)) :=
  List.drop_subset_drop_left _ (by omega) hs

/-- One more identifier may count as taken. -/
theorem weaken (h : Rearranged entries taken left) (id : SectionId) :
    Rearranged entries (id :: taken) left where
  length := by
    have hlength := h.length
    rw [List.length_cons]
    omega
  keeps s hs hid := h.keeps s hs (List.not_mem_of_not_mem_cons hid)
  place i s hs := (h.place i s hs).imp_right mem_drop_succ
  stays i s hs hid hi := by
    rw [List.length_cons] at hi
    exact h.stays i s hs (List.not_mem_of_not_mem_cons hid) (by omega)

/-- Putting the last section into the place of another one moves nothing else. -/
theorem move (h : Rearranged entries taken left) {k : Nat} {s last : Section}
    (hs : left[k]? = some s) (hlast : left.getLast? = some last) :
    Rearranged entries (s.id :: taken) ((left.set k last).dropLast) where
  length := by
    have hlength := h.length
    simp only [List.length_dropLast, List.length_set, List.length_cons]
    omega
  keeps t ht hid := by
    have hmem := h.keeps t ht (List.not_mem_of_not_mem_cons hid)
    obtain ⟨hk, rfl⟩ := List.getElem?_eq_some_iff.1 hs
    have hperm : (left[k] :: (left.set k last).dropLast).Perm left :=
      ((perm_dropLast_set hk hlast).cons _).trans (List.getElem_cons_eraseIdx_perm hk)
    obtain rfl | hmem := List.mem_cons.1 (hperm.mem_iff.2 hmem)
    · exact absurd rfl (List.ne_of_not_mem_cons hid)
    · exact hmem
  place i t ht := by
    rw [getElem?_moved] at ht
    split at ht
    · split at ht
      · -- the last of those that were left is at its own place, or it has moved before
        cases ht
        rw [List.getLast?_eq_getElem?] at hlast
        obtain hplace | hmoved := h.place _ _ hlast
        · have hlength := h.length
          rw [List.length_cons]
          exact .inr (mem_drop_of_place hplace (by omega))
        · exact .inr (mem_drop_succ hmoved)
      · exact (h.place i t ht).imp_right mem_drop_succ
    · cases ht
  stays i t ht hid hi := by
    rw [List.length_cons] at hi
    have hlength := h.length
    have hstays := h.stays i t ht (List.not_mem_of_not_mem_cons hid) (by omega)
    have hik : i ≠ k := by
      rintro rfl
      rw [hs] at hstays
      cases hstays
      exact List.ne_of_not_mem_cons hid rfl
    rw [getElem?_moved, if_pos (by omega), if_neg hik, hstays]

theorem take (h : Rearranged entries taken left) (id : SectionId) :
    Rearranged entries (id :: taken) (takeSection id left).2 := by
  cases hfind : left.findIdx? (·.id == id) with
  | none => simpa [takeSection, hfind] using h.weaken id
  | some k =>
    obtain ⟨hk, hid, -⟩ := List.findIdx?_eq_some_iff_getElem.1 hfind
    have hne : left ≠ [] := List.ne_nil_of_mem (List.getElem_mem hk)
    have hlast := List.getLast?_eq_some_getLast hne
    have hmove := h.move (List.getElem?_eq_getElem hk) hlast
    rw [beq_iff_eq] at hid
    simpa [takeSection, hfind, hlast, hid] using hmove

end Rearranged

/-! ## The section of an identifier -/

/-- How many identifiers are looked for before this one. -/
def SectionId.rank (id : SectionId) : Nat := SectionId.all.idxOf id

/-- The section found for an identifier is the first entry of it, or one of the last entries; these are
as many as there may have been sections taken out before. -/
def Picks (entries : List Section) (id : SectionId) (found : Option Section) : Prop :=
  found = entries.find? (·.id == id) ∨
    ∃ s ∈ entries.drop (entries.length - id.rank), s.id = id ∧ found = some s

theorem Rearranged.picks {entries left : List Section} {taken : List SectionId}
    (h : Rearranged entries taken left) (hid : id ∉ taken) (hrank : taken.length = id.rank) :
    Picks entries id (takeSection id left).1 := by
  rw [fst_takeSection, Picks, ← hrank]
  cases hfirst : entries.find? (·.id == id) with
  | none =>
    -- no entry has the identifier, so none of those that are left has it
    refine .inl (List.find?_eq_none.2 fun s hs => ?_)
    exact List.find?_eq_none.1 hfirst s (h.mem_entries hs)
  | some first =>
    obtain ⟨hfirstId, i, hi, rfl, hbefore⟩ := List.find?_eq_some_iff_getElem.1 hfirst
    have hentry : entries[i]? = some entries[i] := List.getElem?_eq_getElem hi
    rw [beq_iff_eq] at hfirstId
    have hleft : entries[i] ∈ left := h.keeps _ (List.getElem_mem hi) (hfirstId ▸ hid)
    obtain ⟨t, ht⟩ := exists_find? hleft hfirstId
    obtain ⟨htId, j, hj, rfl, hbefore'⟩ := List.find?_eq_some_iff_getElem.1 ht
    rw [ht]
    rw [beq_iff_eq] at htId
    obtain hplace | hmoved := h.place j _ (List.getElem?_eq_getElem hj)
    · obtain hlt | rfl | hgt := Nat.lt_trichotomy j i
      · -- an entry before the first one
        obtain ⟨hj', heq⟩ := List.getElem?_eq_some_iff.1 hplace
        have hno := hbefore j hlt
        simp [heq, htId] at hno
      · rw [hentry] at hplace
        exact .inl hplace.symm
      · -- the first entry is no longer at its place, so it is one of the last
        refine .inr ⟨_, Rearranged.mem_drop_of_place hplace ?_, htId, rfl⟩
        by_contra hlong
        have hstays := h.stays i _ hentry (hfirstId ▸ hid) (by omega)
        obtain ⟨hi', heq⟩ := List.getElem?_eq_some_iff.1 hstays
        have hno := hbefore' i hgt
        simp [heq, hfirstId] at hno
    · exact .inr ⟨_, hmoved, htId, rfl⟩

/-- If there is an entry of the identifier, one is found. -/
theorem Picks.exists_of_mem {entries : List Section} {found : Option Section}
    (h : Picks entries id found) {s : Section} (hs : s ∈ entries) (hid : s.id = id) :
    ∃ t ∈ entries, t.id = id ∧ found = some t := by
  obtain rfl | ⟨t, ht, htid, rfl⟩ := h
  · obtain ⟨t, ht⟩ := exists_find? hs hid
    exact ⟨t, List.mem_of_find?_eq_some ht, by simpa using List.find?_some ht, ht⟩
  · exact ⟨t, List.mem_of_mem_drop ht, htid, rfl⟩

/-- The sections that are left when those of some identifiers have been taken out, that of the first
identifier last. -/
def remaining (entries : List Section) : List SectionId → List Section
  | [] => entries
  | id :: taken => (takeSection id (remaining entries taken)).2

theorem rearranged_remaining (entries : List Section) (taken : List SectionId) :
    Rearranged entries taken (remaining entries taken) := by
  induction taken with
  | nil => exact .refl entries
  | cons id taken ih => exact ih.take id

/-- The section that is found for an identifier, when those before it have been looked for. -/
def chosen (entries : List Section) (id : SectionId) : Option Section :=
  (takeSection id (remaining entries (SectionId.all.take id.rank).reverse)).1

theorem picks_chosen (entries : List Section) (id : SectionId) :
    Picks entries id (chosen entries id) :=
  (rearranged_remaining entries _).picks (by cases id <;> decide) (by cases id <;> rfl)

/-! ## Programs -/

/-- The parts of a program are read from the sections that are found for their identifiers. -/
structure ReadFrom (found : SectionId → Option Section) (p : Program) : Prop where
  version : optional readVersion () (found .version) = .ok ()
  code : ∃ s, found .code = some s ∧ readCode s = .ok p.code
  strings : ∃ s, found .strings = some s ∧ readStrings s = .ok p.strings.toList
  blocks : optional (readBlocks p.code.size) [] (found .blocks) = .ok p.blocks.toList
  regexes : optional readRegexes [] (found .regexes) = .ok p.regexes.toList
  queries : optional (·.wire (Wire.list getQuery)) [] (found .queries) = .ok p.queries.toList
  metadata : optional (·.wire getMetadata) {} (found .metadata) =
    .ok ⟨p.name, p.referenceNames.toList⟩

theorem eq_some_of_required {found : Option Section} {s : Section} (h : required id found = .ok s) :
    found = some s := by
  cases found with
  | none => cases h
  | some t =>
    cases h
    rfl

theorem readFrom_chosen {entries : List Section} {p : Program} (h : readProgram entries = .ok p) :
    ReadFrom (chosen entries) p := by
  unfold readProgram at h
  obtain ⟨_, hversion, h⟩ := ok_of_bind h
  obtain ⟨code, hcode, h⟩ := ok_of_bind h
  obtain ⟨bytes, hbytes, h⟩ := ok_of_bind h
  obtain ⟨table, htable, h⟩ := ok_of_bind h
  obtain ⟨strings, hstrings, h⟩ := ok_of_bind h
  obtain ⟨blocks, hblocks, h⟩ := ok_of_bind h
  obtain ⟨regexes, hregexes, h⟩ := ok_of_bind h
  obtain ⟨queries, hqueries, h⟩ := ok_of_bind h
  obtain ⟨metadata, hmetadata, h⟩ := ok_of_bind h
  cases h
  exact {
    version := hversion
    code := ⟨code, eq_some_of_required hcode, hbytes⟩
    strings := ⟨table, eq_some_of_required htable, hstrings⟩
    blocks := hblocks
    regexes := hregexes
    queries := hqueries
    metadata := hmetadata }

/-! ## Containers -/

/-- The known sections that the directory of a container names, in its order. -/
def Lists (bytes : List UInt8) (entries : List Section) : Prop :=
  ∃ count c, Decoder.uint8 ⟨magic.length, bytes.drop magic.length⟩ = .ok (count, c) ∧
    readDirectory bytes count.toNat c = .ok entries

theorem lists_assemble {sections : List RawSection} (hcount : sections.length ≤ 255)
    (hsize : (assemble sections).length < 2 ^ 32) :
    Lists (assemble sections)
      (placed (assemble sections) (headerLength sections.length) sections) := by
  refine ⟨_, _, by rw [(drop_magic_assemble sections).2, Decoder.uint8_cons], ?_⟩
  rw [toNat_length_sections hcount]
  exact readDirectory_assemble hsize

/-- **Where a program is read from.** Each part of a program that is loaded is read from an entry with the
identifier of that part, if there is one: from the first, unless one of the last entries has moved
before it. -/
theorem load_reads {bytes : List UInt8} {p : Program} (h : load bytes = .ok p) :
    ∃ entries found, Lists bytes entries ∧ (∀ id, Picks entries id (found id)) ∧
      ReadFrom found p := by
  unfold load at h
  split at h
  · split at h
    · cases h
    · rename_i count c hcount
      obtain ⟨entries, hentries, hread⟩ := ok_of_bind h
      exact ⟨entries, chosen entries, ⟨count, c, hcount, hentries⟩, picks_chosen entries,
        readFrom_chosen hread⟩
  · cases h

/-- Two tables of strings, and an empty code. -/
def twoTables : List RawSection :=
  [(SectionId.strings.toByte, putStrings ["hey"]), (SectionId.strings.toByte, putStrings ["bye"]),
    (SectionId.code.toByte, putLength 0)]

theorem load_reads_twoTables :
    ∃ p, load (assemble twoTables) = .ok p ∧ p.strings = #["hey"] ∧
      ∃ entries found, Lists (assemble twoTables) entries ∧ (∀ id, Picks entries id (found id)) ∧
        ReadFrom found p := by
  have hload : (load (assemble twoTables)).toOption.any fun p => p.strings = #["hey"] := by
    decide +kernel
  simp only [Option.any_eq_true, toOption_eq_some, decide_eq_true_eq] at hload
  obtain ⟨p, hp, hstrings⟩ := hload
  exact ⟨p, hp, hstrings, load_reads hp⟩

/-- A version in front of two tables of strings, with an empty code between these. -/
def overtaking : List RawSection :=
  [(SectionId.version.toByte, ofUInt16 formatVersion),
    (SectionId.strings.toByte, putStrings ["hey"]), (SectionId.code.toByte, putLength 0),
    (SectionId.strings.toByte, putStrings ["bye"])]

/-- The second table moves before the first one, into the place of the version; without a version, the
first one is read. -/
theorem strings_of_moved_entry :
    (∃ p entries s, load (assemble overtaking) = .ok p ∧ Lists (assemble overtaking) entries ∧
      entries.find? (·.id == .strings) = some s ∧ readStrings s = .ok ["hey"] ∧
      p.strings = #["bye"]) ∧
    ∃ q, load (assemble overtaking.tail) = .ok q ∧ q.strings = #["hey"] := by
  have hload : (load (assemble overtaking)).toOption.any fun p => p.strings = #["bye"] := by
    decide +kernel
  have hfirst : ((placed (assemble overtaking) (headerLength overtaking.length) overtaking).find?
      (·.id == .strings)).any fun s => (readStrings s).toOption = some ["hey"] := by
    decide +kernel
  have htail : (load (assemble overtaking.tail)).toOption.any fun q => q.strings = #["hey"] := by
    decide +kernel
  simp only [Option.any_eq_true, toOption_eq_some, decide_eq_true_eq] at hload hfirst htail
  obtain ⟨p, hp, hstrings⟩ := hload
  obtain ⟨s, hs, hread⟩ := hfirst
  exact ⟨⟨p, _, s, hp, lists_assemble (by decide) (by decide +kernel), hs, hread, hstrings⟩, htail⟩

end Container

end Wordloom
