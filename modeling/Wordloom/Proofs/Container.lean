import Mathlib.Data.List.Perm.Basic
import Wordloom.Container.Load
import Wordloom.Engine
import Wordloom.Proofs.Wire

/-!
# Wordloom.Proofs.Container

What is saved is loaded again, in whatever order the sections stand and whatever unknown ones stand
between them. The proof follows the container from the outside in: the directory that `assemble`
writes names every section with the place of its body (`readDirectory_directory`); sections can be
taken out in any order, since their identifiers differ (`Offers.take`); and the body of each section
reads back (`readStrings_putStrings` and the tables of `Wordloom.Proofs.Wire`).
-/

namespace Wordloom.Container

open Bytes

/-! ## Taking sections out -/

/-- Moving the last element into the place of another one loses that one only. -/
theorem perm_dropLast_set {l : List α} {i : Nat} {last : α} (hi : i < l.length)
    (hlast : l.getLast? = some last) : ((l.set i last).dropLast).Perm (l.eraseIdx i) := by
  induction l generalizing i with
  | nil => simp at hi
  | cons a l ih =>
    cases l with
    | nil =>
      have : i = 0 := by simpa using hi
      subst this
      simp
    | cons b l =>
      have htail : (b :: l).getLast? = some last := by simpa [List.getLast?_cons_cons] using hlast
      cases i with
      | zero =>
        obtain ⟨front, hfront⟩ := List.getLast?_eq_some_iff.1 htail
        rw [List.set_cons_zero, List.eraseIdx_cons_zero, hfront, ← List.cons_append,
          List.dropLast_concat]
        exact (List.perm_append_singleton last front).symm
      | succ i =>
        have := ih (by simpa using hi) htail
        have hne : (b :: l).set i last ≠ [] := by simp
        rw [List.set_cons_succ, List.dropLast_cons_of_ne_nil hne, List.eraseIdx_cons_succ]
        exact this.cons a

/-- Taking a section out gives one with the wanted identifier and leaves the others, in some order, or
there is none. -/
theorem takeSection_cases (id : SectionId) (sections : List Section) :
    (∃ s left, takeSection id sections = (some s, left) ∧ s.id = id ∧ (s :: left).Perm sections) ∨
    (takeSection id sections = (none, sections) ∧ ∀ s ∈ sections, s.id ≠ id) := by
  cases hfind : sections.findIdx? (·.id == id) with
  | none =>
    refine .inr ⟨by simp [takeSection, hfind], fun s hs => ?_⟩
    simpa using List.findIdx?_eq_none_iff.1 hfind s hs
  | some i =>
    obtain ⟨hlt, hid, -⟩ := List.findIdx?_eq_some_iff_getElem.1 hfind
    obtain ⟨last, hlast⟩ : ∃ last, sections.getLast? = some last :=
      ⟨_, List.getLast?_eq_some_getLast (List.ne_nil_of_mem (List.getElem_mem hlt))⟩
    refine .inl ⟨sections[i], (sections.set i last).dropLast, ?_, by simpa using hid, ?_⟩
    · simp [takeSection, hfind, hlast, List.getElem?_eq_getElem hlt]
    · exact ((perm_dropLast_set hlt hlast).cons _).trans (List.getElem_cons_eraseIdx_perm hlt)

/-- The sections are those of the bodies: each identifier that has a body has one section, which
begins with that body, and there are no others. -/
structure Offers (sections : List Section) (body : SectionId → Option (List UInt8)) : Prop where
  nodup : (sections.map (·.id)).Nodup
  begins : ∀ s ∈ sections, ∃ bs rest, body s.id = some bs ∧ s.cursor.bytes = bs ++ rest
  covers : ∀ id bs, body id = some bs → ∃ s ∈ sections, s.id = id

/-- What is left when one identifier is gone. -/
def without (body : SectionId → Option (List UInt8)) (id : SectionId) :
    SectionId → Option (List UInt8) :=
  fun i => if i = id then none else body i

variable {body : SectionId → Option (List UInt8)} {id : SectionId} {bs rest : List UInt8}
  {s : Section} {p : Program}

theorem without_of_ne {i : SectionId} (h : i ≠ id) : without body id i = body i := by
  simp [without, h]

/-- Taking a section that has a body gives one that begins with it. -/
theorem Offers.take {sections : List Section} (h : Offers sections body) (hid : body id = some bs) :
    ∃ s left rest, takeSection id sections = (some s, left) ∧ s.id = id ∧
      s.cursor.bytes = bs ++ rest ∧ Offers left (without body id) := by
  obtain ⟨s, left, htake, rfl, hperm⟩ | ⟨-, hnone⟩ := takeSection_cases id sections
  · obtain ⟨bs', rest, hbs', hbytes⟩ := h.begins s (hperm.mem_iff.1 List.mem_cons_self)
    have hbs : bs' = bs := by
      rw [hid] at hbs'
      exact (Option.some.inj hbs').symm
    have hleft : s.id ∉ left.map (·.id) ∧ (left.map (·.id)).Nodup := by
      have := (hperm.map (·.id)).nodup_iff.2 h.nodup
      rwa [List.map_cons, List.nodup_cons] at this
    refine ⟨s, left, rest, htake, rfl, hbs ▸ hbytes, hleft.2, ?_, ?_⟩
    · intro t ht
      have hne : t.id ≠ s.id := fun heq => hleft.1 (List.mem_map.2 ⟨t, ht, heq⟩)
      rw [without_of_ne hne]
      exact h.begins t (hperm.mem_iff.1 (List.mem_cons_of_mem _ ht))
    · intro id bs' hid'
      have hne : id ≠ s.id := by
        rintro rfl
        simp [without] at hid'
      rw [without_of_ne hne] at hid'
      obtain ⟨t, ht, rfl⟩ := h.covers id bs' hid'
      obtain rfl | hmem := List.mem_cons.1 (hperm.mem_iff.2 ht)
      · exact absurd rfl hne
      · exact ⟨t, hmem, rfl⟩
  · obtain ⟨s, hs, hs'⟩ := h.covers id bs hid
    exact absurd hs' (hnone s hs)

/-- Taking a section that has no body gives none. -/
theorem Offers.take_none {sections : List Section} (h : Offers sections body) (hid : body id = none) :
    takeSection id sections = (none, sections) := by
  obtain ⟨s, left, -, rfl, hperm⟩ | ⟨hnone, -⟩ := takeSection_cases id sections
  · obtain ⟨bs, rest, hbody, -⟩ := h.begins s (hperm.mem_iff.1 List.mem_cons_self)
    rw [hid] at hbody
    cases hbody
  · exact hnone

/-! ## The directory -/

/-- The sections that a directory names, their bodies lying one after the other from `offset` on.
Those with unknown identifiers are passed over. -/
def placed (bytes : List UInt8) (offset : Nat) : List RawSection → List Section
  | [] => []
  | (byte, body) :: sections =>
    ((SectionId.ofByte? byte).map fun id => ⟨id, offset, bytes.drop offset⟩).toList
      ++ placed bytes (offset + body.length) sections

/-- The directory names the sections that follow, each at its place. -/
theorem readDirectory_directory (bytes rest : List UInt8) (sections : List RawSection)
    (place offset : Nat) (hsize : bytes.length < 2 ^ 32)
    (hfits : offset + (sections.flatMap (·.2)).length ≤ bytes.length) :
    readDirectory bytes sections.length ⟨place, directory offset sections ++ rest⟩ =
      .ok (placed bytes offset sections) := by
  induction sections generalizing place offset with
  | nil => rfl
  | cons s sections ih =>
    obtain ⟨byte, body⟩ := s
    simp only [List.flatMap_cons, List.length_append] at hfits
    have hoffset : (UInt32.ofNat offset).toNat = offset := by
      rw [UInt32.toNat_ofNat']
      exact Nat.mod_eq_of_lt (by omega)
    have hentry : entry ⟨place, directory offset ((byte, body) :: sections) ++ rest⟩ =
        .ok ((byte, offset),
          ⟨place + 1 + 4, directory (offset + body.length) sections ++ rest⟩) := by
      rw [entry, directory, List.append_assoc, List.cons_append,
        bind_of_ok (Decoder.uint8_cons _ _ _), putLength,
        bind_of_ok (Decoder.uint32_append_ofNat _ _ (by omega)), pure_apply, hoffset]
    have hplace : ¬bytes.length < offset := by omega
    have hrest := ih (place + 1 + 4) (offset + body.length) (by omega)
    rw [List.length_cons, readDirectory, hentry, placed]
    cases hbyte : SectionId.ofByte? byte with
    | none => simp only [hbyte, hrest, Option.map_none, Option.toList_none, List.nil_append]
    | some id =>
      simp only [hbyte, if_neg hplace, hrest, Option.map_some, Option.toList_some]
      rfl

/-- Every section that is placed begins with its body. -/
theorem placed_begins (bytes : List UInt8) (sections : List RawSection) (offset : Nat)
    (hbytes : bytes.drop offset = sections.flatMap (·.2)) :
    ∀ s ∈ placed bytes offset sections, ∃ byte bs rest,
      (byte, bs) ∈ sections ∧ SectionId.ofByte? byte = some s.id ∧ s.cursor.bytes = bs ++ rest := by
  induction sections generalizing offset with
  | nil => simp [placed]
  | cons t sections ih =>
    obtain ⟨byte, body⟩ := t
    intro s hs
    rw [List.flatMap_cons] at hbytes
    rcases List.mem_append.1 hs with hs | hs
    · obtain ⟨id, hid, rfl⟩ := Option.map_eq_some_iff.1 (Option.mem_toList.1 hs)
      exact ⟨byte, body, sections.flatMap (·.2), List.mem_cons_self, hid, hbytes⟩
    · have hrest : bytes.drop (offset + body.length) = sections.flatMap (·.2) := by
        rw [← List.drop_drop, hbytes, List.drop_left]
      obtain ⟨byte', bs, rest, hmem, hid, hbs⟩ := ih _ hrest s hs
      exact ⟨byte', bs, rest, List.mem_cons_of_mem _ hmem, hid, hbs⟩

theorem map_id_placed (bytes : List UInt8) (sections : List RawSection) (offset : Nat) :
    (placed bytes offset sections).map (·.id) = sections.filterMap (SectionId.ofByte? ·.1) := by
  induction sections generalizing offset with
  | nil => rfl
  | cons t sections ih =>
    obtain ⟨byte, body⟩ := t
    rw [placed, List.map_append, ih]
    cases hbyte : SectionId.ofByte? byte <;> simp [hbyte]

/-! ## The sections of a program -/

/-- What a program has to put into each section; none for a table without entries. -/
def bodyOf (p : Program) : SectionId → Option (List UInt8)
  | .version => some (Bytes.ofUInt16 formatVersion)
  | .code => some (putLength p.code.size ++ p.code.toList)
  | .strings => some (putStrings p.strings.toList)
  | .blocks => if p.blocks.isEmpty then none else some (Wire.putList putBlock p.blocks.toList)
  | .regexes =>
    if p.regexes.isEmpty then none else some (putStrings (p.regexes.toList.map (·.source)))
  | .queries => if p.queries.isEmpty then none else some (Wire.putList putQuery p.queries.toList)
  | .metadata => some (putMetadata ⟨p.name, p.referenceNames.toList⟩)

/-- The sections a program has, in the order of their identifiers. -/
def namedSections (p : Program) : List (SectionId × List UInt8) :=
  SectionId.all.filterMap fun id => (bodyOf p id).map (id, ·)

/-- The same section with the byte of its identifier. -/
def toRaw (named : SectionId × List UInt8) : RawSection := (named.1.toByte, named.2)

theorem ofByte?_toByte (id : SectionId) : SectionId.ofByte? id.toByte = some id := by
  cases id <;> decide

theorem sectionsOf_eq (p : Program) : sectionsOf p = (namedSections p).map toRaw := by
  simp only [sectionsOf, namedSections, SectionId.all, unlessEmpty, bodyOf]
  cases p.blocks.isEmpty <;> cases p.regexes.isEmpty <;> cases p.queries.isEmpty <;> rfl

/-- The sections written are those that have a body. -/
theorem mem_namedSections : (id, bs) ∈ namedSections p ↔ bodyOf p id = some bs := by
  have hall : id ∈ SectionId.all := by cases id <;> decide
  simp only [namedSections, List.mem_filterMap, Option.map_eq_some_iff, Prod.mk.injEq]
  constructor
  · rintro ⟨i, -, b, hb, rfl, rfl⟩
    exact hb
  · intro h
    exact ⟨id, hall, bs, h, rfl, rfl⟩

theorem nodup_namedSections (p : Program) : ((namedSections p).map (·.1)).Nodup := by
  have hsub : ((namedSections p).map (·.1)).Sublist SectionId.all := by
    rw [namedSections, List.map_filterMap]
    have : ∀ ids : List SectionId,
        (ids.filterMap fun id => ((bodyOf p id).map (id, ·)).map (·.1)).Sublist ids := by
      intro ids
      induction ids with
      | nil => simp
      | cons id ids ih =>
        cases h : bodyOf p id with
        | none => simpa [List.filterMap_cons, h] using ih.cons id
        | some bs => simpa [List.filterMap_cons, h] using ih
    exact this _
  exact hsub.nodup (by decide)

/-- Sections in any order that are those of a program, and others with unknown identifiers. -/
def Arranges (p : Program) (sections : List RawSection) : Prop :=
  ∃ unknown, (∀ s ∈ unknown, SectionId.ofByte? s.1 = none) ∧ sections.Perm (sectionsOf p ++ unknown)

theorem arranges_sectionsOf (p : Program) : Arranges p (sectionsOf p) := ⟨[], by simp, by simp⟩

namespace Arranges

variable {p : Program} {sections : List RawSection}

/-- A section with a known identifier holds what the program has to put there. -/
theorem bodyOf_of_mem (h : Arranges p sections) {byte : UInt8} (hmem : (byte, bs) ∈ sections)
    (hid : SectionId.ofByte? byte = some id) : bodyOf p id = some bs := by
  obtain ⟨unknown, hunknown, hperm⟩ := h
  obtain hmem | hmem := List.mem_append.1 (hperm.mem_iff.1 hmem)
  · rw [sectionsOf_eq] at hmem
    obtain ⟨⟨id', bs'⟩, hnamed, heq⟩ := List.mem_map.1 hmem
    obtain ⟨rfl, rfl⟩ := Prod.mk.inj heq
    have : id' = id := by simpa [ofByte?_toByte] using hid
    rw [← this]
    exact mem_namedSections.1 hnamed
  · rw [hunknown _ hmem] at hid
    cases hid

/-- Whatever the arrangement, every section of the program is there. -/
theorem mem_of_bodyOf (h : Arranges p sections) (hbody : bodyOf p id = some bs) :
    (id.toByte, bs) ∈ sections := by
  obtain ⟨unknown, -, hperm⟩ := h
  refine hperm.mem_iff.2 (List.mem_append_left _ ?_)
  rw [sectionsOf_eq]
  exact List.mem_map.2 ⟨(id, bs), mem_namedSections.2 hbody, rfl⟩

/-- The identifiers that are known are those of the program, each once. -/
theorem nodup (h : Arranges p sections) : (sections.filterMap (SectionId.ofByte? ·.1)).Nodup := by
  obtain ⟨unknown, hunknown, hperm⟩ := h
  have hnone : unknown.filterMap (SectionId.ofByte? ·.1) = [] := List.filterMap_eq_nil_iff.2 hunknown
  have hids : (sectionsOf p).filterMap (SectionId.ofByte? ·.1) = (namedSections p).map (·.1) := by
    rw [sectionsOf_eq, List.filterMap_map, ← List.filterMap_eq_map]
    exact List.filterMap_congr fun s _ => ofByte?_toByte s.1
  rw [(hperm.filterMap _).nodup_iff, List.filterMap_append, hnone, List.append_nil, hids]
  exact nodup_namedSections p

/-- The sections that the directory names are those of the program. -/
theorem offers (h : Arranges p sections) {bytes : List UInt8} {offset : Nat}
    (hbytes : bytes.drop offset = sections.flatMap (·.2)) :
    Offers (placed bytes offset sections) (bodyOf p) where
  nodup := by
    rw [map_id_placed]
    exact h.nodup
  begins s hs := by
    obtain ⟨byte, bs, rest, hmem, hid, hbs⟩ := placed_begins bytes sections offset hbytes s hs
    exact ⟨bs, rest, h.bodyOf_of_mem hmem hid, hbs⟩
  covers id bs hid := by
    have hmem : id ∈ (placed bytes offset sections).map (·.id) := by
      rw [map_id_placed, List.mem_filterMap]
      exact ⟨(id.toByte, bs), h.mem_of_bodyOf hid, ofByte?_toByte id⟩
    obtain ⟨s, hs, rfl⟩ := List.mem_map.1 hmem
    exact ⟨s, hs, rfl⟩

end Arranges

/-! ## The bodies -/

theorem ofUtf8_toUtf8 (s : String) : Text.ofUtf8 (Text.toUtf8 s) = .ok s := by
  rw [Text.ofUtf8, Text.ofUtf8?_toUtf8]

theorem toNat_ofNat_of_lt {n : Nat} (h : n < 2 ^ 32) : (UInt32.ofNat n).toNat = n := by
  rw [UInt32.toNat_ofNat']
  exact Nat.mod_eq_of_lt h

/-- A text as it stands in a table: its length in front. -/
def putText (s : String) : List UInt8 := putLength (Text.toUtf8 s).length ++ Text.toUtf8 s

theorem putStrings_eq (strings : List String) :
    putStrings strings = putLength strings.length ++ strings.flatMap putText := rfl

theorem readStringsFrom_flatMap (id : SectionId) (strings : List String) (offset : Nat)
    (rest : List UInt8) (hlen : (strings.flatMap putText).length < 2 ^ 32) :
    readStringsFrom id strings.length ⟨offset, strings.flatMap putText ++ rest⟩ = .ok strings := by
  induction strings generalizing offset with
  | nil => rfl
  | cons s strings ih =>
    simp only [List.flatMap_cons, List.length_append, putText] at hlen
    have hs : (Text.toUtf8 s).length < 2 ^ 32 := by omega
    have htext : (do Decoder.take (← Decoder.uint32).toNat : Decoder (List UInt8))
        ⟨offset, (s :: strings).flatMap putText ++ rest⟩ =
        .ok (Text.toUtf8 s, ⟨offset + 4 + (Text.toUtf8 s).length,
          strings.flatMap putText ++ rest⟩) := by
      rw [List.flatMap_cons, putText, putLength, List.append_assoc, List.append_assoc,
        bind_of_ok (Decoder.uint32_append_ofNat _ _ hs), toNat_ofNat_of_lt hs,
        Decoder.take_append _ _ rfl]
    rw [List.length_cons, readStringsFrom, htext]
    simp only [ofUtf8_toUtf8]
    rw [ih _ (by omega)]
    rfl

theorem length_le_length_flatMap_putText (strings : List String) :
    strings.length ≤ (strings.flatMap putText).length := by
  induction strings with
  | nil => simp
  | cons s strings ih =>
    simp only [List.flatMap_cons, List.length_append, List.length_cons, putText, putLength,
      length_ofNat]
    omega

theorem readStrings_putStrings {strings : List String} (hlen : (putStrings strings).length < 2 ^ 32)
    (hs : s.cursor.bytes = putStrings strings ++ rest) : readStrings s = .ok strings := by
  obtain ⟨id, offset, bytes⟩ := s
  subst hs
  rw [putStrings_eq, List.length_append] at hlen
  have hcount := length_le_length_flatMap_putText strings
  have hn : strings.length < 2 ^ 32 := by omega
  rw [readStrings, putStrings_eq, putLength, List.append_assoc,
    Decoder.uint32_append_ofNat _ _ hn]
  simp only [toNat_ofNat_of_lt hn]
  exact readStringsFrom_flatMap id strings _ rest (by omega)

theorem readVersion_ok (hs : s.cursor.bytes = ofUInt16 formatVersion ++ rest) :
    readVersion s = .ok () := by
  obtain ⟨id, offset, bytes⟩ := s
  subst hs
  simp only [readVersion, Section.decode, Decoder.uint16_append]
  rfl

theorem readCode_ok {code : Array UInt8} (hlen : code.size < 2 ^ 32)
    (hs : s.cursor.bytes = putLength code.size ++ code.toList ++ rest) : readCode s = .ok code := by
  obtain ⟨id, offset, bytes⟩ := s
  subst hs
  have htake : (do return (← Decoder.take (← Decoder.uint32).toNat).toArray : Decoder (Array UInt8))
      ⟨offset, putLength code.size ++ code.toList ++ rest⟩ =
      .ok (code, ⟨offset + 4 + code.size, rest⟩) := by
    rw [putLength, List.append_assoc, bind_of_ok (Decoder.uint32_append_ofNat _ _ hlen),
      toNat_ofNat_of_lt hlen, bind_of_ok (Decoder.take_append _ _ (Array.length_toList)),
      pure_apply, Array.toArray_toList]
  rw [readCode, Section.decode]
  simp only [htake]

/-- A section in the compact encoding. -/
theorem wire_ok {put : α → List UInt8} {get : Wire.Get α} (h : Wire.Faithful put get) {a : α}
    (hlen : (put a).length < 2 ^ 32) (hs : s.cursor.bytes = put a ++ rest) :
    s.wire get = .ok a := by
  rw [Section.wire, hs, h.reads a rest hlen]

theorem readBlocks_ok {blocks : List Block} {codeSize : Nat}
    (hlen : (Wire.putList putBlock blocks).length < 2 ^ 32)
    (hend : ∀ b ∈ blocks, b.endAddress.toNat ≤ codeSize)
    (hs : s.cursor.bytes = Wire.putList putBlock blocks ++ rest) :
    readBlocks codeSize s = .ok blocks := by
  have hfind : blocks.find? (fun b => codeSize < b.endAddress.toNat) = none := by
    rw [List.find?_eq_none]
    intro b hb
    have := hend b hb
    simpa using this
  rw [readBlocks, wire_ok faithful_block.list hlen hs]
  simp only [bind, Except.bind, hfind]
  rfl

/-- A regular expression is what its source stands for. -/
theorem compile_source (r : Regex) : Regex.compile r.source = .ok r := by
  obtain ⟨source, expr, h⟩ := r
  unfold Regex.compile
  split
  · next e he =>
    have : e = expr := by
      rw [h] at he
      exact (Except.ok.inj he).symm
    subst this
    rfl
  · next e he =>
    rw [h] at he
    cases he

theorem mapM_sources {f : String → Except LoadError Regex}
    (hf : ∀ r : Regex, f r.source = .ok r) (rs : List Regex) :
    (rs.map (·.source)).mapM f = .ok rs := by
  induction rs with
  | nil => rfl
  | cons r rs ih =>
    rw [List.map_cons, List.mapM_cons, hf, ih]
    rfl

theorem readRegexes_ok {regexes : List Regex}
    (hlen : (putStrings (regexes.map (·.source))).length < 2 ^ 32)
    (hs : s.cursor.bytes = putStrings (regexes.map (·.source)) ++ rest) :
    readRegexes s = .ok regexes := by
  rw [readRegexes, readStrings_putStrings hlen hs]
  exact mapM_sources (fun r => by rw [compile_source]) regexes

/-! ## The whole program -/

theorem without_of_none (h : body id = none) : without body id = body := by
  funext i
  by_cases hi : i = id
  · subst hi
    simp [without, h]
  · exact without_of_ne hi

/-- A section that may be missing: what it holds is read, and its absence stands for `default`. -/
theorem Offers.optional {sections : List Section} (h : Offers sections body) (id : SectionId)
    {read : Section → Except LoadError α} {default a : α}
    (hsome : ∀ bs s rest, body id = some bs → s.cursor.bytes = bs ++ rest → read s = .ok a)
    (hnone : body id = none → default = a) :
    ∃ found left, takeSection id sections = (found, left) ∧
      Container.optional read default found = .ok a ∧ Offers left (without body id) := by
  cases hid : body id with
  | none =>
    refine ⟨none, sections, h.take_none hid, ?_, ?_⟩
    · rw [Container.optional, hnone hid]
    · rwa [without_of_none hid]
  | some bs =>
    obtain ⟨s, left, rest, htake, -, hbytes, hleft⟩ := h.take hid
    exact ⟨some s, left, htake, hsome bs s rest hid hbytes, hleft⟩

/-- A program as it comes back: without the programs it refers to. -/
def unlinked (p : Program) : Program := { p with id := 0, references := [] }

/-- A table that has a section is written there. -/
theorem eq_of_table_some {table : Array α} {body : List UInt8}
    (h : (if table.isEmpty then none else some body) = some bs) : bs = body := by
  split at h
  · cases h
  · exact (Option.some.inj h).symm

/-- A table that has no section is empty. -/
theorem toList_of_table_none {table : Array α} {body : List UInt8}
    (h : (if table.isEmpty then none else some body) = none) : [] = table.toList := by
  split at h
  · next hempty => simpa using hempty
  · cases h

/-- From the sections of a program, the program is read. -/
theorem readProgram_ok {sections : List Section} (h : Offers sections (bodyOf p))
    (hlen : ∀ id bs, bodyOf p id = some bs → bs.length < 2 ^ 32)
    (hend : ∀ b ∈ p.blocks, b.endAddress.toNat ≤ p.code.size) :
    readProgram sections = .ok (unlinked p) := by
  -- the sections in the order in which they are taken out
  obtain ⟨version, left₁, htake₁, hversion, h₁⟩ :
      ∃ found left, takeSection .version sections = (found, left) ∧
        Container.optional readVersion () found = .ok () ∧ Offers left _ := by
    refine h.optional .version (fun bs s rest hbs hs => ?_) (fun _ => rfl)
    obtain rfl := Option.some.inj hbs
    exact readVersion_ok hs
  obtain ⟨code, left₂, rest₂, htake₂, -, hcode, h₂⟩ :=
    h₁.take (rfl : without (bodyOf p) .version .code = some _)
  obtain ⟨strings, left₃, rest₃, htake₃, -, hstrings, h₃⟩ :=
    h₂.take (rfl : without (without (bodyOf p) .version) .code .strings = some _)
  obtain ⟨blocks, left₄, htake₄, hblocks, h₄⟩ :
      ∃ found left, takeSection .blocks left₃ = (found, left) ∧
        Container.optional (readBlocks p.code.size) [] found = .ok p.blocks.toList ∧
        Offers left _ := by
    refine h₃.optional .blocks (fun bs s rest hbs hs => ?_) toList_of_table_none
    change bodyOf p .blocks = some bs at hbs
    obtain rfl := eq_of_table_some hbs
    exact readBlocks_ok (hlen _ _ hbs) (fun b hb => hend b (Array.mem_toList_iff.1 hb)) hs
  obtain ⟨regexes, left₅, htake₅, hregexes, h₅⟩ :
      ∃ found left, takeSection .regexes left₄ = (found, left) ∧
        Container.optional readRegexes [] found = .ok p.regexes.toList ∧ Offers left _ := by
    refine h₄.optional .regexes (fun bs s rest hbs hs => ?_) toList_of_table_none
    change bodyOf p .regexes = some bs at hbs
    obtain rfl := eq_of_table_some hbs
    exact readRegexes_ok (hlen _ _ hbs) hs
  obtain ⟨queries, left₆, htake₆, hqueries, h₆⟩ :
      ∃ found left, takeSection .queries left₅ = (found, left) ∧
        Container.optional (·.wire (Wire.list getQuery)) [] found = .ok p.queries.toList ∧
        Offers left _ := by
    refine h₅.optional .queries (fun bs s rest hbs hs => ?_) toList_of_table_none
    change bodyOf p .queries = some bs at hbs
    obtain rfl := eq_of_table_some hbs
    exact wire_ok faithful_query.list (hlen _ _ hbs) hs
  obtain ⟨metadata, left₇, htake₇, hmetadata, -⟩ :
      ∃ found left, takeSection .metadata left₆ = (found, left) ∧
        Container.optional (·.wire getMetadata) {} found =
          .ok ⟨p.name, p.referenceNames.toList⟩ ∧ Offers left _ := by
    refine h₆.optional .metadata (fun bs s rest hbs hs => ?_) (fun hnone => by cases hnone)
    obtain rfl := Option.some.inj hbs
    exact wire_ok faithful_metadata (hlen .metadata _ rfl) hs
  have hcodeSize : p.code.size < 2 ^ 32 := by
    have := hlen .code _ rfl
    simp only [List.length_append, Array.length_toList] at this
    omega
  simp only [readProgram, htake₁, htake₂, htake₃, htake₄, htake₅, htake₆, htake₇, hversion,
    required, readCode_ok hcodeSize hcode, readStrings_putStrings (hlen .strings _ rfl) hstrings,
    hblocks, hregexes, hqueries, hmetadata, bind, Except.bind, pure, Except.pure,
    Array.toArray_toList, unlinked]

/-! ## Saving and loading -/

theorem length_directory (offset : Nat) (sections : List RawSection) :
    (directory offset sections).length = sections.length * 5 := by
  induction sections generalizing offset with
  | nil => rfl
  | cons s sections ih =>
    simp only [directory, List.length_append, List.length_cons, putLength, length_ofNat, ih]
    omega

theorem length_sectionsOf_le (p : Program) : (sectionsOf p).length ≤ 7 := by
  rw [sectionsOf_eq, List.length_map]
  exact List.length_filterMap_le ..

section

variable (sections : List RawSection)

/-- A container, taken apart: the mark and the number of sections, the directory, and the bodies. -/
theorem assemble_eq :
    assemble sections = magic ++ UInt8.ofNat sections.length ::
      (directory (headerLength sections.length) sections ++ sections.flatMap (·.2)) := by
  simp [assemble]

theorem length_assemble :
    (assemble sections).length = headerLength sections.length + (sections.flatMap (·.2)).length := by
  rw [assemble_eq]
  simp only [List.length_append, List.length_cons, length_directory, headerLength]
  omega

theorem drop_headerLength_assemble :
    (assemble sections).drop (headerLength sections.length) = sections.flatMap (·.2) := by
  have hhead : (magic ++ UInt8.ofNat sections.length ::
      directory (headerLength sections.length) sections).length = headerLength sections.length := by
    simp only [List.length_append, List.length_cons, length_directory, headerLength]
    omega
  rw [assemble_eq, ← List.cons_append, ← List.append_assoc, List.drop_left' hhead]

/-- The header of a container says how many sections there are. -/
theorem drop_magic_assemble :
    (assemble sections).take magic.length = magic ∧
    (assemble sections).drop magic.length = UInt8.ofNat sections.length ::
      (directory (headerLength sections.length) sections ++ sections.flatMap (·.2)) := by
  rw [assemble_eq, List.take_left, List.drop_left]
  exact ⟨rfl, rfl⟩

end

variable {sections : List RawSection}

theorem toNat_length_sections (hcount : sections.length ≤ 255) :
    (UInt8.ofNat sections.length).toNat = sections.length := by
  rw [UInt8.toNat_ofNat']
  exact Nat.mod_eq_of_lt (by omega)

/-- The directory of a container places its sections. -/
theorem readDirectory_assemble (hsize : (assemble sections).length < 2 ^ 32) :
    readDirectory (assemble sections) sections.length ⟨magic.length + 1,
        directory (headerLength sections.length) sections ++ sections.flatMap (·.2)⟩ =
      .ok (placed (assemble sections) (headerLength sections.length) sections) :=
  readDirectory_directory _ _ _ _ _ hsize (Nat.le_of_eq (length_assemble sections).symm)

/-- What a section of a program holds is part of the container. -/
theorem Arranges.length_le (h : Arranges p sections) (hbody : bodyOf p id = some bs) :
    bs.length ≤ (assemble sections).length := by
  obtain ⟨before, after, hsplit⟩ := List.append_of_mem (h.mem_of_bodyOf hbody)
  have hbodies : bs.length ≤ (sections.flatMap (·.2)).length := by
    rw [hsplit, List.flatMap_append, List.flatMap_cons]
    simp only [List.length_append]
    omega
  rw [length_assemble]
  omega

/-- The sections of a program are read wherever they stand. -/
theorem Arranges.load_assemble (h : Arranges p sections)
    (hend : ∀ b ∈ p.blocks, b.endAddress.toNat ≤ p.code.size) (hcount : sections.length ≤ 255)
    (hsize : (assemble sections).length < 2 ^ 32) : load (assemble sections) = .ok (unlinked p) := by
  have hread := readProgram_ok (h.offers (drop_headerLength_assemble sections))
    (fun id bs hbody => Nat.lt_of_le_of_lt (h.length_le hbody) hsize) hend
  obtain ⟨htake, hrest⟩ := drop_magic_assemble sections
  rw [load, if_pos htake, hrest, Decoder.uint8_cons]
  simp only [toNat_length_sections hcount, readDirectory_assemble hsize]
  exact hread

theorem length_sectionsOf_le_255 (p : Program) : (sectionsOf p).length ≤ 255 :=
  Nat.le_trans (length_sectionsOf_le p) (by decide)

/-- A saved program is loaded without its references. -/
theorem load_save_eq (hend : ∀ b ∈ p.blocks, b.endAddress.toNat ≤ p.code.size)
    (hsize : (save p).length < 2 ^ 32) : load (save p) = .ok (unlinked p) :=
  (arranges_sectionsOf p).load_assemble hend (length_sectionsOf_le_255 p) hsize

/-! ## Linking -/

/-- The imports of a program are linked in the order of their names, up to the first that is
missing. -/
theorem link_eq (e : Engine) (names : List String) :
    e.link names =
      match names.find? fun name => e.programs[name]?.isNone with
      | some name => .error (.unresolvedImport name)
      | none => .ok (names.filterMap (e.programs[·]?)) := by
  induction names with
  | nil => rfl
  | cons name names ih =>
    rw [Engine.link, List.mapM_cons]
    cases hname : e.programs[name]? with
    | none =>
      simp only [List.find?_cons, hname, Option.isNone_none]
      rfl
    | some p =>
      change (e.link names >>= fun ps => pure (p :: ps)) = _
      rw [ih]
      simp only [List.find?_cons, hname, Option.isNone_some, List.filterMap_cons]
      cases names.find? fun name => e.programs[name]?.isNone <;> rfl

/-- A saved program is loaded as it was, but for the programs it refers to; an engine links these
by their names, in order, or tells the first name that it does not know. -/
theorem load_save (e : Engine) (p : Program)
    (hend : ∀ b ∈ p.blocks, b.endAddress.toNat ≤ p.code.size)
    (hsize : (save p).length < 2 ^ 32) :
    load (save p) = .ok { p with id := 0, references := [] } ∧
    e.load (save p) =
      match p.referenceNames.toList.find? fun name => e.programs[name]?.isNone with
      | some name => .error (.unresolvedImport name)
      | none => .ok { p with
          id := 0
          references := p.referenceNames.toList.filterMap (e.programs[·]?) } := by
  have hload := load_save_eq hend hsize
  refine ⟨hload, ?_⟩
  rw [Engine.load, hload]
  change (e.link p.referenceNames.toList >>= fun refs =>
    pure { unlinked p with references := refs }) = _
  rw [link_eq]
  cases p.referenceNames.toList.find? fun name => e.programs[name]?.isNone <;> rfl

/-- A program with a block of weighted items, a query and an import. -/
def sample : Program where
  name := "greeting"
  code := #[0x05, 0, 0, 0, 0, 0x06, 0x06, 0x06, 0x2a, 0, 0]
  strings := #["", "naïve"]
  blocks := #[⟨8, [⟨5, .constant 0x7ff8000000000001⟩, ⟨6, .interpreted 300⟩, ⟨7, .none⟩]⟩]
  queries :=
    #[{ table := some "noun"
        classFilter := [[⟨"large", true⟩, ⟨"red", false⟩]]
        syllables := some ⟨some 1, none⟩
        carriers := [⟨.rhyme, "r"⟩] }]
  referenceNames := #["farewell"]

theorem load_save_sample :
    (∀ b ∈ sample.blocks, b.endAddress.toNat ≤ sample.code.size) ∧
    (save sample).length < 2 ^ 32 ∧
    load (save sample) = .ok sample ∧
    (({} : Engine).addProgram "farewell" sample).load (save sample) =
      .ok { sample with references := [{ sample with id := 1 }] } := by
  have hend : ∀ b ∈ sample.blocks, b.endAddress.toNat ≤ sample.code.size := by decide
  have hsize : (save sample).length < 2 ^ 32 := by decide +kernel
  have h := load_save (({} : Engine).addProgram "farewell" sample) sample hend hsize
  refine ⟨hend, hsize, h.1, h.2.trans ?_⟩
  simp [sample, Engine.addProgram]

/-! ## Other containers -/

/-- A container is no shorter than that of the program alone. -/
theorem length_save_le {unknown : List RawSection} (hperm : sections.Perm (sectionsOf p ++ unknown)) :
    (save p).length ≤ (assemble sections).length := by
  have hcount := hperm.length_eq
  have hbodies := (hperm.flatMap_right (·.2)).length_eq
  rw [List.length_append] at hcount
  rw [List.flatMap_append, List.length_append] at hbodies
  rw [save, length_assemble, length_assemble, headerLength, headerLength]
  omega

/-- **Neither the order of the sections nor unknown ones matter.** -/
theorem load_assemble_perm {p : Program} {sections unknown : List RawSection}
    (hend : ∀ b ∈ p.blocks, b.endAddress.toNat ≤ p.code.size)
    (hunknown : ∀ s ∈ unknown, 0x06 < s.1) (hperm : sections.Perm (sectionsOf p ++ unknown))
    (hcount : sections.length ≤ 255) (hsize : (assemble sections).length < 2 ^ 32) :
    load (assemble sections) = load (save p) ∧
    load (save p) = .ok { p with id := 0, references := [] } := by
  have hnone : ∀ s ∈ unknown, SectionId.ofByte? s.1 = none := by
    intro s hs
    have hlt : 6 < s.1.toNat := UInt8.lt_iff_toNat_lt.1 (hunknown s hs)
    exact List.getElem?_eq_none hlt
  have hsave := load_save_eq hend (Nat.lt_of_le_of_lt (length_save_le hperm) hsize)
  have harranges : Arranges p sections := ⟨unknown, hnone, hperm⟩
  exact ⟨(harranges.load_assemble hend hcount hsize).trans hsave.symm, hsave⟩

/-- A section of an unknown identifier in front, and the others from the last to the first. -/
theorem load_assemble_perm_reversed :
    load (assemble ((0x7f, [1, 2, 3]) :: (sectionsOf sample).reverse)) = load (save sample) ∧
    load (save sample) = .ok sample := by
  have hunknown : ∀ s ∈ [((0x7f, [1, 2, 3]) : RawSection)], 0x06 < s.1 := by decide
  have hperm : ((0x7f, [1, 2, 3]) :: (sectionsOf sample).reverse).Perm
      (sectionsOf sample ++ [(0x7f, [1, 2, 3])]) :=
    ((List.reverse_perm _).cons _).trans (List.perm_append_singleton _ _).symm
  exact load_assemble_perm (by decide) hunknown hperm (by decide +kernel) (by decide +kernel)

end Wordloom.Container
