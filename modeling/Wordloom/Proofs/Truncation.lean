import Wordloom.Proofs.Directory

/-!
# Wordloom.Proofs.Truncation

A container that has been cut off is not loaded. Readers do not look behind what they read: with more
bytes at the end they read the same (`Steady`). So whatever is read of a cut container would also be
read of the whole one; but there the last section, the metadata, is read to the very end, and nothing
can have read that much of it before the cut.
-/

namespace Wordloom

/-! ## Readers that do not look ahead -/

section

variable {σ ε α β : Type} {more : σ → σ}

/-- With more to read, the reader reads the same and leaves more. -/
def Steady (more : σ → σ) (get : StateT σ (Except ε) α) : Prop :=
  ∀ s a s', get s = .ok (a, s') → get (more s) = .ok (a, more s')

theorem Steady.pure (a : α) : Steady more (pure a : StateT σ (Except ε) α) := by
  intro s b s' h
  cases h
  rfl

theorem Steady.throw (e : ε) : Steady more (throw e : StateT σ (Except ε) α) := nofun

theorem Steady.bind {get : StateT σ (Except ε) α} {next : α → StateT σ (Except ε) β}
    (h : Steady more get) (hnext : ∀ a, Steady more (next a)) : Steady more (get >>= next) := by
  intro s b s' hb
  obtain ⟨a, s₁, ha, hb⟩ := bind_eq_ok.1 hb
  rw [bind_of_ok (h s a s₁ ha)]
  exact hnext a s₁ b s' hb

end

namespace Wire

variable {more : List UInt8} {get : Get α}

theorem steady_byte : Steady (· ++ more) byte := by
  intro bs b rest h
  cases bs with
  | nil => cases h
  | cons c bs =>
    cases h
    rfl

theorem steady_take (n : Nat) : Steady (· ++ more) (take n) := by
  intro bs front rest h
  by_cases hlen : (bs.take n).length = n
  · rw [take, if_pos hlen] at h
    cases h
    rw [List.length_take] at hlen
    simp only [take, List.take_append_of_le_length (by omega : n ≤ bs.length),
      List.drop_append_of_le_length (by omega : n ≤ bs.length), List.length_take, if_pos hlen]
  · rw [take, if_neg hlen] at h
    cases h

theorem steady_varint (top : UInt8) (digits : Nat) : Steady (· ++ more) (varint top digits) := by
  induction digits with
  | zero => exact .throw _
  | succ digits ih =>
    refine .bind steady_byte fun b => ?_
    split
    · split
      · exact .throw _
      · exact .pure _
    · exact .bind ih fun n => .pure _

theorem steady_string : Steady (· ++ more) string := by
  refine .bind (steady_varint _ _) fun n => .bind (steady_take n) fun bs => ?_
  cases Text.ofUtf8? bs with
  | some s => exact .pure s
  | none => exact .throw _

theorem steady_many (h : Steady (· ++ more) get) (n : Nat) : Steady (· ++ more) (many get n) := by
  induction n with
  | zero => exact .pure _
  | succ n ih => exact .bind h fun a => .bind ih fun as => .pure _

theorem steady_list (h : Steady (· ++ more) get) : Steady (· ++ more) (list get) :=
  .bind (steady_varint _ _) (steady_many h)

/-- What is written cannot be read if some of it is missing. -/
theorem Faithful.cut {put : α → List UInt8} (h : Faithful put get) {a : α}
    (hlen : (put a).length < 2 ^ 32) {bs more : List UInt8} (hput : bs ++ more = put a)
    (hsteady : Steady (· ++ more) get) (hmore : more ≠ []) : ∃ e, get bs = .error e := by
  cases hget : get bs with
  | error e => exact ⟨e, rfl⟩
  | ok r =>
    obtain ⟨b, rest⟩ := r
    have hwhole : get (put a) = .ok (a, []) := by simpa using h.reads a [] hlen
    have hread := hsteady bs b rest hget
    simp only [hput, hwhole, Except.ok.injEq, Prod.mk.injEq, List.nil_eq, List.append_eq_nil_iff]
      at hread
    exact absurd hread.2.2 hmore

end Wire

namespace Container

open Bytes

variable (more : List UInt8) {sections : List Section}

theorem steady_metadata : Steady (· ++ more) getMetadata :=
  .bind Wire.steady_string fun _ => .bind (Wire.steady_list Wire.steady_string) fun _ => .pure _

/-! ## The directory -/

/-- A cursor with more bytes at the end. -/
def lengthen (more : List UInt8) (c : Cursor) : Cursor := ⟨c.offset, c.bytes ++ more⟩

theorem steady_take (n : Nat) : Steady (lengthen more) (Decoder.take n) := by
  intro c front c' h
  by_cases hlen : (c.bytes.take n).length = n
  · rw [Decoder.take, if_pos hlen] at h
    cases h
    rw [List.length_take] at hlen
    simp only [Decoder.take, lengthen, List.take_append_of_le_length (by omega : n ≤ c.bytes.length),
      List.drop_append_of_le_length (by omega : n ≤ c.bytes.length), List.length_take, if_pos hlen]
  · rw [Decoder.take, if_neg hlen] at h
    cases h

theorem steady_uint8 : Steady (lengthen more) Decoder.uint8 :=
  .bind (steady_take more 1) fun _ => .pure _

theorem steady_entry : Steady (lengthen more) entry :=
  .bind (steady_uint8 more) fun _ => .bind (.bind (steady_take more 4) fun _ => .pure _) fun _ => .pure _

/-- What the directory of a cut container names, the whole container has with more bytes. -/
theorem readDirectory_lengthen {bytes : List UInt8} {count : Nat} {c : Cursor}
    (h : readDirectory bytes count c = .ok sections) :
    readDirectory (bytes ++ more) count (lengthen more c) =
      .ok (sections.map fun s => ⟨s.id, lengthen more s.cursor⟩) := by
  induction count generalizing c sections with
  | zero =>
    cases h
    rfl
  | succ count ih =>
    rw [readDirectory] at h
    split at h
    · cases h
    · next byte offset c' hentry =>
      rw [readDirectory, steady_entry more c (byte, offset) c' hentry]
      dsimp only
      split at h
      · exact ih h
      · next id _ =>
        split at h
        · cases h
        · next hoffset =>
          cases hrest : readDirectory bytes count c' with
          | error e =>
            rw [hrest] at h
            cases h
          | ok rest =>
          rw [hrest] at h
          cases h
          rw [if_neg (by rw [List.length_append]; omega), ih hrest, List.map_cons, lengthen,
            List.drop_append_of_le_length (by omega)]
          rfl

/-! ## The last section -/

theorem placed_append (bytes : List UInt8) (offset : Nat) (sections more : List RawSection) :
    placed bytes offset (sections ++ more) =
      placed bytes offset sections ++ placed bytes (offset + (sections.flatMap (·.2)).length) more := by
  induction sections generalizing offset with
  | nil => rfl
  | cons s sections ih =>
    obtain ⟨byte, body⟩ := s
    rw [List.cons_append, placed, placed, ih, List.flatMap_cons, List.length_append, Nat.add_assoc,
      List.append_assoc]

theorem sectionsOf_eq_append (p : Program) :
    ∃ before, sectionsOf p =
        before ++ [(SectionId.metadata.toByte, putMetadata ⟨p.name, p.referenceNames.toList⟩)] ∧
      .metadata ∉ before.filterMap (SectionId.ofByte? ·.1) := by
  have hnodup := (arranges_sectionsOf p).nodup
  unfold sectionsOf at hnodup ⊢
  refine ⟨_, rfl, fun hmem => ?_⟩
  rw [List.filterMap_append, List.nodup_append] at hnodup
  exact hnodup.2.2 _ hmem _ (List.mem_singleton.2 rfl) rfl

/-- The metadata of a saved program reach to its end. -/
theorem bytes_of_metadata {p : Program} {s : Section}
    (hs : s ∈ placed (save p) (headerLength (sectionsOf p).length) (sectionsOf p))
    (hid : s.id = .metadata) : s.cursor.bytes = putMetadata ⟨p.name, p.referenceNames.toList⟩ := by
  have hdrop : (save p).drop (headerLength (sectionsOf p).length) = (sectionsOf p).flatMap (·.2) :=
    drop_headerLength_assemble (sectionsOf p)
  generalize headerLength (sectionsOf p).length = offset at hs hdrop
  obtain ⟨before, hsections, hbefore⟩ := sectionsOf_eq_append p
  rw [hsections, placed_append] at hs
  obtain hs | hs := List.mem_append.1 hs
  · have hmem : s.id ∈ before.filterMap (SectionId.ofByte? ·.1) := by
      rw [← map_id_placed (save p) before offset]
      exact List.mem_map_of_mem hs
    rw [hid] at hmem
    exact absurd hmem hbefore
  · obtain rfl := List.mem_singleton.1 hs
    rw [hsections, List.flatMap_append] at hdrop
    rw [← List.drop_drop, hdrop, List.drop_left]
    simp

variable {more}

/-! ## Programs -/

/-- A program is not read without its metadata, if there is a section for them. -/
theorem readProgram_metadata {q : Program} (h : readProgram sections = .ok q) {s : Section}
    (hs : s ∈ sections) (hid : s.id = .metadata) :
    ∃ t ∈ sections, t.id = .metadata ∧ ∃ m, t.wire getMetadata = .ok m := by
  obtain ⟨t, ht, htid, hfound⟩ := (picks_chosen sections .metadata).exists_of_mem hs hid
  have hread := (readFrom_chosen h).metadata
  rw [hfound] at hread
  exact ⟨t, ht, htid, _, hread⟩

/-- Sections that lack some bytes at the end are not those of a program. -/
theorem readProgram_cut {p : Program} (hsize : (save p).length < 2 ^ 32)
    (hsections : sections.map (fun s => ⟨s.id, lengthen more s.cursor⟩) = placed (save p) (headerLength (sectionsOf p).length) (sectionsOf p))
    (hmore : more ≠ []) (q : Program) : readProgram sections ≠ .ok q := by
  intro hread
  obtain ⟨s, hs, hid⟩ : ∃ s ∈ sections, s.id = .metadata := by
    have hids := map_id_placed (save p) (sectionsOf p) (headerLength (sectionsOf p).length)
    rw [← hsections, List.map_map] at hids
    have hmem : SectionId.metadata ∈ (sectionsOf p).filterMap (SectionId.ofByte? ·.1) :=
      List.mem_filterMap.2 ⟨_, (arranges_sectionsOf p).mem_of_bodyOf (rfl : bodyOf p .metadata = some _),
        rfl⟩
    rw [← hids] at hmem
    simpa using hmem
  obtain ⟨t, ht, htid, m, hm⟩ := readProgram_metadata hread hs hid
  have hbytes : t.cursor.bytes ++ more = putMetadata ⟨p.name, p.referenceNames.toList⟩ := by
    refine bytes_of_metadata (s := ⟨t.id, lengthen more t.cursor⟩) ?_ htid
    rw [← hsections]
    exact List.mem_map_of_mem ht
  have hlen := (arranges_sectionsOf p).length_le (rfl : bodyOf p .metadata = some _)
  obtain ⟨e, he⟩ :=
    faithful_metadata.cut (Nat.lt_of_le_of_lt hlen hsize) hbytes (steady_metadata more) hmore
  rw [Section.wire, he] at hm
  cases hm

/-- **A cut container is not loaded**, wherever it has been cut off. -/
theorem load_cut {p : Program} (hsize : (save p).length < 2 ^ 32) {bytes : List UInt8}
    (hbegin : bytes <+: save p) (hne : bytes ≠ save p) : ∃ e, load bytes = .error e := by
  cases hload : load bytes with
  | error e => exact ⟨e, rfl⟩
  | ok q =>
    exfalso
    obtain ⟨more, hmore⟩ := hbegin
    have hcut : more ≠ [] := by
      rintro rfl
      exact hne (by simpa using hmore)
    unfold load at hload
    split at hload
    · next hmagic =>
      have hlong : magic.length ≤ bytes.length := by
        have := congrArg List.length hmagic
        rw [List.length_take] at this
        omega
      split at hload
      · cases hload
      · next count c hcount =>
        obtain ⟨sections, hsections, hread⟩ := ok_of_bind hload
        -- with the missing bytes, the header is that of the program
        have hheader := steady_uint8 more _ _ _ hcount
        rw [lengthen, ← List.drop_append_of_le_length hlong, hmore, save,
          (drop_magic_assemble (sectionsOf p)).2, Decoder.uint8_cons, Except.ok.injEq, Prod.mk.injEq] at hheader
        obtain ⟨rfl, hc⟩ := hheader
        -- and so are the sections
        have hwhole := readDirectory_lengthen more hsections
        rw [hmore, ← hc, toNat_length_sections (length_sectionsOf_le_255 p), save,
          readDirectory_assemble hsize, Except.ok.injEq] at hwhole
        exact readProgram_cut hsize hwhole.symm hcut q hread
    · cases hload

/-- The last byte of a container is needed, too. -/
theorem load_cut_sample :
    (save sample).length < 2 ^ 32 ∧ (save sample).dropLast <+: save sample ∧
    (save sample).dropLast ≠ save sample ∧ ∃ e, load (save sample).dropLast = .error e := by
  have hsize : (save sample).length < 2 ^ 32 := by decide +kernel
  have hne : (save sample).dropLast ≠ save sample := by decide +kernel
  exact ⟨hsize, List.dropLast_prefix _, hne, load_cut hsize (List.dropLast_prefix _) hne⟩

end Container

end Wordloom
