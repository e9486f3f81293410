import Wordloom.Proofs.Codec

/-!
# Wordloom.Proofs.Listing

Only the bytes of instructions can be read as instructions. Whatever a decoder reads, it has read the
bytes that the value is written as (`Exact`); so is each instruction read from its own bytes
(`decode_sound`), and code that can be listed to its end is what the listed instructions are written
as (`decodeFrom_sound`). With the round trip of `Wordloom.Proofs.Codec` this makes bytes and lists of
instructions correspond one to one.
-/

namespace Wordloom

namespace Bytes.Decoder

/-! ## Numbers -/

/-- What the decoder reads is what `put` writes for the value. -/
def Exact (put : α → List UInt8) (d : Decoder α) : Prop :=
  ∀ c a c', d c = .ok (a, c') →
    c.bytes = put a ++ c'.bytes ∧ c'.offset = c.offset + (put a).length

theorem take_sound {n : Nat} {c c' : Cursor} {bs : List UInt8} (h : take n c = .ok (bs, c')) :
    c.bytes = bs ++ c'.bytes ∧ c'.offset = c.offset + n ∧ bs.length = n := by
  by_cases hlen : (c.bytes.take n).length = n
  · rw [take, if_pos hlen] at h
    cases h
    exact ⟨(List.take_append_drop n c.bytes).symm, rfl, hlen⟩
  · rw [take, if_neg hlen] at h
    cases h

/-- A number of `n` bytes, which are those that it is written as. -/
theorem exact_take {n : Nat} {put : α → List UInt8} {value : List UInt8 → α}
    (h : ∀ bs, bs.length = n → put (value bs) = bs) :
    Exact put (do return value (← take n)) := by
  intro c a c' hread
  obtain ⟨bs, c₁, htake, hvalue⟩ := bind_eq_ok.1 hread
  cases hvalue
  obtain ⟨hbytes, hoffset, hlen⟩ := take_sound htake
  rw [h bs hlen]
  exact ⟨hbytes, by rw [hoffset, hlen]⟩

/-- A number that fits into its bytes is written as the bytes it was read from. -/
theorem ofNat_toNat_of_length {n : Nat} {bs : List UInt8} (h : bs.length = n) :
    ofNat n (toNat bs % 256 ^ n) = bs := by
  subst h
  rw [Nat.mod_eq_of_lt (toNat_lt bs), ofNat_toNat]

theorem exact_uint8 : Exact (fun b => [b]) uint8 := by
  refine exact_take fun bs hlen => ?_
  obtain ⟨b, rfl⟩ := List.length_eq_one_iff.1 hlen
  simp [toNat]

theorem exact_uint16 : Exact ofUInt16 uint16 := by
  refine exact_take fun bs hlen => ?_
  rw [ofUInt16, UInt16.toNat_ofNat']
  exact ofNat_toNat_of_length hlen

theorem exact_uint64 : Exact ofUInt64 uint64 := by
  refine exact_take fun bs hlen => ?_
  rw [ofUInt64, UInt64.toNat_ofNat']
  exact ofNat_toNat_of_length hlen

theorem exact_int32 : Exact ofInt32 int32 := by
  have heq : int32 = (do return (UInt32.ofNat (toNat (← take 4))).toInt32) := by
    simp [int32, uint32]
  rw [heq]
  refine exact_take fun bs hlen => ?_
  rw [ofInt32, UInt32.toUInt32_toInt32, ofUInt32, UInt32.toNat_ofNat']
  exact ofNat_toNat_of_length hlen

end Bytes.Decoder

namespace Instr

open Bytes Decoder

/-! ## One instruction -/

/-- A decoder for the rest of an instruction with this code, behind the first bytes of its operands. -/
def Spells (code : UInt8) (front : List UInt8) (d : Decoder Instr) : Prop :=
  ∀ c i c', d c = .ok (i, c') →
    i.code = code ∧ front ++ c.bytes = i.operandBytes ++ c'.bytes ∧
      c'.offset + front.length = c.offset + i.operandBytes.length

theorem Spells.done {i : Instr} {code : UInt8} {front : List UInt8} (hcode : i.code = code)
    (hbytes : i.operandBytes = front) : Spells code front (pure i) := by
  intro c j c' h
  cases h
  exact ⟨hcode, by rw [hbytes], by rw [hbytes]⟩

variable {d : Decoder α} {put : α → List UInt8} {code : Array UInt8}

/-- One more operand is read. -/
theorem Spells.read {f : α → Decoder Instr} {code : UInt8} {front : List UInt8} (hd : Exact put d)
    (hf : ∀ a, Spells code (front ++ put a) (f a)) : Spells code front (d >>= f) := by
  intro c i c' h
  obtain ⟨a, c₁, ha, hi⟩ := bind_eq_ok.1 h
  obtain ⟨hbytes, hoffset⟩ := hd c a c₁ ha
  obtain ⟨hcode, hfront, hend⟩ := hf a c₁ i c' hi
  refine ⟨hcode, ?_, ?_⟩
  · rw [hbytes, ← List.append_assoc, hfront]
  · rw [List.length_append] at hend
    omega

/-- An instruction with one operand. -/
theorem Spells.one {make : α → Instr} {code : UInt8} (hd : Exact put d)
    (hcode : ∀ a, (make a).code = code) (hbytes : ∀ a, (make a).operandBytes = put a) :
    Spells code [] (do return make (← d)) :=
  .read hd fun a => .done (hcode a) (hbytes a)

/-- An instruction with two operands. -/
theorem Spells.two {put' : β → List UInt8} {d' : Decoder β} {make : α → β → Instr} {code : UInt8}
    (hd : Exact put d) (hd' : Exact put' d') (hcode : ∀ a b, (make a b).code = code)
    (hbytes : ∀ a b, (make a b).operandBytes = put a ++ put' b) :
    Spells code [] (do return make (← d) (← d')) :=
  .read hd fun a => .read hd' fun b => .done (hcode a b) (hbytes a b)

theorem decodeOperands_sound (code : UInt8) : Spells code [] (decodeOperands code) := by
  have heq {n : Nat} (h : code.toNat = n) {k : UInt8} (hk : k.toNat = n) : k = code :=
    UInt8.toNat_inj.1 (hk.trans h.symm)
  unfold decodeOperands
  -- the arms are numbered by the codes, from `h_1` for 0x00 on
  split
  case h_1 h =>
    exact .read exact_int32 fun _ => .read exact_int32 fun _ => .read exact_int32 fun _ =>
      .done (heq h rfl) rfl
  case h_3 h | h_15 h => exact .one exact_uint64 (fun _ => heq h rfl) fun _ => rfl
  case h_4 h | h_17 h => exact .two exact_int32 exact_uint8 (fun _ _ => heq h rfl) fun _ _ => rfl
  case h_9 h => exact .two exact_uint8 exact_int32 (fun _ _ => heq h rfl) fun _ _ => rfl
  case h_10 h => exact .two exact_uint16 exact_uint8 (fun _ _ => heq h rfl) fun _ _ => rfl
  case h_18 h => exact .one exact_uint8 (fun _ => heq h rfl) fun _ => rfl
  case h_26 h => exact .two exact_uint16 exact_uint16 (fun _ _ => heq h rfl) fun _ _ => rfl
  case h_28 h | h_29 h | h_43 h => exact .one exact_uint16 (fun _ => heq h rfl) fun _ => rfl
  case h_2 h | h_6 h | h_14 h | h_19 h | h_20 h | h_31 h | h_32 h | h_33 h | h_34 h | h_35 h | h_36 h
    | h_37 h | h_38 h | h_40 h => exact .one exact_int32 (fun _ => heq h rfl) fun _ => rfl
  case h_44 => exact fun _ _ _ h => nomatch h
  all_goals
    rename_i h
    exact .done (heq h rfl) rfl

/-- An instruction is read from its own bytes. -/
theorem decode_sound {c c' : Cursor} {i : Instr} (h : decode c = .ok (i, c')) :
    c.bytes = i.encode ++ c'.bytes ∧ c'.offset = c.offset + i.size := by
  obtain ⟨code, c₁, hcode, hi⟩ := bind_eq_ok.1 h
  obtain ⟨hbytes, hoffset⟩ := exact_uint8 c code c₁ hcode
  obtain ⟨rfl, hoperands, hend⟩ := decodeOperands_sound code c₁ i c' hi
  rw [List.nil_append] at hoperands
  refine ⟨?_, ?_⟩
  · rw [hbytes, hoperands]
    rfl
  · rw [← length_encode, encode, List.length_cons]
    simp only [List.length_cons, List.length_nil] at hoffset hend
    omega

theorem decodeAt_sound {offset next : Nat} {i : Instr} (h : decodeAt code offset = .ok (i, next)) :
    (∃ rest, code.toList.drop offset = i.encode ++ rest) ∧ next = offset + i.size := by
  unfold decodeAt at h
  cases hread : decode ⟨offset, (code.extract offset (offset + maxSize)).toList⟩ with
  | error e =>
    rw [hread] at h
    cases h
  | ok r =>
    obtain ⟨j, c'⟩ := r
    rw [hread] at h
    cases h
    obtain ⟨hbytes, hoffset⟩ := decode_sound hread
    refine ⟨⟨c'.bytes ++ (code.toList.drop offset).drop maxSize, ?_⟩, hoffset⟩
    rw [← List.append_assoc, ← hbytes, Array.toList_extract, List.extract_eq_take_drop,
      Nat.add_sub_cancel_left, List.take_append_drop]

/-! ## The whole code -/

/-- Code that is read to its end is what the instructions are written as. Every instruction has a
byte, so the fuel lasts. -/
theorem decodeFrom_sound {fuel offset : Nat} {placed : List Placed} (hfuel : code.size ≤ offset + fuel)
    (h : decodeFrom code fuel offset = (placed, none)) :
    ∃ is, placed = place offset is ∧ code.toList.drop offset = flatten is := by
  induction fuel generalizing offset placed with
  | zero =>
    cases h
    exact ⟨[], rfl, List.drop_eq_nil_of_le (by simpa using hfuel)⟩
  | succ fuel ih =>
    rw [decodeFrom] at h
    split at h
    · next hend =>
      cases h
      exact ⟨[], rfl, List.drop_eq_nil_of_le (by simpa using hend)⟩
    · split at h
      · cases h
      · next i next hread =>
        obtain ⟨⟨rest, hrest⟩, rfl⟩ := decodeAt_sound hread
        have hpos := i.size_pos
        cases hfollow : decodeFrom code fuel (offset + i.size) with
        | mk placed' error =>
        rw [hfollow] at h
        cases h
        obtain ⟨is, his, hbytes⟩ := ih (by omega) hfollow
        refine ⟨i :: is, ?_, ?_⟩
        · rw [his, place]
        · have hdrop : rest = flatten is := by
            rw [← hbytes, ← List.drop_drop, hrest, List.drop_left' (length_encode i)]
          rw [hrest, hdrop, flatten_cons]

/-- Code can be listed if it is the bytes of instructions, which are then the ones that are listed. -/
theorem listing_eq_ok {placed : List Placed} :
    listing code = .ok placed ↔ ∃ is, placed = place 0 is ∧ code.toList = flatten is := by
  unfold listing decodeAll
  constructor
  · intro h
    split at h
    · next hread =>
      cases h
      exact decodeFrom_sound (by omega) hread
    · cases h
  · rintro ⟨is, rfl, hcode⟩
    have hread := decodeAll_flatten hcode
    unfold decodeAll at hread
    rw [hread]

/-- Each instruction is placed behind the bytes of those before it. -/
theorem eq_place_iff (offset : Nat) (placed : List Placed) :
    placed = place offset (placed.map (·.2)) ↔
      ∀ k p, placed[k]? = some p → p.1 = offset + ((placed.take k).map (·.2.size)).sum := by
  induction placed generalizing offset with
  | nil => simp [place]
  | cons q placed ih =>
    rw [List.map_cons, place, List.cons.injEq, ih, Prod.ext_iff]
    constructor
    · rintro ⟨⟨hq, -⟩, hrest⟩ k p hp
      cases k with
      | zero =>
        cases hp
        simpa using hq
      | succ k =>
        rw [hrest k p hp]
        simp only [List.take_succ_cons, List.map_cons, List.sum_cons]
        omega
    · intro h
      refine ⟨⟨by simpa using h 0 q rfl, rfl⟩, fun k p hp => ?_⟩
      rw [h (k + 1) p hp]
      simp only [List.take_succ_cons, List.map_cons, List.sum_cons]
      omega

/-- **Bytes and instructions correspond one to one.** Code is listed as `placed` exactly if it is what
these instructions are written as, one after the other, each placed behind the bytes of those before
it. So every list of instructions is read back from its bytes, and nothing but the bytes of
instructions can be listed. -/
theorem listing_eq_ok_iff (code : Array UInt8) (placed : List Placed) :
    listing code = .ok placed ↔
      code.toList = placed.flatMap (·.2.encode) ∧
      ∀ k p, placed[k]? = some p → p.1 = ((placed.take k).map (·.2.size)).sum := by
  have hflatten : flatten (placed.map (·.2)) = placed.flatMap (·.2.encode) := by
    rw [flatten, List.flatMap_map]
  have hplace := eq_place_iff 0 placed
  simp only [Nat.zero_add] at hplace
  rw [listing_eq_ok, ← hplace, ← hflatten]
  constructor
  · rintro ⟨is, rfl, hcode⟩
    rw [map_snd_place]
    exact ⟨hcode, rfl⟩
  · rintro ⟨hcode, hoffsets⟩
    exact ⟨_, hoffsets, hcode⟩

end Instr

end Wordloom
