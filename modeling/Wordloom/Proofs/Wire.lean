import Wordloom.Container.Tables
import Wordloom.Proofs.Bytes

/-!
# Wordloom.Proofs.Wire

The compact encoding reads back what it writes. A writer and a reader belong together if the reader
takes exactly what the writer put in front of any bytes; what is written has at least one byte, so
that the number of elements of a list is bounded by the length of its encoding.

* `Faithful.list`, `Faithful.option`, `Faithful.string` are the combinators;
* `faithful_block`, `faithful_query`, `faithful_metadata` are the tables of a container.
-/

namespace Wordloom

theorem Text.ofUtf8?_toUtf8 (s : String) : Text.ofUtf8? (Text.toUtf8 s) = some s := by
  rw [Text.ofUtf8?, Text.toUtf8, Array.toArray_toList, String.fromUTF8?, dif_pos s.isValidUTF8]
  rfl

end Wordloom

namespace Wordloom.Wire

/-! ## Bytes -/

theorem byte_cons (b : UInt8) (rest : List UInt8) : byte (b :: rest) = .ok (b, rest) := rfl

theorem take_append {bs rest : List UInt8} (h : bs.length = n) :
    take n (bs ++ rest) = .ok (bs, rest) := by
  subst h
  simp [take]

/-! ## Numbers -/

theorem putVarint_pos (n : Nat) : 0 < (putVarint n).length := by
  rw [putVarint]
  split <;> simp

/-- Numbers that fit into the given number of digits, the last of which is at most `top`. -/
def varintBound (top : UInt8) (digits : Nat) : Nat := (top.toNat + 1) * 128 ^ (digits - 1)

/-- A number below the bound is read back from its digits. -/
theorem varint_putVarint (top : UInt8) (htop : top < 128) (digits : Nat) (n : Nat)
    (rest : List UInt8) (hdigits : 0 < digits) (h : n < varintBound top digits) :
    varint top digits (putVarint n ++ rest) = .ok (n, rest) := by
  induction digits generalizing n with
  | zero => omega
  | succ digits ih =>
    have htop' : top.toNat < 128 := by simpa [UInt8.lt_iff_toNat_lt] using htop
    rw [putVarint, varint]
    by_cases hn : n < 128
    · have hb : (UInt8.ofNat n).toNat = n := by simp; omega
      have hsmall : UInt8.ofNat n < 128 := by
        rw [UInt8.lt_iff_toNat_lt, hb]
        exact hn
      have hlast : ¬(digits = 0 ∧ top < UInt8.ofNat n) := by
        rintro ⟨rfl, hlt⟩
        rw [UInt8.lt_iff_toNat_lt, hb] at hlt
        simp only [varintBound] at h
        omega
      rw [if_pos hn, List.singleton_append, bind_of_ok (byte_cons _ _), if_pos hsmall,
        if_neg hlast, pure_apply, hb]
    · have hb : (UInt8.ofNat (n % 128 + 128)).toNat = n % 128 + 128 := by simp; omega
      have hbig : ¬UInt8.ofNat (n % 128 + 128) < 128 := by
        rw [UInt8.lt_iff_toNat_lt, hb]
        simp
      have hpos : 0 < digits := by
        rcases Nat.eq_zero_or_pos digits with rfl | hpos
        · simp only [varintBound] at h
          omega
        · exact hpos
      have hbound : n / 128 < varintBound top digits := by
        obtain ⟨d, rfl⟩ : ∃ d, digits = d + 1 := ⟨digits - 1, by omega⟩
        simp only [varintBound, Nat.add_sub_cancel] at h ⊢
        rw [Nat.pow_succ, ← Nat.mul_assoc] at h
        exact Nat.div_lt_of_lt_mul (by omega)
      rw [if_neg hn, List.cons_append, bind_of_ok (byte_cons _ _), if_neg hbig,
        bind_of_ok (ih (n / 128) hpos hbound), pure_apply, hb]
      congr 2
      omega

theorem length_putVarint {n : Nat} (rest : List UInt8) (h : n < 2 ^ 64) :
    length (putVarint n ++ rest) = .ok (n, rest) :=
  varint_putVarint 1 (by decide) 10 n rest (by omega) (by simp [varintBound]; omega)

/-! ## Faithful pairs -/

/-- The reader takes back what the writer put, as long as that is less than 4 GiB. -/
structure Faithful (put : α → List UInt8) (get : Get α) : Prop where
  pos : ∀ a, 0 < (put a).length
  reads : ∀ a rest, (put a).length < 2 ^ 32 → get (put a ++ rest) = .ok (a, rest)

namespace Faithful

theorem uint32 : Faithful putUInt32 Wire.uint32 where
  pos n := putVarint_pos _
  reads n rest _ := by
    have hn : n.toNat < varintBound 15 5 := by
      have := n.toNat_lt
      simp only [varintBound]
      simpa using this
    rw [Wire.uint32, putUInt32, bind_of_ok (varint_putVarint 15 (by decide) 5 _ rest (by omega) hn),
      pure_apply, UInt32.ofNat_toNat]

theorem uint64Fixed : Faithful putUInt64Fixed Wire.uint64Fixed where
  pos n := by simp [putUInt64Fixed, Bytes.ofUInt64]
  reads n rest _ := by
    have hlen : (putUInt64Fixed n).length = 8 := by simp [putUInt64Fixed, Bytes.ofUInt64]
    rw [Wire.uint64Fixed, bind_of_ok (take_append hlen), pure_apply]
    have hn := n.toNat_lt
    rw [putUInt64Fixed, Bytes.ofUInt64, Bytes.toNat_ofNat, Nat.mod_eq_of_lt (by omega),
      UInt64.ofNat_toNat]

theorem bool : Faithful putBool Wire.bool where
  pos b := by simp [putBool]
  reads b rest _ := by
    rw [Wire.bool, putBool, List.singleton_append, bind_of_ok (byte_cons _ _)]
    cases b <;> rfl

theorem string : Faithful putString Wire.string where
  pos s := by
    have := putVarint_pos (Text.toUtf8 s).length
    simp only [putString, List.length_append]
    omega
  reads s rest h := by
    have hlen : (Text.toUtf8 s).length < 2 ^ 64 := by
      simp only [putString, List.length_append] at h
      omega
    rw [Wire.string, putString, List.append_assoc, bind_of_ok (length_putVarint _ hlen),
      bind_of_ok (take_append rfl), Text.ofUtf8?_toUtf8]
    rfl

variable {get : Get α} {put : α → List UInt8}

theorem option (h : Faithful put get) : Faithful (putOption put) (Wire.option get) where
  pos a := by cases a <;> simp [putOption]
  reads a rest hlen := by
    rw [Wire.option]
    cases a with
    | none =>
      rw [putOption, List.singleton_append, bind_of_ok (byte_cons _ _)]
      rfl
    | some a =>
      have ha : (put a).length < 2 ^ 32 := by
        simp only [putOption, List.length_cons] at hlen
        omega
      rw [putOption, List.cons_append, bind_of_ok (byte_cons _ _)]
      change (get >>= fun a => pure (some a)) (put a ++ rest) = _
      rw [bind_of_ok (h.reads a rest ha), pure_apply]

/-- Elements that each have a byte are at most as many as their bytes. -/
theorem length_le_length_flatMap (h : Faithful put get) (as : List α) :
    as.length ≤ (as.flatMap put).length := by
  induction as with
  | nil => simp
  | cons a as ih =>
    have := h.pos a
    simp only [List.flatMap_cons, List.length_append, List.length_cons]
    omega

/-- A list is read back item by item. -/
theorem many (h : Faithful put get) (as : List α) (rest : List UInt8)
    (hlen : (as.flatMap put).length < 2 ^ 32) :
    Wire.many get as.length (as.flatMap put ++ rest) = .ok (as, rest) := by
  induction as with
  | nil => rfl
  | cons a as ih =>
    simp only [List.flatMap_cons, List.length_append] at hlen
    rw [List.flatMap_cons, List.append_assoc, List.length_cons, Wire.many,
      bind_of_ok (h.reads a _ (by omega)), bind_of_ok (ih (by omega)), pure_apply]

theorem list (h : Faithful put get) : Faithful (putList put) (Wire.list get) where
  pos as := by
    have := putVarint_pos as.length
    simp only [putList, List.length_append]
    omega
  reads as rest hlen := by
    simp only [putList, List.length_append] at hlen
    have hcount := h.length_le_length_flatMap as
    rw [Wire.list, putList, List.append_assoc, bind_of_ok (length_putVarint _ (by omega)),
      h.many as rest (by omega)]

end Faithful

/-- The number of an alternative. -/
theorem tag_putVarint {n : Nat} (rest : List UInt8) (h : n < 2 ^ 32) :
    tag (putVarint n ++ rest) = .ok (n, rest) :=
  varint_putVarint 15 (by decide) 5 n rest (by omega) (by simp [varintBound]; omega)

end Wordloom.Wire

namespace Wordloom.Container

open Wire

/-! ## Blocks -/

theorem faithful_weight : Faithful putWeight getWeight where
  pos w := by
    have := putVarint_pos 0
    have := putVarint_pos 1
    have := putVarint_pos 2
    cases w <;> simp only [putWeight, List.length_append] <;> omega
  reads w rest hlen := by
    rw [getWeight]
    cases w with
    | none =>
      rw [putWeight, bind_of_ok (tag_putVarint rest (by omega))]
      rfl
    | constant bits =>
      simp only [putWeight, List.length_append] at hlen
      rw [putWeight, List.append_assoc, bind_of_ok (tag_putVarint _ (by omega))]
      change (Wire.uint64Fixed >>= fun bits => pure (Weight.constant bits)) _ = _
      rw [bind_of_ok (Faithful.uint64Fixed.reads bits rest (by omega)), pure_apply]
    | interpreted offset =>
      simp only [putWeight, List.length_append] at hlen
      rw [putWeight, List.append_assoc, bind_of_ok (tag_putVarint _ (by omega))]
      change (Wire.uint32 >>= fun offset => pure (Weight.interpreted offset)) _ = _
      rw [bind_of_ok (Faithful.uint32.reads offset rest (by omega)), pure_apply]

theorem faithful_item :
    Faithful (fun item : BlockItem => putUInt32 item.offset ++ putWeight item.weight)
      (do let offset ← Wire.uint32; return ⟨offset, ← getWeight⟩) where
  pos item := by
    have := faithful_weight.pos item.weight
    simp only [List.length_append]
    omega
  reads item rest hlen := by
    simp only [List.length_append] at hlen
    rw [List.append_assoc, bind_of_ok (Faithful.uint32.reads _ _ (by omega)),
      bind_of_ok (faithful_weight.reads _ _ (by omega)), pure_apply]

/-- Blocks are read back as they were. -/
theorem faithful_block : Faithful putBlock getBlock where
  pos b := by
    have := Faithful.uint32.pos b.endAddress
    simp only [putBlock, List.length_append]
    omega
  reads b rest hlen := by
    simp only [putBlock, List.length_append] at hlen
    rw [getBlock, putBlock, List.append_assoc, bind_of_ok (Faithful.uint32.reads _ _ (by omega)),
      bind_of_ok (faithful_item.list.reads _ _ (by omega)), pure_apply]

/-! ## Queries -/

theorem getElem?_idxOf_kind (k : CarrierKind) :
    CarrierKind.all[CarrierKind.all.idxOf k]? = some k := by
  cases k <;> decide

theorem faithful_carrier : Faithful putCarrier getCarrier where
  pos c := by
    have := Faithful.string.pos c.id
    simp only [putCarrier, List.length_append]
    omega
  reads c rest hlen := by
    have hkind : CarrierKind.all.idxOf c.kind < 2 ^ 32 := by
      have : CarrierKind.all.idxOf c.kind ≤ CarrierKind.all.length := List.idxOf_le_length
      have : CarrierKind.all.length = 12 := rfl
      omega
    simp only [putCarrier, List.length_append] at hlen
    rw [getCarrier, putCarrier, List.append_assoc, bind_of_ok (tag_putVarint _ hkind),
      getElem?_idxOf_kind]
    change (Wire.string >>= fun id => pure (⟨c.kind, id⟩ : Carrier)) _ = _
    rw [bind_of_ok (Faithful.string.reads _ _ (by omega)), pure_apply]

theorem faithful_classRule : Faithful putClassRule getClassRule where
  pos r := by
    have := Faithful.string.pos r.name
    simp only [putClassRule, List.length_append]
    omega
  reads r rest hlen := by
    simp only [putClassRule, List.length_append] at hlen
    rw [getClassRule, putClassRule, List.append_assoc,
      bind_of_ok (Faithful.string.reads _ _ (by omega)),
      bind_of_ok (Faithful.bool.reads _ _ (by omega)), pure_apply]

theorem faithful_regexFilter : Faithful putRegexFilter getRegexFilter where
  pos f := by
    have := Faithful.bool.pos f.wanted
    simp only [putRegexFilter, List.length_append]
    omega
  reads f rest hlen := by
    simp only [putRegexFilter, List.length_append] at hlen
    rw [getRegexFilter, putRegexFilter, List.append_assoc,
      bind_of_ok (Faithful.bool.reads _ _ (by omega)),
      bind_of_ok (Faithful.uint32.reads _ _ (by omega)), pure_apply]

theorem faithful_syllables : Faithful putSyllables getSyllables where
  pos r := by
    have := Faithful.uint32.option.pos r.min
    simp only [putSyllables, List.length_append]
    omega
  reads r rest hlen := by
    simp only [putSyllables, List.length_append] at hlen
    rw [getSyllables, putSyllables, List.append_assoc,
      bind_of_ok (Faithful.uint32.option.reads _ _ (by omega)),
      bind_of_ok (Faithful.uint32.option.reads _ _ (by omega)), pure_apply]

/-- Queries are read back as they were. -/
theorem faithful_query : Faithful putQuery getQuery where
  pos q := by
    have := Faithful.string.option.pos q.table
    simp only [putQuery, List.length_append]
    omega
  reads q rest hlen := by
    simp only [putQuery, List.length_append] at hlen
    simp only [putQuery, List.append_assoc]
    rw [getQuery, bind_of_ok (Faithful.string.option.reads _ _ (by omega)),
      bind_of_ok (Faithful.bool.reads _ _ (by omega)),
      bind_of_ok (faithful_classRule.list.list.reads _ _ (by omega)),
      bind_of_ok (faithful_regexFilter.list.reads _ _ (by omega)),
      bind_of_ok (faithful_syllables.option.reads _ _ (by omega)),
      bind_of_ok (Faithful.string.option.reads _ _ (by omega)),
      bind_of_ok (faithful_carrier.list.reads _ _ (by omega)), pure_apply]

/-! ## Metadata -/

/-- The metadata of a program is read back as it was. -/
theorem faithful_metadata : Faithful putMetadata getMetadata where
  pos m := by
    have := Faithful.string.pos m.name
    simp only [putMetadata, List.length_append]
    omega
  reads m rest hlen := by
    simp only [putMetadata, List.length_append] at hlen
    rw [getMetadata, putMetadata, List.append_assoc,
      bind_of_ok (Faithful.string.reads _ _ (by omega)),
      bind_of_ok (Faithful.string.list.reads _ _ (by omega)), pure_apply]

end Wordloom.Container
