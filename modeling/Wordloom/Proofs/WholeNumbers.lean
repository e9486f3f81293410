import Mathlib
import Wordloom.Proofs.QueryReading

/-!
# Wordloom.Proofs.WholeNumbers

Whole numbers below `2 ^ 53` as doubles. Such a number has no more bits than a mantissa, so nothing is
rounded: with zeros behind its bits it is a mantissa already, and a factor of one adds more zeros, which
are dropped again. So the digits of the number are read as the number itself.
-/

namespace Wordloom

open Float.Model Float.Model.UnpackedFloat

/-! ## Mantissas -/

/-- Zeros at the end of a mantissa are dropped without a trace. -/
theorem shiftRight_exact (m : Nat) {j k : Nat} (h : j ≤ k) :
    ExtendedMantissa.ofMantissaAndAccuracy (m * 2 ^ k) .exact >>> j =
      ⟨m * 2 ^ (k - j), false, false⟩ := by
  change Nat.repeat ExtendedMantissa.shiftRightOne j _ = _
  induction j with
  | zero => rfl
  | succ j ih =>
    obtain ⟨i, hi⟩ : ∃ i, k - j = i + 1 := ⟨k - j - 1, by omega⟩
    have hlast : k - (j + 1) = i := by omega
    rw [Nat.repeat, ih (by omega), hi, hlast, Nat.pow_succ, ← Nat.mul_assoc,
      ExtendedMantissa.shiftRightOne]
    simp

variable {m : Nat}

theorem log2_mul_pow (h : 0 < m) (k : Nat) : (m * 2 ^ k).log2 = m.log2 + k := by
  have hpos : 0 < m * 2 ^ k := Nat.mul_pos h (Nat.two_pow_pos k)
  rw [Nat.log2_eq_iff (Nat.pos_iff_ne_zero.1 hpos), Nat.pow_add, Nat.add_right_comm, Nat.pow_add]
  exact ⟨Nat.mul_le_mul_right _ (Nat.log2_self_le (Nat.pos_iff_ne_zero.1 h)),
    Nat.mul_lt_mul_of_pos_right Nat.lt_log2_self (Nat.two_pow_pos k)⟩

/-- The exponent is the one that leaves 53 bits, unless it is too small. -/
theorem targetExponent_eq {e k : Int} (hm : (m.log2 : Int) = 52 + k) (hk : -1074 ≤ e + k) :
    Format.binary64.targetExponent (totalExponent m e) = e + k := by
  have hmin : Format.minExponent .binary64 = -1074 := rfl
  have hbits : Format.mantissaBits .binary64 = 53 := rfl
  rw [totalExponent, hm, Format.targetExponent, hmin, hbits]
  omega

/-- A mantissa of 53 bits is rounded to itself, also with zeros behind it. -/
theorem roundWithAccuracy_exact {e : Int} (hpos : 0 < m) (hm : m.log2 = 52) (he : -1074 ≤ e) (k : Nat) :
    roundWithAccuracy .binary64 .positive (m * 2 ^ k) (e - k) .exact = .finite .positive m e hpos := by
  have hfirst : Format.binary64.targetExponent (totalExponent (m * 2 ^ k) (e - k)) = e := by
    rw [targetExponent_eq (k := k) (by rw [log2_mul_pow hpos, hm]; rfl) (by omega)]
    omega
  have hsecond : Format.binary64.targetExponent (totalExponent m e) = e := by
    rw [targetExponent_eq (k := 0) (by rw [hm]; rfl) (by omega), Int.add_zero]
  have hrounded : ExtendedMantissa.roundedMantissa ⟨m * 2 ^ (k - k), false, false⟩ = m := by
    simp [ExtendedMantissa.roundedMantissa, ExtendedMantissa.accuracy, Accuracy.roundToNearestEven]
  have hstays : ExtendedMantissa.ofMantissaAndAccuracy m .exact >>> 0 = ⟨m, false, false⟩ := rfl
  have hshift : (e - (e - (k : Int))).toNat = k := by omega
  have hnone : (e - e).toNat = 0 := by omega
  have hexponent : e - (k : Int) + (k : Int) = e := by omega
  simp only [roundWithAccuracy, shiftToTargetExponent, shiftToExponent, hfirst, hshift,
    shiftRight_exact m (Nat.le_refl k), hrounded, hexponent, hsecond, hnone, hstays]
  rw [dif_neg (Nat.pos_iff_ne_zero.1 hpos)]
  simp

/-- What has 53 bits stays as it is when it is packed. -/
theorem unpack_pack {e : Int} (hpos : 0 < m) (hm : m.log2 = 52) (hlow : -1074 ≤ e) (hhigh : e ≤ 971) :
    UnpackedFloat.unpack .binary64 (UnpackedFloat.pack .binary64 (.finite .positive m e hpos)) =
      .finite .positive m e hpos := by
  -- `b` is the exponent as it is written down; the first bit of the mantissa is not written
  obtain ⟨b, rfl⟩ : ∃ b : Nat, e = (b : Int) - 1075 := ⟨(e + 1075).toNat, by omega⟩
  have hbias : (Format.binary64.exponentBias : Int) = 1023 := rfl
  have hb : (BitVec.ofNat 11 b).toNat = b := Nat.mod_eq_of_lt (by omega)
  have hones : BitVec.ofNat 11 b ≠ -1#11 := fun h => by
    have heq : b = 2047 := by rw [← hb, h]; rfl
    omega
  have hzero : BitVec.ofNat 11 b ≠ 0#11 := fun h => by
    have heq : b = 0 := by rw [← hb, h]; rfl
    omega
  have hpack : UnpackedFloat.pack .binary64 (.finite .positive m (b - 1075) hpos) =
      packComponents .binary64 .positive (BitVec.ofNat 11 b) (BitVec.ofNat 52 m) := by
    have hbiased : ((b : Int) - 1075 + (Format.binary64.exponentBias : Int) + (52 : Nat)).toNat = b := by
      rw [hbias]
      omega
    have hbits : m.log2 + 1 = Format.binary64.mantissaBits := by rw [hm]; rfl
    unfold UnpackedFloat.pack
    simp only [hbiased]
    rw [if_neg (show ¬ 2 ^ 11 ≤ b + 1 by omega), if_pos hbits]
  have hmantissa : (1#1 ++ BitVec.ofNat 52 m).toNat = m := by
    obtain ⟨hle, hlt⟩ := (Nat.log2_eq_iff (Nat.pos_iff_ne_zero.1 hpos)).1 hm
    have hmod : (BitVec.ofNat 52 m).toNat = m - 2 ^ 52 := by
      rw [BitVec.toNat_ofNat, Nat.mod_eq_sub_mod hle, Nat.mod_eq_of_lt (by omega)]
    have hor := Nat.two_pow_add_eq_or_of_lt (i := 52) (b := m - 2 ^ 52) (by omega) 1
    rw [BitVec.toNat_append, hmod, Nat.shiftLeft_eq, Nat.mul_comm]
    change 2 ^ 52 * 1 ||| _ = _
    omega
  rw [hpack, UnpackedFloat.unpack]
  simp only [unpackExponent_packComponents, unpackMantissa_packComponents, unpackSign_packComponents]
  rw [if_neg hones, if_neg hzero]
  simp only [hmantissa, hb, hbias]
  rfl

/-! ## Whole numbers -/

/-- The number of zeros that make the bits of a whole number a mantissa. -/
def padding (n : Nat) : Nat := 52 - n.log2

theorem padding_le (n : Nat) : padding n ≤ 52 := Nat.sub_le _ _

section

variable {n : Nat}

theorem padded_pos (hpos : 0 < n) : 0 < n * 2 ^ padding n := Nat.mul_pos hpos (Nat.two_pow_pos _)

theorem log2_add_padding (hpos : 0 < n) (hn : n < 2 ^ 53) : n.log2 + padding n = 52 := by
  have hlt : n.log2 < 53 := (Nat.log2_lt (Nat.pos_iff_ne_zero.1 hpos)).2 hn
  unfold padding
  omega

theorem log2_padded (hpos : 0 < n) (hn : n < 2 ^ 53) : (n * 2 ^ padding n).log2 = 52 := by
  rw [log2_mul_pow hpos, log2_add_padding hpos hn]

theorem unpack_pack_padded (hpos : 0 < n) (hn : n < 2 ^ 53) :
    UnpackedFloat.unpack .binary64 (UnpackedFloat.pack .binary64
        (.finite .positive (n * 2 ^ padding n) (-padding n) (padded_pos hpos))) =
      .finite .positive (n * 2 ^ padding n) (-padding n) (padded_pos hpos) := by
  have hpadding := padding_le n
  exact unpack_pack (padded_pos hpos) (log2_padded hpos hn) (by omega) (by omega)

theorem ofNat_eq_padded (hpos : 0 < n) (hn : n < 2 ^ 53) :
    UnpackedFloat.ofNat .binary64 n =
      .finite .positive (n * 2 ^ padding n) (-padding n) (padded_pos hpos) := by
  have hpadding := padding_le n
  have hcompare : compare (n : Int) 0 = .gt := by
    rw [Int.compare_eq_gt]
    omega
  have htarget : Format.binary64.targetExponent (totalExponent n 0) = -(padding n : Int) := by
    have hlog := log2_add_padding hpos hn
    rw [targetExponent_eq (k := -padding n) (by omega) (by omega), Int.zero_add]
  have hshift : ((0 : Int) - -(padding n : Int)).toNat = padding n := by omega
  have hround := roundWithAccuracy_exact (padded_pos hpos) (log2_padded hpos hn)
    (e := -(padding n : Int)) (by omega) 0
  rw [UnpackedFloat.ofNat, UnpackedFloat.ofInt, UnpackedFloat.normalize, hcompare]
  simp only [UnpackedFloat.round, Int.toNat_natCast, htarget, decreaseExponent, hshift, Nat.shiftLeft_eq]
  simpa using hround

/-- A whole number with no more bits than a mantissa is a double. -/
theorem unpack_ofScientific (hpos : 0 < n) (hn : n < 2 ^ 53) :
    (Float.ofScientific n false 0).toModel.unpack =
      .finite .positive (n * 2 ^ padding n) (-padding n) (padded_pos hpos) := by
  have hmodel : (Float.ofScientific n false 0).toModel =
      .pack (UnpackedFloat.mul .binary64 (Float.Model.ofUInt64 n.toUInt64).unpack
        (Float.ofBits 0x3FF0000000000000).toModel.unpack) := by
    rw [Float.ofScientific, dif_pos ⟨hn, by decide⟩]
    rfl
  have hone : (Float.ofBits 0x3FF0000000000000).toModel.unpack =
      .finite .positive (2 ^ 52) (-52) (by decide) := rfl
  have hnumber : (Float.Model.ofUInt64 n.toUInt64).unpack =
      .finite .positive (n * 2 ^ padding n) (-padding n) (padded_pos hpos) := by
    have hto : n.toUInt64.toNat = n := Nat.mod_eq_of_lt (by omega)
    change UnpackedFloat.unpack .binary64 (UnpackedFloat.pack .binary64
      (UnpackedFloat.ofNat .binary64 n.toUInt64.toNat)) = _
    rw [hto, ofNat_eq_padded hpos hn, unpack_pack_padded hpos hn]
  have hpadding := padding_le n
  have hround := roundWithAccuracy_exact (padded_pos hpos) (log2_padded hpos hn)
    (e := -(padding n : Int)) (by omega) 52
  rw [hmodel, hone, hnumber]
  -- the mantissa of one is `2 ^ 52`, so the product has 52 more zeros
  change UnpackedFloat.unpack .binary64 (UnpackedFloat.pack .binary64 (roundWithAccuracy .binary64
    .positive (n * 2 ^ padding n * 2 ^ 52) (-(padding n : Int) - (52 : Nat)) .exact)) = _
  rw [hround, unpack_pack_padded hpos hn]

end

/-! ## Reading -/

namespace Decimal

theorem digitsValue_toDigits (n : Nat) : digitsValue (Nat.toDigits 10 n) = n := by
  have hfold := Compile.Query.foldl_digits (Nat.toDigits 10 n) 0
  rwa [Nat.ofDigitChars_ten_toDigits] at hfold

theorem isDigit_toLower {c : Char} (h : c.isDigit = true) : c.toLower.isDigit = true := by
  have hrange : 48 ≤ c.toNat ∧ c.toNat ≤ 57 := by simpa [Char.isDigit, UInt32.le_iff_toNat_le] using h
  have hupper : ¬ (c.val ≥ 'A'.val ∧ c.val ≤ 'Z'.val) := by
    rw [ge_iff_le, UInt32.le_iff_toNat_le, UInt32.le_iff_toNat_le]
    change ¬ (65 ≤ c.toNat ∧ c.toNat ≤ 90)
    omega
  rwa [Char.toLower, dif_neg hupper]

variable {cs : List Char}

theorem unsignedBits?_of_digits {c : Char} (h : ∀ d ∈ c :: cs, d.isDigit = true) :
    unsignedBits? (c :: cs) = some (nearest (digitsValue (c :: cs)) 0).toBits := by
  -- what begins with a digit is none of the words
  have hword : ∀ d ds, d.isDigit = false →
      String.ofList ((c :: cs).map Char.toLower) ≠ String.ofList (d :: ds) := by
    intro d ds hd heq
    have hlower := isDigit_toLower (h c List.mem_cons_self)
    have hlist := congrArg String.toList heq
    rw [String.toList_ofList, String.toList_ofList, List.map_cons] at hlist
    rw [(List.cons.inj hlist).1, hd] at hlower
    cases hlower
  have hsplit : splitNumber (c :: cs) = (c :: cs, [], []) := by
    have htake : (c :: cs).takeWhile Char.isDigit = c :: cs := List.takeWhile_eq_self_iff.2 h
    have hdrop : (c :: cs).dropWhile Char.isDigit = [] := List.dropWhile_eq_nil_iff.2 h
    rw [splitNumber, htake, hdrop]
  unfold unsignedBits?
  simp only [hsplit]
  rw [if_neg (hword 'n' ['a', 'n'] rfl), if_neg]
  · simp [exponentValue?]
  · rintro (heq | heq)
    · exact hword 'i' ['n', 'f'] rfl heq
    · exact hword 'i' ['n', 'f', 'i', 'n', 'i', 't', 'y'] rfl heq

theorem splitSign_of_digit {c : Char} (h : c.isDigit = true) :
    splitSign (c :: cs) = (false, c :: cs) := by
  unfold splitSign
  split
  · rename_i heq
    cases heq
    cases h
  · rename_i heq
    cases heq
    cases h
  · rfl

theorem trimChars_of_plain (h : ∀ c ∈ cs, Text.isBlank c = false) : Text.trimChars cs = cs := by
  have hdrop : ∀ {ds : List Char}, (∀ d ∈ ds, Text.isBlank d = false) →
      ds.dropWhile Text.isBlank = ds := by
    intro ds hds
    cases ds with
    | nil => rfl
    | cons d ds => exact List.dropWhile_cons_of_neg (by simp [hds d List.mem_cons_self])
  rw [Text.trimChars, hdrop h, hdrop fun c hc => h c (List.mem_reverse.1 hc), List.reverse_reverse]

/-- A whole number is read from its digits. -/
theorem bits?_toString (n : Nat) : bits? (Text.trim (toString n)) = some (nearest n 0).toBits := by
  have hdigits : ∀ c ∈ Nat.toDigits 10 n, c.isDigit = true := fun c hc =>
    Nat.isDigit_of_mem_toDigits (by decide) (Nat.le_refl 10) hc
  have htrim := trimChars_of_plain fun c hc => (plain_of_isDigit (hdigits c hc)).1
  have hvalue := digitsValue_toDigits n
  obtain ⟨c, cs, hcs⟩ := List.exists_cons_of_ne_nil (Nat.toDigits_ne_nil (b := 10) (n := n))
  rw [Nat.toString_eq_ofList_toDigits, Text.trim, String.toList_ofList, htrim, bits?,
    String.toList_ofList, bitsOfChars?]
  rw [hcs] at hdigits hvalue ⊢
  rw [splitSign_of_digit (hdigits c List.mem_cons_self)]
  simp only [unsignedBits?_of_digits hdigits, hvalue]
  rfl

theorem nearest_eq_ofScientific {n : Nat} (hpos : 0 < n) (hn : n < 2 ^ 53) :
    nearest n 0 = Float.ofScientific n false 0 := by
  have hlength : (toString n).length ≤ 16 := by
    rw [Nat.toString_eq_ofList_toDigits, String.length_ofList]
    exact (Nat.length_toDigits_le_iff (by decide) (by decide)).2 (by omega)
  unfold nearest
  rw [if_neg (Nat.pos_iff_ne_zero.1 hpos), if_neg (by omega), if_neg (by omega)]
  rfl

/-- Below `2 ^ 53`, what is read is the number itself. -/
theorem toNat_nearest {n : Nat} (hn : n < 2 ^ 53) :
    (Float.ofBits (nearest n 0).toBits).isFinite = true ∧
      ¬ Float.ofBits (nearest n 0).toBits < 0 ∧
      (Float.ofBits (nearest n 0).toBits).toUInt64.toNat = n := by
  obtain rfl | hpos := Nat.eq_zero_or_pos n
  · exact ⟨rfl, by decide +kernel, rfl⟩
  have hunpack : (Float.ofBits (nearest n 0).toBits).toModel.unpack =
      .finite .positive (n * 2 ^ padding n) (-padding n) (padded_pos hpos) := by
    change UnpackedFloat.unpack .binary64 (UnpackedFloat.pack .binary64
      (nearest n 0).toModel.unpack) = _
    rw [nearest_eq_ofScientific hpos hn, unpack_ofScientific hpos hn, unpack_pack_padded hpos hn]
  generalize Float.ofBits (nearest n 0).toBits = x at hunpack
  refine ⟨?_, ?_, ?_⟩
  · change x.toModel.unpack.isFinite = true
    rw [hunpack]
    rfl
  · intro hlt
    have hlt : x.toModel.unpack.lt (0 : Float).toModel.unpack = true := of_decide_eq_true hlt
    rw [hunpack] at hlt
    cases hlt
  · have hint : x.toModel.unpack.toInt 0 (UInt64.size - 1) = n := by
      have hleft : (-(padding n : Int) - 0).toNat = 0 := by omega
      have hright : ((0 : Int) - (-(padding n : Int) - (0 : Nat))).toNat = padding n := by omega
      rw [hunpack]
      simp only [UnpackedFloat.toInt, roundToInt, decreaseExponent, hleft, Nat.shiftLeft_zero,
        shiftToExponent, hright, shiftRight_exact n (Nat.le_refl _), Sign.apply]
      simp
    have hsmall : n < UInt64.size := Nat.lt_trans hn (by decide)
    change (UInt64.ofNatClamp (x.toModel.unpack.toInt 0 (UInt64.size - 1)).toNat).toNat = n
    rw [hint, Int.toNat_natCast, UInt64.ofNatClamp, dif_pos hsmall]
    rfl

end Decimal

end Wordloom
