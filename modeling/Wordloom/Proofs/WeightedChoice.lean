import Mathlib
import Wordloom.Proofs.Blocks
import Wordloom.Proofs.Checks
import Wordloom.Proofs.WholeNumbers

/-!
# Wordloom.Proofs.WeightedChoice

The choice by weights takes a positive one, where there is any and their sum does not overflow. Whatever is
lost by rounding, a sum of positive doubles is positive (`zero_lt_add`): its first bit stays, and beyond the
largest double comes infinity. So the sum is never mistaken for zero, and the scan ends at a weight that is
above zero, also if the threshold is never passed (`Rng.getElem?_pickFrom`). But where the sum is infinite the
weights are ignored, and an item without any weight can be chosen (`Engine.weightless_of_overflow`).
-/

namespace Wordloom

open Float.Model Float.Model.UnpackedFloat

/-! ## Rounding -/

theorem mantissa_shiftRight (em : ExtendedMantissa) (k : Nat) :
    (em >>> k).mantissa = em.mantissa / 2 ^ k := by
  change (Nat.repeat ExtendedMantissa.shiftRightOne k em).mantissa = _
  induction k with
  | zero => simp [Nat.repeat]
  | succ k ih =>
    rw [Nat.repeat, ExtendedMantissa.shiftRightOne, ih, Nat.div_div_eq_div_mul, Nat.pow_succ]

theorem le_roundedMantissa (em : ExtendedMantissa) : em.mantissa ≤ em.roundedMantissa := by
  obtain ⟨m, round, sticky⟩ := em
  cases round <;> cases sticky <;>
    simp [ExtendedMantissa.roundedMantissa, ExtendedMantissa.accuracy, Accuracy.roundToNearestEven]

variable {weights : List Float} {x : Float} {e : Int} {m : Nat}

/-- A mantissa that is shifted to its place has at most 53 bits, and still has its first one. -/
theorem shiftToTargetExponent_bounds (hm : 0 < m) (he : -1074 ≤ e) :
    0 < (shiftToTargetExponent .binary64 m e .exact).1.mantissa ∧
      (shiftToTargetExponent .binary64 m e .exact).1.mantissa < 2 ^ 53 ∧
      -1074 ≤ (shiftToTargetExponent .binary64 m e .exact).2 := by
  have hmin : Format.minExponent .binary64 = -1074 := rfl
  have hbits : Format.mantissaBits .binary64 = 53 := rfl
  obtain ⟨k, hk⟩ : ∃ k, k = (Format.binary64.targetExponent (totalExponent m e) - e).toNat := ⟨_, rfl⟩
  have hfirst : k ≤ m.log2 ∧ m.log2 ≤ k + 52 := by
    rw [Format.targetExponent, totalExponent, hmin, hbits] at hk
    omega
  have hlow : 2 ^ k ≤ m := (Nat.le_log2 (by omega)).1 hfirst.1
  have hhigh : m < 2 ^ k * 2 ^ 53 := by
    rw [← Nat.pow_add]
    exact (Nat.log2_lt (by omega)).1 (by omega)
  have hshift : shiftToTargetExponent .binary64 m e .exact =
      (ExtendedMantissa.ofMantissaAndAccuracy m .exact >>> k, e + k) := by
    rw [shiftToTargetExponent, shiftToExponent, hk]
  rw [hshift, mantissa_shiftRight]
  change 0 < m / 2 ^ k ∧ m / 2 ^ k < 2 ^ 53 ∧ -1074 ≤ e + k
  exact ⟨Nat.div_pos hlow (Nat.two_pow_pos k), Nat.div_lt_of_lt_mul hhigh, by omega⟩

/-- What is not zero is not rounded to zero, if its last bit is one that a double can have. -/
theorem roundWithAccuracy_finite (s : Sign) (hm : 0 < m) (he : -1074 ≤ e) :
    ∃ m' e' hpos, roundWithAccuracy .binary64 s m e .exact = .finite s m' e' hpos ∧ m' < 2 ^ 53 ∧
      -1074 ≤ e' := by
  obtain ⟨hpos, -, hexponent⟩ := shiftToTargetExponent_bounds hm he
  have hrounded := Nat.lt_of_lt_of_le hpos (le_roundedMantissa _)
  obtain ⟨hpos', hlt, hexponent'⟩ := shiftToTargetExponent_bounds hrounded hexponent
  refine ⟨_, _, hpos', ?_, hlt, hexponent'⟩
  simp only [roundWithAccuracy]
  rw [dif_neg (Nat.pos_iff_ne_zero.1 hpos')]

/-- The same of a number with a sign, as sums are rounded: what is positive stays so. -/
theorem normalize_finite {m : Int} (s : Sign) (hm : 0 < m) (he : -1074 ≤ e) :
    ∃ m' e' hpos, UnpackedFloat.normalize .binary64 m e s = .finite .positive m' e' hpos ∧ m' < 2 ^ 53 ∧
      -1074 ≤ e' := by
  have hmin : Format.minExponent .binary64 = -1074 := rfl
  have hcompare : compare m 0 = .gt := Int.compare_eq_gt.2 hm
  rw [UnpackedFloat.normalize, hcompare]
  simp only [UnpackedFloat.round, decreaseExponent]
  apply roundWithAccuracy_finite
  · rw [Nat.shiftLeft_eq]
    exact Nat.mul_pos (by omega) (Nat.two_pow_pos _)
  · rw [Format.targetExponent, hmin]
    omega

theorem add_finite {m₁ m₂ : Nat} {e₁ e₂ : Int} (hpos₁ : 0 < m₁) (hpos₂ : 0 < m₂) (he₁ : -1074 ≤ e₁)
    (he₂ : -1074 ≤ e₂) :
    ∃ m e hpos, UnpackedFloat.add .binary64 (.finite .positive m₁ e₁ hpos₁) (.finite .positive m₂ e₂ hpos₂) =
      .finite .positive m e hpos ∧ m < 2 ^ 53 ∧ -1074 ≤ e := by
  simp only [UnpackedFloat.add, decreaseExponent, Sign.apply]
  apply normalize_finite
  · have hshifted : 0 < m₁ <<< (e₁ - min e₁ e₂).toNat := by
      rw [Nat.shiftLeft_eq]
      exact Nat.mul_pos hpos₁ (Nat.two_pow_pos _)
    exact Int.add_pos_of_pos_of_nonneg (Int.natCast_pos.2 hshifted) (Int.natCast_nonneg _)
  · omega

/-! ## Positive doubles -/

/-- Whether a double is greater than zero. -/
def isPositive : UnpackedFloat → Bool
  | .infinity .positive | .finite .positive .. => true
  | _ => false

theorem isPositive_cases {x : UnpackedFloat} (h : isPositive x = true) :
    x = .infinity .positive ∨ ∃ m e hpos, x = .finite .positive m e hpos := by
  cases x with
  | infinity s => cases s <;> simp_all [isPositive]
  | finite s m e hpos => cases s <;> simp_all [isPositive]
  | notANumber | zero => simp [isPositive] at h

theorem unpack_zero : (0 : Float).toModel.unpack = .zero .positive := rfl

theorem lt_iff {y : Float} : x < y ↔ x.toModel.unpack.lt y.toModel.unpack = true :=
  ⟨of_decide_eq_true, decide_eq_true⟩

theorem le_iff {y : Float} : x ≤ y ↔ x.toModel.unpack.le y.toModel.unpack = true :=
  ⟨of_decide_eq_true, decide_eq_true⟩

theorem zero_lt_iff : 0 < x ↔ isPositive x.toModel.unpack = true := by
  rw [lt_iff, unpack_zero]
  cases x.toModel.unpack with
  | infinity s | finite s => cases s <;> simp [UnpackedFloat.lt, UnpackedFloat.compare, isPositive]
  | notANumber | zero => simp [UnpackedFloat.lt, UnpackedFloat.compare, isPositive]

theorem not_le_zero (h : 0 < x) : ¬ x ≤ 0 := by
  rw [zero_lt_iff] at h
  rw [le_iff, unpack_zero]
  revert h
  cases x.toModel.unpack with
  | infinity s | finite s => cases s <;> simp [UnpackedFloat.le, UnpackedFloat.compare, isPositive]
  | notANumber | zero => simp [isPositive]

theorem zero_lt_of_not_le (hfinite : x.isFinite = true) (h : ¬ x ≤ 0) : 0 < x := by
  have hfinite : x.toModel.unpack.isFinite = true := hfinite
  rw [le_iff, unpack_zero] at h
  rw [zero_lt_iff]
  revert hfinite h
  cases x.toModel.unpack with
  | infinity s | notANumber => simp [UnpackedFloat.isFinite]
  | zero s => simp [UnpackedFloat.le, UnpackedFloat.compare]
  | finite s => cases s <;> simp [UnpackedFloat.le, UnpackedFloat.compare, isPositive]

theorem unpack_packedInfinity (s : Sign) :
    UnpackedFloat.unpack .binary64 (packedInfinity .binary64 s) = .infinity s := by
  cases s <;> rfl

/-- A number beyond the largest double is packed as infinity. -/
theorem pack_of_large (s : Sign) (hpos : 0 < m) (he : 971 < e) :
    UnpackedFloat.pack .binary64 (.finite s m e hpos) = packedInfinity .binary64 s := by
  have hbias : (Format.binary64.exponentBias : Int) = 1023 := rfl
  unfold UnpackedFloat.pack
  simp only [hbias]
  rw [if_pos (by omega)]

/-- A mantissa without its 53rd bit is kept as it is, with the least exponent. -/
theorem unpack_pack_of_small (s : Sign) (hpos : 0 < m) (hm : m < 2 ^ 52) (he : e ≤ 971) :
    UnpackedFloat.unpack .binary64 (UnpackedFloat.pack .binary64 (.finite s m e hpos)) =
      .finite s m (-1074) hpos := by
  have hbias : (Format.binary64.exponentBias : Int) = 1023 := rfl
  have hpack : UnpackedFloat.pack .binary64 (.finite s m e hpos) =
      packComponents .binary64 s 0#11 (BitVec.ofNat 52 m) := by
    have hbits : m.log2 + 1 ≠ Format.binary64.mantissaBits := by
      have hlog : m.log2 < 52 := (Nat.log2_lt (by omega)).2 hm
      change m.log2 + 1 ≠ 53
      omega
    unfold UnpackedFloat.pack
    simp only [hbias]
    rw [if_neg (by omega), if_neg hbits]
  have hmantissa : (BitVec.ofNat 52 m).toNat = m := by
    rw [BitVec.toNat_ofNat, Nat.mod_eq_of_lt hm]
  have hzero : BitVec.ofNat 52 m ≠ 0#52 := by
    intro hzero
    rw [hzero, BitVec.toNat_ofNat] at hmantissa
    omega
  rw [hpack, UnpackedFloat.unpack]
  simp only [unpackExponent_packComponents, unpackMantissa_packComponents, unpackSign_packComponents]
  rw [if_neg (by decide), if_pos trivial, dif_neg hzero]
  cases s <;> simp only [hmantissa] <;> rfl

/-- What is positive is packed as something positive. -/
theorem isPositive_unpack_pack (hpos : 0 < m) (hm : m < 2 ^ 53) (he : -1074 ≤ e) :
    isPositive (UnpackedFloat.unpack .binary64 (UnpackedFloat.pack .binary64 (.finite .positive m e hpos))) =
      true := by
  by_cases hlarge : 971 < e
  · rw [pack_of_large _ hpos hlarge, unpack_packedInfinity]
    rfl
  · by_cases hnormal : m.log2 = 52
    · rw [unpack_pack hpos hnormal he (by omega)]
      rfl
    · have hsmall : m < 2 ^ 52 := by
        have hlog : m.log2 < 53 := (Nat.log2_lt (by omega)).2 hm
        exact (Nat.log2_lt (by omega)).1 (by omega)
      rw [unpack_pack_of_small _ hpos hsmall (by omega)]
      rfl

theorem exponent_ge {b : BitVec Format.binary64.numBits} {s : Sign} {hpos : 0 < m}
    (h : UnpackedFloat.unpack .binary64 b = .finite s m e hpos) : -1074 ≤ e := by
  have hbias : (Format.binary64.exponentBias : Int) = 1023 := rfl
  unfold UnpackedFloat.unpack at h
  simp only [hbias] at h
  split at h
  · split at h <;> cases h
  · split at h
    · split at h
      · cases h
      · cases h
        omega
    · next hzero =>
      cases h
      have hnat : (unpackExponent b).toNat ≠ 0 := fun hnat => hzero (BitVec.eq_of_toNat_eq hnat)
      omega

theorem toModel_add (x y : Float) :
    (x + y).toModel.unpack = UnpackedFloat.unpack .binary64
      (UnpackedFloat.pack .binary64 (UnpackedFloat.add .binary64 x.toModel.unpack y.toModel.unpack)) := rfl

/-- Nothing is lost of a double when it is packed again. -/
theorem unpack_pack_unpack (x : Float) :
    UnpackedFloat.unpack .binary64 (UnpackedFloat.pack .binary64 x.toModel.unpack) = x.toModel.unpack :=
  congrArg _ (pack_unpack_of_valid x.toModel.valid)

/-- Two positive doubles have a positive sum: there is something to round, and infinity is positive. -/
theorem zero_lt_add {y : Float} (hx : 0 < x) (hy : 0 < y) : 0 < x + y := by
  rw [zero_lt_iff] at hx hy ⊢
  rw [toModel_add]
  have hinfinity : isPositive (UnpackedFloat.unpack .binary64
      (UnpackedFloat.pack .binary64 (.infinity .positive))) = true := by
    change isPositive (UnpackedFloat.unpack .binary64 (packedInfinity .binary64 .positive)) = true
    rw [unpack_packedInfinity]
    rfl
  obtain hx | ⟨m₁, e₁, hpos₁, hx⟩ := isPositive_cases hx
  · obtain hy | ⟨m₂, e₂, hpos₂, hy⟩ := isPositive_cases hy
    · rw [hx, hy]
      exact hinfinity
    · rw [hx, hy]
      exact hinfinity
  · obtain hy | ⟨m₂, e₂, hpos₂, hy⟩ := isPositive_cases hy
    · rw [hx, hy]
      exact hinfinity
    · have he₁ := exponent_ge hx
      have he₂ := exponent_ge hy
      rw [hx, hy]
      obtain ⟨m, e, hpos, hsum, hm, he⟩ := add_finite hpos₁ hpos₂ he₁ he₂
      rw [hsum]
      exact isPositive_unpack_pack hpos hm he

theorem zero_lt_zero_add (h : 0 < x) : 0 < 0 + x := by
  rw [zero_lt_iff] at h ⊢
  have hsum : UnpackedFloat.add .binary64 (.zero .positive) x.toModel.unpack = x.toModel.unpack := by
    obtain hx | ⟨m, e, hpos, hx⟩ := isPositive_cases h
    · rw [hx]
      rfl
    · rw [hx]
      rfl
  rw [toModel_add, unpack_zero, hsum, unpack_pack_unpack, h]

namespace Rng

/-! ## The sum of the weights -/

theorem zero_lt_foldl_add {ws : List Float} (h : ∀ w ∈ ws, 0 < w) {sum : Float} (hsum : 0 < sum) :
    0 < ws.foldl (· + ·) sum := by
  induction ws generalizing sum with
  | nil => exact hsum
  | cons w ws ih =>
    have hnext : 0 < sum + w := zero_lt_add hsum (h w List.mem_cons_self)
    exact ih (fun v hv => h v (List.mem_cons_of_mem w hv)) hnext

/-- The sum is positive if one of the weights is. -/
theorem zero_lt_totalWeight (h : ∃ w ∈ weights, 0 < w) : 0 < totalWeight weights := by
  have hall : ∀ w ∈ weights.filter (fun w => 0 < w), 0 < w := by simp
  unfold totalWeight
  cases hws : weights.filter (fun w => 0 < w) with
  | nil =>
    obtain ⟨w, hw, hpos⟩ := h
    exact absurd hpos (by simpa using List.filter_eq_nil_iff.1 hws w hw)
  | cons w ws =>
    rw [hws] at hall
    have hfirst : 0 < 0 + w := zero_lt_zero_add (hall w List.mem_cons_self)
    exact zero_lt_foldl_add (fun v hv => hall v (List.mem_cons_of_mem w hv)) hfirst

/-! ## The choice -/

theorem pickFrom_of_le (h : ∀ w ∈ weights, w ≤ 0) (threshold : Float) (i last : Nat) (sum : Float) :
    pickFrom threshold i last sum weights = last := by
  induction weights generalizing i with
  | nil => rfl
  | cons w ws ih =>
    rw [pickFrom, if_pos (h w List.mem_cons_self)]
    exact ih (fun v hv => h v (List.mem_cons_of_mem w hv)) (i + 1)

/-- The scan ends at a weight that counts: at the one that passes the threshold, or at the last one. -/
theorem getElem?_pickFrom (h : ∃ w ∈ weights, ¬ w ≤ 0) (threshold : Float) (i last : Nat)
    (sum : Float) :
    ∃ k w, pickFrom threshold i last sum weights = i + k ∧ weights[k]? = some w ∧ ¬ w ≤ 0 := by
  induction weights generalizing i last sum with
  | nil => simp at h
  | cons w ws ih =>
    rw [pickFrom]
    by_cases hw : w ≤ 0
    · rw [if_pos hw]
      obtain ⟨k, v, hk, hv, hpos⟩ := ih (by simpa [hw] using h) (i + 1) last sum
      exact ⟨k + 1, v, by omega, by simpa using hv, hpos⟩
    · rw [if_neg hw]
      split
      · exact ⟨0, w, rfl, rfl, hw⟩
      · by_cases hmore : ∃ v ∈ ws, ¬ v ≤ 0
        · obtain ⟨k, v, hk, hv, hpos⟩ := ih hmore (i + 1) i (sum + w)
          exact ⟨k + 1, v, by omega, by simpa using hv, hpos⟩
        · refine ⟨0, w, ?_, rfl, hw⟩
          exact pickFrom_of_le (by simpa using hmore) threshold (i + 1) i (sum + w)

/-- With a positive weight and a sum that does not overflow, the scan is what chooses. -/
theorem weightedChoice_eq (r : Rng) (hpos : ∃ w ∈ weights, 0 < w)
    (htotal : (totalWeight weights).isFinite = true) :
    r.weightedChoice weights =
      (pickFrom (r.nextFloat.1 * totalWeight weights) 0 0 0 weights, r.nextFloat.2) := by
  have hempty : weights.isEmpty = false := by
    obtain ⟨w, hw, -⟩ := hpos
    exact List.isEmpty_eq_false_iff_exists_mem.2 ⟨w, hw⟩
  simp [weightedChoice, hempty, htotal, not_le_zero (zero_lt_totalWeight hpos)]

/-- Then the weight that is chosen is positive. -/
theorem getElem?_weightedChoice (r : Rng) (hfinite : ∀ w ∈ weights, w.isFinite = true)
    (hpos : ∃ w ∈ weights, 0 < w) (htotal : (totalWeight weights).isFinite = true) :
    ∃ w, weights[(r.weightedChoice weights).1]? = some w ∧ 0 < w := by
  have hcounts : ∃ w ∈ weights, ¬ w ≤ 0 := by
    obtain ⟨w, hw, hwpos⟩ := hpos
    exact ⟨w, hw, not_le_zero hwpos⟩
  obtain ⟨k, w, hk, hw, hle⟩ := getElem?_pickFrom hcounts (r.nextFloat.1 * totalWeight weights) 0 0 0
  rw [weightedChoice_eq r hpos htotal, hk, Nat.zero_add]
  exact ⟨w, hw, zero_lt_of_not_le (hfinite w (List.mem_of_getElem? hw)) hle⟩

end Rng

/-! ## Blocks -/

/-- A block goes on with the item that is chosen. -/
theorem Running.position_chooseItem {block : Block} {entered : Option ActiveBlock} {m m' : Machine}
    (h : chooseItem block entered weights m = .ok () m') :
    ∃ item, block.items[(m.rng.weightedChoice weights).1]? = some item ∧
      m'.frame.position = item.offset.toNat := by
  obtain ⟨choice, rng, hchoice⟩ : ∃ choice rng, m.rng.weightedChoice weights = (choice, rng) := ⟨_, _, rfl⟩
  rw [chooseItem, run_bind_of_ok (run_get _)] at h
  simp only [hchoice] at h ⊢
  rw [run_bind_of_ok (run_set _ _)] at h
  cases hitem : block.items[choice]? with
  | none =>
    rw [hitem] at h
    cases h
  | some item =>
    rw [hitem] at h
    obtain ⟨offset, m₁, hchecked, h⟩ := run_bind_eq_ok.1 h
    have hoffset : offset = item.offset.toNat := by
      obtain ⟨_, _, ⟨⟩, hchecked⟩ := run_bind_eq_ok.1 hchecked
      split at hchecked
      · cases hchecked
      · cases hchecked
        rfl
    refine ⟨item, rfl, ?_⟩
    cases entered with
    | none =>
      cases h
      exact hoffset
    | some active =>
      cases h
      exact hoffset

/-- A weight that is chosen is positive, and a block goes on with an item of positive weight, if some weight
is positive and their sum is finite. -/
theorem Rng.weightedChoice_positive (r : Rng) (weights : List Float)
    (hfinite : ∀ w ∈ weights, w.isFinite = true) (hpos : ∃ w ∈ weights, 0 < w)
    (htotal : (totalWeight weights).isFinite = true) :
    (∃ w, weights[(r.weightedChoice weights).1]? = some w ∧ 0 < w) ∧
      ∀ (block : Block) (entered : Option ActiveBlock) (m m' : Machine), m.rng = r →
        Running.chooseItem block entered weights m = .ok () m' →
        ∃ (i : Nat) (item : BlockItem) (w : Float), block.items[i]? = some item ∧
          m'.frame.position = item.offset.toNat ∧ weights[i]? = some w ∧ 0 < w := by
  obtain ⟨w, hw, hwpos⟩ := getElem?_weightedChoice r hfinite hpos htotal
  refine ⟨⟨w, hw, hwpos⟩, ?_⟩
  rintro block entered m m' rfl h
  obtain ⟨item, hitem, hposition⟩ := Running.position_chooseItem h
  exact ⟨_, item, w, hitem, hposition, hw, hwpos⟩

theorem Rng.weightedChoice_positive_four :
    (∀ w ∈ [1, 0, 2, -1], Float.isFinite w = true) ∧ (Rng.totalWeight [1, 0, 2, -1]).isFinite = true ∧
      ∃ w : Float, [1, 0, 2, -1][((Rng.ofSeed 11).weightedChoice [1, 0, 2, -1]).1]? = some w ∧ 0 < w :=
  ⟨by decide +kernel, by decide +kernel,
    (Rng.weightedChoice_positive (.ofSeed 11) [1, 0, 2, -1] (by decide +kernel) (by decide +kernel)
      (by decide +kernel)).1⟩

/-- Two weights that are finite have a sum that is not, and the item that has no weight is chosen. -/
theorem Engine.weightless_of_overflow :
    ((Rng.ofSeed 1).weightedChoice [1e308, 1e308, 0]).1 = 2 ∧
    ∃ p o, ({} : Engine).compile "main" "{*1e308*a|*1e308*a|*0*b}" false = .ok p ∧
      ({} : Engine).run p 1 {} = .output o ∧ o.main = "b" :=
  ⟨by decide +kernel, exists_output _ _ _ _ _ _ (by decide +kernel)⟩

end Wordloom
