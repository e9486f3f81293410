import Mathlib
import Wordloom.Rng

/-!
# Wordloom.Proofs.Streams

What a stream of random numbers can give. The mixing function has an inverse (`Rng.unmix`), and the step of
the counter is odd, so a stream gives every word once before it gives any a second time
(`Rng.nodup_draws`). Hence the seeds of a pool differ, and with them the streams of its keys. Every word is the
first one of some stream, and so is every number between two bounds, whatever the bounds are.
-/

namespace Wordloom

namespace Rng

/-! ## Mixing -/

/-- Undoes `z ^^^ (z >>> k)`, for shifts from 22 to 31: three of them leave nothing of a word. -/
def unshift (k z : UInt64) : UInt64 := z ^^^ (z >>> k) ^^^ (z >>> (k + k))

/-- The inverse of `mix`: its steps undone from the last to the first. -/
def unmix (z : UInt64) : UInt64 :=
  let z := unshift 31 z * 0x319642B2D24D8EC3
  let z := unshift 27 z * 0x96DE1B173F119089
  unshift 30 z

theorem toBitVec_shiftRight (z : UInt64) {k : UInt64} (h : k.toNat < 64) :
    (z >>> k).toBitVec = z.toBitVec >>> k.toNat := by
  simp [Nat.mod_eq_of_lt h]

section

variable {k : UInt64} (hlow : 22 ≤ k.toNat) (hhigh : k.toNat < 32)
include hlow hhigh

theorem toBitVec_unshift (z : UInt64) :
    (unshift k z).toBitVec =
      z.toBitVec ^^^ (z.toBitVec >>> k.toNat) ^^^ (z.toBitVec >>> (k.toNat + k.toNat)) := by
  have hk : (k + k).toNat = k.toNat + k.toNat := by
    rw [UInt64.toNat_add]
    omega
  rw [unshift, UInt64.toBitVec_xor, UInt64.toBitVec_xor, toBitVec_shiftRight z (by omega),
    toBitVec_shiftRight z (by omega), hk]

theorem unshift_xor (z : UInt64) : unshift k (z ^^^ (z >>> k)) = z := by
  apply UInt64.toBitVec_inj.1
  rw [toBitVec_unshift hlow hhigh, UInt64.toBitVec_xor, toBitVec_shiftRight z (by omega)]
  apply BitVec.eq_of_getLsbD_eq
  intro i _
  -- the bits that are shifted once or twice occur in pairs
  have hnone : z.toBitVec.getLsbD (k.toNat + (k.toNat + (k.toNat + i))) = false :=
    BitVec.getLsbD_of_ge _ _ (by omega)
  simp only [BitVec.getLsbD_xor, BitVec.getLsbD_ushiftRight, Nat.add_assoc, hnone]
  grind

end

theorem unmix_mix (z : UInt64) : unmix (mix z) = z := by
  have hfirst : (0xBF58476D1CE4E5B9 * 0x96DE1B173F119089 : UInt64) = 1 := by decide
  have hsecond : (0x94D049BB133111EB * 0x319642B2D24D8EC3 : UInt64) = 1 := by decide
  simp only [mix, unmix]
  rw [unshift_xor (by decide) (by decide), UInt64.mul_assoc, hsecond, UInt64.mul_one,
    unshift_xor (by decide) (by decide), UInt64.mul_assoc, hfirst, UInt64.mul_one,
    unshift_xor (by decide) (by decide)]

theorem mix_injective : Function.Injective mix := Function.LeftInverse.injective unmix_mix

/-- Every word is the first one that some stream gives. -/
theorem exists_seed (x : UInt64) : ∃ seed, (ofSeed seed).next.1 = x := by
  obtain ⟨z, rfl⟩ := Finite.surjective_of_injective mix_injective x
  exact ⟨z - increment, by simp [ofSeed, next]⟩

/-! ## Counting -/

theorem mul_increment_inj {i j : UInt64} (h : i * increment = j * increment) : i = j := by
  have hinverse : increment * 0xF1DE83E19937733D = 1 := by decide
  calc i = i * (increment * 0xF1DE83E19937733D) := by rw [hinverse, UInt64.mul_one]
    _ = j * (increment * 0xF1DE83E19937733D) := by rw [← UInt64.mul_assoc, h, UInt64.mul_assoc]
    _ = j := by rw [hinverse, UInt64.mul_one]

theorem ofNat_succ (i : Nat) : UInt64.ofNat (i + 1) = 1 + UInt64.ofNat i := by
  rw [UInt64.ofNat_add, UInt64.add_comm]
  rfl

theorem draws_eq (n : Nat) (r : Rng) :
    draws n r = (List.range n).map fun i => mix (r.state + UInt64.ofNat (i + 1) * increment) := by
  induction n generalizing r with
  | zero => rfl
  | succ n ih =>
    have hfirst : UInt64.ofNat (0 + 1) * increment = increment := UInt64.one_mul _
    rw [List.range_succ_eq_map, List.map_cons, List.map_map, hfirst, draws, next]
    simp only [ih, List.cons.injEq, true_and]
    apply List.map_congr_left
    intro i _
    rw [Function.comp, ofNat_succ (i + 1), UInt64.add_mul, UInt64.one_mul, UInt64.add_assoc]

theorem length_draws (n : Nat) (r : Rng) : (draws n r).length = n := by simp [draws_eq]

/-- A stream gives no value twice within `2 ^ 64` draws. -/
theorem nodup_draws {n : Nat} (h : n ≤ UInt64.size) (r : Rng) : (draws n r).Nodup := by
  rw [draws_eq]
  refine List.Nodup.map_on ?_ List.nodup_range
  intro i hi j hj heq
  rw [List.mem_range] at hi hj
  have hcount := mul_increment_inj ((UInt64.add_right_inj _).1 (mix_injective heq))
  rw [ofNat_succ, ofNat_succ, UInt64.add_right_inj] at hcount
  have hcount := congrArg UInt64.toNat hcount
  rwa [UInt64.toNat_ofNat_of_lt' (Nat.lt_of_lt_of_le hi h),
    UInt64.toNat_ofNat_of_lt' (Nat.lt_of_lt_of_le hj h)] at hcount

/-- What follows the first draws is drawn from a stream too. -/
theorem drop_draws (m n : Nat) (r : Rng) : ∃ r', (draws (m + n) r).drop m = draws n r' := by
  induction m generalizing r with
  | zero => exact ⟨r, by rw [Nat.zero_add, List.drop_zero]⟩
  | succ m ih =>
    obtain ⟨r', h⟩ := ih r.next.2
    rw [Nat.succ_add, draws, List.drop_succ_cons]
    exact ⟨r', h⟩

/-- Streams whose counters differ never give the same value at the same time. -/
theorem forall₂_draws_ne {r r' : Rng} (h : r.state ≠ r'.state) (n : Nat) :
    List.Forall₂ (· ≠ ·) (draws n r) (draws n r') := by
  induction n generalizing r r' with
  | zero => exact .nil
  | succ n ih =>
    have hstate : r.next.2.state ≠ r'.next.2.state := by simpa [next] using h
    exact .cons (mix_injective.ne hstate) (ih hstate)

/-! ## Numbers between bounds -/

/-- An integer, if a signed word of so many bits holds it. -/
def signed? (bits : Nat) (n : Int) : Option Int :=
  if -2 ^ (bits - 1) ≤ n ∧ n < 2 ^ (bits - 1) then some n else none

/-- An integer, if an unsigned word of so many bits holds it. -/
def unsigned? (bits : Nat) (n : Int) : Option Int :=
  if 0 ≤ n ∧ n < 2 ^ bits then some n else none

def remainder? (n d : Int) : Option Int := if d = 0 then none else some (n % d)

/-- The number that a draw of `x` stands for, computed with integers. There is none if a division has no
result, or if a result along the way does not fit the word that is to hold it. -/
def between? (x : UInt64) (low high : Int64) : Option Int := do
  let width ← signed? 128 (high.toInt - low.toInt)
  let count ← unsigned? 128 (← signed? 128 (width + 1))
  let offset ← signed? 128 (← remainder? x.toNat count)
  signed? 64 (← signed? 128 (low.toInt + offset))

theorem signed?_eq {bits : Nat} {n : Int} (hlow : -2 ^ (bits - 1) ≤ n) (hhigh : n < 2 ^ (bits - 1)) :
    signed? bits n = some n := if_pos ⟨hlow, hhigh⟩

theorem unsigned?_eq {bits : Nat} {n : Int} (hlow : 0 ≤ n) (hhigh : n < 2 ^ bits) :
    unsigned? bits n = some n := if_pos ⟨hlow, hhigh⟩

theorem remainder?_eq (n : Int) {d : Int} (h : d ≠ 0) : remainder? n d = some (n % d) := if_neg h

theorem toInt_wide (n : Int64) : (wide n).toInt = n.toInt :=
  BitVec.toInt_signExtend_of_le (by decide)

/-- A number that fits 64 bits is not changed when it is put into them. -/
theorem toInt_narrow {n : BitVec 128} (hlow : -2 ^ 63 ≤ n.toInt) (hhigh : n.toInt < 2 ^ 63) :
    (n.setWidth 64).toInt = n.toInt := by
  have hdvd : 2 ^ 64 ∣ 2 ^ 128 := Nat.pow_dvd_pow 2 (by decide)
  rw [BitVec.toInt_setWidth, ← Int.bmod_bmod_of_dvd hdvd, ← BitVec.toInt_eq_toNat_bmod]
  exact Int.bmod_eq_of_le_mul_two (by omega) (by omega)

section

variable {low high : Int64} (h : low.toInt ≤ high.toInt)
include h

theorem emod_bounds (x : UInt64) :
    0 ≤ (x.toNat : Int) % (high.toInt - low.toInt + 1) ∧
      (x.toNat : Int) % (high.toInt - low.toInt + 1) ≤ high.toInt - low.toInt := by
  have hlt := Int.emod_lt_of_pos (x.toNat : Int) (show 0 < high.toInt - low.toInt + 1 by omega)
  exact ⟨Int.emod_nonneg _ (by omega), by omega⟩

theorem between?_eq (x : UInt64) :
    between? x low high = some (low.toInt + x.toNat % (high.toInt - low.toInt + 1)) := by
  have hlow := Int64.le_toInt low
  have hhigh := Int64.toInt_lt high
  obtain ⟨hrem, hrem'⟩ := emod_bounds h x
  simp only [between?]
  rw [signed?_eq (by omega) (by omega), Option.bind_eq_bind, Option.bind_some,
    signed?_eq (by omega) (by omega), Option.bind_some, unsigned?_eq (by omega) (by omega), Option.bind_some,
    remainder?_eq _ (by omega), Option.bind_some, signed?_eq (by omega) (by omega), Option.bind_some,
    signed?_eq (by omega) (by omega), Option.bind_some, signed?_eq (by omega) (by omega)]

/-- How many numbers there are from one bound to the other. -/
theorem toNat_count : ((wide high - wide low + 1).toNat : Int) = high.toInt - low.toInt + 1 := by
  have hlow := Int64.le_toInt low
  have hhigh := Int64.toInt_lt high
  have hcount : (wide high - wide low + 1).toInt = high.toInt - low.toInt + 1 := by
    have hone : (1 : BitVec 128).toInt = 1 := rfl
    rw [BitVec.toInt_add, BitVec.toInt_sub, toInt_wide, toInt_wide, hone, Int.bmod_add_bmod]
    exact Int.bmod_eq_of_le_mul_two (by omega) (by omega)
  rw [BitVec.toInt_eq_toNat_cond] at hcount
  split at hcount <;> omega

theorem toInt_offset (x : UInt64) :
    (x.toBitVec.setWidth 128 % (wide high - wide low + 1)).toInt =
      x.toNat % (high.toInt - low.toInt + 1) := by
  have hlow := Int64.le_toInt low
  have hhigh := Int64.toInt_lt high
  have hx : (x.toBitVec.setWidth 128).toNat = x.toNat := by
    have hlt := x.toNat_lt
    rw [BitVec.toNat_setWidth, UInt64.toNat_toBitVec, Nat.mod_eq_of_lt (by omega)]
  have hnat : ((x.toBitVec.setWidth 128 % (wide high - wide low + 1)).toNat : Int) =
      x.toNat % (high.toInt - low.toInt + 1) := by
    rw [BitVec.toNat_umod, hx, Int.natCast_emod, toNat_count h]
  obtain ⟨hrem, hrem'⟩ := emod_bounds h x
  rw [BitVec.toInt_eq_toNat_of_lt (by omega), hnat]

end

theorem toInt_min_le_max (a b : Int64) : (min a b).toInt ≤ (max a b).toInt := by
  show (if a ≤ b then a else b).toInt ≤ (if a ≤ b then b else a).toInt
  by_cases hle : a ≤ b
  · simpa [hle] using Int64.le_iff_toInt_le.1 hle
  · rw [Int64.le_iff_toInt_le] at hle
    simp [Int64.le_iff_toInt_le, hle]
    omega

theorem toInt_nextBetween (r : Rng) (a b : Int64) :
    (r.nextBetween a b).1.toInt =
      (min a b).toInt + r.next.1.toNat % ((max a b).toInt - (min a b).toInt + 1) := by
  have hlow := Int64.le_toInt (min a b)
  have hhigh := Int64.toInt_lt (max a b)
  have hle := toInt_min_le_max a b
  obtain ⟨hrem, hrem'⟩ := emod_bounds hle r.next.1
  have hsum : (wide (min a b) + r.next.1.toBitVec.setWidth 128 %
      (wide (max a b) - wide (min a b) + 1)).toInt =
      (min a b).toInt + r.next.1.toNat % ((max a b).toInt - (min a b).toInt + 1) := by
    rw [BitVec.toInt_add, toInt_wide, toInt_offset hle]
    exact Int.bmod_eq_of_le_mul_two (by omega) (by omega)
  rw [nextBetween, Int64.toInt_ofBitVec, toInt_narrow (by omega) (by omega), hsum]

/-- What is drawn lies between the bounds and is what integers give, none of which is too large for its word
along the way. Every number between the bounds is drawn from some stream. -/
theorem nextBetween_covers (a b : Int64) :
    (∀ r : Rng, between? r.next.1 (min a b) (max a b) = some (r.nextBetween a b).1.toInt ∧
        min a b ≤ (r.nextBetween a b).1 ∧ (r.nextBetween a b).1 ≤ max a b) ∧
      ∀ v, min a b ≤ v → v ≤ max a b → ∃ seed, ((ofSeed seed).nextBetween a b).1 = v := by
  have hle := toInt_min_le_max a b
  simp only [Int64.le_iff_toInt_le, ← Int64.toInt_inj, toInt_nextBetween]
  refine ⟨?_, ?_⟩
  · intro r
    obtain ⟨hrem, hrem'⟩ := emod_bounds hle r.next.1
    exact ⟨between?_eq hle _, by omega, by omega⟩
  · intro v hlow hhigh
    have hmin := Int64.le_toInt (min a b)
    have hmax := Int64.toInt_lt (max a b)
    -- a draw of the distance from the lower bound
    obtain ⟨d, hd⟩ : ∃ d : Nat, (d : Int) = v.toInt - (min a b).toInt := ⟨_, Int.toNat_of_nonneg (by omega)⟩
    have hlt : d < UInt64.size := by
      show d < 18446744073709551616
      omega
    obtain ⟨seed, hseed⟩ := exists_seed (.ofNat d)
    refine ⟨seed, ?_⟩
    rw [hseed, UInt64.toNat_ofNat_of_lt' hlt, hd, Int.emod_eq_of_lt (by omega) (by omega)]
    omega

theorem nextBetween_covers_all :
    ∃ seed, ((ofSeed seed).nextBetween Int64.maxValue Int64.minValue).1 = -1 :=
  (nextBetween_covers Int64.maxValue Int64.minValue).2 (-1) (by decide) (by decide)

end Rng

/-! ## Pools -/

namespace SeedPool

variable {size : Nat}

theorem size_ofSeed (seed : UInt64) (size : Nat) : (ofSeed seed size).size = max size 1 := by
  simp [SeedPool.size, ofSeed, Rng.length_draws]

theorem nodup_seeds (seed : UInt64) (h : size ≤ UInt64.size) :
    (ofSeed seed size).seeds.toList.Nodup :=
  Rng.nodup_draws (Nat.max_le.2 ⟨h, by decide⟩) _

theorem slot_lt (seed : UInt64) (size : Nat) (key : String) :
    (ofSeed seed size).slot key < (ofSeed seed size).size := by
  have hpos : 0 < (ofSeed seed size).size := by
    rw [size_ofSeed]
    omega
  exact Nat.mod_lt _ hpos

/-- The streams of two places begin with different counters. -/
theorem state_rngFor_ne (seed : UInt64) (h : size ≤ UInt64.size) {key key' : String}
    (hslot : (ofSeed seed size).slot key ≠ (ofSeed seed size).slot key') :
    ((ofSeed seed size).rngFor key).state ≠ ((ofSeed seed size).rngFor key').state := by
  have hnodup := nodup_seeds seed h
  have hkey := slot_lt seed size key
  have hkey' := slot_lt seed size key'
  generalize ofSeed seed size = p at *
  have hstate : ∀ {key}, p.slot key < p.size →
      p.seeds.toList[p.slot key]? = some (p.rngFor key).state := by
    intro key hlt
    have hlt : p.slot key < p.seeds.size := hlt
    simp [rngFor, Rng.ofSeed, hlt]
  intro heq
  apply hslot
  rw [← List.getElem?_inj hkey hnodup, hstate hkey, hstate hkey', heq]

/-- The seeds of a pool differ, as a stream gives no value twice in any `2 ^ 64` draws in a row; so keys
with different places have different streams, which disagree at every draw. -/
theorem slots_distinct (seed : UInt64) (size : Nat) (h : size ≤ UInt64.size) :
    (ofSeed seed size).size = max size 1 ∧ (ofSeed seed size).seeds.toList.Nodup ∧
      (∀ (r : Rng) (m n : Nat), n ≤ UInt64.size → ((Rng.draws (m + n) r).drop m).Nodup) ∧
      ∀ key key', (ofSeed seed size).slot key ≠ (ofSeed seed size).slot key' →
        (ofSeed seed size).rngFor key ≠ (ofSeed seed size).rngFor key' ∧
          ∀ n, List.Forall₂ (· ≠ ·) (Rng.draws n ((ofSeed seed size).rngFor key))
            (Rng.draws n ((ofSeed seed size).rngFor key')) := by
  refine ⟨size_ofSeed seed size, nodup_seeds seed h, ?_, ?_⟩
  · intro r m n hn
    obtain ⟨r', hdrop⟩ := Rng.drop_draws m n r
    rw [hdrop]
    exact Rng.nodup_draws hn r'
  · intro key key' hslot
    have hstate := state_rngFor_ne seed h hslot
    exact ⟨fun heq => hstate (congrArg Rng.state heq), Rng.forall₂_draws_ne hstate⟩

theorem slots_distinct_sixteen :
    (ofSeed 7 16).slot "A" ≠ (ofSeed 7 16).slot "B" ∧
      (ofSeed 7 16).rngFor "A" ≠ (ofSeed 7 16).rngFor "B" := by
  have hslot : (ofSeed 7 16).slot "A" ≠ (ofSeed 7 16).slot "B" := by decide +kernel
  exact ⟨hslot, ((slots_distinct 7 16 (by decide)).2.2.2 "A" "B" hslot).1⟩

end SeedPool

end Wordloom
