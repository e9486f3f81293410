import Wordloom.Bytes
import Wordloom.Proofs.Actions

/-!
# Wordloom.Proofs.Bytes

Little-endian numbers read back.
-/

namespace Wordloom

namespace Bytes

theorem toNat_ofNat (width n : Nat) : toNat (ofNat width n) = n % 256 ^ width := by
  induction width generalizing n with
  | zero => simp [ofNat, toNat, Nat.mod_one]
  | succ width ih =>
    have h : (UInt8.ofNat n).toNat = n % 256 := by simp
    rw [ofNat, toNat, ih, h, Nat.pow_succ', Nat.mod_mul]

theorem toNat_lt (bs : List UInt8) : toNat bs < 256 ^ bs.length := by
  induction bs with
  | nil => simp [toNat]
  | cons b bs ih =>
    have hlt := b.toNat_lt
    simp only [toNat, List.length_cons, Nat.pow_succ]
    omega

end Bytes

namespace Bytes.Decoder

/-! ## Numbers -/

theorem take_append {bs : List UInt8} (offset : Nat) (rest : List UInt8) (h : bs.length = n) :
    take n ⟨offset, bs ++ rest⟩ = .ok (bs, ⟨offset + n, rest⟩) := by
  subst h
  simp [take]

theorem uint8_cons (offset : Nat) (b : UInt8) (rest : List UInt8) :
    uint8 ⟨offset, b :: rest⟩ = .ok (b, ⟨offset + 1, rest⟩) := by
  have h : take 1 ⟨offset, b :: rest⟩ = .ok ([b], ⟨offset + 1, rest⟩) :=
    take_append offset rest (rfl : [b].length = 1)
  rw [uint8, bind_of_ok h, pure_apply]
  simp [toNat]

theorem uint16_append (offset : Nat) (n : UInt16) (rest : List UInt8) :
    uint16 ⟨offset, ofUInt16 n ++ rest⟩ = .ok (n, ⟨offset + 2, rest⟩) := by
  have hn := n.toNat_lt
  rw [uint16, ofUInt16, bind_of_ok (take_append offset rest (length_ofNat 2 _)), pure_apply,
    toNat_ofNat, Nat.mod_eq_of_lt (by omega), UInt16.ofNat_toNat]

theorem uint32_append (offset : Nat) (n : UInt32) (rest : List UInt8) :
    uint32 ⟨offset, ofUInt32 n ++ rest⟩ = .ok (n, ⟨offset + 4, rest⟩) := by
  have hn := n.toNat_lt
  rw [uint32, ofUInt32, bind_of_ok (take_append offset rest (length_ofNat 4 _)), pure_apply,
    toNat_ofNat, Nat.mod_eq_of_lt (by omega), UInt32.ofNat_toNat]

theorem uint64_append (offset : Nat) (n : UInt64) (rest : List UInt8) :
    uint64 ⟨offset, ofUInt64 n ++ rest⟩ = .ok (n, ⟨offset + 8, rest⟩) := by
  have hn := n.toNat_lt
  rw [uint64, ofUInt64, bind_of_ok (take_append offset rest (length_ofNat 8 _)), pure_apply,
    toNat_ofNat, Nat.mod_eq_of_lt (by omega), UInt64.ofNat_toNat]

theorem int32_append (offset : Nat) (n : Int32) (rest : List UInt8) :
    int32 ⟨offset, ofInt32 n ++ rest⟩ = .ok (n, ⟨offset + 4, rest⟩) := by
  rw [int32, ofInt32, bind_of_ok (uint32_append offset _ rest), pure_apply,
    Int32.toInt32_toUInt32]

/-- A length that four bytes can hold. -/
theorem uint32_append_ofNat (offset : Nat) {n : Nat} (rest : List UInt8) (h : n < 2 ^ 32) :
    uint32 ⟨offset, ofNat 4 n ++ rest⟩ = .ok (UInt32.ofNat n, ⟨offset + 4, rest⟩) := by
  rw [uint32, bind_of_ok (take_append offset rest (length_ofNat 4 _)), pure_apply,
    toNat_ofNat, Nat.mod_eq_of_lt (by omega)]

end Bytes.Decoder

end Wordloom
