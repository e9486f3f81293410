import Wordloom.Instr.Codec
import Wordloom.Proofs.Bytes

/-!
# Wordloom.Proofs.Codec

Instructions read back from their bytes, one by one and as the whole code, and are put in the place
of others of the same size. A code is taken for the bytes of a list of instructions, `flatten`; the
offset of an instruction is the size of those before it.
-/

namespace Wordloom.Instr

open Bytes

/-! ## One instruction -/

@[simp] theorem length_ofUInt16 (n : UInt16) : (ofUInt16 n).length = 2 := length_ofNat 2 _

@[simp] theorem length_ofUInt64 (n : UInt64) : (ofUInt64 n).length = 8 := length_ofNat 8 _

@[simp] theorem length_ofInt32 (n : Int32) : (ofInt32 n).length = 4 := length_ofNat 4 _

theorem length_encode (i : Instr) : i.encode.length = i.size := by
  cases i <;> simp [encode, operandBytes, size, code, operandSize?]

theorem size_pos (i : Instr) : 0 < i.size := by
  rw [size]
  omega

theorem size_le_maxSize (i : Instr) : i.size ≤ maxSize := by
  cases i <;> simp [size, code, operandSize?, maxSize]

/-- Operands are read back from their bytes. -/
theorem decodeOperands_operandBytes (i : Instr) (offset : Nat) (rest : List UInt8) :
    decodeOperands i.code ⟨offset, i.operandBytes ++ rest⟩ =
      .ok (i, ⟨offset + (i.size - 1), rest⟩) := by
  cases i with
  | debug line column place =>
    simp only [operandBytes, List.append_assoc]
    change (Decoder.int32 >>= fun line => Decoder.int32 >>= fun column =>
      Decoder.int32 >>= fun place => pure (debug line column place)) _ = _
    rw [bind_of_ok (Decoder.int32_append _ _ _), bind_of_ok (Decoder.int32_append _ _ _),
      bind_of_ok (Decoder.int32_append _ _ _), pure_apply]
    rfl
  | printNumber bits | pushNumber bits => exact bind_of_ok (Decoder.uint64_append _ _ _)
  | openChannel name visibility =>
    simp only [operandBytes, List.append_assoc, List.singleton_append]
    change (Decoder.int32 >>= fun name => Decoder.uint8 >>= fun visibility =>
      pure (openChannel name visibility)) _ = _
    rw [bind_of_ok (Decoder.int32_append _ _ _), bind_of_ok (Decoder.uint8_cons _ _ _), pure_apply]
    rfl
  | printChars charClass count =>
    simp only [operandBytes, List.cons_append]
    change (Decoder.uint8 >>= fun charClass => Decoder.int32 >>= fun count =>
      pure (printChars charClass count)) _ = _
    rw [bind_of_ok (Decoder.uint8_cons _ _ _), bind_of_ok (Decoder.int32_append _ _ _), pure_apply]
    rfl
  | nativeCall id count =>
    simp only [operandBytes, List.append_assoc, List.singleton_append]
    change (Decoder.uint16 >>= fun id => Decoder.uint8 >>= fun count =>
      pure (nativeCall id count)) _ = _
    rw [bind_of_ok (Decoder.uint16_append _ _ _), bind_of_ok (Decoder.uint8_cons _ _ _), pure_apply]
    rfl
  | call address count =>
    simp only [operandBytes, List.append_assoc, List.singleton_append]
    change (Decoder.int32 >>= fun address => Decoder.uint8 >>= fun count =>
      pure (call address count)) _ = _
    rw [bind_of_ok (Decoder.int32_append _ _ _), bind_of_ok (Decoder.uint8_cons _ _ _), pure_apply]
    rfl
  | loadArgument index => exact bind_of_ok (Decoder.uint8_cons _ _ _)
  | swap a b =>
    simp only [operandBytes, List.append_assoc]
    change (Decoder.uint16 >>= fun a => Decoder.uint16 >>= fun b => pure (swap a b)) _ = _
    rw [bind_of_ok (Decoder.uint16_append _ _ _), bind_of_ok (Decoder.uint16_append _ _ _),
      pure_apply]
    rfl
  | loadLocal n | setLocal n | callProgram n => exact bind_of_ok (Decoder.uint16_append _ _ _)
  | printString n | block n | pushString n | query n | jump n | jumpEqual n | jumpNotEqual n
  | jumpGreater n | jumpGreaterEqual n | jumpLess n | jumpLessEqual n | jumpZero n | jumpNotZero n
  | pushAddress n => exact bind_of_ok (Decoder.int32_append _ _ _)
  | _ => rfl

/-- An instruction is read back from its bytes. -/
theorem decode_encode (i : Instr) (offset : Nat) (rest : List UInt8) :
    decode ⟨offset, i.encode ++ rest⟩ = .ok (i, ⟨offset + i.size, rest⟩) := by
  have hsize : offset + 1 + (i.size - 1) = offset + i.size := by
    have := i.size_pos
    omega
  rw [decode, encode, List.cons_append, bind_of_ok (Decoder.uint8_cons _ _ _),
    decodeOperands_operandBytes, hsize]

variable {code : Array UInt8}

/-- The instruction at an offset is the one whose bytes are there. -/
theorem decodeAt_of_drop {offset : Nat} {i : Instr} {rest : List UInt8}
    (h : code.toList.drop offset = i.encode ++ rest) :
    decodeAt code offset = .ok (i, offset + i.size) := by
  have hlen : i.encode.length ≤ maxSize := by
    rw [length_encode]
    exact size_le_maxSize i
  have hbytes : (code.extract offset (offset + maxSize)).toList =
      i.encode ++ rest.take (maxSize - i.encode.length) := by
    rw [Array.toList_extract, List.extract_eq_take_drop, h, Nat.add_sub_cancel_left,
      List.take_append, List.take_of_length_le hlen]
  rw [decodeAt, hbytes, decode_encode]
  rfl

/-! ## Lists of instructions -/

/-- The bytes of instructions one after the other. -/
def flatten (is : List Instr) : List UInt8 := is.flatMap encode

/-- The number of those bytes. -/
def sizes (is : List Instr) : Nat := (is.map size).sum

@[simp] theorem sizes_nil : sizes [] = 0 := rfl

@[simp] theorem sizes_cons (i : Instr) (is : List Instr) : sizes (i :: is) = i.size + sizes is := by
  simp [sizes]

@[simp] theorem sizes_append (is js : List Instr) : sizes (is ++ js) = sizes is + sizes js := by
  simp [sizes]

@[simp] theorem flatten_append (is js : List Instr) :
    flatten (is ++ js) = flatten is ++ flatten js := by
  simp [flatten]

@[simp] theorem flatten_cons (i : Instr) (is : List Instr) :
    flatten (i :: is) = i.encode ++ flatten is := rfl

@[simp] theorem length_flatten (is : List Instr) : (flatten is).length = sizes is := by
  induction is with
  | nil => rfl
  | cons i is ih => rw [flatten_cons, List.length_append, length_encode, ih, sizes_cons]

/-- Every instruction of the code is read at its offset. -/
theorem decodeAt_of_toList {before after : List Instr} {i : Instr}
    (h : code.toList = flatten (before ++ i :: after)) :
    decodeAt code (sizes before) = .ok (i, sizes before + i.size) := by
  have hdrop : code.toList.drop (sizes before) = i.encode ++ flatten after := by
    rw [h, flatten_append, flatten_cons, List.drop_left' (length_flatten before)]
  exact decodeAt_of_drop hdrop

/-- Instructions with their offsets, the first of which is `offset`. -/
def place (offset : Nat) : List Instr → List Placed
  | [] => []
  | i :: is => (offset, i) :: place (offset + i.size) is

theorem map_snd_place (offset : Nat) (is : List Instr) : (place offset is).map (·.2) = is := by
  induction is generalizing offset with
  | nil => rfl
  | cons i is ih => rw [place, List.map_cons, ih]

theorem place_append (offset : Nat) (is js : List Instr) :
    place offset (is ++ js) = place offset is ++ place (offset + sizes is) js := by
  induction is generalizing offset with
  | nil => rfl
  | cons i is ih => rw [List.cons_append, place, place, ih, sizes_cons, Nat.add_assoc,
      List.cons_append]

theorem length_le_sizes (is : List Instr) : is.length ≤ sizes is := by
  induction is with
  | nil => simp
  | cons i is ih =>
    have := i.size_pos
    rw [List.length_cons, sizes_cons]
    omega

/-- Code is read back instruction by instruction, each at its place. -/
theorem decodeFrom_flatten {before after : List Instr} (h : code.toList = flatten (before ++ after))
    (fuel : Nat) (hfuel : after.length ≤ fuel) :
    decodeFrom code fuel (sizes before) = (place (sizes before) after, none) := by
  have hsize : code.size = sizes before + sizes after := by
    rw [← Array.length_toList, h, length_flatten, sizes_append]
  induction after generalizing before fuel with
  | nil =>
    rw [sizes_nil, Nat.add_zero] at hsize
    cases fuel with
    | zero => rfl
    | succ fuel => rw [decodeFrom, if_pos (by omega), place]
  | cons i after ih =>
    obtain ⟨fuel, rfl⟩ : ∃ n, fuel = n + 1 := ⟨fuel - 1, by simp at hfuel; omega⟩
    have hpos := i.size_pos
    rw [sizes_cons] at hsize
    have hnext := ih (by simpa using h : code.toList = flatten (before ++ [i] ++ after)) fuel
      (by simpa using hfuel) (by simp; omega)
    rw [sizes_append, sizes_cons, sizes_nil, Nat.add_zero] at hnext
    rw [decodeFrom, if_neg (by omega), decodeAt_of_toList h]
    simp only [hnext, place]

/-- The code of instructions reads back as these instructions, at their offsets. -/
theorem decodeAll_flatten {is : List Instr} (h : code.toList = flatten is) :
    decodeAll code = (place 0 is, none) := by
  have hsize : is.length ≤ code.size := by
    rw [← Array.length_toList, h, length_flatten]
    exact length_le_sizes is
  exact decodeFrom_flatten (by simpa using h : code.toList = flatten ([] ++ is)) code.size hsize

end Wordloom.Instr
