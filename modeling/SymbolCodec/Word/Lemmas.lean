import SymbolCodec.Word
import Mathlib

/-!
A word against its bytes. A packed word is the number whose digits to the base
256 are the bytes (`Word.toNat_pack_cons`), and its bytes are those that were
packed, with zeros after them (`Word.byte_pack`, `Word.bytes_load`).
-/
namespace SymbolCodec.Word

/-- The first byte is the lowest digit of a packed word. -/
theorem toNat_pack_cons (b : UInt8) (bs : Bytes) :
    (pack (b :: bs)).toNat = (b.toNat + 256 * (pack bs).toNat) % 2 ^ 64 := by
  have low := b.toNat_lt
  have shifted : (pack bs <<< 8).toNat = 2 ^ 8 * ((pack bs).toNat % 2 ^ 56) := by
    rw [UInt64.toNat_shiftLeft]
    simp only [UInt64.reduceToNat, Nat.reduceMod, Nat.shiftLeft_eq]
    omega
  simp only [pack, UInt64.toNat_or, UInt8.toNat_toUInt64, shifted]
  rw [Nat.or_comm, ← Nat.two_pow_add_eq_or_of_lt (by omega)]
  omega

/-- A byte of a word is a digit of it to the base 256. -/
theorem toNat_byte (w : UInt64) {i : Nat} (h : i < maxLength) :
    (byte w i).toNat = w.toNat / 256 ^ i % 256 := by
  have shift : (UInt64.ofNat (8 * i)).toNat % 64 = 8 * i := by
    rw [UInt64.toNat_ofNat']
    simp only [maxLength] at h
    omega
  simp only [byte, UInt64.toNat_toUInt8, UInt64.toNat_shiftRight, shift]
  rw [Nat.shiftRight_eq_div_pow, Nat.pow_mul]

/-- The bytes of a packed word are those that were packed, and zeros after them. -/
theorem byte_pack (bs : Bytes) {i : Nat} (h : i < maxLength) : byte (pack bs) i = bs[i]?.getD 0 := by
  induction bs generalizing i with
  | nil =>
    apply UInt8.toNat_inj.mp
    rw [toNat_byte _ h]
    simp [pack]
  | cons b bs ih =>
    have low := b.toNat_lt
    apply UInt8.toNat_inj.mp
    rw [toNat_byte _ h, toNat_pack_cons]
    cases i with
    | zero =>
      simp only [Nat.pow_zero, List.getElem?_cons_zero, Option.getD_some]
      omega
    | succ i =>
      have before : i < maxLength := Nat.lt_of_succ_lt h
      have digit := congrArg UInt8.toNat (ih before)
      rw [toNat_byte _ before] at digit
      rw [List.getElem?_cons_succ, ← digit]
      have places : i = 0 ∨ i = 1 ∨ i = 2 ∨ i = 3 ∨ i = 4 ∨ i = 5 ∨ i = 6 := by
        simp only [maxLength] at h
        omega
      rcases places with rfl | rfl | rfl | rfl | rfl | rfl | rfl <;> simp only [Nat.reduceAdd, Nat.reducePow] <;>
        omega

/-- The bytes of a loaded word are the first eight, and zeros after them. -/
theorem bytes_load (bs : Bytes) :
    bytes (load bs) = bs.take maxLength ++ List.replicate (maxLength - bs.length) 0 := by
  apply List.ext_getElem?
  intro i
  by_cases h : i < maxLength
  · simp only [bytes, load, List.getElem?_map, List.getElem?_range h, Option.map_some, byte_pack _ h]
    by_cases short : i < bs.length
    · rw [List.getElem?_append_left (by simp only [List.length_take]; omega)]
      simp [h, short]
    · rw [List.getElem?_append_right (by simp only [List.length_take]; omega), List.getElem?_replicate,
        if_pos (by simp only [List.length_take]; omega),
        List.getElem?_eq_none (by simp only [List.length_take]; omega)]
      rfl
  · have out : maxLength ≤ i := Nat.le_of_not_lt h
    rw [List.getElem?_eq_none (by simpa using out), List.getElem?_eq_none]
    simp only [List.length_append, List.length_take, List.length_replicate]
    omega

end SymbolCodec.Word
