import SymbolCodec.Proofs.Symbols

/-!
One symbol after another. The word of two symbols has the bytes of the left one and then
those of the right one, each with what the left word has at its place
(`Symbol.byte_joined`). What `Symbol.concat` makes has no bits above its length
(`Symbol.normal_concat`), and of symbols without such bits it has the first eight bytes of
both (`Symbol.bytes_concat`).
-/
namespace SymbolCodec

namespace Word

theorem byte_or (w v : UInt64) (i : Nat) : byte (w ||| v) i = byte w i ||| byte v i := by
  rw [byte, UInt64.shiftRight_or, UInt64.toUInt8_or]
  rfl

theorem byte_shiftLeft (w : UInt64) {n i : Nat} (short : n < maxLength) (inside : i < maxLength) :
    byte (w <<< UInt64.ofNat (8 * n)) i = if i < n then 0 else byte w (i - n) := by
  have shift : (UInt64.ofNat (8 * n)).toNat % 64 = 8 * n := by
    rw [UInt64.toNat_ofNat']
    simp only [maxLength] at short
    omega
  have word : 2 ^ 64 = 256 ^ i * 256 ^ (maxLength - i) := by
    rw [← Nat.pow_add, Nat.add_sub_cancel' (Nat.le_of_lt inside)]
    rfl
  have digit : 256 ∣ 256 ^ (maxLength - i) := dvd_pow_self 256 (by omega)
  apply UInt8.toNat_inj.mp
  rw [toNat_byte _ inside, UInt64.toNat_shiftLeft, shift, Nat.shiftLeft_eq, Nat.pow_mul, word,
    Nat.mod_mul_right_div_self, Nat.mod_mod_of_dvd _ digit]
  by_cases before : i < n
  · have split : 256 ^ n = 256 ^ (n - i - 1) * 256 * 256 ^ i := by
      rw [← Nat.pow_succ, ← Nat.pow_add]
      congr 1
      omega
    rw [if_pos before, split, ← Nat.mul_assoc, Nat.mul_div_cancel _ (by positivity), ← Nat.mul_assoc, Nat.mul_mod_left]
    rfl
  · have split : 256 ^ i = 256 ^ n * 256 ^ (i - n) := by
      rw [← Nat.pow_add]
      congr 1
      omega
    rw [if_neg before, toNat_byte _ (by omega), split, ← Nat.div_div_eq_div_mul, Nat.mul_div_cancel _ (by positivity)]

end Word

namespace Symbol

/-! ### The joined word -/

/-- After the bytes of the left symbol come those of the right one, each with what the left
    word has at its place. -/
theorem byte_joined (left right : Symbol) {i : Nat} (inside : i < maxLength) :
    Word.byte (if left.len ≥ maxLength then left.word
        else (right.word <<< (UInt64.ofNat (8 * left.len))) ||| left.word) i =
      if i < left.len then Word.byte left.word i
      else Word.byte right.word (i - left.len) ||| Word.byte left.word i := by
  by_cases whole : left.len ≥ maxLength
  · rw [if_pos whole, if_pos (by omega)]
  · rw [if_neg whole, Word.byte_or, Word.byte_shiftLeft _ (Nat.lt_of_not_le whole) inside]
    split
    · rw [UInt8.zero_or]
    · rfl

theorem len_concat (left right : Symbol) : (concat left right).len = min (left.len + right.len) maxLength := rfl

theorem proper_concat {left : Symbol} (pos : 1 ≤ left.len) (right : Symbol) : (concat left right).Proper :=
  ⟨Nat.le_min.mpr ⟨Nat.le_add_right_of_le pos, by decide⟩, Nat.min_le_right .., rfl⟩

theorem normal_concat {left : Symbol} (pos : 1 ≤ left.len) (right : Symbol) : (concat left right).Normal := by
  have proper := proper_concat pos right
  refine ⟨proper, ?_⟩
  rw [mask_eq proper]
  exact masked_masked _ _

theorem getElem?_bytes_concat {left : Symbol} (pos : 1 ≤ left.len) (right : Symbol) {i : Nat}
    (before : i < left.len + right.len) (inside : i < maxLength) :
    (concat left right).bytes[i]? = some (if i < left.len then Word.byte left.word i
      else Word.byte right.word (i - left.len) ||| Word.byte left.word i) := by
  have shape := proper_concat pos right
  have within : i < (concat left right).len := Nat.lt_min.mpr ⟨before, inside⟩
  rw [getElem?_bytes _ within inside, ← byte_joined left right inside]
  exact congrArg some ((Word.byte_mask _ shape.pos shape.le inside).trans (if_pos within))

/-! ### The bytes of both -/

section
variable {left right : Symbol} (normal : left.Normal) (normal' : right.Normal)
include normal normal'

theorem length_append_bytes : (left.bytes ++ right.bytes).length = left.len + right.len := by
  rw [List.length_append, normal.length_bytes, normal'.length_bytes]

/-- The bytes of one symbol after another are the first eight of both. -/
theorem bytes_concat : (concat left right).bytes = (left.bytes ++ right.bytes).take maxLength := by
  have length := length_append_bytes normal normal'
  apply List.ext_getElem?
  intro i
  by_cases before : i < left.len + right.len ∧ i < maxLength
  · obtain ⟨before, inside⟩ := before
    rw [getElem?_bytes_concat normal.pos right before inside, List.getElem?_take_of_lt inside]
    by_cases first : i < left.len
    · rw [if_pos first, List.getElem?_append_left (by rwa [normal.length_bytes]), getElem?_bytes left first inside]
    · -- a left symbol without bits above its length adds nothing to the byte of the right one
      have later : i - left.len < right.len := by omega
      have above : Word.byte left.word i = 0 := by
        rw [normal.byte_word inside, List.getElem?_eq_none (by rw [normal.length_bytes]; omega)]
        rfl
      rw [if_neg first, above, UInt8.or_zero, List.getElem?_append_right (by rw [normal.length_bytes]; omega),
        normal.length_bytes, getElem?_bytes right later (by omega)]
  · rw [List.getElem?_eq_none (by rw [Symbol.length_bytes, len_concat]; omega),
      List.getElem?_eq_none (by rw [List.length_take, length]; omega)]

end

end Symbol
end SymbolCodec
