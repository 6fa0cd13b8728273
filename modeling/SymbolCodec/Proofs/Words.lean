import SymbolCodec.Word.Lemmas
import Mathlib.Tactic.IntervalCases
import Mathlib.Tactic.Positivity

/-!
Words as eight bytes. A word is the word of its bytes (`Word.ext_bytes`), a mask
keeps the first of them (`Word.byte_mask`), and what a look-up takes from a word
are its first byte (`Word.first_eq`), its first two (`Word.pair_eq`) and its
first three (`Word.slot_congr`).
-/
namespace SymbolCodec.Word

theorem toNat_mask {len : Nat} (pos : 1 ≤ len) (le : len ≤ maxLength) :
    (mask len).toNat = 2 ^ (8 * len) - 1 := by
  simp only [maxLength] at le
  interval_cases len <;> decide

theorem toNat_and_mask (w : UInt64) {len : Nat} (pos : 1 ≤ len) (le : len ≤ maxLength) :
    (w &&& mask len).toNat = w.toNat % 256 ^ len := by
  rw [UInt64.toNat_and, toNat_mask pos le, Nat.and_two_pow_sub_one_eq_mod, Nat.pow_mul]

/-- A mask keeps the first bytes and clears the others. -/
theorem byte_mask (w : UInt64) {len i : Nat} (pos : 1 ≤ len) (le : len ≤ maxLength) (inside : i < maxLength) :
    byte (w &&& mask len) i = if i < len then byte w i else 0 := by
  apply UInt8.toNat_inj.mp
  rw [toNat_byte _ inside, toNat_and_mask w pos le]
  split
  case isTrue before =>
    have split : 256 ^ len = 256 ^ i * 256 ^ (len - i) := by rw [← Nat.pow_add]; congr 1; omega
    have digit : 256 ∣ 256 ^ (len - i) := dvd_pow_self 256 (by omega)
    rw [toNat_byte w inside, split, Nat.mod_mul_right_div_self, Nat.mod_mod_of_dvd _ digit]
  case isFalse after =>
    have small : w.toNat % 256 ^ len < 256 ^ i :=
      (Nat.mod_lt _ (by positivity)).trans_le (Nat.pow_le_pow_right (by decide) (by omega))
    rw [Nat.div_eq_of_lt small]
    rfl

/-- A number is determined by its digits to the base 256. -/
private theorem ext_digits : ∀ (count : Nat) {n m : Nat}, n < 256 ^ count → m < 256 ^ count →
    (∀ i < count, n / 256 ^ i % 256 = m / 256 ^ i % 256) → n = m
  | 0, n, m, small, small', _ => by
    rw [Nat.pow_zero] at small small'
    omega
  | count + 1, n, m, small, small', same => by
    have low := same 0 (Nat.zero_lt_succ count)
    have high : n / 256 = m / 256 := by
      rw [Nat.pow_succ, Nat.mul_comm] at small small'
      refine ext_digits count (Nat.div_lt_of_lt_mul small) (Nat.div_lt_of_lt_mul small') fun i inside => ?_
      rw [Nat.div_div_eq_div_mul, Nat.div_div_eq_div_mul, ← Nat.pow_succ']
      exact same (i + 1) (Nat.succ_lt_succ inside)
    rw [Nat.pow_zero, Nat.div_one, Nat.div_one] at low
    omega

/-- A word is determined by its bytes. -/
theorem ext_bytes {w v : UInt64} (same : ∀ i < maxLength, byte w i = byte v i) : w = v := by
  apply UInt64.toNat_inj.mp
  refine ext_digits maxLength w.toNat_lt v.toNat_lt fun i inside => ?_
  rw [← toNat_byte w inside, ← toNat_byte v inside, same i inside]

theorem byte_load (bs : Bytes) {i : Nat} (inside : i < maxLength) : byte (load bs) i = bs[i]?.getD 0 := by
  rw [load, byte_pack _ inside, List.getElem?_take_of_lt inside]

/-- A word comes back from its bytes. -/
theorem pack_bytes (w : UInt64) : pack (bytes w) = w := by
  apply ext_bytes
  intro i inside
  rw [byte_pack _ inside]
  simp [bytes, inside]

/-! ### What a look-up takes from a word -/

/-- The index of two bytes, the first lower. -/
def pairOf (a b : UInt8) : Fin 65536 :=
  ⟨a.toNat + 256 * b.toNat, by have := a.toNat_lt; have := b.toNat_lt; omega⟩

theorem pairOf_inj {a b c d : UInt8} : pairOf a b = pairOf c d ↔ a = c ∧ b = d := by
  have := a.toNat_lt
  have := c.toNat_lt
  simp only [pairOf, Fin.mk.injEq, ← UInt8.toNat_inj]
  omega

theorem firstOfPair_pairOf (a b : UInt8) : firstOfPair (pairOf a b) = a.toFin := by
  have := a.toNat_lt
  apply Fin.ext
  simp only [firstOfPair, pairOf, UInt8.toFin_val]
  omega

theorem exists_pairOf (p : Fin 65536) : ∃ a b, pairOf a b = p := by
  refine ⟨UInt8.ofNat (p.val % 256), UInt8.ofNat (p.val / 256), Fin.ext ?_⟩
  have := p.isLt
  simp only [pairOf, UInt8.toNat_ofNat']
  omega

theorem first_eq (w : UInt64) : first w = (byte w 0).toFin := by
  apply Fin.ext
  have digit := toNat_byte w (i := 0) (by decide)
  simp only [first, UInt8.toFin_val, digit, UInt64.toNat_toUInt8]
  omega

theorem pair_eq (w : UInt64) : pair w = pairOf (byte w 0) (byte w 1) := by
  apply Fin.ext
  have low := toNat_byte w (i := 0) (by decide)
  have high := toNat_byte w (i := 1) (by decide)
  simp only [pair, pairOf, UInt16.toFin_val, UInt64.toNat_toUInt16, low, high]
  omega

theorem first_load (a : UInt8) (rest : Bytes) : first (load (a :: rest)) = a.toFin := by
  rw [first_eq, byte_load _ (by decide)]
  rfl

theorem pair_load (a b : UInt8) (rest : Bytes) : pair (load (a :: b :: rest)) = pairOf a b := by
  rw [pair_eq, byte_load _ (by decide), byte_load _ (by decide)]
  rfl

theorem toUInt8_eq (w : UInt64) : w.toUInt8 = byte w 0 := by
  apply UInt8.toNat_inj.mp
  rw [toNat_byte w (by decide), UInt64.toNat_toUInt8]
  simp

theorem toUInt8_load (a : UInt8) (rest : Bytes) : (load (a :: rest)).toUInt8 = a := by
  rw [toUInt8_eq, byte_load _ (by decide)]
  rfl

/-- Words that start with the same three bytes have the same slot. -/
theorem slot_congr {w v : UInt64} (same : ∀ i < 3, byte w i = byte v i) : slot w = slot v := by
  have key : slotKey w = slotKey v := by
    have threeBytes : (0xFFFFFF : UInt64) = mask 3 := by decide
    apply ext_bytes
    intro i inside
    simp only [slotKey, threeBytes, byte_mask _ (by decide : 1 ≤ 3) (by decide) inside]
    split
    case isTrue before => exact same i before
    case isFalse => rfl
  simp only [slot, key]

end SymbolCodec.Word
