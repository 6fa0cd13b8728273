import SymbolCodec.Dictionary.Packed
import Mathlib

/-!
Reading what was packed. Digits to a base below 256 come back from the bytes that
they were joined into (`Packed.splitDigits_joinDigits`), and a radix is chosen so
that every byte is a digit of it (`Packed.radixFor_spec`). So a reader that is told
the length takes exactly the bytes that a writer has put before any others
(`Packed.read_write`, `Packed.readLength_writeLength`), and a packed dictionary is
read as it was (`Dictionary.parse?_toBytes`).
-/
namespace SymbolCodec

namespace Packed

/-! ### Digits -/

/-- Some digits to a base are fewer than the numbers that a byte holds. -/
structure Radix.Sound (r : Radix) : Prop where
  base : 2 ≤ r.values
  group : 1 ≤ r.digits
  fits : r.values ^ r.digits ≤ 256

theorem Radix.sound_of_mem {r : Radix} (member : r ∈ radices) : r.Sound := by
  simp only [radices, List.mem_cons, List.not_mem_nil, or_false] at member
  rcases member with rfl | rfl | rfl | rfl | rfl | rfl <;> exact ⟨by decide, by decide, by decide⟩

theorem ofDigits_lt {values : Nat} {ds : Bytes} (digits : ∀ d ∈ ds, d.toNat < values) :
    ofDigits values ds < values ^ ds.length := by
  induction ds with
  | nil => simp [ofDigits]
  | cons d ds ih =>
    have low := digits d (List.mem_cons_self ..)
    have high := ih fun c member => digits c (List.mem_cons_of_mem d member)
    calc ofDigits values (d :: ds) < values + values * ofDigits values ds := by
          simp only [ofDigits]
          omega
      _ = values * (ofDigits values ds + 1) := by rw [Nat.mul_succ, Nat.add_comm]
      _ ≤ values * values ^ ds.length := Nat.mul_le_mul_left values high
      _ = values ^ (d :: ds).length := by rw [List.length_cons, Nat.pow_succ, Nat.mul_comm]

theorem length_toDigits (values count n : Nat) : (toDigits values count n).length = count := by
  induction count generalizing n with
  | zero => rfl
  | succ count ih => rw [toDigits, List.length_cons, ih]

/-- The low digits of the number of some digits are these digits. -/
theorem toDigits_ofDigits {values : Nat} {ds : Bytes} (digits : ∀ d ∈ ds, d.toNat < values) {count : Nat}
    (enough : ds.length ≤ count) : (toDigits values count (ofDigits values ds)).take ds.length = ds := by
  induction ds generalizing count with
  | nil => rfl
  | cons d ds ih =>
    have low := digits d (List.mem_cons_self ..)
    have high := fun c member => digits c (List.mem_cons_of_mem d member)
    cases count with
    | zero => simp at enough
    | succ count =>
      have digit : ofDigits values (d :: ds) % values = d.toNat := by
        rw [ofDigits, Nat.add_mul_mod_self_left, Nat.mod_eq_of_lt low]
      have rest : ofDigits values (d :: ds) / values = ofDigits values ds := by
        rw [ofDigits, Nat.add_mul_div_left _ _ (Nat.zero_lt_of_lt low), Nat.div_eq_of_lt low, Nat.zero_add]
      rw [toDigits, digit, rest, List.length_cons, List.take_succ_cons, UInt8.ofNat_toNat,
        ih high (Nat.le_of_succ_le_succ enough)]

theorem length_joinDigits {r : Radix} (sound : r.Sound) (ds : Bytes) :
    (joinDigits r ds).length = (ds.length + r.digits - 1) / r.digits := by
  have pos := sound.group
  rw [joinDigits, List.length_map]
  fun_induction cutEvery r.digits ds with
  | case1 => rw [List.length_nil, List.length_nil, Nat.zero_add, Nat.div_eq_of_lt (by omega)]
  | case2 b rest ih =>
    rw [List.length_cons, ih, List.length_drop, List.length_cons]
    by_cases last : rest.length ≤ r.digits - 1
    · have none : rest.length - (r.digits - 1) = 0 := by omega
      rw [none, Nat.zero_add, Nat.div_eq_of_lt (by omega)]
      exact (Nat.div_eq_of_lt_le (by omega) (by omega)).symm
    · have more : rest.length + 1 + r.digits - 1 = (rest.length - (r.digits - 1) + r.digits - 1) + r.digits := by
        omega
      rw [more, Nat.add_div_right _ pos]

/-- The digits of a group come back from the byte that they were joined into. -/
theorem toDigits_group {r : Radix} (sound : r.Sound) {ds : Bytes} (digits : ∀ d ∈ ds, d.toNat < r.values)
    (short : ds.length ≤ r.digits) :
    (toDigits r.values r.digits (UInt8.ofNat (ofDigits r.values ds)).toNat).take ds.length = ds := by
  have small : ofDigits r.values ds < 256 := by
    calc ofDigits r.values ds < r.values ^ ds.length := ofDigits_lt digits
      _ ≤ r.values ^ r.digits := Nat.pow_le_pow_right (Nat.zero_lt_of_lt sound.base) short
      _ ≤ 256 := sound.fits
  rw [UInt8.toNat_ofNat', Nat.mod_eq_of_lt small]
  exact toDigits_ofDigits digits short

/-- Digits come back from the bytes that they were joined into. -/
theorem splitDigits_joinDigits {r : Radix} (sound : r.Sound) {ds : Bytes} (digits : ∀ d ∈ ds, d.toNat < r.values) :
    (splitDigits r (joinDigits r ds)).take ds.length = ds := by
  have pos := sound.group
  rw [joinDigits]
  fun_induction cutEvery r.digits ds with
  | case1 => rfl
  | case2 b rest ih =>
    have whole : (b :: rest.take (r.digits - 1)) ++ rest.drop (r.digits - 1) = b :: rest := by
      rw [List.cons_append, List.take_append_drop]
    have front : ∀ d ∈ b :: rest.take (r.digits - 1), d.toNat < r.values := fun d member =>
      digits d (by rw [← whole]; exact List.mem_append_left _ member)
    have back : ∀ d ∈ rest.drop (r.digits - 1), d.toNat < r.values := fun d member =>
      digits d (by rw [← whole]; exact List.mem_append_right _ member)
    have short : (b :: rest.take (r.digits - 1)).length ≤ r.digits := by
      rw [List.length_cons, List.length_take]
      omega
    have group := toDigits_group sound front short
    rw [List.map_cons, splitDigits, List.flatMap_cons]
    -- Only the last group may be short, and then no byte follows it.
    by_cases last : rest.length ≤ r.digits - 1
    · rw [List.take_of_length_le last] at group ⊢
      rw [List.drop_of_length_le last, cutEvery, List.map_nil, List.flatMap_nil, List.append_nil]
      exact group
    · have full : (b :: rest.take (r.digits - 1)).length = r.digits := by
        rw [List.length_cons, List.length_take]
        omega
      rw [List.take_of_length_le (Nat.le_of_eq (by rw [length_toDigits, full]))] at group
      have length : (b :: rest).length =
          (b :: rest.take (r.digits - 1)).length + (rest.drop (r.digits - 1)).length := by
        rw [← List.length_append, whole]
      rw [group, length, List.take_length_add_append, ← splitDigits, ih back, whole]

/-! ### Choosing a radix -/

private theorem le_foldl_max : ∀ (bs : Bytes) (a : UInt8),
    a.toNat ≤ (bs.foldl max a).toNat ∧ ∀ b ∈ bs, b.toNat ≤ (bs.foldl max a).toNat
  | [], a => ⟨Nat.le_refl _, fun _ member => nomatch member⟩
  | c :: bs, a => by
    obtain ⟨start, others⟩ := le_foldl_max bs (max a c)
    rw [UInt8.toNat_max] at start
    refine ⟨by rw [List.foldl_cons]; omega, fun b member => ?_⟩
    rcases List.mem_cons.mp member with rfl | other
    · rw [List.foldl_cons]
      omega
    · exact others b other

private theorem foldl_min_le : ∀ (bs : Bytes) (a : UInt8),
    (bs.foldl min a).toNat ≤ a.toNat ∧ ∀ b ∈ bs, (bs.foldl min a).toNat ≤ b.toNat
  | [], a => ⟨Nat.le_refl _, fun _ member => nomatch member⟩
  | c :: bs, a => by
    obtain ⟨start, others⟩ := foldl_min_le bs (min a c)
    rw [UInt8.toNat_min] at start
    refine ⟨by rw [List.foldl_cons]; omega, fun b member => ?_⟩
    rcases List.mem_cons.mp member with rfl | other
    · rw [List.foldl_cons]
      omega
    · exact others b other

theorem le_greatest {bs : Bytes} {b : UInt8} (member : b ∈ bs) : b.toNat ≤ (greatest bs).toNat :=
  (le_foldl_max bs 0).2 b member

theorem least_le {bs : Bytes} {b : UInt8} (member : b ∈ bs) : (least bs).toNat ≤ b.toNat :=
  (foldl_min_le bs 255).2 b member

/-- The radix that is chosen for a byte has every digit up to it. -/
theorem radixFor_spec (top : UInt8) : ∃ r, radices[radixFor top.toNat]? = some r ∧ r.Sound ∧ top.toNat < r.values := by
  have below := top.toNat_lt
  have listed : ∃ r, radices[radixFor top.toNat]? = some r ∧ top.toNat < r.values := by
    unfold radixFor
    split_ifs
    all_goals exact ⟨_, rfl, by simp only; omega⟩
  obtain ⟨r, found, inside⟩ := listed
  exact ⟨r, found, Radix.sound_of_mem (List.mem_of_getElem? found), inside⟩

theorem radixFor_le (digit : Nat) : radixFor digit ≤ 5 := by
  unfold radixFor
  split_ifs <;> decide

/-! ### Byte strings -/

theorem take?_append {length : Nat} {front : Bytes} (whole : front.length = length) (rest : Bytes) :
    take? length (front ++ rest) = some (front, rest) := by
  simp [take?, ← whole]

section
variable {number : Nat} {r : Radix} (le : number ≤ 5) (found : radices[number]? = some r) (sound : r.Sound)
include le found sound

/-- Digits are read behind the tag of their radix. -/
theorem read_plain {bs : Bytes} (several : 2 < bs.length) (digits : ∀ d ∈ bs, d.toNat < r.values) (rest : Bytes) :
    read bs.length (UInt8.ofNat (2 * number) :: joinDigits r bs ++ rest) = some (bs, rest) := by
  have tag : (UInt8.ofNat (2 * number)).toNat = 2 * number := by
    rw [UInt8.toNat_ofNat']
    omega
  have index : (2 * number + 1) / 2 = number := by omega
  have even : ¬ 2 * number % 2 = 1 := by omega
  have plain : (fun d : UInt8 => d + 0) = id := funext UInt8.add_zero
  rw [read, if_neg (Nat.not_le_of_lt several)]
  simp only [List.cons_append, next?, Option.bind_eq_bind, Option.bind_some, tag, index, radix?, found, if_neg even,
    take?_append (length_joinDigits sound bs), splitDigits_joinDigits sound digits, plain, List.map_id, pure]

/-- Digits are read behind the tag of their radix and what was taken off them. -/
theorem read_shifted (pos : 1 ≤ number) {bs : Bytes} (several : 2 < bs.length) {base : UInt8}
    (digits : ∀ d ∈ bs, (d - base).toNat < r.values) (rest : Bytes) :
    read bs.length (UInt8.ofNat (2 * number - 1) :: base :: joinDigits r (bs.map (· - base)) ++ rest) =
      some (bs, rest) := by
  have tag : (UInt8.ofNat (2 * number - 1)).toNat = 2 * number - 1 := by
    rw [UInt8.toNat_ofNat']
    omega
  have index : (2 * number - 1 + 1) / 2 = number := by omega
  have odd : (2 * number - 1) % 2 = 1 := by omega
  have joined := length_joinDigits sound (bs.map (· - base))
  have digits' : ∀ d ∈ bs.map (· - base), d.toNat < r.values := by simpa using digits
  have split := splitDigits_joinDigits sound digits'
  have back : (fun d : UInt8 => d - base + base) = id := funext fun d => UInt8.sub_add_cancel d base
  rw [List.length_map] at joined split
  rw [read, if_neg (Nat.not_le_of_lt several)]
  simp only [List.cons_append, next?, Option.bind_eq_bind, Option.bind_some, tag, index, radix?, found, if_pos odd,
    take?_append joined, split, List.map_map, Function.comp_def, back, List.map_id, pure]

end

/-- A packed byte string is read as it was, and what follows it is left. -/
theorem read_write (bs rest : Bytes) : read bs.length (write bs ++ rest) = some (bs, rest) := by
  by_cases short : bs.length ≤ 2
  · rw [write, if_pos short, read, if_pos short]
    exact take?_append rfl rest
  · have several := Nat.lt_of_not_le short
    rw [write, if_neg short]
    by_cases shifted : radixFor (greatest bs - least bs).toNat > radixFor (greatest bs).toNat ∧ bs.length > 5
    · obtain ⟨r, found, sound, inside⟩ := radixFor_spec (greatest bs - least bs)
      have digits : ∀ d ∈ bs, (d - least bs).toNat < r.values := by
        intro d member
        have high := le_greatest member
        have low := least_le member
        rw [UInt8.toNat_sub_of_le _ _ (UInt8.le_iff_toNat_le.mpr low)]
        rw [UInt8.toNat_sub_of_le _ _ (UInt8.le_iff_toNat_le.mpr (Nat.le_trans low high))] at inside
        omega
      simp only [if_pos shifted, found, Option.getD_some]
      exact read_shifted (radixFor_le _) found sound (Nat.zero_lt_of_lt shifted.1) several digits rest
    · obtain ⟨r, found, sound, inside⟩ := radixFor_spec (greatest bs)
      simp only [if_neg shifted, found, Option.getD_some]
      exact read_plain (radixFor_le _) found sound several
        (fun d member => Nat.lt_of_le_of_lt (le_greatest member) inside) rest

/-! ### Numbers -/

theorem length_littleEndian (count n : Nat) : (littleEndian count n).length = count := by
  induction count generalizing n with
  | zero => rfl
  | succ count ih => rw [littleEndian, List.length_cons, ih]

theorem ofLittleEndian_littleEndian (count n : Nat) : ofLittleEndian (littleEndian count n) = n % 256 ^ count := by
  induction count generalizing n with
  | zero => rw [Nat.pow_zero, Nat.mod_one]; rfl
  | succ count ih =>
    have low : (UInt8.ofNat n).toNat = n % 256 := UInt8.toNat_ofNat'
    rw [littleEndian, ofLittleEndian, ih, low, Nat.pow_succ, Nat.mul_comm (256 ^ count), Nat.mod_mul]

theorem readWide_littleEndian {tag : UInt8} {width n : Nat} (even : tag.toNat % 2 = 0)
    (found : widthOf tag.toNat = some width) (small : n < 256 ^ width) (fits : n < UInt64.size) (rest : Bytes) :
    readWide (tag :: littleEndian width n ++ rest) = some (n, rest) := by
  have plain : ¬ tag.toNat % 2 = 1 := by omega
  simp only [readWide, List.cons_append, next?, Option.bind_eq_bind, Option.bind_some, found, if_neg plain,
    take?_append (length_littleEndian width n), ofLittleEndian, ofLittleEndian_littleEndian, Nat.zero_add,
    Nat.mod_eq_of_lt small, Nat.mod_eq_of_lt fits, pure]

/-- A length that is not too great is read as it was. -/
theorem readLength_writeLength {n : Nat} (small : n < lengthLimit) (rest : Bytes) :
    readLength (writeLength n ++ rest) = some (n, rest) := by
  have fits : n < 2 ^ 64 := Nat.lt_of_lt_of_le small (by decide)
  have wide {tag : UInt8} {width : Nat} (even : tag.toNat % 2 = 0) (found : widthOf tag.toNat = some width)
      (below : n < 256 ^ width) : readLength (255 :: tag :: littleEndian width n ++ rest) = some (n, rest) := by
    have read := readWide_littleEndian even found below fits rest
    simp only [List.cons_append] at read ⊢
    simp only [readLength, next?, Option.bind_eq_bind, Option.bind_some, ↓reduceIte, read, small]
  unfold writeLength
  split_ifs with one two three four
  · have byte : (UInt8.ofNat n).toNat = n := by
      rw [UInt8.toNat_ofNat']
      omega
    have plain : UInt8.ofNat n ≠ 255 := by
      intro equal
      have value := congrArg UInt8.toNat equal
      rw [byte] at value
      exact absurd value (Nat.ne_of_lt one)
    simp only [readLength, List.cons_append, List.nil_append, next?, Option.bind_eq_bind, Option.bind_some,
      if_neg plain, byte, small, ↓reduceIte]
  · exact wide rfl rfl two
  · exact wide rfl rfl three
  · exact wide rfl rfl four
  · exact wide rfl rfl fits

end Packed

namespace Dictionary

theorem eight?_toList (v : Vector UInt8 8) : eight? v.toList = some v := by
  have same : v.toList.toArray = v.toArray := Array.toArray_toList
  simp [eight?, same]

/-- A packed dictionary is read as it was. -/
theorem parse?_toBytes {d : Dictionary} (small : d.bytes.length < Packed.lengthLimit) :
    parse? d.toBytes = some d := by
  have eight (v : Vector UInt8 8) (rest : Bytes) :
      Packed.read 8 (Packed.write v.toList ++ rest) = some (v.toList, rest) := by
    have read := Packed.read_write v.toList rest
    rwa [Vector.length_toList] at read
  have whole := Packed.read_write d.bytes []
  rw [List.append_nil] at whole
  have flag : ((if d.zeroTerminated then 1 else 0 : UInt8) &&& 1 == 1) = d.zeroTerminated := by
    cases d.zeroTerminated <;> rfl
  simp only [parse?, toBytes, List.append_assoc, eight, List.cons_append, List.nil_append, Packed.next?,
    Packed.readLength_writeLength small, whole, Option.bind_eq_bind, Option.bind_some, List.isEmpty_nil, ↓reduceIte,
    eight?_toList, flag]

end Dictionary
end SymbolCodec
