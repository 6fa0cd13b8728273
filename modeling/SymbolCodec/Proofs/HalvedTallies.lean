import SymbolCodec.Proofs.Tallies

/-!
Counts in two halves are lawful, too. The low byte of a count is zero where the
high part is (`HalvedTally.Halves`), so that to raise the low byte, and the high
part where it leaves zero, counts one up (`HalvedTally.join_raised`). The two high
parts of a byte do not disturb each other (`HalvedTally.nibble_add`), and a walk
that passes over high parts of zero passes over counts of zero
(`HalvedTally.looks_of_highs`). So a tally of either layout keeps the counts
(`Counters.keeps_empty`).
-/
namespace SymbolCodec
namespace HalvedTally

/-! ### One count -/

/-- The low byte of a count is zero where its high part is. -/
def Halves (high low : UInt8) : Prop := high = 0 → low = 0

theorem join_zero (high : UInt8) : join high 0 = 256 * high.toNat := by
  simp [join, Nat.mul_comm]

theorem join_of_ne {high low : UInt8} (halves : Halves high low) (middle : low ≠ 0) :
    join high low + 256 = 256 * high.toNat + low.toNat := by
  have pos : high.toNat ≠ 0 := fun zero => middle (halves (UInt8.toNat_inj.mp zero))
  simp only [join, middle, ↓reduceIte]
  omega

theorem join_le {high low : UInt8} (halves : Halves high low) : join high low ≤ 256 * high.toNat := by
  by_cases zero : low = 0
  · rw [zero, join_zero]
  · have whole := join_of_ne halves zero
    have small := low.toNat_lt
    omega

/-- A count is zero exactly where its high part is. -/
theorem join_eq_zero_iff {high low : UInt8} (halves : Halves high low) : join high low = 0 ↔ high = 0 := by
  constructor
  · intro none
    by_cases zero : low = 0
    · rw [zero, join_zero] at none
      have zero : high.toNat = 0 := by omega
      exact UInt8.toNat_inj.mp zero
    · have whole := join_of_ne halves zero
      have some : low.toNat ≠ 0 := fun none => zero (UInt8.toNat_inj.mp none)
      have pos : high.toNat ≠ 0 := fun none => zero (halves (UInt8.toNat_inj.mp none))
      omega
  · intro none
    rw [halves none, none]
    rfl

/-- The halves of a count after one event more, with the highest high part there
    is. -/
def raised (full high low : UInt8) : UInt8 × UInt8 :=
  if low = 0 then if high = full then (high, low) else (high + 1, 1) else (high, low + 1)

theorem raised_of_ne {high low : UInt8} (middle : low ≠ 0) (full : UInt8) : raised full high low = (high, low + 1) :=
  if_neg middle

theorem raised_of_full {full high low : UInt8} (zero : low = 0) (top : high = full) :
    raised full high low = (high, low) := by
  rw [raised, if_pos zero, if_pos top]

theorem raised_of_room {full high low : UInt8} (zero : low = 0) (room : high ≠ full) :
    raised full high low = (high + 1, 1) := by
  rw [raised, if_pos zero, if_neg room]

section
variable {full high low : UInt8} (le : high ≤ full)

theorem toNat_add_one (below : high ≠ 255) : (high + 1).toNat = high.toNat + 1 := by
  have small := high.toNat_lt
  have other : high.toNat ≠ 255 := fun equal => below (UInt8.toNat_inj.mp equal)
  rw [UInt8.toNat_add]
  exact Nat.mod_eq_of_lt (by omega : high.toNat + 1 < 256)

include le

theorem ne_of_ne_full (room : high ≠ full) : high ≠ 255 := by
  rintro rfl
  exact room (UInt8.le_antisymm le (UInt8.le_iff_toNat_le.mpr (Nat.le_of_lt_succ full.toNat_lt)))

theorem halves_raised (halves : Halves high low) : Halves (raised full high low).1 (raised full high low).2 := by
  unfold raised
  split
  case isTrue zero =>
    split
    case isTrue => exact halves
    case isFalse room =>
      intro overflow
      have next := toNat_add_one (ne_of_ne_full le room)
      have wrapped : high + 1 = 0 := overflow
      rw [wrapped] at next
      exact absurd next (Nat.succ_ne_zero _).symm
  case isFalse middle => exact fun zero => absurd (halves zero) middle

/-- To raise the low byte, and the high part where it leaves zero, counts one up,
    until the high part is full and the low byte is zero. -/
theorem join_raised (halves : Halves high low) :
    join (raised full high low).1 (raised full high low).2 = min (join high low + 1) (256 * full.toNat) := by
  have under : high.toNat ≤ full.toNat := UInt8.le_iff_toNat_le.mp le
  by_cases zero : low = 0
  · -- the low byte leaves zero, and the high part goes ahead with it unless it is full
    subst zero
    by_cases top : high = full
    · subst top
      simp [raised, join_zero]
    · have next := toNat_add_one (ne_of_ne_full le top)
      have apart : high.toNat ≠ full.toNat := fun equal => top (UInt8.toNat_inj.mp equal)
      simp only [raised, top, ↓reduceIte, join_zero]
      have halves' : Halves (high + 1) 1 := fun wrapped => by simp [wrapped] at next
      have whole := join_of_ne halves' (by decide)
      have one : (1 : UInt8).toNat = 1 := rfl
      omega
  · have whole := join_of_ne halves zero
    have small := low.toNat_lt
    simp only [raised, zero, ↓reduceIte]
    by_cases last : low = 255
    · -- the low byte comes back to zero, and the high part has been raised before
      subst last
      have carried : (255 : UInt8) + 1 = 0 := rfl
      have value : (255 : UInt8).toNat = 255 := rfl
      rw [carried, join_zero]
      omega
    · have next := toNat_add_one last
      have middle : low + 1 ≠ 0 := fun wrapped => by simp [wrapped] at next
      have halves' : Halves high (low + 1) := fun none => absurd (halves none) zero
      have whole' := join_of_ne halves' middle
      omega

end

/-! ### Two high parts to a byte -/

theorem toNat_nibble (byte : UInt8) (right : Nat) :
    (nibble byte right).toNat = if right % 2 = 0 then byte.toNat % 16 else byte.toNat / 16 := by
  unfold nibble
  split
  case isTrue =>
    rw [UInt8.toNat_and]
    exact Nat.and_two_pow_sub_one_eq_mod byte.toNat 4
  case isFalse =>
    rw [UInt8.toNat_shiftRight]
    exact Nat.shiftRight_eq_div_pow byte.toNat 4

theorem nibble_le (byte : UInt8) (right : Nat) : nibble byte right ≤ 15 := by
  have small := byte.toNat_lt
  rw [UInt8.le_iff_toNat_le, toNat_nibble]
  show _ ≤ 15
  split <;> omega

/-- One more in a high part that is not full leaves the other one of the byte as it
    is. -/
theorem nibble_add {byte : UInt8} {right : Nat} (room : nibble byte right ≠ 15) (right' : Nat) :
    nibble (byte + nibbleOne right) right' =
      if right' % 2 = right % 2 then nibble byte right + 1 else nibble byte right' := by
  have small := byte.toNat_lt
  have other : (nibble byte right).toNat ≠ 15 := fun equal => room (UInt8.toNat_inj.mp equal)
  have one : (1 : UInt8).toNat = 1 := rfl
  have sixteen : (16 : UInt8).toNat = 16 := rfl
  rw [toNat_nibble] at other
  apply UInt8.toNat_inj.mp
  by_cases even : right % 2 = 0
  · simp only [nibbleOne, even, ↓reduceIte] at other ⊢
    split
    case isTrue same =>
      rw [toNat_nibble, UInt8.toNat_add, UInt8.toNat_add, toNat_nibble, if_pos same, if_pos even, one]
      omega
    case isFalse apart =>
      rw [toNat_nibble, UInt8.toNat_add, toNat_nibble, if_neg apart, if_neg apart, one]
      omega
  · simp only [nibbleOne, even, ↓reduceIte] at other ⊢
    split
    case isTrue same =>
      rw [toNat_nibble, UInt8.toNat_add, UInt8.toNat_add, toNat_nibble, if_neg (by omega), if_neg even, sixteen, one]
      omega
    case isFalse apart =>
      rw [toNat_nibble, UInt8.toNat_add, toNat_nibble, if_pos (by omega), if_pos (by omega), sixteen]
      omega

theorem highCell_inj {left right left' right' : Nat} (inside : right < countedCodes) (inside' : right' < countedCodes) :
    highCell left right = highCell left' right' ↔ left = left' ∧ right / 2 = right' / 2 := by
  have small : right < 512 := inside
  have small' : right' < 512 := inside'
  show left * 256 + right / 2 = left' * 256 + right' / 2 ↔ _
  omega

theorem highCell_lt {left right : Nat} (inside : left < countedCodes) (inside' : right < countedCodes) :
    highCell left right < pairCells / 2 := by
  have small : left < 512 := inside
  have small' : right < 512 := inside'
  show left * 256 + right / 2 < 131072
  omega

/-! ### The halves of a tally -/

def high (t : HalvedTally) : Event → UInt8
  | .single code => t.codeHighs[code]?.getD 0
  | .pair left right => nibble (t.pairHighs[highCell left right]?.getD 0) right

def low (t : HalvedTally) : Event → UInt8
  | .single code => t.codeLows[code]?.getD 0
  | .pair left right => t.pairLows[pairCell left right]?.getD 0

/-- The highest high part. -/
def full : Event → UInt8
  | .single _ => 255
  | .pair _ _ => 15

def Valid (t : HalvedTally) : Prop := ∀ e : Event, e.Proper → Halves (t.high e) (t.low e)

theorem get_eq (t : HalvedTally) (e : Event) : t.get e = join (t.high e) (t.low e) := by
  cases e <;> rfl

theorem cap_eq (e : Event) : e.cap = 256 * (full e).toNat := by
  cases e <;> rfl

theorem high_le (t : HalvedTally) (e : Event) : t.high e ≤ full e := by
  cases e with
  | single code => exact UInt8.le_iff_toNat_le.mpr (Nat.le_of_lt_succ (t.codeHighs[code]?.getD 0).toNat_lt)
  | pair left right => exact nibble_le _ right

theorem recordSingle_cases (t : HalvedTally) (code : Nat) :
    t.low (.single code) ≠ 0 ∧
        t.recordSingle code = { t with codeLows := t.codeLows.setIfInBounds code (t.low (.single code) + 1) } ∨
      t.low (.single code) = 0 ∧ t.high (.single code) = full (.single code) ∧ t.recordSingle code = t ∨
      t.low (.single code) = 0 ∧ t.high (.single code) ≠ full (.single code) ∧ t.recordSingle code = { t with
        codeHighs := t.codeHighs.setIfInBounds code (t.high (.single code) + 1)
        codeLows := t.codeLows.setIfInBounds code 1 } := by
  by_cases zero : t.low (.single code) = 0
  · by_cases top : t.high (.single code) = full (.single code)
    · exact .inr (.inl ⟨zero, top, (if_pos zero).trans (if_pos top)⟩)
    · exact .inr (.inr ⟨zero, top, (if_pos zero).trans (if_neg top)⟩)
  · exact .inl ⟨zero, if_neg zero⟩

theorem recordPair_cases (t : HalvedTally) (left right : Nat) :
    t.low (.pair left right) ≠ 0 ∧ t.recordPair left right = { t with
        pairLows := t.pairLows.setIfInBounds (pairCell left right) (t.low (.pair left right) + 1) } ∨
      t.low (.pair left right) = 0 ∧ t.high (.pair left right) = full (.pair left right) ∧ t.recordPair left right = t ∨
      t.low (.pair left right) = 0 ∧ t.high (.pair left right) ≠ full (.pair left right) ∧
        t.recordPair left right = { t with
          pairHighs := t.pairHighs.setIfInBounds (highCell left right)
            (t.pairHighs[highCell left right]?.getD 0 + nibbleOne right)
          pairLows := t.pairLows.setIfInBounds (pairCell left right) 1 } := by
  by_cases zero : t.low (.pair left right) = 0
  · by_cases top : t.high (.pair left right) = full (.pair left right)
    · exact .inr (.inl ⟨zero, top, (if_pos zero).trans (if_pos top)⟩)
    · exact .inr (.inr ⟨zero, top, (if_pos zero).trans (if_neg top)⟩)
  · exact .inl ⟨zero, if_neg zero⟩

/-! ### Cells that are set -/

section
variable (t : HalvedTally)

theorem high_lows (codeLows : Vector UInt8 countedCodes) (pairLows : Vector UInt8 pairCells) (x : Event) :
    { t with codeLows, pairLows }.high x = t.high x := by
  cases x <;> rfl

theorem high_setCode {code : Nat} (inside : code < countedCodes) (codeLows : Vector UInt8 countedCodes) (v : UInt8)
    (x : Event) :
    { t with codeHighs := t.codeHighs.setIfInBounds code v, codeLows }.high x =
      if x = .single code then v else t.high x := by
  cases x with
  | single code' => simp only [high, getD_setIfInBounds t.codeHighs inside, Event.single.injEq]
  | pair left right => rw [if_neg Event.noConfusion]; rfl

theorem low_setCode {code : Nat} (inside : code < countedCodes) (codeHighs : Vector UInt8 countedCodes) (v : UInt8)
    (x : Event) :
    { t with codeHighs, codeLows := t.codeLows.setIfInBounds code v }.low x =
      if x = .single code then v else t.low x := by
  cases x with
  | single code' => simp only [low, getD_setIfInBounds t.codeLows inside, Event.single.injEq]
  | pair left right => rw [if_neg Event.noConfusion]; rfl

theorem low_setPair {left right : Nat} (proper : (Event.pair left right).Proper)
    (pairHighs : Vector UInt8 (pairCells / 2)) (v : UInt8) {x : Event} (proper' : x.Proper) :
    { t with pairHighs, pairLows := t.pairLows.setIfInBounds (pairCell left right) v }.low x =
      if x = .pair left right then v else t.low x := by
  cases x with
  | single code => rw [if_neg Event.noConfusion]; rfl
  | pair left' right' =>
    simp only [low, getD_setIfInBounds t.pairLows (pairCell_lt proper.1 proper.2), pairCell_inj proper'.2 proper.2,
      Event.pair.injEq]

/-- One more in the high part of a pair leaves all others as they are. -/
theorem high_setPair {left right : Nat} (proper : (Event.pair left right).Proper)
    (pairLows : Vector UInt8 pairCells) {x : Event} (proper' : x.Proper) (room : t.high (.pair left right) ≠ 15) :
    { t with
        pairHighs := t.pairHighs.setIfInBounds (highCell left right)
          (t.pairHighs[highCell left right]?.getD 0 + nibbleOne right)
        pairLows }.high x =
      if x = .pair left right then t.high (.pair left right) + 1 else t.high x := by
  cases x with
  | single code => rw [if_neg Event.noConfusion]; rfl
  | pair left' right' =>
    simp only [high, getD_setIfInBounds t.pairHighs (highCell_lt proper.1 proper.2), Event.pair.injEq]
    by_cases here : highCell left' right' = highCell left right
    · obtain ⟨rfl, half⟩ := (highCell_inj proper'.2 proper.2).mp here
      have parity : right' % 2 = right % 2 ↔ left' = left' ∧ right' = right := by omega
      rw [if_pos here, nibble_add room, here]
      simp only [parity]
    · have apart : ¬ (left' = left ∧ right' = right) := by
        rintro ⟨rfl, rfl⟩
        exact here rfl
      rw [if_neg here, if_neg apart]

end

/-! ### Counting -/

/-- What counting an event does to the halves of every count. -/
theorem record_outcome (t : HalvedTally) {e x : Event} (proper : e.Proper) (proper' : x.Proper) :
    t.low e ≠ 0 ∧ (t.record e).high x = t.high x ∧ (t.record e).low x = (if x = e then t.low e + 1 else t.low x) ∨
      t.low e = 0 ∧ t.high e = full e ∧ t.record e = t ∨
      t.low e = 0 ∧ t.high e ≠ full e ∧ (t.record e).high x = (if x = e then t.high e + 1 else t.high x) ∧
        (t.record e).low x = if x = e then 1 else t.low x := by
  cases e with
  | single code =>
    have step : t.record (.single code) = t.recordSingle code := rfl
    rw [step]
    obtain ⟨some, outcome⟩ | ⟨zero, top, outcome⟩ | ⟨zero, room, outcome⟩ := recordSingle_cases t code
    · rw [outcome]
      exact .inl ⟨some, high_lows t _ _ x, low_setCode t proper _ _ x⟩
    · exact .inr (.inl ⟨zero, top, outcome⟩)
    · rw [outcome]
      exact .inr (.inr ⟨zero, room, high_setCode t proper _ _ x, low_setCode t proper _ _ x⟩)
  | pair left right =>
    have step : t.record (.pair left right) = t.recordPair left right := rfl
    rw [step]
    obtain ⟨some, outcome⟩ | ⟨zero, top, outcome⟩ | ⟨zero, room, outcome⟩ := recordPair_cases t left right
    · rw [outcome]
      exact .inl ⟨some, high_lows t _ _ x, low_setPair t proper _ _ proper'⟩
    · exact .inr (.inl ⟨zero, top, outcome⟩)
    · rw [outcome]
      exact .inr (.inr ⟨zero, room, high_setPair t proper _ proper' room, low_setPair t proper _ _ proper'⟩)

/-- One event more raises the halves of its own count, and no others. -/
theorem record_cases (t : HalvedTally) {e x : Event} (proper : e.Proper) (proper' : x.Proper) :
    x = e ∧ (t.record e).high x = (raised (full e) (t.high e) (t.low e)).1 ∧
        (t.record e).low x = (raised (full e) (t.high e) (t.low e)).2 ∨
      x ≠ e ∧ (t.record e).high x = t.high x ∧ (t.record e).low x = t.low x := by
  by_cases here : x = e
  · left
    obtain ⟨some, upper, lower⟩ | ⟨zero, top, same⟩ | ⟨zero, room, upper, lower⟩ := record_outcome t proper proper'
    · rw [upper, lower, raised_of_ne some, if_pos here, here]
      exact ⟨rfl, rfl, rfl⟩
    · rw [same, raised_of_full zero top, here]
      exact ⟨rfl, rfl, rfl⟩
    · rw [upper, lower, raised_of_room zero room, if_pos here, if_pos here]
      exact ⟨here, rfl, rfl⟩
  · right
    obtain ⟨_, upper, lower⟩ | ⟨_, _, same⟩ | ⟨_, _, upper, lower⟩ := record_outcome t proper proper'
    · rw [upper, lower, if_neg here]
      exact ⟨here, rfl, rfl⟩
    · rw [same]
      exact ⟨here, rfl, rfl⟩
    · rw [upper, lower, if_neg here, if_neg here]
      exact ⟨here, rfl, rfl⟩

theorem valid_record {t : HalvedTally} (valid : t.Valid) {e : Event} (proper : e.Proper) : (t.record e).Valid := by
  intro x proper'
  obtain ⟨_, upper, lower⟩ | ⟨_, upper, lower⟩ := record_cases t proper proper'
  · rw [upper, lower]
    exact halves_raised (high_le t e) (valid e proper)
  · rw [upper, lower]
    exact valid x proper'

theorem get_record {t : HalvedTally} (valid : t.Valid) {e x : Event} (proper : e.Proper) (proper' : x.Proper) :
    (t.record e).get x = if x = e then min (t.get e + 1) e.cap else t.get x := by
  rw [get_eq]
  obtain ⟨same, upper, lower⟩ | ⟨other, upper, lower⟩ := record_cases t proper proper'
  · rw [if_pos same, upper, lower, cap_eq, get_eq]
    exact join_raised (high_le t e) (valid e proper)
  · rw [if_neg other, upper, lower, get_eq]

/-! ### Setting a count -/

theorem join_cut {value : Nat} (le : value ≤ singleCap) :
    Halves (UInt8.ofNat (value / 256 + if value % 256 = 0 then 0 else 1)) (UInt8.ofNat (value % 256)) ∧
      join (UInt8.ofNat (value / 256 + if value % 256 = 0 then 0 else 1)) (UInt8.ofNat (value % 256)) = value := by
  have small : value ≤ 65280 := le
  by_cases zero : value % 256 = 0
  · have upper : (UInt8.ofNat (value / 256)).toNat = value / 256 := by
      rw [UInt8.toNat_ofNat']
      omega
    have lower : UInt8.ofNat 0 = 0 := rfl
    rw [zero, if_pos rfl, Nat.add_zero, lower, join_zero, upper]
    exact ⟨fun _ => rfl, by omega⟩
  · have upper : (UInt8.ofNat (value / 256 + 1)).toNat = value / 256 + 1 := by
      rw [UInt8.toNat_ofNat']
      omega
    have lower : (UInt8.ofNat (value % 256)).toNat = value % 256 := by
      rw [UInt8.toNat_ofNat']
      omega
    have halves : Halves (UInt8.ofNat (value / 256 + 1)) (UInt8.ofNat (value % 256)) := by
      intro none
      rw [none] at upper
      cases upper
    have middle : UInt8.ofNat (value % 256) ≠ 0 := by
      intro none
      rw [none] at lower
      exact zero lower.symm
    have whole := join_of_ne halves middle
    rw [if_neg zero]
    exact ⟨halves, by omega⟩

theorem setSingle_eq (t : HalvedTally) (code value : Nat) :
    t.setSingle code value = { t with
      codeHighs := t.codeHighs.setIfInBounds code
        (UInt8.ofNat (min value singleCap / 256 + if min value singleCap % 256 = 0 then 0 else 1))
      codeLows := t.codeLows.setIfInBounds code (UInt8.ofNat (min value singleCap % 256)) } := rfl

theorem valid_setSingle {t : HalvedTally} (valid : t.Valid) {code : Nat} (value : Nat) (inside : code < countedCodes) :
    (t.setSingle code value).Valid := by
  intro x proper
  rw [setSingle_eq, high_setCode t inside, low_setCode t inside]
  split
  case isTrue => exact (join_cut (Nat.min_le_right ..)).1
  case isFalse => exact valid x proper

theorem get_setSingle (t : HalvedTally) {code : Nat} (value : Nat) (x : Event) (inside : code < countedCodes) :
    (t.setSingle code value).get x = if x = .single code then min value singleCap else t.get x := by
  rw [get_eq, setSingle_eq, high_setCode t inside, low_setCode t inside]
  split
  case isTrue => exact (join_cut (Nat.min_le_right ..)).2
  case isFalse => rw [get_eq]

/-! ### Skipping zeros -/

theorem skipZeros_lt {highs : List UInt8} (ne : highs ≠ []) : skipZeros highs < highs.length := by
  have pos := List.length_pos_iff.mpr ne
  unfold skipZeros
  omega

theorem getElem?_of_lt_skipZeros {highs : List UInt8} {i : Nat} (before : i < skipZeros highs) :
    highs[i]? = some 0 := by
  have inside : i < (highs.takeWhile (· == 0)).length := Nat.lt_of_lt_of_le before (Nat.min_le_left ..)
  have zero := List.mem_takeWhile_imp (List.getElem_mem inside)
  have whole := (List.takeWhile_prefix (l := highs) (· == 0)).getElem inside
  rw [whole] at zero
  have within := Nat.lt_of_lt_of_le inside (List.takeWhile_prefix _).length_le
  rw [List.getElem?_eq_getElem within, eq_of_beq zero]

/-- To skip the zeros at the front of some high parts is to pass over counts of zero. -/
theorem looks_of_highs {highs : List UInt8} (ne : highs ≠ []) {high low : Nat → UInt8} {start : Nat}
    (shown : ∀ i < highs.length, start + i < countedCodes → highs[i]? = some (high (start + i)))
    (halves : ∀ place < countedCodes, Halves (high place) (low place)) :
    Looks (fun place => join (high place) (low place)) start (.ok (
      if start + skipZeros highs ≥ countedCodes ∨ highs[skipZeros highs]?.getD 0 = 0 then (0, skipZeros highs)
      else (join (highs[skipZeros highs]?.getD 0) (low (start + skipZeros highs)), skipZeros highs))) := by
  have none {place : Nat} (inside : place < countedCodes) (zero : high place = 0) :
      join (high place) (low place) = 0 := by
    rw [halves place inside zero, zero]
    rfl
  have zeros : ∀ i < skipZeros highs, start + i < countedCodes → join (high (start + i)) (low (start + i)) = 0 := by
    intro i before inside
    have found := shown i (Nat.lt_trans before (skipZeros_lt ne)) inside
    rw [getElem?_of_lt_skipZeros before] at found
    exact none inside (Option.some.inj found).symm
  by_cases inside : start + skipZeros highs < countedCodes
  · have found := shown _ (skipZeros_lt ne) inside
    rw [found, Option.getD_some]
    by_cases zero : high (start + skipZeros highs) = 0
    · exact ⟨_, _, by rw [if_pos (.inr zero)], zeros, fun _ => (none inside zero).symm⟩
    · have some : ¬ (start + skipZeros highs ≥ countedCodes ∨ high (start + skipZeros highs) = 0) := by
        rintro (out | zero')
        · exact Nat.not_lt_of_le out inside
        · exact zero zero'
      exact ⟨_, _, by rw [if_neg some], zeros, fun _ => rfl⟩
  · exact ⟨_, _, by rw [if_pos (.inl (Nat.le_of_not_lt inside))], zeros, fun inside' => absurd inside' inside⟩

theorem getElem?_window {n : Nat} (cells : Vector UInt8 n) (start : Nat) {i : Nat} (inside : i < 8) :
    (window cells start)[i]? = some (cells[start + i]?.getD 0) := by
  simp [window, inside]

theorem length_flatMap_nibbles (bs : List UInt8) : (bs.flatMap nibbles).length = 2 * bs.length := by
  induction bs with
  | nil => rfl
  | cons byte bs ih =>
    rw [List.flatMap_cons, List.length_append, ih, List.length_cons, Nat.mul_add, Nat.add_comm]
    rfl

theorem getElem?_flatMap_nibbles : ∀ (bs : List UInt8) (j : Nat),
    (bs.flatMap nibbles)[j]? = bs[j / 2]?.map fun byte => nibble byte j
  | [], j => by simp
  | byte :: bs, 0 => by simp [nibbles, nibble]
  | byte :: bs, 1 => by simp [nibbles, nibble]
  | byte :: bs, j + 2 => by
    have half : (j + 2) / 2 = j / 2 + 1 := by omega
    have parity : (fun byte => nibble byte (j + 2)) = fun byte => nibble byte j := by
      funext byte
      simp only [nibble, Nat.add_mod_right]
    rw [half, parity, List.getElem?_cons_succ, ← getElem?_flatMap_nibbles bs j]
    rfl

theorem looks_nextSingle {t : HalvedTally} (valid : t.Valid) (code : Nat) :
    Looks (fun i => t.get (.single i)) code (.ok (t.nextSingle code)) := by
  have shown : ∀ i < (window t.codeHighs code).length, code + i < countedCodes →
      (window t.codeHighs code)[i]? = some (t.high (.single (code + i))) := by
    intro i inside _
    exact getElem?_window t.codeHighs code (by simpa [window] using inside)
  exact looks_of_highs (by simp [window]) shown fun place inside => valid (.single place) inside

theorem looks_nextPair {t : HalvedTally} (valid : t.Valid) {left : Nat} (inside : left < countedCodes) (right : Nat) :
    Looks (fun i => t.get (.pair left i)) right (.ok (t.nextPair left right)) := by
  let highs := ((window t.pairHighs (highCell left right)).flatMap nibbles).drop (right % 2)
  have length : highs.length = 16 - right % 2 := by rw [List.length_drop, length_flatMap_nibbles]; rfl
  have ne : highs ≠ [] := List.length_pos_iff.mp (by omega)
  have shown : ∀ i < highs.length, right + i < countedCodes → highs[i]? = some (t.high (.pair left (right + i))) := by
    intro i within _
    have fits : (right % 2 + i) / 2 < 8 := by omega
    have cell : highCell left right + (right % 2 + i) / 2 = highCell left (right + i) := by
      simp only [highCell]
      omega
    have parity : (right % 2 + i) % 2 = (right + i) % 2 := by omega
    simp only [highs, List.getElem?_drop, getElem?_flatMap_nibbles, getElem?_window _ _ fits, cell, Option.map_some]
    simp only [high, nibble, parity]
  -- the window may run on into the next row, but its places lie beyond the codes
  exact looks_of_highs ne shown fun place within => valid (.pair left place) ⟨inside, within⟩

end HalvedTally

/-! ### The layouts -/

instance : LawfulTally HalvedTally where
  Valid := HalvedTally.Valid
  get_le {t} valid {e} proper := by
    show t.get e ≤ e.cap
    rw [HalvedTally.get_eq, HalvedTally.cap_eq]
    exact Nat.le_trans (HalvedTally.join_le (valid e proper))
      (Nat.mul_le_mul_left 256 (UInt8.le_iff_toNat_le.mp (HalvedTally.high_le t e)))
  valid_record := HalvedTally.valid_record
  get_record {_} valid {_ _} proper proper' := HalvedTally.get_record valid proper proper'
  valid_setSingle := HalvedTally.valid_setSingle
  get_setSingle {t} _ {code} value {x} inside _ := HalvedTally.get_setSingle t value x inside
  nextSingle {_} valid {code} _ := HalvedTally.looks_nextSingle valid code
  nextPair {_} valid {_ right} inside _ := HalvedTally.looks_nextPair valid inside right

theorem HalvedTally.keeps_empty : Tally.Keeps HalvedTally.empty .zero := by
  have lows : ∀ e, empty.low e = 0 := by
    intro e
    cases e with
    | single code => exact getD_replicate _ _ _
    | pair left right => exact getD_replicate _ _ _
  have highs : ∀ e, empty.high e = 0 := by
    intro e
    cases e with
    | single code => exact getD_replicate _ _ _
    | pair left right =>
      simp only [high, empty, getD_replicate, nibble]
      split <;> rfl
  refine ⟨fun e _ _ => lows e, fun e _ => ?_⟩
  show empty.get e = 0
  rw [get_eq, lows, highs]
  rfl

instance : LawfulTally Counters where
  Valid
    | .whole t => LawfulTally.Valid t
    | .halved t => LawfulTally.Valid t
  get_le {t} valid {_} proper := by
    cases t with
    | whole t => exact LawfulTally.get_le (κ := WholeTally) valid proper
    | halved t => exact LawfulTally.get_le (κ := HalvedTally) valid proper
  valid_record {t} valid {_} proper := by
    cases t with
    | whole t => exact LawfulTally.valid_record (κ := WholeTally) valid proper
    | halved t => exact LawfulTally.valid_record (κ := HalvedTally) valid proper
  get_record {t} valid {_ _} proper proper' := by
    cases t with
    | whole t => exact LawfulTally.get_record (κ := WholeTally) valid proper proper'
    | halved t => exact LawfulTally.get_record (κ := HalvedTally) valid proper proper'
  valid_setSingle {t} valid {_} value inside := by
    cases t with
    | whole t => exact LawfulTally.valid_setSingle (κ := WholeTally) valid value inside
    | halved t => exact LawfulTally.valid_setSingle (κ := HalvedTally) valid value inside
  get_setSingle {t} valid {_} value {_} inside proper := by
    cases t with
    | whole t => exact LawfulTally.get_setSingle (κ := WholeTally) valid value inside proper
    | halved t => exact LawfulTally.get_setSingle (κ := HalvedTally) valid value inside proper
  nextSingle {t} valid {_} inside := by
    cases t with
    | whole t => exact LawfulTally.nextSingle (κ := WholeTally) valid inside
    | halved t => exact LawfulTally.nextSingle (κ := HalvedTally) valid inside
  nextPair {t} valid {_ _} inside inside' := by
    cases t with
    | whole t => exact LawfulTally.nextPair (κ := WholeTally) valid inside inside'
    | halved t => exact LawfulTally.nextPair (κ := HalvedTally) valid inside inside'

/-- A tally of either layout keeps counts from the start. -/
theorem Counters.keeps_empty (layout : Layout) : Tally.Keeps (Counters.empty layout) .zero := by
  cases layout with
  | whole => exact ⟨WholeTally.keeps_empty.valid, WholeTally.keeps_empty.get_eq⟩
  | halved => exact ⟨HalvedTally.keeps_empty.valid, HalvedTally.keeps_empty.get_eq⟩

end SymbolCodec
