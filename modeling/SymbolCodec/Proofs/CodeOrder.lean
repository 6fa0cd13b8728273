import SymbolCodec.Encoder.OfTable
import SymbolCodec.Proofs.Tables
import Mathlib.Data.List.Nodup
import Mathlib.Data.List.Range

/-!
The order of the new codes. Each place of an added symbol occurs in it once
(`Table.nodup_codeOrder`, `Table.mem_codeOrder`), so that a place has one new
code, its index (`Table.codeOf`). The places come in blocks: byte 0 where it
keeps code 0, the symbols of two bytes that no longer one starts with
(`Table.alone`), the others of several bytes, and those of one byte; the limits of
an encoder are ends of blocks (`Table.mem_alone_iff_codeOf`,
`Table.several_iff_codeOf`).
-/
namespace SymbolCodec.Table

/-- The place of byte 0 where it keeps code 0. -/
def kept (t : Table) : List Nat := if t.keepsZero then [0] else []

/-- The places of the symbols of two bytes that no longer one starts with. -/
def alone (t : Table) : List Nat := (t.ofLength 2).filter (!t.extended ·)

/-- The places of the other symbols of two bytes, and those of three to eight. -/
def longer (t : Table) : List Nat :=
  ((t.ofLength 2).filter (t.extended ·)).reverse ++ [3, 4, 5, 6, 7, 8].flatMap t.ofLength

/-- The places of the symbols of two bytes, the extended ones backwards. -/
def paired (t : Table) : List Nat := t.alone ++ ((t.ofLength 2).filter (t.extended ·)).reverse

/-- The new code of the symbol at a place. -/
def codeOf (t : Table) (i : Nat) : Nat := t.codeOrder.idxOf i

theorem codeOrder_eq (t : Table) : t.codeOrder = t.kept ++ (t.alone ++ t.longer) ++ t.ofLength 1 := by
  simp [codeOrder, kept, alone, longer]

/-- The order of the new codes, by the lengths of the symbols. -/
theorem codeOrder_eq_lengths (t : Table) :
    t.codeOrder = t.kept ++ (t.paired ++ [3, 4, 5, 6, 7, 8, 1].flatMap t.ofLength) := by
  simp only [codeOrder, kept, alone, paired, List.append_assoc]

theorem addedAt_eq {t : Table} {i : Nat} (inside : i < t.added.size) : t.addedAt i = t.added[i] := by
  simp [addedAt, inside]

theorem addedAt_mem {t : Table} {i : Nat} (inside : i < t.added.size) : t.addedAt i ∈ t.added := by
  rw [addedAt_eq inside]
  exact Array.getElem_mem inside

theorem exists_place {t : Table} {s : Symbol} (member : s ∈ t.added) : ∃ i < t.added.size, t.addedAt i = s := by
  obtain ⟨i, inside, rfl⟩ := Array.mem_iff_getElem.mp member
  exact ⟨i, inside, addedAt_eq inside⟩

theorem toList_added (t : Table) : t.added.toList = (List.range t.added.size).map t.addedAt := by
  apply List.ext_getElem
  · simp
  · intro i inside _
    rw [List.getElem_map, List.getElem_range, addedAt_eq (by simpa using inside)]
    rfl

/-! ### Blocks -/

theorem mem_ofLength {t : Table} {len i : Nat} :
    i ∈ t.ofLength len ↔ i < t.added.size ∧ (t.addedAt i).len = len ∧ ¬ (t.keepsZero = true ∧ i = 0) := by
  simp only [ofLength, List.mem_filter, List.mem_range, Bool.and_eq_true, beq_iff_eq, Bool.not_eq_true',
    ← Bool.not_eq_true]

theorem nodup_ofLength (t : Table) (len : Nat) : (t.ofLength len).Nodup := List.nodup_range.filter _

/-- Byte 0 keeps code 0 only if it was added first. -/
theorem keepsZero_spec {t : Table} (keeps : t.keepsZero = true) :
    0 < t.added.size ∧ (t.addedAt 0).len = 1 ∧ (t.addedAt 0).first = 0 := by
  simp only [keepsZero, Bool.and_eq_true, Option.any_eq_true, beq_iff_eq] at keeps
  obtain ⟨_, s, found, len, first⟩ := keeps
  obtain ⟨inside, rfl⟩ := Array.getElem?_eq_some_iff.mp found
  rw [addedAt_eq inside]
  exact ⟨inside, len, first⟩

/-- Byte 0 keeps code 0 exactly if it ends strings and was added first. -/
theorem keepsZero_iff {t : Table} (wf : t.WellFormed) :
    t.keepsZero = true ↔ t.zeroTerminated = true ∧ 0 < t.added.size ∧ (t.addedAt 0).bytes = [0] := by
  simp only [keepsZero, Bool.and_eq_true, Option.any_eq_true, beq_iff_eq]
  refine and_congr_right fun _ => ?_
  constructor
  · rintro ⟨s, found, len, first⟩
    obtain ⟨inside, rfl⟩ := Array.getElem?_eq_some_iff.mp found
    have normal := wf.normal _ (Array.getElem_mem inside)
    obtain ⟨b, single⟩ := Symbol.exists_bytes_one normal len
    have byte : b = 0 := by
      have low := normal.byte_word (i := 0) (by decide)
      rw [← Word.toUInt8_eq, single] at low
      exact low.symm.trans first
    exact ⟨inside, by rw [addedAt_eq inside, single, byte]⟩
  · rintro ⟨inside, bytes⟩
    rw [addedAt_eq inside] at bytes
    have normal := wf.normal _ (Array.getElem_mem inside)
    refine ⟨t.added[0], Array.getElem?_eq_getElem inside, ?_, ?_⟩
    · rw [← normal.length_bytes, bytes]
      rfl
    · rw [Symbol.first, Word.toUInt8_eq, normal.byte_word (by decide), bytes]
      rfl

theorem mem_kept {t : Table} {i : Nat} : i ∈ t.kept ↔ t.keepsZero = true ∧ i = 0 := by
  unfold kept
  split
  case isTrue keeps => simp [keeps]
  case isFalse other => simp [other]

theorem mem_alone {t : Table} {i : Nat} : i ∈ t.alone ↔ i ∈ t.ofLength 2 ∧ t.extended i = false := by
  simp [alone]

theorem mem_longer {t : Table} {i : Nat} :
    i ∈ t.longer ↔ (i ∈ t.ofLength 2 ∧ t.extended i = true) ∨
      ∃ len, 3 ≤ len ∧ len ≤ maxLength ∧ i ∈ t.ofLength len := by
  simp only [longer, List.mem_append, List.mem_reverse, List.mem_filter, List.mem_flatMap, maxLength]
  apply or_congr_right
  constructor
  · rintro ⟨len, listed, member⟩
    simp only [List.mem_cons, List.not_mem_nil, or_false] at listed
    exact ⟨len, by omega, by omega, member⟩
  · rintro ⟨len, low, high, member⟩
    refine ⟨len, ?_, member⟩
    simp only [List.mem_cons, List.not_mem_nil, or_false]
    omega

theorem len_of_mem_paired {t : Table} {i : Nat} (member : i ∈ t.paired) : (t.addedAt i).len = 2 := by
  rcases List.mem_append.mp member with plain | turned
  · exact (mem_ofLength.mp (mem_alone.mp plain).1).2.1
  · exact (mem_ofLength.mp (List.mem_filter.mp (List.mem_reverse.mp turned)).1).2.1

theorem len_of_mem_several {t : Table} {i : Nat} (member : i ∈ t.alone ++ t.longer) : 1 < (t.addedAt i).len := by
  rcases List.mem_append.mp member with two | more
  · have len := (mem_ofLength.mp (mem_alone.mp two).1).2.1
    omega
  · rcases mem_longer.mp more with ⟨two, _⟩ | ⟨len, low, _, long⟩
    · have len := (mem_ofLength.mp two).2.1
      omega
    · have same := (mem_ofLength.mp long).2.1
      omega

theorem len_of_mem_kept {t : Table} {i : Nat} (member : i ∈ t.kept) : (t.addedAt i).len = 1 := by
  obtain ⟨keeps, rfl⟩ := mem_kept.mp member
  exact (keepsZero_spec keeps).2.1

theorem mem_codeOrder {t : Table} (wf : t.WellFormed) {i : Nat} : i ∈ t.codeOrder ↔ i < t.added.size := by
  rw [codeOrder_eq, List.mem_append, List.mem_append, List.mem_append, mem_kept, mem_alone, mem_longer]
  constructor
  · rintro ((⟨keeps, rfl⟩ | ⟨two, _⟩ | ⟨two, _⟩ | ⟨_, _, _, long⟩) | one)
    · exact (keepsZero_spec keeps).1
    · exact (mem_ofLength.mp two).1
    · exact (mem_ofLength.mp two).1
    · exact (mem_ofLength.mp long).1
    · exact (mem_ofLength.mp one).1
  · intro inside
    have normal := wf.normal _ (addedAt_mem inside)
    have pos := normal.pos
    by_cases keeps : t.keepsZero = true ∧ i = 0
    · exact .inl (.inl keeps)
    · have listed : i ∈ t.ofLength (t.addedAt i).len := mem_ofLength.mpr ⟨inside, rfl, keeps⟩
      by_cases one : (t.addedAt i).len = 1
      · rw [one] at listed
        exact .inr listed
      · by_cases two : (t.addedAt i).len = 2
        · rw [two] at listed
          cases extended : t.extended i with
          | false => exact .inl (.inr (.inl ⟨listed, rfl⟩))
          | true => exact .inl (.inr (.inr (.inl ⟨listed, rfl⟩)))
        · exact .inl (.inr (.inr (.inr ⟨_, by omega, normal.le, listed⟩)))

theorem nodup_longer (t : Table) : t.longer.Nodup := by
  have long : ([3, 4, 5, 6, 7, 8].flatMap t.ofLength).Nodup := by
    refine List.nodup_flatMap.mpr ⟨fun len _ => t.nodup_ofLength len, ?_⟩
    have lengths : ([3, 4, 5, 6, 7, 8] : List Nat).Pairwise (· ≠ ·) := by decide
    refine lengths.imp fun {len len'} apart i inner outer => apart ?_
    exact (mem_ofLength.mp inner).2.1.symm.trans (mem_ofLength.mp outer).2.1
  refine List.nodup_append'.mpr ⟨(List.nodup_reverse.mpr ((t.nodup_ofLength 2).filter _)), long, ?_⟩
  intro i two member
  obtain ⟨len, listed, other⟩ := List.mem_flatMap.mp member
  have two := (mem_ofLength.mp (List.mem_filter.mp (List.mem_reverse.mp two)).1).2.1
  have same := (mem_ofLength.mp other).2.1
  simp only [List.mem_cons, List.not_mem_nil, or_false] at listed
  omega

/-- Each place occurs once. -/
theorem nodup_codeOrder (t : Table) : t.codeOrder.Nodup := by
  have several : (t.alone ++ t.longer).Nodup := by
    refine List.nodup_append'.mpr ⟨(t.nodup_ofLength 2).filter _, t.nodup_longer, ?_⟩
    intro i two more
    obtain ⟨listed, plain⟩ := mem_alone.mp two
    rcases mem_longer.mp more with ⟨_, extended⟩ | ⟨len, low, _, long⟩
    · rw [plain] at extended
      cases extended
    · have same := (mem_ofLength.mp listed).2.1
      have other := (mem_ofLength.mp long).2.1
      omega
  have first : (t.kept ++ (t.alone ++ t.longer)).Nodup := by
    refine List.nodup_append'.mpr ⟨?_, several, ?_⟩
    · unfold kept
      split <;> simp
    · intro i zero more
      have one := len_of_mem_kept zero
      have len := len_of_mem_several more
      omega
  rw [codeOrder_eq]
  refine List.nodup_append'.mpr ⟨first, t.nodup_ofLength 1, ?_⟩
  intro i before one
  have listed := mem_ofLength.mp one
  rcases List.mem_append.mp before with zero | more
  · exact listed.2.2 (mem_kept.mp zero)
  · have len := len_of_mem_several more
    omega

theorem codeOrder_perm {t : Table} (wf : t.WellFormed) : t.codeOrder.Perm (List.range t.added.size) :=
  (List.perm_ext_iff_of_nodup t.nodup_codeOrder List.nodup_range).mpr fun i => by
    rw [mem_codeOrder wf, List.mem_range]

theorem length_codeOrder {t : Table} (wf : t.WellFormed) : t.codeOrder.length = t.added.size := by
  rw [(codeOrder_perm wf).length_eq, List.length_range]

/-- Byte 0 comes first where it keeps code 0. -/
theorem codeOrder_of_keepsZero {t : Table} (keeps : t.keepsZero = true) :
    t.codeOrder = 0 :: (t.alone ++ t.longer ++ t.ofLength 1) := by
  rw [codeOrder_eq, kept, if_pos keeps, List.append_assoc, List.singleton_append]

theorem codeOf_zero {t : Table} (keeps : t.keepsZero = true) : t.codeOf 0 = 0 := by
  rw [codeOf, codeOrder_of_keepsZero keeps, List.idxOf_cons_self]

/-! ### New codes -/

section
variable {t : Table} (wf : t.WellFormed)
include wf

/-- A pair is extended if a longer symbol starts with it. -/
theorem extended_iff {i : Nat} (inside : i < t.added.size) {a b : UInt8} (both : (t.addedAt i).bytes = [a, b]) :
    t.extended i = true ↔ ∃ r ∈ t.added, 2 < r.len ∧ [a, b] <+: r.bytes := by
  have here := Symbol.pair_word (wf.normal _ (addedAt_mem inside)) both
  simp only [extended, Array.any_eq_true', Bool.and_eq_true, decide_eq_true_eq, beq_iff_eq]
  refine exists_congr fun r => and_congr_right fun member => and_congr_right fun long => ?_
  have normal := wf.normal r member
  constructor
  · intro same
    obtain ⟨x, y, rest, bytes⟩ := Symbol.exists_bytes_long normal long
    have pair : Word.pairOf x y = Word.pairOf a b :=
      (Symbol.pair_word normal bytes).symm.trans ((congrArg UInt16.toFin same).trans here)
    obtain ⟨rfl, rfl⟩ := Word.pairOf_inj.mp pair
    exact ⟨rest, bytes.symm⟩
  · rintro ⟨rest, bytes⟩
    exact UInt16.toFin_inj.mp ((Symbol.pair_word normal bytes.symm).trans here.symm)

theorem codeOf_lt {i : Nat} (inside : i < t.added.size) : t.codeOf i < t.added.size := by
  rw [← length_codeOrder wf]
  exact List.idxOf_lt_length_of_mem ((mem_codeOrder wf).mpr inside)

omit wf in
theorem codeOf_getElem {code : Nat} (inside : code < t.codeOrder.length) : t.codeOf t.codeOrder[code] = code :=
  t.nodup_codeOrder.idxOf_getElem code inside

/-- The codes of a block are those between its start and its end. -/
theorem mem_block_iff_codeOf {before block after : List Nat} (order : t.codeOrder = before ++ block ++ after) {i : Nat}
    (inside : i < t.added.size) :
    (before.length ≤ t.codeOf i ∧ t.codeOf i < before.length + block.length) ↔ i ∈ block := by
  have member := (mem_codeOrder wf).mpr inside
  have nodup := t.nodup_codeOrder
  rw [order] at member nodup
  rw [codeOf, order]
  constructor
  · rintro ⟨low, high⟩
    have found := List.getElem_idxOf (List.idxOf_lt_length_of_mem member)
    rw [List.getElem_append_left (by rw [List.length_append]; exact high), List.getElem_append_right low] at found
    rw [← found]
    exact List.getElem_mem _
  · intro inner
    have apart : i ∉ before := fun outer =>
      (List.nodup_append'.mp (List.nodup_append'.mp nodup).1).2.2 outer inner
    have listed := List.idxOf_lt_length_of_mem inner
    rw [List.idxOf_append_of_mem (List.mem_append_right before inner), List.idxOf_append_of_notMem apart]
    omega

/-- The codes below the limit of the suffixes are those of the symbols of two
    bytes that no longer one starts with. -/
theorem mem_alone_iff_codeOf {i : Nat} (inside : i < t.added.size) :
    (t.kept.length ≤ t.codeOf i ∧ t.codeOf i < t.kept.length + t.alone.length) ↔ i ∈ t.alone := by
  have blocks : t.codeOrder = t.kept ++ t.alone ++ (t.longer ++ t.ofLength 1) := by
    rw [codeOrder_eq]
    simp only [List.append_assoc]
  exact mem_block_iff_codeOf wf blocks inside

/-- The codes below the other limit are those of the symbols of several bytes. -/
theorem several_iff_codeOf {i : Nat} (inside : i < t.added.size) :
    (t.kept.length ≤ t.codeOf i ∧ t.codeOf i < t.kept.length + (t.alone ++ t.longer).length) ↔
      1 < (t.addedAt i).len := by
  rw [mem_block_iff_codeOf wf t.codeOrder_eq inside]
  refine ⟨len_of_mem_several, fun several => ?_⟩
  have member := (mem_codeOrder wf).mpr inside
  rw [codeOrder_eq] at member
  rcases List.mem_append.mp member with before | one
  · rcases List.mem_append.mp before with zero | more
    · have len := len_of_mem_kept zero
      omega
    · exact more
  · have len := (mem_ofLength.mp one).2.1
    omega

/-! ### How many symbols of each length -/

/-- The symbols of a length, byte 0 at code 0 apart, are as many as were
    counted. -/
theorem length_ofLength (len : Nat) (pos : 1 ≤ len) (le : len ≤ maxLength) :
    (t.ofLength len).length + (if t.keepsZero ∧ len = 1 then 1 else 0) =
      t.histogram.get (lengthPlace len) := by
  rw [wf.histogram, toList_added, List.countP_map, ofLength, ← List.countP_eq_length_filter]
  simp only [Function.comp_def, val_lengthPlace pos le]
  by_cases keeps : t.keepsZero = true
  · obtain ⟨some, one, _⟩ := keepsZero_spec keeps
    obtain ⟨n, size⟩ : ∃ n, t.added.size = n + 1 := ⟨t.added.size - 1, by omega⟩
    rw [size, List.range_succ_eq_map]
    by_cases single : len = 1
    · simp [List.countP_map, Function.comp_def, beq_eq_decide, keeps, one, single]
    · have other : ¬ 1 = len := fun equal => single equal.symm
      simp [List.countP_map, Function.comp_def, beq_eq_decide, keeps, one, single, other]
  · simp [beq_eq_decide, keeps]

omit wf in
theorem length_kept : t.kept.length = if t.keepsZero then 1 else 0 := by
  unfold kept
  split <;> rfl

/-- The symbols of one byte are counted with the one at code 0. -/
theorem counted_one : t.histogram.get (lengthPlace 1) = (t.ofLength 1).length + t.kept.length := by
  have ones := length_ofLength wf 1 (by decide) (by decide)
  simp only [and_true] at ones
  rw [length_kept, ones]

theorem counted_several {len : Nat} (low : 2 ≤ len) (le : len ≤ maxLength) :
    t.histogram.get (lengthPlace len) = (t.ofLength len).length := by
  have counted := length_ofLength wf len (by omega) le
  rw [if_neg (by omega)] at counted
  exact counted.symm

omit wf in
theorem length_paired : t.paired.length = (t.ofLength 2).length := by
  have parts := List.length_eq_length_filter_add (l := t.ofLength 2) (t.extended ·)
  rw [paired, List.length_append, List.length_reverse, alone]
  omega

omit wf in
private theorem lengths_eq_replicate {len : Nat} {block : List Nat} (same : ∀ i ∈ block, (t.addedAt i).len = len) :
    block.map (fun i => (t.addedAt i).len) = List.replicate block.length len :=
  List.eq_replicate_iff.mpr ⟨List.length_map _, fun n member => by
    obtain ⟨i, listed, rfl⟩ := List.mem_map.mp member
    exact same i listed⟩

omit wf in
/-- The lengths in the order of the new codes: 1 for byte 0 at code 0, then 2 to
    8, and 1. -/
theorem lengths_codeOrder : t.codeOrder.map (fun i => (t.addedAt i).len) =
    List.replicate t.kept.length 1 ++
      (([2, 3, 4, 5, 6, 7, 8].flatMap fun len => List.replicate (t.ofLength len).length len) ++
        List.replicate (t.ofLength 1).length 1) := by
  have block (len : Nat) : (t.ofLength len).map (fun i => (t.addedAt i).len) =
      List.replicate (t.ofLength len).length len :=
    lengths_eq_replicate fun i member => (mem_ofLength.mp member).2.1
  have two : t.paired.map (fun i => (t.addedAt i).len) = List.replicate (t.ofLength 2).length 2 := by
    rw [← length_paired]
    exact lengths_eq_replicate fun i member => len_of_mem_paired member
  rw [codeOrder_eq_lengths, List.map_append, List.map_append,
    lengths_eq_replicate (fun i member => len_of_mem_kept member), two, List.map_flatMap]
  simp only [block, List.flatMap_cons, List.flatMap_nil, List.append_assoc, List.append_nil]

end

end SymbolCodec.Table
