import SymbolCodec.Proofs.CodeOrder
import SymbolCodec.Proofs.Encoders

/-!
Finished tables. A table with no more symbols than there are codes can be
finished (`Encoder.exists_ofTable`), and its symbols are those of the encoder
under their new codes (`Encoder.mem_symbols_ofTable`). What was found under bytes
and in slots is found there under the new codes, so the encoder is well formed
(`Encoder.wellFormed_ofTable`), and no longer symbol starts with one below the
limit of the suffixes (`Encoder.suffixFree_ofTable`).
-/
namespace SymbolCodec

namespace Table

/-- The symbol at a place under its new code. -/
def renumber (t : Table) (i : Nat) : Symbol := (t.addedAt i).setCode (t.codeOf i) (t.addedAt i).len

theorem bytes_renumber (t : Table) (i : Nat) : (t.renumber i).bytes = (t.addedAt i).bytes := rfl

theorem len_renumber (t : Table) (i : Nat) : (t.renumber i).len = (t.addedAt i).len := rfl

theorem renumbered_eq (t : Table) : t.renumbered t.codeOrder = t.codeOrder.map t.renumber := by
  apply List.ext_getElem
  · simp [renumbered]
  · intro code inside _
    have listed : code < t.codeOrder.length := by simpa [renumbered] using inside
    simp [renumbered, renumber, codeOf_getElem listed]

/-- A place that holds the last of the added symbols of some bytes. -/
structure Newest (t : Table) (bs : Bytes) (i : Nat) : Prop where
  inside : i < t.added.size
  bytes : (t.addedAt i).bytes = bs
  newest : ∀ j < t.added.size, (t.addedAt j).bytes = bs → j ≤ i

theorem newest_of_latest {t : Table} {bs : Bytes} {s : Symbol} (latest : t.latest bs = some s) :
    ∃ i, t.Newest bs i ∧ t.addedAt i = s := by
  obtain ⟨i, here, behind⟩ := Symbol.place_of_last?_eq_some latest
  rw [Array.getElem?_toList] at here
  obtain ⟨inside, found⟩ := Array.getElem?_eq_some_iff.mp here
  have place : t.addedAt i = s := (addedAt_eq inside).trans found
  refine ⟨i, ⟨inside, ?_, ?_⟩, place⟩
  · rw [place]
    exact (Symbol.of_last?_eq_some latest).2
  · intro j within same
    rw [addedAt_eq within] at same
    exact behind j t.added[j] (by simp [within]) same

section
variable {t : Table} (wf : t.WellFormed)
include wf

theorem code_addedAt {i : Nat} (inside : i < t.added.size) : (t.addedAt i).code = firstCode + i := by
  rw [addedAt_eq inside, wf.code_eq i inside]

theorem code_renumber {i : Nat} (inside : i < t.added.size) : (t.renumber i).code = t.codeOf i := by
  have few : firstCode + t.added.size ≤ Symbol.codeLimit := wf.room
  exact Symbol.setCode_code _ _ (Nat.lt_of_lt_of_le (codeOf_lt wf inside) (Nat.le_of_add_left_le few))

theorem normal_renumber {i : Nat} (inside : i < t.added.size) : (t.renumber i).Normal :=
  (wf.normal _ (addedAt_mem inside)).setCode _

end
end Table

namespace Encoder
open Table

/-- A table with no more symbols than codes can be finished. -/
theorem exists_ofTable {t : Table} (few : t.added.size ≤ maxSymbols) : ∃ e, ofTable t = .ok e := by
  unfold ofTable
  rw [if_neg (Nat.not_lt_of_le few)]
  exact ⟨_, rfl⟩

section
variable {t : Table} (wf : t.WellFormed)
include wf

/-! ### Entries and slots -/

theorem newCode_addedAt {i : Nat} (inside : i < t.added.size) :
    newCode t.codeOrder (t.addedAt i).code = t.codeOf i := by
  rw [newCode, code_addedAt wf inside, Nat.add_sub_cancel_left, codeOf]

/-- What is found under some bytes in a finished table is the latest symbol of
    these bytes under its new code. -/
theorem newEntry_latest {bs : Bytes} {cell other : Cell} {len : Nat}
    (found : cell = ((t.latest bs).map fun s => ⟨s.code, len⟩).getD other) (pseudo : other.code < firstCode)
    (length : bs.length = len) :
    (∃ i, t.Newest bs i ∧ newEntry t.codeOrder cell = some (t.renumber i).entry) ∨
      (∀ i < t.added.size, (t.addedAt i).bytes ≠ bs) ∧ newEntry t.codeOrder cell = none := by
  cases latest : t.latest bs with
  | none =>
    refine .inr ⟨fun i inside => Symbol.of_last?_eq_none latest _ (addedAt_mem inside).val, ?_⟩
    rw [found, latest]
    exact if_neg (Nat.not_le_of_lt pseudo)
  | some s =>
    obtain ⟨i, newest, rfl⟩ := newest_of_latest latest
    have inside := newest.inside
    refine .inl ⟨i, newest, ?_⟩
    have real : firstCode ≤ (t.addedAt i).code := by rw [code_addedAt wf inside]; exact Nat.le_add_right ..
    have width : (t.addedAt i).len = len := by
      rw [← (wf.normal _ (addedAt_mem inside)).length_bytes, newest.bytes, length]
    rw [found, latest]
    simp only [Option.map_some, Option.getD_some, newEntry, real, ↓reduceIte, newCode_addedAt wf inside,
      Symbol.entry, code_renumber wf inside, len_renumber, width]

theorem byteEntries_cases (a : UInt8) :
    (∃ i, t.Newest [a] i ∧ (byteEntries t t.codeOrder).get a.toFin = (t.renumber i).entry) ∨
      (∀ i < t.added.size, (t.addedAt i).bytes ≠ [a]) ∧ (byteEntries t t.codeOrder).get a.toFin = .escape := by
  have mapped : (byteEntries t t.codeOrder).get a.toFin =
      (newEntry t.codeOrder (t.bytes.get a.toFin)).getD .escape := by
    simp [byteEntries]
  rw [mapped]
  rcases newEntry_latest wf (wf.bytes a) a.toNat_lt rfl with ⟨i, newest, found⟩ | ⟨absent, none⟩
  · exact .inl ⟨i, newest, by rw [found]; rfl⟩
  · exact .inr ⟨absent, by rw [none]; rfl⟩

theorem pairEntries_cases (bytes : Vector Entry 256) (a b : UInt8) :
    (∃ i, t.Newest [a, b] i ∧ (pairEntries t t.codeOrder bytes).get (Word.pairOf a b) = (t.renumber i).entry) ∨
      (∀ i < t.added.size, (t.addedAt i).bytes ≠ [a, b]) ∧
        (pairEntries t t.codeOrder bytes).get (Word.pairOf a b) = bytes.get a.toFin := by
  have mapped : (pairEntries t t.codeOrder bytes).get (Word.pairOf a b) =
      (newEntry t.codeOrder (t.pairs.get (Word.pairOf a b))).getD (bytes.get a.toFin) := by
    simp [pairEntries, Word.firstOfPair_pairOf]
  rw [mapped]
  rcases newEntry_latest wf (wf.pairs a b) a.toNat_lt rfl with ⟨i, newest, found⟩ | ⟨absent, none⟩
  · exact .inl ⟨i, newest, by rw [found]; rfl⟩
  · exact .inr ⟨absent, by rw [none]; rfl⟩

theorem newSlots_eq_some_iff (k : Fin slotCount) (s : Symbol) :
    (newSlots t t.codeOrder).get k = some s ↔
      ∃ i < t.added.size, 2 < (t.addedAt i).len ∧ (t.addedAt i).slot = k ∧ t.renumber i = s := by
  have mapped : (newSlots t t.codeOrder).get k =
      (t.slots.get k).map fun s => s.setCode (newCode t.codeOrder s.code) s.len := by
    simp [newSlots]
  rw [mapped, Option.map_eq_some_iff]
  constructor
  · rintro ⟨r, found, rfl⟩
    obtain ⟨member, long, here⟩ := (wf.slots k r).mp found
    obtain ⟨i, inside, rfl⟩ := exists_place member
    exact ⟨i, inside, long, here, by rw [newCode_addedAt wf inside]; rfl⟩
  · rintro ⟨i, inside, long, here, rfl⟩
    exact ⟨t.addedAt i, (wf.slots k _).mpr ⟨addedAt_mem inside, long, here⟩, by rw [newCode_addedAt wf inside]; rfl⟩

/-! ### The encoder -/

theorem kept_add_blocks : t.kept.length + (t.alone ++ t.longer).length + (t.ofLength 1).length = t.added.size := by
  have whole := length_codeOrder wf
  rw [codeOrder_eq] at whole
  simp only [List.length_append] at whole ⊢
  omega

variable {e : Encoder} (run : ofTable t = .ok e)
include run

omit wf in
theorem size_le_of_ofTable : t.added.size ≤ maxSymbols := by
  rw [ofTable, check_eq_ok_iff] at run
  exact Nat.le_of_not_lt run.1

omit wf in
/-- The fields of the encoder of a table. -/
theorem eq_of_ofTable : e =
    { symbols := (t.codeOrder.map t.renumber).toArray
      bytes := byteEntries t t.codeOrder
      pairs := pairEntries t t.codeOrder (byteEntries t t.codeOrder)
      slots := newSlots t t.codeOrder
      terminator := t.terminator
      zeroTerminated := t.keepsZero
      suffixLimit := UInt8.ofNat (t.kept.length + t.alone.length)
      byteLimit := UInt8.ofNat (t.added.size - (t.histogram.get (lengthPlace 1) - t.kept.length))
      histogram := t.histogram.map UInt8.ofNat } := by
  rw [ofTable, check_eq_ok_iff] at run
  rw [← renumbered_eq, length_kept]
  exact (Except.ok.inj run.2).symm

theorem mem_symbols_ofTable {s : Symbol} : s ∈ e.symbols ↔ ∃ i < t.added.size, t.renumber i = s := by
  rw [eq_of_ofTable run]
  simp only [List.mem_toArray, List.mem_map, mem_codeOrder wf]

omit wf in
theorem firstLong_ofTable : e.firstLong.toNat = t.kept.length := by
  rw [eq_of_ofTable run, length_kept]
  unfold firstLong
  split <;> rfl

theorem byteLimit_ofTable : e.byteLimit.toNat = t.kept.length + (t.alone ++ t.longer).length := by
  have few : t.added.size ≤ 255 := size_le_of_ofTable run
  have whole := kept_add_blocks wf
  rw [eq_of_ofTable run, UInt8.toNat_ofNat']
  simp only [counted_one wf]
  omega

theorem suffixLimit_ofTable : e.suffixLimit.toNat = t.kept.length + t.alone.length := by
  have few : t.added.size ≤ 255 := size_le_of_ofTable run
  have whole := kept_add_blocks wf
  rw [List.length_append] at whole
  rw [eq_of_ofTable run, UInt8.toNat_ofNat']
  omega

theorem byteEntry_ofTable (a : UInt8) :
    (∃ i, t.Newest [a] i ∧ e.bytes.get a.toFin = (t.renumber i).entry) ∨
      (∀ i < t.added.size, (t.addedAt i).bytes ≠ [a]) ∧ e.bytes.get a.toFin = .escape := by
  have bytes := congrArg Encoder.bytes (eq_of_ofTable run)
  rw [bytes]
  exact byteEntries_cases wf a

theorem pairEntry_ofTable (a b : UInt8) :
    (∃ i, t.Newest [a, b] i ∧ e.pairs.get (Word.pairOf a b) = (t.renumber i).entry) ∨
      (∀ i < t.added.size, (t.addedAt i).bytes ≠ [a, b]) ∧ e.pairs.get (Word.pairOf a b) = e.bytes.get a.toFin := by
  have bytes := congrArg Encoder.bytes (eq_of_ofTable run)
  have pairs := congrArg Encoder.pairs (eq_of_ofTable run)
  rw [bytes, pairs]
  exact pairEntries_cases wf (byteEntries t t.codeOrder) a b

theorem wellFormed_ofTable : e.WellFormed where
  few := by
    rw [eq_of_ofTable run]
    simp only [List.size_toArray, List.length_map, length_codeOrder wf]
    exact size_le_of_ofTable run
  normal := by
    intro s member
    obtain ⟨i, inside, rfl⟩ := (mem_symbols_ofTable wf run).mp member
    exact normal_renumber wf inside
  code_eq := by
    intro code inside
    have symbols := congrArg Encoder.symbols (eq_of_ofTable run)
    have listed : code < t.codeOrder.length := by simpa [symbols] using inside
    have place : t.codeOrder[code] < t.added.size := (mem_codeOrder wf).mp (List.getElem_mem listed)
    simp only [symbols, List.getElem_toArray, List.getElem_map, code_renumber wf place, codeOf_getElem]
  terminator := by
    intro s member several
    obtain ⟨i, inside, rfl⟩ := (mem_symbols_ofTable wf run).mp member
    rw [eq_of_ofTable run]
    exact wf.terminator (t.addedAt i) (addedAt_mem inside) several
  bytes := by
    intro a
    rcases byteEntry_ofTable wf run a with ⟨i, newest, found⟩ | ⟨absent, found⟩
    · exact .inl ⟨_, (mem_symbols_ofTable wf run).mpr ⟨i, newest.inside, rfl⟩, newest.bytes, found⟩
    · refine .inr ⟨fun s member => ?_, found⟩
      obtain ⟨i, inside, rfl⟩ := (mem_symbols_ofTable wf run).mp member
      exact absent i inside
  pairs := by
    intro a b
    rcases pairEntry_ofTable wf run a b with ⟨i, newest, found⟩ | ⟨absent, found⟩
    · exact .inl ⟨_, (mem_symbols_ofTable wf run).mpr ⟨i, newest.inside, rfl⟩, newest.bytes, found⟩
    · refine .inr ⟨fun s member => ?_, found⟩
      obtain ⟨i, inside, rfl⟩ := (mem_symbols_ofTable wf run).mp member
      exact absent i inside
  slots := by
    intro k s
    have slots := congrArg Encoder.slots (eq_of_ofTable run)
    rw [slots, newSlots_eq_some_iff wf, mem_symbols_ofTable wf run]
    constructor
    · rintro ⟨i, inside, long, here, rfl⟩
      exact ⟨⟨i, inside, rfl⟩, long, here⟩
    · rintro ⟨⟨i, inside, rfl⟩, long, here⟩
      exact ⟨i, inside, long, here, rfl⟩
  byteLimit := by
    have limit := byteLimit_ofTable wf run
    have first := firstLong_ofTable run
    refine ⟨UInt8.le_iff_toNat_le.mpr (by omega), fun s member => ?_⟩
    obtain ⟨i, inside, rfl⟩ := (mem_symbols_ofTable wf run).mp member
    rw [first, limit, code_renumber wf inside, len_renumber]
    exact several_iff_codeOf wf inside
  suffixLimit := by
    have limit := suffixLimit_ofTable wf run
    have first := firstLong_ofTable run
    refine ⟨UInt8.le_iff_toNat_le.mpr (by omega), fun s member low high => ?_⟩
    obtain ⟨i, inside, rfl⟩ := (mem_symbols_ofTable wf run).mp member
    rw [code_renumber wf inside] at low high
    exact (mem_ofLength.mp (mem_alone.mp ((mem_alone_iff_codeOf wf inside).mp ⟨by omega, by omega⟩)).1).2.1

/-- No longer symbol starts with one below the limit of the suffixes. -/
theorem suffixFree_ofTable : e.SuffixFree := by
  have limit := suffixLimit_ofTable wf run
  have first := firstLong_ofTable run
  intro s member low high r other long starts
  obtain ⟨i, inside, rfl⟩ := (mem_symbols_ofTable wf run).mp member
  obtain ⟨j, inside', rfl⟩ := (mem_symbols_ofTable wf run).mp other
  rw [code_renumber wf inside] at low high
  obtain ⟨two, plain⟩ := mem_alone.mp ((mem_alone_iff_codeOf wf inside).mp ⟨by omega, by omega⟩)
  obtain ⟨a, b, both⟩ := Symbol.exists_bytes_two (wf.normal _ (addedAt_mem inside)) (mem_ofLength.mp two).2.1
  rw [bytes_renumber, bytes_renumber, both] at starts
  rw [len_renumber] at long
  have extended := (extended_iff wf inside both).mpr ⟨_, addedAt_mem inside', long, starts⟩
  rw [plain] at extended
  cases extended

end
end Encoder
end SymbolCodec
