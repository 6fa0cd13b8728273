import SymbolCodec.Proofs.Finishing
import SymbolCodec.Proofs.Packing
import SymbolCodec.Proofs.Storing

/-!
Loading what was stored. The symbols of a finished table lie as its dictionary says
(`Encoder.laidOut_ofTable`), so that the dictionary gives an encoder of the same
symbols. Among different symbols there is one way to find them
(`Encoder.WellFormed.unique`): then it is the encoder that was stored
(`Encoder.ofDictionary_ofBytes_ofTable`).
-/
namespace SymbolCodec.Encoder
open Table

/-! ### Finished tables -/

section
variable {t : Table} (wf : t.WellFormed) {e : Encoder} (run : ofTable t = .ok e)
include wf run

omit wf in
theorem zeroTerminated_ofTable : e.zeroTerminated = t.keepsZero := by rw [eq_of_ofTable run]

omit wf in
theorem toList_symbols_ofTable : e.symbols.toList = t.codeOrder.map t.renumber := by rw [eq_of_ofTable run]

theorem histogram_ofTable (i : Fin 8) : (e.histogram.get i).toNat = t.histogram.get i := by
  have few : t.added.size ≤ 255 := size_le_of_ofTable run
  have counted : t.histogram.get i ≤ t.added.size := by
    rw [wf.histogram i]
    exact List.countP_le_length
  have mapped : e.histogram.get i = UInt8.ofNat (t.histogram.get i) := by
    rw [eq_of_ofTable run]
    simp
  rw [mapped, UInt8.toNat_ofNat', Nat.mod_eq_of_lt (by omega)]

/-- Symbols of one byte are counted with the one at code 0. -/
theorem histogram_one : (e.histogram.get (lengthPlace 1)).toNat = (t.ofLength 1).length + t.kept.length :=
  (histogram_ofTable wf run (lengthPlace 1)).trans (counted_one wf)

theorem histogram_several {i : Fin 8} (several : i.val ≠ 0) :
    (e.histogram.get i).toNat = (t.ofLength (i.val + 1)).length := by
  have counted := counted_several wf (Nat.succ_le_succ (Nat.pos_of_ne_zero several)) (Nat.succ_le_of_lt i.isLt)
  rw [lengthPlace_succ] at counted
  exact (histogram_ofTable wf run i).trans counted

theorem longLengths_ofTable : (Dictionary.ofEncoder e).longLengths =
    [2, 3, 4, 5, 6, 7, 8].flatMap fun len => List.replicate (t.ofLength len).length len := by
  have numbers : ([2, 3, 4, 5, 6, 7, 8] : List Nat) = (List.finRange 8).tail.map (·.val + 1) := rfl
  rw [Dictionary.longLengths, numbers, List.flatMap_map]
  refine List.flatMap_congr fun i listed => ?_
  have several : i.val ≠ 0 := by
    intro zero
    obtain rfl : i = 0 := Fin.ext zero
    revert listed
    decide
  exact congrArg (List.replicate · (i.val + 1)) (histogram_several wf run several)

theorem lists_ofTable : (Dictionary.ofEncoder e).Lists e.symbols.toList := by
  have encoder := wellFormed_ofTable wf run
  have implied := (Dictionary.implied_ofEncoder e).trans (firstLong_ofTable run)
  have ones : ((Dictionary.ofEncoder e).histogram.get (lengthPlace 1)).toNat = (t.ofLength 1).length + t.kept.length :=
    histogram_one wf run
  refine ⟨fun s member => encoder.normal s (Array.mem_toList_iff.mp member), encoder.code_eq, ?_, encoder.few, ?_⟩
  · rw [toList_symbols_ofTable run, List.map_map, Dictionary.storedLengths_eq, implied, ones, Nat.add_sub_cancel,
      longLengths_ofTable wf run]
    exact lengths_codeOrder
  · rw [implied, ones]
    exact Nat.le_add_left ..

/-- The symbols of a finished table lie as its dictionary says that they do. -/
theorem laidOut_ofTable : e.LaidOut where
  lists := lists_ofTable wf run
  zero := by
    intro zero
    rw [zeroTerminated_ofTable run] at zero
    obtain ⟨_, inside, bytes⟩ := (keepsZero_iff wf).mp zero
    have listed : e.symbols[0]? = some (t.renumber 0) := by
      rw [← Array.getElem?_toList, toList_symbols_ofTable run, codeOrder_of_keepsZero zero]
      rfl
    rw [listed, Option.some.injEq]
    refine Symbol.ext_of_bytes (normal_renumber wf inside) (Symbol.normal_ofByte 0) ?_ ?_
    · rw [code_renumber wf inside, codeOf_zero zero]
      rfl
    · rw [bytes_renumber, bytes, Symbol.bytes_ofByte]
  suffixLimit := by
    have two : (e.histogram.get (lengthPlace 2)).toNat = (t.ofLength 2).length :=
      histogram_several wf run (i := lengthPlace 2) (by decide)
    have alone : t.alone.length ≤ (t.ofLength 2).length := List.length_filter_le ..
    rw [suffixLimit_ofTable wf run, firstLong_ofTable run, two]
    omega
  byteLimit := by
    have few : t.added.size ≤ 255 := size_le_of_ofTable run
    have whole := kept_add_blocks wf
    have size : e.symbols.size = t.added.size := by
      rw [← length_codeOrder wf, ← Array.length_toList, toList_symbols_ofTable run, List.length_map]
    apply UInt8.toNat_inj.mp
    rw [byteLimit_ofTable wf run, UInt8.toNat_ofNat', size, histogram_one wf run, firstLong_ofTable run]
    omega

/-- Different symbols have different bytes under their new codes too. -/
theorem distinct_ofTable (distinct : t.added.toList.Pairwise fun r s => r.same s = false) :
    ∀ r ∈ e.symbols, ∀ s ∈ e.symbols, r.bytes = s.bytes → r = s := by
  have apart {i j : Nat} (before : i < j) (inside : j < t.added.size) : (t.addedAt i).bytes ≠ (t.addedAt j).bytes := by
    intro equal
    have inside' : i < t.added.size := Nat.lt_trans before inside
    have other := List.pairwise_iff_getElem.mp distinct i j inside' inside before
    have normal := wf.normal _ (addedAt_mem inside)
    have normal' := wf.normal _ (addedAt_mem inside')
    have same := (Symbol.same_iff_bytes normal'.toProper normal.toProper).mpr equal
    rw [addedAt_eq inside', addedAt_eq inside] at same
    simp only [Array.getElem_toList] at other
    rw [same] at other
    cases other
  intro r inner s outer same
  obtain ⟨i, inside, rfl⟩ := (mem_symbols_ofTable wf run).mp inner
  obtain ⟨j, inside', rfl⟩ := (mem_symbols_ofTable wf run).mp outer
  rcases Nat.lt_trichotomy i j with before | rfl | after
  · exact absurd same (apart before inside')
  · rfl
  · exact absurd same.symm (apart after inside)

end

/-! ### One way to find different symbols -/

theorem ext_bytes {v w : Vector Entry 256} (same : ∀ a : UInt8, v.get a.toFin = w.get a.toFin) : v = w :=
  ext_get fun i => same (UInt8.ofFin i)

theorem ext_pairs {v w : Vector Entry 65536} (same : ∀ a b : UInt8, v.get (Word.pairOf a b) = w.get (Word.pairOf a b)) :
    v = w := by
  apply ext_get
  intro p
  obtain ⟨a, b, pair⟩ := Word.exists_pairOf p
  rw [← pair]
  exact same a b

/-- The slots of the same symbols are the same. -/
theorem WellFormed.slots_unique {e e' : Encoder} (wf : e.WellFormed) (wf' : e'.WellFormed)
    (same : e'.symbols = e.symbols) : e'.slots = e.slots := by
  apply ext_get
  intro k
  apply Option.ext
  intro s
  rw [wf.slots k s, wf'.slots k s, same]

/-- Two look-ups for the same bytes are related if symbols of the same bytes are, and what
    is found without one. -/
theorem rel_of_looks {symbols : Array Symbol} {R : Entry → Entry → Prop}
    (related : ∀ s ∈ symbols, ∀ r ∈ symbols, s.bytes = r.bytes → R s.entry r.entry) {bs : Bytes}
    {found found' other other' : Entry}
    (look : (∃ s ∈ symbols, s.bytes = bs ∧ found = s.entry) ∨ (∀ s ∈ symbols, s.bytes ≠ bs) ∧ found = other)
    (look' : (∃ s ∈ symbols, s.bytes = bs ∧ found' = s.entry) ∨ (∀ s ∈ symbols, s.bytes ≠ bs) ∧ found' = other')
    (below : R other other') : R found found' := by
  rcases look with ⟨s, member, same, rfl⟩ | ⟨absent, rfl⟩
  · rcases look' with ⟨r, member', same', rfl⟩ | ⟨absent, _⟩
    · exact related s member r member' (same.trans same'.symm)
    · exact absurd same (absent s member)
  · rcases look' with ⟨r, member', same', _⟩ | ⟨_, rfl⟩
    · exact absurd same' (absent r member')
    · exact below

/-- Symbols of which no two have the same bytes are found in one way. -/
theorem WellFormed.unique {symbols : Array Symbol}
    (distinct : ∀ r ∈ symbols, ∀ s ∈ symbols, r.bytes = s.bytes → r = s) {e e' : Encoder} (wf : e.WellFormed)
    (wf' : e'.WellFormed) (here : e.symbols = symbols) (here' : e'.symbols = symbols) :
    e'.bytes = e.bytes ∧ e'.pairs = e.pairs ∧ e'.slots = e.slots := by
  have related : ∀ r ∈ symbols, ∀ s ∈ symbols, r.bytes = s.bytes → r.entry = s.entry := by
    intro r member s member' same
    rw [distinct r member s member' same]
  have bytes (a : UInt8) : e'.bytes.get a.toFin = e.bytes.get a.toFin := by
    have look := wf.bytes a
    have look' := wf'.bytes a
    rw [here] at look
    rw [here'] at look'
    exact rel_of_looks related look' look rfl
  have pairs (a b : UInt8) : e'.pairs.get (Word.pairOf a b) = e.pairs.get (Word.pairOf a b) := by
    have look := wf.pairs a b
    have look' := wf'.pairs a b
    rw [here] at look
    rw [here'] at look'
    exact rel_of_looks related look' look (bytes a)
  exact ⟨ext_bytes bytes, ext_pairs pairs, wf.slots_unique wf' (here'.trans here.symm)⟩

/-! ### Stored and loaded -/

theorem length_flatMap_bytes_le (symbols : List Symbol) :
    (symbols.flatMap Symbol.bytes).length ≤ maxLength * symbols.length := by
  induction symbols with
  | nil => exact Nat.le_refl 0
  | cons s rest ih =>
    have short : s.bytes.length ≤ maxLength := by
      rw [s.length_bytes]
      exact Nat.min_le_right ..
    rw [List.flatMap_cons, List.length_append, List.length_cons, Nat.mul_succ]
    omega

/-- The symbols of an encoder are not too long for the length before them. -/
theorem length_bytes_ofEncoder {e : Encoder} (few : e.symbols.size ≤ 255) :
    (Dictionary.ofEncoder e).bytes.length < Packed.lengthLimit := by
  calc (Dictionary.ofEncoder e).bytes.length
      ≤ maxLength * (e.symbols.toList.drop (if e.zeroTerminated then 1 else 0)).length := length_flatMap_bytes_le _
    _ ≤ maxLength * 255 := Nat.mul_le_mul_left _ (by rw [List.length_drop, Array.length_toList]; omega)
    _ < Packed.lengthLimit := by decide

/-- The encoder of a table whose symbols are different comes back from the bytes
    of its dictionary. -/
theorem ofDictionary_ofBytes_ofTable {terminator : UInt8} {zeroTerminated : Bool} {symbols : List Symbol} {t : Table}
    (built : (Table.empty terminator zeroTerminated).addAll symbols = .ok t) (few : t.added.size ≤ maxSymbols)
    (distinct : t.added.toList.Pairwise fun r s => r.same s = false) :
    ∃ e, ofTable t = .ok e ∧
      ∃ d, Dictionary.ofBytes (Dictionary.ofEncoder e).toBytes = .ok d ∧ ofDictionary d = .ok e := by
  obtain ⟨e, run⟩ := exists_ofTable few
  have table := Table.wellFormed_addAll built
  have wf := wellFormed_ofTable table run
  have laid := laidOut_ofTable table run
  obtain ⟨bytes, pairs, slots, loaded⟩ := wf.exists_ofDictionary laid
  obtain ⟨rfl, rfl, rfl⟩ :=
    WellFormed.unique (distinct_ofTable table run distinct) wf (wellFormed_ofDictionary loaded) rfl rfl
  have read : Dictionary.ofBytes (Dictionary.ofEncoder e).toBytes = .ok (Dictionary.ofEncoder e) := by
    rw [Dictionary.ofBytes, Dictionary.parse?_toBytes (length_bytes_ofEncoder wf.few)]
  exact ⟨e, run, _, read, loaded⟩

/-- Byte 0 kept, a pair that a longer symbol starts with, one that none does, and
    a byte. -/
theorem ofDictionary_ofBytes_ofTable_kept : ∃ t e d,
    (Table.empty 0 true).addAll [.ofBytes [0], .ofBytes [120], .ofBytes [97, 98], .ofBytes [97, 98, 99, 100],
      .ofBytes [99, 100]] = .ok t ∧ t.added.size = 5 ∧ t.added.size ≤ maxSymbols ∧
    (t.added.toList.Pairwise fun r s => r.same s = false) ∧ ofTable t = .ok e ∧
    Dictionary.ofBytes (Dictionary.ofEncoder e).toBytes = .ok d ∧ ofDictionary d = .ok e := by
  obtain ⟨t, built, size, distinct⟩ : ∃ t, (Table.empty 0 true).addAll [.ofBytes [0], .ofBytes [120],
      .ofBytes [97, 98], .ofBytes [97, 98, 99, 100], .ofBytes [99, 100]] = .ok t ∧ t.added.size = 5 ∧
      t.added.toList.Pairwise fun r s => r.same s = false := ⟨_, rfl, rfl, by decide⟩
  have few : t.added.size ≤ maxSymbols := by rw [size]; decide
  obtain ⟨e, run, d, read, loaded⟩ := ofDictionary_ofBytes_ofTable built few distinct
  exact ⟨t, e, d, built, size, few, distinct, run, read, loaded⟩

end SymbolCodec.Encoder
