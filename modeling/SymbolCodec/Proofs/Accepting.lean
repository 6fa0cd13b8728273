import SymbolCodec.Proofs.CheckedLoading
import SymbolCodec.Proofs.Heads
import SymbolCodec.Proofs.Restoring

/-!
Which dictionaries are accepted. Every field of a dictionary may be damaged, so what is
read of it is said by what its fields are: the bytes of its head are those of a head in
one of the two byte orders (`Dictionary.HasHead`), and the counts by length fit the head and
the stored bytes (`Dictionary.Consistent`). The symbols are read of these dictionaries
and no others, and an encoder is built of those among them whose symbols can be placed
(`Dictionary.Placeable`). What is read has the codes from 0 on and spells the stored
bytes, and no dictionary makes the loading overstep (`Dictionary.LoadsExactly`,
`Dictionary.loadsExactly`).
-/
namespace SymbolCodec

/-! ### Heads -/

namespace Head

/-- The bytes of a head in the order of this machine: the mark, the fields, and the
    version. -/
def bytes (head : Head) : Bytes := [1, head.symbols, head.terminator, head.suffixLimit, 10, 20, 52, 1]

/-- A valid word says a head exactly if its bytes are those of the head. -/
theorem valid_and_ofWord_iff {bs : Bytes} (eight : bs.length = 8) (head : Head) :
    (valid (Word.pack bs) = true ∧ ofWord (Word.pack bs) head.foreign = head) ↔ bs = head.bytes := by
  have fields (symbols terminator suffixLimit : UInt8) (foreign : Bool) :
      ofWord (Word.pack [1, symbols, terminator, suffixLimit, 10, 20, 52, 1]) foreign =
        ⟨suffixLimit, terminator, symbols, foreign⟩ := by
    simp only [ofWord, Word.byte_pack _ (i := 3) (by decide), Word.byte_pack _ (i := 2) (by decide),
      Word.byte_pack _ (i := 1) (by decide)]
    rfl
  rw [valid_pack_iff eight]
  constructor
  · rintro ⟨⟨symbols, terminator, suffixLimit, rfl⟩, same⟩
    rw [← same, fields]
    rfl
  · rintro rfl
    exact ⟨⟨_, _, _, rfl⟩, fields ..⟩

end Head

namespace Dictionary

/-- The head of a dictionary lies in the order of this machine; or it does not, and lies
    in the other. -/
def HasHead (d : Dictionary) (head : Head) : Prop :=
  head.foreign = false ∧ d.head.toList = head.bytes ∨
    head.foreign = true ∧ d.head.toList.reverse = head.bytes ∧ ∀ other : Head, d.head.toList ≠ other.bytes

/-- The head that is read is the one that the dictionary has. -/
theorem readHead_eq_ok_iff (d : Dictionary) (head : Head) : d.readHead = .ok head ↔ d.HasHead head := by
  have eight : d.head.toList.length = 8 := Vector.length_toList ..
  have eight' : d.head.toList.reverse.length = 8 := by rw [List.length_reverse, eight]
  have here := Head.valid_and_ofWord_iff eight
  have there := Head.valid_and_ofWord_iff eight'
  rw [readHead]
  by_cases native : Head.valid (Word.pack d.head.toList) = true
  · simp only [native, ↓reduceIte, Except.ok.injEq, true_and] at here ⊢
    constructor
    · rintro rfl
      exact .inl ⟨rfl, (here _).mp rfl⟩
    · rintro (⟨order, same⟩ | ⟨_, _, other⟩)
      · rw [← order]
        exact (here head).mpr same
      · exact absurd ((here (.ofWord _ false)).mp rfl) (other _)
  · have none (other : Head) : d.head.toList ≠ other.bytes := fun same => native ((here other).mpr same).1
    rw [if_neg native]
    by_cases swapped : Head.valid (Word.pack d.head.toList.reverse) = true
    · simp only [swapped, ↓reduceIte, Except.ok.injEq, true_and] at there ⊢
      constructor
      · rintro rfl
        exact .inr ⟨rfl, (there _).mp rfl, none⟩
      · rintro (⟨_, same⟩ | ⟨order, same, _⟩)
        · exact absurd same (none head)
        · rw [← order]
          exact (there head).mpr same
    · rw [if_neg swapped]
      constructor
      · intro run
        split at run
        case isTrue => cases run
        case isFalse => cases run
      · rintro (⟨_, same⟩ | ⟨_, same, _⟩)
        · exact absurd same (none head)
        · exact absurd ((there head).mpr same).1 swapped

/-! ### The symbols -/

/-- The parts of a dictionary fit together: it has a head, the counts by length add up
    to the number in the head, byte 0 is counted where it is implied, and the bytes are
    as many as the counted symbols have, without the implied one. -/
structure Consistent (d : Dictionary) (head : Head) : Prop where
  hasHead : d.HasHead head
  counted : ((List.finRange 8).map fun i => (d.histogram.get i).toNat).sum = head.symbols.toNat
  one : d.zeroTerminated = true → 1 ≤ (d.histogram.get (lengthPlace 1)).toNat
  whole : d.bytes.length + d.implied =
    ((List.finRange 8).map fun i => (i.val + 1) * (d.histogram.get i).toNat).sum

/-- Symbols as they are read: as many as the head says, with the codes from 0 on, byte 0
    before the others where it is implied, and the others spelling the bytes. -/
structure Spells (d : Dictionary) (head : Head) (symbols : List Symbol) : Prop where
  length_eq : symbols.length = head.symbols.toNat
  codes : symbols.map Symbol.code = List.range head.symbols.toNat
  implied : symbols.take d.implied = d.impliedSymbols
  lengths : (symbols.drop d.implied).map Symbol.len = d.storedLengths
  bytes : (symbols.drop d.implied).flatMap Symbol.bytes = d.bytes

theorem implied_le_iff (d : Dictionary) (n : Nat) : d.implied ≤ n ↔ (d.zeroTerminated = true → 1 ≤ n) := by
  unfold implied
  by_cases zero : d.zeroTerminated = true
  · simp [zero]
  · simp [zero]

/-- A byte string can be cut into pieces of given lengths exactly if it is as long as
    they are together. -/
theorem exists_pieces_iff (lens : List Nat) (bs : Bytes) :
    (∃ pieces : List Bytes, pieces.map List.length = lens ∧ pieces.flatten = bs) ↔ bs.length = lens.sum := by
  constructor
  · rintro ⟨pieces, rfl, rfl⟩
    exact List.length_flatten
  · intro whole
    exact ⟨lens.splitLengths bs, List.map_splitLengths_length _ _ whole.ge, List.flatten_splitLengths _ _ whole.le⟩

/-- The stored lengths and the implied one add up to what the counts say. -/
theorem sum_storedLengths {d : Dictionary} (enough : d.implied ≤ (d.histogram.get (lengthPlace 1)).toNat) :
    d.storedLengths.sum + d.implied = ((List.finRange 8).map fun i => (i.val + 1) * (d.histogram.get i).toNat).sum := by
  have places : List.finRange 8 = lengthPlace 1 :: (List.finRange 8).tail := rfl
  have one : (lengthPlace 1).val + 1 = 1 := rfl
  have long : d.longLengths.sum =
      ((List.finRange 8).tail.map fun i => (i.val + 1) * (d.histogram.get i).toNat).sum := by
    rw [longLengths, List.flatMap_def, List.sum_flatten, List.map_map]
    refine congrArg List.sum (List.map_congr_left fun i _ => ?_)
    rw [Function.comp_apply, List.sum_replicate, smul_eq_mul, Nat.mul_comm]
  rw [places, List.map_cons, List.sum_cons, one, Nat.one_mul, ← long, storedLengths_eq, List.sum_append,
    List.sum_replicate, smul_eq_mul, Nat.mul_one]
  omega

/-- The symbols are read exactly if the parts of the dictionary fit together. -/
theorem exists_symbols_iff (d : Dictionary) : (∃ symbols, d.symbols = .ok symbols) ↔ ∃ head, d.Consistent head := by
  have total : (d.histogram.toList.map UInt8.toNat).sum =
      ((List.finRange 8).map fun i => (d.histogram.get i).toNat).sum := by
    rw [toList_histogram, List.map_map]
    rfl
  simp only [symbols_eq_ok_iff, readHead_eq_ok_iff, total]
  constructor
  · rintro ⟨_, head, pieces, hasHead, counted, enough, lengths, whole, _⟩
    have length := (exists_pieces_iff _ _).mp ⟨pieces, lengths, whole⟩
    exact ⟨head, hasHead, counted, (implied_le_iff d _).mp enough, by rw [length, sum_storedLengths enough]⟩
  · rintro ⟨head, consistent⟩
    have enough := (implied_le_iff d _).mpr consistent.one
    have length := consistent.whole
    rw [← sum_storedLengths enough] at length
    obtain ⟨pieces, lengths, whole⟩ := (exists_pieces_iff _ _).mpr (Nat.add_right_cancel length)
    exact ⟨_, head, pieces, consistent.hasHead, consistent.counted, enough, lengths, whole, rfl⟩

/-- What is read of a dictionary is what its fields say. -/
theorem spells_of_symbols {d : Dictionary} {symbols : List Symbol} (run : d.symbols = .ok symbols) :
    ∃ head, d.readHead = .ok head ∧ d.Spells head symbols := by
  obtain ⟨bytes, head, read, length⟩ := flatMap_bytes_drop run
  have lists := lists_of_symbols run
  refine ⟨head, read, length, ?_, ?_, ?_, bytes⟩
  · apply List.ext_getElem
    · rw [List.length_map, List.length_range, length]
    · intro i inside _
      rw [List.getElem_map, List.getElem_range, lists.code_eq]
  · obtain ⟨_, pieces, _, _, _, _, _, rfl⟩ := (symbols_eq_ok_iff d symbols).mp run
    exact List.take_left' d.length_impliedSymbols
  · rw [List.map_drop, lists.lengths, List.drop_left' (List.length_replicate ..)]

/-! ### The encoder -/

/-- The symbols of a dictionary can be placed: its head lies in the order of this machine,
    the limit of the suffixes lies within the symbols of two bytes, no symbol of several
    bytes holds the terminator, and no two of three or more share a slot. -/
structure Placeable (d : Dictionary) (head : Head) (symbols : List Symbol) : Prop where
  native : head.foreign = false
  low : d.implied ≤ head.suffixLimit.toNat
  high : head.suffixLimit.toNat ≤ d.implied + (d.histogram.get (lengthPlace 2)).toNat
  absent : ∀ s ∈ symbols, 1 < s.len → head.terminator ∉ s.bytes
  apart : symbols.Pairwise fun r s => 2 < r.len → 2 < s.len → r.slot ≠ s.slot

/-- An encoder is built exactly if the symbols are read and can be placed. -/
theorem exists_ofDictionary_iff (d : Dictionary) : (∃ e, Encoder.ofDictionary d = .ok e) ↔
    ∃ head symbols, d.readHead = .ok head ∧ d.symbols = .ok symbols ∧ d.Placeable head symbols := by
  constructor
  · rintro ⟨e, run⟩
    have wf := Encoder.wellFormed_ofDictionary run
    obtain ⟨head, symbols, pairs, slots, read, native, listed, low, high, placed, rfl⟩ :=
      (Encoder.ofDictionary_eq_ok_iff d e).mp run
    exact ⟨head, symbols, read, listed, native, low, high,
      fun s member => wf.terminator s (List.mem_toArray.mpr member), wf.pairwise_slot⟩
  · rintro ⟨head, symbols, read, listed, placeable⟩
    have lists := lists_of_symbols listed
    obtain ⟨pairs, slots, placed⟩ := exists_placeLong symbols (firstEntries symbols) .empty placeable.absent
      (fun s _ _ => by simp [Slots.empty]) placeable.apart (fun s member => (lists.normal s member).pos)
    exact ⟨_, (Encoder.ofDictionary_eq_ok_iff d _).mpr ⟨head, symbols, pairs, slots, read, placeable.native, listed,
      placeable.low, placeable.high, placed, rfl⟩⟩

/-! ### All dictionaries -/

/-- What loading makes of a dictionary, whatever its fields. -/
structure LoadsExactly (d : Dictionary) : Prop where
  symbols_iff : (∃ symbols, d.symbols = .ok symbols) ↔ ∃ head, d.Consistent head
  /-- The head is the one that the dictionary is consistent with. -/
  spells : ∀ head symbols, d.Consistent head → d.symbols = .ok symbols → d.Spells head symbols
  encoder_iff : (∃ e, Encoder.ofDictionary d = .ok e) ↔
    ∃ head symbols, d.Consistent head ∧ d.symbols = .ok symbols ∧ d.Placeable head symbols
  /-- Reading the symbols ends with them or with a refusal, and never oversteps. -/
  symbols_checked : d.readSymbols = (d.symbols.map List.toArray).mapError .refused
  /-- Building the encoder ends with it or with a refusal, and never oversteps. -/
  encoder_checked : d.buildEncoder = (Encoder.ofDictionary d).mapError .refused

/-- Loading accepts exactly the dictionaries whose parts fit together, and oversteps
    nothing on any. -/
theorem loadsExactly (d : Dictionary) : d.LoadsExactly where
  symbols_iff := exists_symbols_iff d
  spells := by
    intro head symbols consistent run
    obtain ⟨head', read, spells⟩ := spells_of_symbols run
    rw [(readHead_eq_ok_iff d head).mpr consistent.hasHead] at read
    cases read
    exact spells
  encoder_iff := by
    rw [exists_ofDictionary_iff]
    constructor
    · rintro ⟨head, symbols, read, run, placeable⟩
      obtain ⟨head', consistent⟩ := (exists_symbols_iff d).mp ⟨symbols, run⟩
      have same := (readHead_eq_ok_iff d head').mpr consistent.hasHead
      rw [read] at same
      cases same
      exact ⟨head, symbols, consistent, run, placeable⟩
    · rintro ⟨head, symbols, consistent, run, placeable⟩
      exact ⟨head, symbols, (readHead_eq_ok_iff d head).mpr consistent.hasHead, run, placeable⟩
  symbols_checked := readSymbols_eq d
  encoder_checked := buildEncoder_eq d

end Dictionary
end SymbolCodec
