import SymbolCodec.Dictionary
import SymbolCodec.Proofs.Runs
import SymbolCodec.Proofs.Symbols

/-!
The symbols of a dictionary. Cutting a byte string into pieces of given lengths
succeeds exactly if they take all of it (`Dictionary.cut_eq_ok_iff`), so that a
dictionary is read exactly if its parts fit together
(`Dictionary.symbols_eq_ok_iff`). The symbols then have the codes from 0 on and the
lengths that the dictionary counts (`Dictionary.Lists`,
`Dictionary.lists_of_symbols`).
-/
namespace SymbolCodec.Dictionary

/-! ### Cutting -/

theorem cut_eq_ok_iff (lens : List Nat) (bs : Bytes) (pieces : List Bytes) :
    cut lens bs = .ok pieces ↔ pieces.map List.length = lens ∧ pieces.flatten = bs := by
  induction lens generalizing bs pieces with
  | nil =>
    cases bs with
    | nil =>
      constructor
      · intro run
        cases run
        exact ⟨rfl, rfl⟩
      · rintro ⟨none, _⟩
        rw [List.map_eq_nil_iff.mp none]
        rfl
    | cons b bs =>
      constructor
      · intro run
        cases run
      · rintro ⟨none, whole⟩
        rw [List.map_eq_nil_iff.mp none] at whole
        cases whole
  | cons len lens ih =>
    simp only [cut, check_eq_ok_iff, bind_eq_ok_iff, pure_eq_ok_iff, ih]
    constructor
    · rintro ⟨enough, found, ⟨lengths, whole⟩, rfl⟩
      have front : (bs.take len).length = len := by
        rw [List.length_take] at enough ⊢
        omega
      exact ⟨by rw [List.map_cons, front, lengths], by rw [List.flatten_cons, whole, List.take_append_drop]⟩
    · rintro ⟨lengths, rfl⟩
      obtain ⟨piece, rest, rfl, rfl, others⟩ := List.map_eq_cons_iff.mp lengths
      exact ⟨by simp, rest, ⟨others, by simp⟩, by simp⟩

/-! ### Lengths -/

/-- The lengths of the stored symbols of several bytes. -/
def longLengths (d : Dictionary) : List Nat :=
  (List.finRange 8).tail.flatMap fun i => List.replicate (d.histogram.get i).toNat (i.val + 1)

theorem storedLengths_eq (d : Dictionary) :
    d.storedLengths = d.longLengths ++ List.replicate ((d.histogram.get (lengthPlace 1)).toNat - d.implied) 1 := rfl

theorem longLengths_eq (d : Dictionary) :
    d.longLengths = List.replicate (d.histogram.get (lengthPlace 2)).toNat 2 ++
      (List.finRange 8).tail.tail.flatMap fun i => List.replicate (d.histogram.get i).toNat (i.val + 1) := rfl

theorem of_mem_longLengths {d : Dictionary} {len : Nat} (member : len ∈ d.longLengths) :
    1 < len ∧ len ≤ maxLength := by
  obtain ⟨i, listed, copies⟩ := List.mem_flatMap.mp member
  obtain ⟨_, rfl⟩ := List.mem_replicate.mp copies
  have several : i.val ≠ 0 := by
    rintro zero
    have first : i = 0 := Fin.ext zero
    rw [first] at listed
    revert listed
    decide
  have := i.isLt
  simp only [maxLength]
  omega

theorem of_mem_storedLengths {d : Dictionary} {len : Nat} (member : len ∈ d.storedLengths) :
    1 ≤ len ∧ len ≤ maxLength := by
  rcases List.mem_append.mp member with long | one
  · obtain ⟨several, le⟩ := of_mem_longLengths long
    exact ⟨Nat.le_of_lt several, le⟩
  · rw [List.eq_of_mem_replicate one]
    decide

theorem implied_le_one (d : Dictionary) : d.implied ≤ 1 := by
  unfold implied
  split <;> decide

theorem toList_histogram (d : Dictionary) : d.histogram.toList = (List.finRange 8).map d.histogram.get := by
  apply List.ext_getElem
  · simp
  · intro i inside _
    rw [Vector.getElem_toList, List.getElem_map, List.getElem_finRange, Vector.get_eq_getElem]
    rfl

theorem foldl_histogram (d : Dictionary) :
    d.histogram.foldl (fun count n => count + n.toNat) 0 = (d.histogram.toList.map UInt8.toNat).sum := by
  rw [← Vector.foldl_toList, foldl_add_eq_sum]

theorem length_longLengths (d : Dictionary) :
    d.longLengths.length = ((List.finRange 8).tail.map fun i => (d.histogram.get i).toNat).sum := by
  simp only [longLengths, List.length_flatMap, List.length_replicate]

/-- The counts add up to the number of stored lengths and of the implied byte. -/
theorem sum_histogram {d : Dictionary} (enough : d.implied ≤ (d.histogram.get (lengthPlace 1)).toNat) :
    (d.histogram.toList.map UInt8.toNat).sum = d.implied + d.storedLengths.length := by
  have places : List.finRange 8 = lengthPlace 1 :: (List.finRange 8).tail := rfl
  have first : (d.histogram.toList.map UInt8.toNat).sum =
      (d.histogram.get (lengthPlace 1)).toNat + d.longLengths.length := by
    rw [toList_histogram, length_longLengths, places, List.map_map, List.map_cons, List.sum_cons]
    rfl
  rw [first, storedLengths_eq, List.length_append, List.length_replicate]
  omega

/-! ### Symbols -/

/-- The symbols of pieces under the codes from a start on. -/
def ofPieces (start : Nat) (pieces : List Bytes) : List Symbol :=
  (pieces.zipIdx start).map fun (bs, code) => (Symbol.ofBytes bs).setCode code bs.length

/-- The implied byte 0 of a dictionary, if there is one. -/
def impliedSymbols (d : Dictionary) : List Symbol := if d.zeroTerminated then [.ofByte 0 0] else []

theorem length_impliedSymbols (d : Dictionary) : d.impliedSymbols.length = d.implied := by
  unfold impliedSymbols implied
  split <;> rfl

theorem lengths_impliedSymbols (d : Dictionary) : d.impliedSymbols.map Symbol.len = List.replicate d.implied 1 := by
  unfold impliedSymbols implied
  split <;> rfl

theorem eq_of_mem_impliedSymbols {d : Dictionary} {s : Symbol} (member : s ∈ d.impliedSymbols) : s = .ofByte 0 0 := by
  unfold impliedSymbols at member
  split at member
  case isTrue => simpa using member
  case isFalse => cases member

theorem length_ofPieces (start : Nat) (pieces : List Bytes) : (ofPieces start pieces).length = pieces.length := by
  simp [ofPieces]

theorem getElem_ofPieces {start : Nat} {pieces : List Bytes} {i : Nat} (inside : i < pieces.length)
    {listed : i < (ofPieces start pieces).length} :
    (ofPieces start pieces)[i] = (Symbol.ofBytes pieces[i]).setCode (start + i) pieces[i].length := by
  simp [ofPieces]

theorem lengths_ofPieces (start : Nat) (pieces : List Bytes) :
    (ofPieces start pieces).map Symbol.len = pieces.map List.length := by
  apply List.ext_getElem
  · simp [ofPieces]
  · intro i _ inside
    rw [List.length_map] at inside
    rw [List.getElem_map, getElem_ofPieces inside, List.getElem_map, Symbol.setCode_len]

/-- A dictionary is read exactly if its head is valid, the counts add up to the
    number in the head, byte 0 is counted where it is implied, and the lengths
    take all of the bytes. -/
theorem symbols_eq_ok_iff (d : Dictionary) (symbols : List Symbol) :
    d.symbols = .ok symbols ↔ ∃ head pieces, d.readHead = .ok head ∧
      (d.histogram.toList.map UInt8.toNat).sum = head.symbols.toNat ∧
      d.implied ≤ (d.histogram.get (lengthPlace 1)).toNat ∧
      pieces.map List.length = d.storedLengths ∧ pieces.flatten = d.bytes ∧
      symbols = d.impliedSymbols ++ ofPieces d.implied pieces := by
  simp only [Dictionary.symbols, symbolCount, damaged, foldl_histogram, bind_eq_ok_iff, check_eq_ok_iff,
    mapError_eq_ok_iff, pure_eq_ok_iff, cut_eq_ok_iff, not_not, Nat.not_lt]
  constructor
  · rintro ⟨_, ⟨head, read, rfl⟩, sum, enough, pieces, ⟨lengths, whole⟩, rfl⟩
    exact ⟨head, pieces, read, sum, enough, lengths, whole, rfl⟩
  · rintro ⟨head, pieces, read, sum, enough, lengths, whole, rfl⟩
    exact ⟨_, ⟨head, read, rfl⟩, sum, enough, pieces, ⟨lengths, whole⟩, rfl⟩

/-- Symbols as a dictionary lists them: with the codes from 0 on, and of the
    lengths that it counts. -/
structure Lists (d : Dictionary) (symbols : List Symbol) : Prop where
  normal : ∀ s ∈ symbols, s.Normal
  code_eq : ∀ i (inside : i < symbols.length), symbols[i].code = i
  lengths : symbols.map Symbol.len = List.replicate d.implied 1 ++ d.storedLengths
  few : symbols.length ≤ 255
  counted : d.implied ≤ (d.histogram.get (lengthPlace 1)).toNat

theorem lists_of_symbols {d : Dictionary} {symbols : List Symbol} (run : d.symbols = .ok symbols) :
    d.Lists symbols := by
  obtain ⟨head, pieces, _, sum, enough, lengths, _, rfl⟩ := (symbols_eq_ok_iff d symbols).mp run
  have size : pieces.length = d.storedLengths.length := by rw [← lengths, List.length_map]
  have total : d.implied + pieces.length ≤ 255 := by
    rw [size, ← sum_histogram enough, sum]
    exact Nat.le_of_lt_succ head.symbols.toNat_lt
  have start := d.length_impliedSymbols
  constructor
  case normal =>
    intro s member
    rcases List.mem_append.mp member with first | stored
    · rw [eq_of_mem_impliedSymbols first]
      exact Symbol.normal_ofByte 0
    · obtain ⟨i, inside, rfl⟩ := List.getElem_of_mem stored
      rw [length_ofPieces] at inside
      have listed : pieces[i].length ∈ d.storedLengths := by
        rw [← lengths]
        exact List.mem_map.mpr ⟨_, List.getElem_mem inside, rfl⟩
      obtain ⟨pos, le⟩ := of_mem_storedLengths listed
      rw [getElem_ofPieces inside, ← Symbol.len_ofBytes le]
      exact (Symbol.normal_ofBytes pos le).setCode _
  case code_eq =>
    intro i inside
    rw [List.length_append, start, length_ofPieces] at inside
    by_cases first : i < d.impliedSymbols.length
    · rw [List.getElem_append_left first, eq_of_mem_impliedSymbols (List.getElem_mem first)]
      have := d.implied_le_one
      show 0 = i
      omega
    · rw [List.getElem_append_right (Nat.le_of_not_lt first), getElem_ofPieces (by omega),
        Symbol.setCode_code _ _ (by simp only [Symbol.codeLimit]; omega)]
      omega
  case lengths =>
    rw [List.map_append, lengths_impliedSymbols, lengths_ofPieces, lengths]
  case few =>
    rw [List.length_append, start, length_ofPieces]
    exact total
  case counted => exact enough

/-! ### Which lengths stand where -/

section
variable {d : Dictionary} {symbols : List Symbol} (lists : d.Lists symbols)
include lists

theorem Lists.length_eq :
    symbols.length = d.implied + d.longLengths.length + ((d.histogram.get (lengthPlace 1)).toNat - d.implied) := by
  have lengths := congrArg List.length lists.lengths
  rw [storedLengths_eq] at lengths
  simp only [List.length_map, List.length_append, List.length_replicate] at lengths
  omega

theorem Lists.getElem_len {i : Nat} (inside : i < symbols.length) :
    (List.replicate d.implied 1 ++ d.storedLengths)[i]? = some symbols[i].len := by
  rw [← lists.lengths, List.getElem?_map, List.getElem?_eq_getElem inside]
  rfl

/-- The symbols of several bytes come before the stored ones of one. -/
theorem Lists.several_iff {i : Nat} (inside : i < symbols.length) :
    (d.implied ≤ i ∧ i < d.implied + d.longLengths.length) ↔ 1 < symbols[i].len := by
  have found := lists.getElem_len inside
  rw [storedLengths_eq] at found
  by_cases first : i < d.implied
  · rw [List.getElem?_append_left (by simpa using first)] at found
    have one := List.eq_of_mem_replicate (List.mem_of_getElem? found)
    omega
  · rw [List.getElem?_append_right (by simpa using first), List.length_replicate] at found
    by_cases long : i - d.implied < d.longLengths.length
    · rw [List.getElem?_append_left long] at found
      have several := (of_mem_longLengths (List.mem_of_getElem? found)).1
      omega
    · rw [List.getElem?_append_right (Nat.le_of_not_lt long)] at found
      have one := List.eq_of_mem_replicate (List.mem_of_getElem? found)
      omega

/-- The symbols of two bytes come first of these. -/
theorem Lists.len_eq_two {i : Nat} (inside : i < symbols.length) (low : d.implied ≤ i)
    (high : i < d.implied + (d.histogram.get (lengthPlace 2)).toNat) : symbols[i].len = 2 := by
  have found := lists.getElem_len inside
  rw [storedLengths_eq, longLengths_eq, List.append_assoc, List.getElem?_append_right (by simpa using low),
    List.length_replicate, List.getElem?_append_left (by rw [List.length_replicate]; omega)] at found
  exact List.eq_of_mem_replicate (List.mem_of_getElem? found)

end

end SymbolCodec.Dictionary
