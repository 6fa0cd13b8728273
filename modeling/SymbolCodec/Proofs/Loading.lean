import SymbolCodec.Dictionary.Load
import SymbolCodec.Proofs.RoundTrip
import SymbolCodec.Proofs.StoredSymbols

/-!
Encoders of dictionaries. Loading a dictionary puts each of its symbols where
looking for its bytes finds it (`Dictionary.get_byteEntries`,
`Dictionary.placeLong_cases`), and its checks leave nothing out that encoding
relies on (`Encoder.wellFormed_ofDictionary`): whatever the fields of a dictionary
that is accepted, nothing is lost (`Encoder.lossless_ofDictionary`).
-/
namespace SymbolCodec

namespace Dictionary

/-! ### Single bytes -/

private theorem get_foldl_byteEntries (a : UInt8) : ∀ (symbols : List Symbol) (bytes : Vector Entry 256),
    (∀ s ∈ symbols, s.Normal) →
    (symbols.foldl (fun bytes s =>
        if s.len = 1 then bytes.setIfInBounds (Word.first s.word) ⟨UInt8.ofNat s.code, false, 1⟩
        else bytes) bytes).get a.toFin =
      ((Symbol.last? symbols [a]).map Symbol.entry).getD (bytes.get a.toFin)
  | [], _, _ => rfl
  | s :: rest, bytes, normal => by
    have later := get_foldl_byteEntries a rest
      (if s.len = 1 then bytes.setIfInBounds (Word.first s.word) ⟨UInt8.ofNat s.code, false, 1⟩ else bytes)
      (fun r member => normal r (List.mem_cons_of_mem s member))
    rw [List.foldl_cons, later, Symbol.last?_cons]
    cases Symbol.last? rest [a] with
    | some r => rfl
    | none =>
      have here := normal s (List.mem_cons_self ..)
      by_cases one : s.len = 1
      · rw [if_pos one, Symbol.get_write_first here one]
        split <;> simp [Symbol.entry, one]
      · simp [one, Symbol.bytes_ne_of_len_ne here [a] one]

/-- A byte leads to the last symbol of that byte alone, if there is one. -/
theorem get_byteEntries {symbols : List Symbol} (normal : ∀ s ∈ symbols, s.Normal) (a : UInt8) :
    (byteEntries symbols).get a.toFin = ((Symbol.last? symbols [a]).map Symbol.entry).getD .escape := by
  have folded := get_foldl_byteEntries a symbols (Vector.replicate 256 Entry.escape) normal
  rw [byteEntries, folded]
  simp

/-! ### Several bytes -/

theorem placeLong_cons {terminator : UInt8} {pairs pairs' : Vector Entry 65536} {slots slots' : Slots} {s : Symbol}
    {rest : List Symbol} (run : placeLong terminator pairs slots (s :: rest) = .ok (pairs', slots')) :
    (1 < s.len → terminator ∉ s.bytes) ∧ (s.len ≠ 1 → s.len ≠ 2 → slots.get s.slot = none) ∧
      placeLong terminator
        (if s.len = 2 then pairs.setIfInBounds (Word.pair s.word) ⟨UInt8.ofNat s.code, false, 2⟩ else pairs)
        (if s.len = 1 ∨ s.len = 2 then slots else slots.put s) rest = .ok (pairs', slots') := by
  rw [placeLong, check_eq_ok_iff] at run
  obtain ⟨held, run⟩ := run
  have absent : 1 < s.len → terminator ∉ s.bytes := by
    intro several member
    exact held (by simp [Symbol.holds, several, member])
  by_cases one : s.len = 1
  · rw [if_pos one] at run
    exact ⟨absent, fun other => absurd one other, by simpa [one] using run⟩
  · rw [if_neg one] at run
    by_cases two : s.len = 2
    · rw [if_pos two] at run
      exact ⟨absent, fun _ other => absurd two other, by simpa [two] using run⟩
    · rw [if_neg two, check_eq_ok_iff] at run
      obtain ⟨free, run⟩ := run
      exact ⟨absent, fun _ _ => by simpa [Slots.taken] using free, by simpa [one, two] using run⟩

/-- Symbols that are placed do not hold the terminator; two bytes lead to the last
    symbol of them, and a slot holds what was there or the only symbol that
    belongs there. -/
theorem placeLong_cases {terminator : UInt8} : ∀ (symbols : List Symbol) {pairs pairs' : Vector Entry 65536}
    {slots slots' : Slots}, (∀ s ∈ symbols, s.Normal) →
    placeLong terminator pairs slots symbols = .ok (pairs', slots') →
    (∀ s ∈ symbols, 1 < s.len → terminator ∉ s.bytes) ∧
    (∀ a b : UInt8, pairs'.get (Word.pairOf a b) =
      ((Symbol.last? symbols [a, b]).map Symbol.entry).getD (pairs.get (Word.pairOf a b))) ∧
    ∀ (k : Fin slotCount) (s : Symbol), slots'.get k = some s ↔
      slots.get k = some s ∨ s ∈ symbols ∧ 2 < s.len ∧ s.slot = k
  | [], _, _, _, _, _, run => by
    cases run
    refine ⟨by simp, fun a b => rfl, by simp⟩
  | s :: rest, pairs, pairs', slots, slots', normal, run => by
    obtain ⟨absent, free, later⟩ := placeLong_cons run
    obtain ⟨absents, found, placed⟩ :=
      placeLong_cases rest (fun r member => normal r (List.mem_cons_of_mem s member)) later
    have here := normal s (List.mem_cons_self ..)
    have pos := here.pos
    refine ⟨?_, ?_, ?_⟩
    · intro r member several
      rcases List.mem_cons.mp member with rfl | other
      · exact absent several
      · exact absents r other several
    · intro a b
      rw [found a b, Symbol.last?_cons]
      cases Symbol.last? rest [a, b] with
      | some r => rfl
      | none =>
        by_cases two : s.len = 2
        · rw [if_pos two, Symbol.get_write_pair here two]
          split <;> simp [Symbol.entry, two]
        · simp [two, Symbol.bytes_ne_of_len_ne here [a, b] two]
    · intro k r
      have here : (if s.len = 1 ∨ s.len = 2 then slots else slots.put s).get k = some r ↔
          slots.get k = some r ∨ r = s ∧ 2 < r.len ∧ r.slot = k := by
        by_cases short : s.len = 1 ∨ s.len = 2
        · rw [if_pos short]
          constructor
          · exact .inl
          · rintro (old | ⟨rfl, long, _⟩)
            · exact old
            · omega
        · rw [if_neg short, Slots.put_eq_some_iff (free (fun one => short (.inl one)) fun two => short (.inr two))]
          constructor
          · rintro (old | ⟨rfl, slot⟩)
            · exact .inl old
            · exact .inr ⟨rfl, by omega, slot⟩
          · rintro (old | ⟨rfl, _, slot⟩)
            · exact .inl old
            · exact .inr ⟨rfl, slot⟩
      rw [placed k r, here, List.mem_cons, or_assoc, or_and_right]

/-! ### The encoder -/

/-- What is found under two bytes before symbols of two are placed. -/
def firstEntries (symbols : List Symbol) : Vector Entry 65536 :=
  Vector.ofFn fun p => (byteEntries symbols).get (Word.firstOfPair p)

/-- The entry of the last symbol of some bytes is that of a symbol of these
    bytes, if there is one. -/
theorem entry_last? (symbols : List Symbol) (bs : Bytes) (other : Entry) :
    (∃ s ∈ symbols, s.bytes = bs ∧ ((Symbol.last? symbols bs).map Symbol.entry).getD other = s.entry) ∨
      (∀ s ∈ symbols, s.bytes ≠ bs) ∧ ((Symbol.last? symbols bs).map Symbol.entry).getD other = other := by
  cases last : Symbol.last? symbols bs with
  | some s =>
    obtain ⟨member, same⟩ := Symbol.of_last?_eq_some last
    exact .inl ⟨s, member, same, rfl⟩
  | none => exact .inr ⟨Symbol.of_last?_eq_none last, rfl⟩

end Dictionary

namespace Encoder
open Dictionary

/-- A dictionary gives an encoder exactly if its head is in the order of this
    machine, its symbols can be read, the limit of the suffixes lies within those
    of two bytes, and all symbols can be placed. -/
theorem ofDictionary_eq_ok_iff (d : Dictionary) (e : Encoder) :
    ofDictionary d = .ok e ↔ ∃ head symbols pairs slots, d.readHead = .ok head ∧ head.foreign = false ∧
      d.symbols = .ok symbols ∧ d.implied ≤ head.suffixLimit.toNat ∧
      head.suffixLimit.toNat ≤ d.implied + (d.histogram.get (lengthPlace 2)).toNat ∧
      placeLong head.terminator (firstEntries symbols) .empty symbols = .ok (pairs, slots) ∧
      e = { symbols := symbols.toArray
            bytes := Dictionary.byteEntries symbols
            pairs := pairs
            slots := slots
            terminator := head.terminator
            zeroTerminated := d.zeroTerminated
            suffixLimit := head.suffixLimit
            byteLimit := UInt8.ofNat (symbols.length - ((d.histogram.get (lengthPlace 1)).toNat - d.implied))
            histogram := d.histogram } := by
  simp only [ofDictionary, damaged, bind_eq_ok_iff, check_eq_ok_iff, mapError_eq_ok_iff, pure_eq_ok_iff, not_or,
    Nat.not_lt, Bool.not_eq_true, gt_iff_lt]
  constructor
  · rintro ⟨head, read, native, symbols, listed, ⟨low, high⟩, ⟨pairs, slots⟩, placed, rfl⟩
    exact ⟨head, symbols, pairs, slots, read, native, listed, low, high, placed, rfl⟩
  · rintro ⟨head, symbols, pairs, slots, read, native, listed, low, high, placed, rfl⟩
    exact ⟨head, read, native, symbols, listed, ⟨low, high⟩, ⟨pairs, slots⟩, placed, rfl⟩

/-- A byte leads to the symbol of the highest code that is this byte. -/
theorem byteEntry_ofDictionary {d : Dictionary} {e : Encoder} (run : ofDictionary d = .ok e) (a : UInt8) :
    e.bytes.get a.toFin = ((Symbol.last? e.symbols.toList [a]).map Symbol.entry).getD .escape := by
  obtain ⟨head, symbols, pairs, slots, _, _, read, _, _, _, rfl⟩ := (ofDictionary_eq_ok_iff d e).mp run
  exact get_byteEntries (lists_of_symbols read).normal a

/-- Two bytes lead to the symbol of the highest code that is these bytes, and else to what
    the first of them leads to. -/
theorem pairEntry_ofDictionary {d : Dictionary} {e : Encoder} (run : ofDictionary d = .ok e) (a b : UInt8) :
    e.pairs.get (Word.pairOf a b) =
      ((Symbol.last? e.symbols.toList [a, b]).map Symbol.entry).getD (e.bytes.get a.toFin) := by
  obtain ⟨head, symbols, pairs, slots, _, _, read, _, _, placed, rfl⟩ := (ofDictionary_eq_ok_iff d e).mp run
  obtain ⟨_, found, _⟩ := placeLong_cases symbols (lists_of_symbols read).normal placed
  have below : (firstEntries symbols).get (Word.pairOf a b) = (Dictionary.byteEntries symbols).get a.toFin := by
    simp [firstEntries, Word.firstOfPair_pairOf]
  exact (found a b).trans (by rw [below])

/-- Whatever a dictionary holds, an encoder that it gives can be trusted to. -/
theorem wellFormed_ofDictionary {d : Dictionary} {e : Encoder} (run : ofDictionary d = .ok e) : e.WellFormed := by
  have byteEntry := byteEntry_ofDictionary run
  have pairEntry := pairEntry_ofDictionary run
  obtain ⟨head, symbols, pairs, slots, _, _, read, low, high, placed, rfl⟩ := (ofDictionary_eq_ok_iff d e).mp run
  have lists := lists_of_symbols read
  obtain ⟨absent, _, held⟩ := placeLong_cases symbols lists.normal placed
  have size := lists.length_eq
  have few := lists.few
  have first : (if d.zeroTerminated then (1 : UInt8) else 0).toNat = d.implied := by
    unfold implied
    split <;> rfl
  constructor
  case few => exact few
  case normal =>
    intro s member
    exact lists.normal s (by simpa using member)
  case code_eq =>
    intro i inside
    exact lists.code_eq i (by simpa using inside)
  case terminator =>
    intro s member
    exact absent s (by simpa using member)
  case bytes =>
    intro a
    rw [byteEntry a]
    simp only [List.mem_toArray]
    exact entry_last? symbols [a] .escape
  case pairs =>
    intro a b
    rw [pairEntry a b]
    simp only [List.mem_toArray]
    exact entry_last? symbols [a, b] _
  case slots =>
    intro k s
    have empty : Slots.empty.get k = none := by simp [Slots.empty]
    simp only [held, empty, List.mem_toArray, reduceCtorEq, false_or]
  case byteLimit =>
    have limit : (UInt8.ofNat (symbols.length - ((d.histogram.get (lengthPlace 1)).toNat - d.implied))).toNat =
        d.implied + d.longLengths.length := by
      rw [UInt8.toNat_ofNat']
      omega
    refine ⟨UInt8.le_iff_toNat_le.mpr ?_, ?_⟩
    · simp only [firstLong, first, limit]
      exact Nat.le_add_right ..
    · intro s member
      obtain ⟨i, inside, rfl⟩ := List.getElem_of_mem (by simpa using member)
      simp only [firstLong, first, limit, lists.code_eq i inside]
      exact lists.several_iff inside
  case suffixLimit =>
    refine ⟨UInt8.le_iff_toNat_le.mpr ?_, ?_⟩
    · simp only [firstLong, first]
      exact low
    · intro s member
      obtain ⟨i, inside, rfl⟩ := List.getElem_of_mem (by simpa using member)
      simp only [firstLong, first, lists.code_eq i inside]
      intro from_ before
      exact lists.len_eq_two inside from_ (by omega)

/-! ### All encoders -/

/-- An encoder that can be made: by finishing a table that symbols were added to, or by
    loading a dictionary. -/
inductive Made (e : Encoder) : Prop
  | ofTable {terminator : UInt8} {zeroTerminated : Bool} {symbols : List Symbol} {t : Table} :
      (Table.empty terminator zeroTerminated).addAll symbols = .ok t → ofTable t = .ok e → Made e
  | ofDictionary {d : Dictionary} : ofDictionary d = .ok e → Made e

theorem Made.wellFormed {e : Encoder} (made : e.Made) : e.WellFormed := by
  cases made with
  | ofTable built run => exact wellFormed_ofTable (Table.wellFormed_addAll built) run
  | ofDictionary run => exact wellFormed_ofDictionary run

/-! ### Decoding -/

/-- Whatever a dictionary holds, if it gives an encoder then it gives a decoder
    that reads back all that the encoder writes. -/
theorem lossless_ofDictionary {d : Dictionary} {e : Encoder} (run : ofDictionary d = .ok e) :
    ∃ decoder, Decoder.ofDictionary d = .ok decoder ∧ e.Lossless decoder := by
  have lossless := (wellFormed_ofDictionary run).lossless
  obtain ⟨head, symbols, pairs, slots, _, _, read, _, _, _, rfl⟩ := (ofDictionary_eq_ok_iff d e).mp run
  refine ⟨.ofSymbols symbols, ?_, lossless⟩
  rw [Decoder.ofDictionary, read]
  rfl

/-- A dictionary that puts a pair below the limit of the suffixes although a
    longer symbol starts with it, and lists another pair and a byte twice. -/
def editedDictionary : Dictionary where
  head := #v[1, 6, 13, 3, 10, 20, 52, 1]
  zeroTerminated := false
  histogram := #v[2, 3, 1, 0, 0, 0, 0, 0]
  bytes := [97, 98, 99, 100, 99, 100, 97, 98, 99, 120, 120]

theorem lossless_ofDictionary_edited : ∃ e decoder, ofDictionary editedDictionary = .ok e ∧
    Decoder.ofDictionary editedDictionary = .ok decoder ∧ e.Lossless decoder := by
  obtain ⟨e, run⟩ : ∃ e, ofDictionary editedDictionary = .ok e := ⟨_, rfl⟩
  obtain ⟨decoder, read, lossless⟩ := lossless_ofDictionary run
  exact ⟨e, decoder, run, read, lossless⟩

end Encoder
end SymbolCodec
