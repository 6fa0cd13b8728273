import SymbolCodec.Proofs.Loading

/-!
What an encoder stores. Its head is read as it was written
(`Dictionary.readHead_ofEncoder`), and so are its symbols where they lie as its
dictionary says that they do (`Encoder.LaidOut`, `Dictionary.symbols_ofEncoder`).
If no two of them share a slot they can be placed again
(`Dictionary.exists_placeLong`), which gives an encoder of the same symbols
(`Encoder.WellFormed.exists_ofDictionary`).
-/
namespace SymbolCodec

/-! ### The head -/

namespace Head

/-- The fields of a head are digits of its word to the base 256. -/
theorem toNat_word (suffixLimit terminator : UInt8) {symbols : Nat} (few : symbols ≤ 255) :
    (word suffixLimit terminator symbols).toNat =
      1 + 256 * (symbols + 256 * (terminator.toNat + 256 * (suffixLimit.toNat + 256 * formatVersion))) := by
  have limit := suffixLimit.toNat_lt
  have last := terminator.toNat_lt
  have version : (UInt64.ofNat formatVersion <<< 32).toNat = 2 ^ 32 * formatVersion := rfl
  have high : (suffixLimit.toUInt64 <<< 24).toNat = 2 ^ 24 * suffixLimit.toNat := by
    rw [UInt64.toNat_shiftLeft]
    simp only [UInt64.reduceToNat, Nat.reduceMod, Nat.shiftLeft_eq, UInt8.toNat_toUInt64]
    omega
  have middle : (terminator.toUInt64 <<< 16).toNat = 2 ^ 16 * terminator.toNat := by
    rw [UInt64.toNat_shiftLeft]
    simp only [UInt64.reduceToNat, Nat.reduceMod, Nat.shiftLeft_eq, UInt8.toNat_toUInt64]
    omega
  have low : (UInt64.ofNat symbols <<< 8).toNat = 2 ^ 8 * symbols := by
    rw [UInt64.toNat_shiftLeft]
    simp only [UInt64.reduceToNat, Nat.reduceMod, Nat.shiftLeft_eq, UInt64.toNat_ofNat']
    omega
  have one : 2 ^ 32 * formatVersion ||| 2 ^ 24 * suffixLimit.toNat =
      2 ^ 24 * (suffixLimit.toNat + 256 * formatVersion) := by
    rw [← Nat.two_pow_add_eq_or_of_lt (by omega)]
    omega
  have two : 2 ^ 24 * (suffixLimit.toNat + 256 * formatVersion) ||| 2 ^ 16 * terminator.toNat =
      2 ^ 16 * (terminator.toNat + 256 * (suffixLimit.toNat + 256 * formatVersion)) := by
    rw [← Nat.two_pow_add_eq_or_of_lt (by omega)]
    omega
  have three : 2 ^ 16 * (terminator.toNat + 256 * (suffixLimit.toNat + 256 * formatVersion)) ||| 2 ^ 8 * symbols =
      2 ^ 8 * (symbols + 256 * (terminator.toNat + 256 * (suffixLimit.toNat + 256 * formatVersion))) := by
    rw [← Nat.two_pow_add_eq_or_of_lt (by omega)]
    omega
  rw [word, UInt64.toNat_or, UInt64.toNat_or, UInt64.toNat_or, UInt64.toNat_or, version, high, middle, low, one, two,
    three, UInt64.toNat_one, ← Nat.two_pow_add_eq_or_of_lt (by decide)]
  omega

theorem valid_iff (w : UInt64) : valid w = true ↔ w.toNat / 2 ^ 32 = formatVersion ∧ w.toNat % 256 = 1 := by
  have mark : (w &&& 0xFF).toNat = w.toNat % 256 := by
    rw [UInt64.toNat_and]
    exact Nat.and_two_pow_sub_one_eq_mod w.toNat 8
  have version : (w >>> 32).toNat = w.toNat / 2 ^ 32 := by
    rw [UInt64.toNat_shiftRight]
    exact Nat.shiftRight_eq_div_pow w.toNat 32
  rw [valid, Bool.and_eq_true, beq_iff_eq, beq_iff_eq, ← UInt64.toNat_inj, ← UInt64.toNat_inj, mark, version]
  rfl

/-- A word of a head says what it was made of. -/
theorem ofWord_word (suffixLimit terminator : UInt8) {symbols : Nat} (few : symbols ≤ 255) :
    valid (word suffixLimit terminator symbols) = true ∧
      ofWord (word suffixLimit terminator symbols) false =
        ⟨suffixLimit, terminator, UInt8.ofNat symbols, false⟩ := by
  have digits := toNat_word suffixLimit terminator few
  have limit := suffixLimit.toNat_lt
  have last := terminator.toNat_lt
  refine ⟨(valid_iff _).mpr ⟨by omega, by omega⟩, ?_⟩
  have third : Word.byte (word suffixLimit terminator symbols) 3 = suffixLimit := by
    apply UInt8.toNat_inj.mp
    rw [Word.toNat_byte _ (by decide), digits]
    omega
  have second : Word.byte (word suffixLimit terminator symbols) 2 = terminator := by
    apply UInt8.toNat_inj.mp
    rw [Word.toNat_byte _ (by decide), digits]
    omega
  have first : Word.byte (word suffixLimit terminator symbols) 1 = UInt8.ofNat symbols := by
    apply UInt8.toNat_inj.mp
    rw [Word.toNat_byte _ (by decide), digits, UInt8.toNat_ofNat']
    omega
  rw [ofWord, third, second, first]

end Head

/-! ### The symbols -/

namespace Symbol

/-- A symbol that a table can hold comes back from its bytes and its code. -/
theorem setCode_ofBytes {s : Symbol} (normal : s.Normal) (small : s.code < codeLimit) :
    (ofBytes s.bytes).setCode s.code s.bytes.length = s := by
  have short : s.bytes.length ≤ maxLength := by
    rw [normal.length_bytes]
    exact normal.le
  have pos : 1 ≤ s.bytes.length := by
    rw [normal.length_bytes]
    exact normal.pos
  rw [← len_ofBytes short]
  refine ext_of_bytes ((normal_ofBytes pos short).setCode _) normal (setCode_code _ _ small) ?_
  rw [bytes_setCode, bytes_ofBytes short]

end Symbol

/-- The symbols of an encoder lie as its dictionary says that they do. -/
structure Encoder.LaidOut (e : Encoder) : Prop where
  lists : (Dictionary.ofEncoder e).Lists e.symbols.toList
  zero : e.zeroTerminated = true → e.symbols[0]? = some (.ofByte 0 0)
  suffixLimit : e.suffixLimit.toNat ≤ e.firstLong.toNat + (e.histogram.get (lengthPlace 2)).toNat
  byteLimit : e.byteLimit = UInt8.ofNat (e.symbols.size - ((e.histogram.get (lengthPlace 1)).toNat - e.firstLong.toNat))

namespace Dictionary

theorem implied_ofEncoder (e : Encoder) : (ofEncoder e).implied = e.firstLong.toNat := by
  unfold implied Encoder.firstLong ofEncoder
  simp only
  split <;> rfl

theorem toList_head_ofEncoder (e : Encoder) :
    (ofEncoder e).head.toList = Word.bytes (Head.word e.suffixLimit e.terminator e.symbols.size) := by
  apply List.ext_getElem
  · simp [maxLength]
  · intro i _ _
    simp [ofEncoder, Word.bytes]

/-- The head of the dictionary of an encoder is read as it was written. -/
theorem readHead_ofEncoder {e : Encoder} (few : e.symbols.size ≤ 255) :
    (ofEncoder e).readHead = .ok ⟨e.suffixLimit, e.terminator, UInt8.ofNat e.symbols.size, false⟩ := by
  obtain ⟨valid, fields⟩ := Head.ofWord_word e.suffixLimit e.terminator few
  rw [readHead, toList_head_ofEncoder, Word.pack_bytes]
  simp only [valid, ↓reduceIte, fields]

/-- The symbols of an encoder are the implied byte 0 and the stored ones. -/
theorem impliedSymbols_append_drop {e : Encoder} (laid : e.LaidOut) :
    (ofEncoder e).impliedSymbols ++ e.symbols.toList.drop (ofEncoder e).implied = e.symbols.toList := by
  have zeroTerminated : (ofEncoder e).zeroTerminated = e.zeroTerminated := rfl
  unfold impliedSymbols implied
  rw [zeroTerminated]
  by_cases zero : e.zeroTerminated = true
  · obtain ⟨inside, first⟩ := Array.getElem?_eq_some_iff.mp (laid.zero zero)
    have listed : 0 < e.symbols.toList.length := inside
    have whole := List.drop_eq_getElem_cons listed
    rw [List.drop_zero, Array.getElem_toList, first] at whole
    rw [if_pos zero, if_pos zero, List.singleton_append]
    exact whole.symm
  · rw [if_neg zero, if_neg zero]
    rfl

/-- The symbols of an encoder are read as they lie in it. -/
theorem symbols_ofEncoder {e : Encoder} (laid : e.LaidOut) : (ofEncoder e).symbols = .ok e.symbols.toList := by
  have few : e.symbols.size ≤ 255 := laid.lists.few
  have whole := impliedSymbols_append_drop laid
  have stored : ∀ s ∈ e.symbols.toList.drop (ofEncoder e).implied, s.Normal := fun s member =>
    laid.lists.normal s (List.mem_of_mem_drop member)
  refine (symbols_eq_ok_iff _ _).mpr ⟨_, (e.symbols.toList.drop (ofEncoder e).implied).map Symbol.bytes,
    readHead_ofEncoder few, ?_, laid.lists.counted, ?_, rfl, ?_⟩
  · have size := congrArg List.length laid.lists.lengths
    rw [List.length_map, List.length_append, List.length_replicate] at size
    rw [sum_histogram laid.lists.counted, ← size, UInt8.toNat_ofNat', Nat.mod_eq_of_lt (Nat.lt_succ_of_le few)]
    rfl
  · have lengths := congrArg (List.drop (ofEncoder e).implied) laid.lists.lengths
    rw [List.drop_left' (by simp), ← List.map_drop] at lengths
    rw [List.map_map, ← lengths]
    exact List.map_congr_left fun s member => (stored s member).length_bytes
  · refine whole.symm.trans (congrArg _ (List.ext_getElem (by simp [ofPieces]) fun i inside inside' => ?_))
    rw [List.length_drop] at inside
    have listed : (ofEncoder e).implied + i < e.symbols.toList.length := by omega
    have code := laid.lists.code_eq _ listed
    have size : e.symbols.toList.length = e.symbols.size := rfl
    -- A stored symbol is made again from its bytes and its place.
    have back := Symbol.setCode_ofBytes (laid.lists.normal _ (List.getElem_mem listed))
      (by rw [code]; simp only [Symbol.codeLimit]; omega)
    rw [code] at back
    rw [getElem_ofPieces (by simpa using inside), List.getElem_map, List.getElem_drop]
    exact back.symm

/-! ### Placing -/

/-- Symbols can be placed if none holds the terminator and each longer one has a
    free slot of its own. -/
theorem exists_placeLong {terminator : UInt8} : ∀ (symbols : List Symbol) (pairs : Vector Entry 65536)
    (slots : Slots), (∀ s ∈ symbols, 1 < s.len → terminator ∉ s.bytes) →
    (∀ s ∈ symbols, 2 < s.len → slots.get s.slot = none) →
    symbols.Pairwise (fun r s => 2 < r.len → 2 < s.len → r.slot ≠ s.slot) →
    (∀ s ∈ symbols, 1 ≤ s.len) →
    ∃ pairs' slots', placeLong terminator pairs slots symbols = .ok (pairs', slots')
  | [], pairs, slots, _, _, _, _ => ⟨pairs, slots, rfl⟩
  | s :: rest, pairs, slots, absent, free, apart, pos => by
    obtain ⟨own, others⟩ := List.pairwise_cons.mp apart
    have here := pos s (List.mem_cons_self ..)
    have absents := fun r member => absent r (List.mem_cons_of_mem s member)
    have frees := fun r member => free r (List.mem_cons_of_mem s member)
    have later := fun r member => pos r (List.mem_cons_of_mem s member)
    have held : ¬ (s.len > 1 && s.holds terminator) = true := by
      simp only [Symbol.holds, Bool.and_eq_true, decide_eq_true_eq, List.contains_eq_mem, not_and]
      exact absent s (List.mem_cons_self ..)
    rw [placeLong, if_neg held]
    by_cases one : s.len = 1
    · rw [if_pos one]
      exact exists_placeLong rest pairs slots absents frees others later
    · rw [if_neg one]
      by_cases two : s.len = 2
      · rw [if_pos two]
        exact exists_placeLong rest _ slots absents frees others later
      · have long : 2 < s.len := by omega
        have empty : ¬ slots.taken s = true := by simp [Slots.taken, free s (List.mem_cons_self ..) long]
        rw [if_neg two, if_neg empty]
        refine exists_placeLong rest pairs _ absents (fun r member longer => ?_) others later
        rw [Slots.get_put, if_neg (own r member long longer)]
        exact frees r member longer

end Dictionary

namespace Encoder
open Dictionary

/-- No two symbols of three or more bytes belong into the same slot. -/
theorem WellFormed.pairwise_slot {e : Encoder} (wf : e.WellFormed) :
    e.symbols.toList.Pairwise fun r s => 2 < r.len → 2 < s.len → r.slot ≠ s.slot := by
  have listed (i : Nat) (inside : i < e.symbols.toList.length) : e.symbols.toList[i] ∈ e.symbols :=
    Array.mem_toList_iff.mp (List.getElem_mem inside)
  refine List.pairwise_iff_getElem.mpr fun i j inside inside' before long longer same => ?_
  have codes := congrArg Symbol.code
    (Slots.Hold.unique wf.slots (listed i inside) (listed j inside') long longer same)
  simp only [Array.getElem_toList, wf.code_eq i inside, wf.code_eq j inside'] at codes
  omega

/-- The dictionary of an encoder whose symbols lie as it says gives an encoder
    with the same fields, what is found under bytes and in slots perhaps apart. -/
theorem WellFormed.exists_ofDictionary {e : Encoder} (wf : e.WellFormed) (laid : e.LaidOut) :
    ∃ bytes pairs slots, ofDictionary (.ofEncoder e) = .ok { e with bytes, pairs, slots } := by
  have few : e.symbols.size ≤ 255 := laid.lists.few
  obtain ⟨pairs, slots, placed⟩ := exists_placeLong e.symbols.toList (firstEntries e.symbols.toList) .empty
    (fun s member => wf.terminator s (Array.mem_toList_iff.mp member))
    (fun s _ _ => by simp [Slots.empty]) wf.pairwise_slot (fun s member => (laid.lists.normal s member).pos)
  refine ⟨Dictionary.byteEntries e.symbols.toList, pairs, slots, (ofDictionary_eq_ok_iff _ _).mpr
    ⟨_, e.symbols.toList, pairs, slots, readHead_ofEncoder few, rfl, symbols_ofEncoder laid, ?_, ?_, placed, ?_⟩⟩
  · rw [implied_ofEncoder]
    exact UInt8.le_iff_toNat_le.mp wf.suffixLimit.1
  · rw [implied_ofEncoder]
    exact laid.suffixLimit
  · have limit := laid.byteLimit
    rw [← implied_ofEncoder] at limit
    simp only [limit]
    rfl

end Encoder
end SymbolCodec
