import SymbolCodec.Encoder.Chunk
import SymbolCodec.Proofs.Matching
import SymbolCodec.Proofs.Finishing

/-!
Look-ups in a finished table. An encoder finds nothing exactly where its table
finds the first byte itself, and else the symbol that the table finds, under its
new code (`Encoder.find?_ofTable`, `Encoder.symbol_newCode`). The new codes are as
many as the added symbols, so that finishing a table keeps the meaning of every
look-up (`Encoder.Renumbers`, `Encoder.renumbers_ofTable`).
-/
namespace SymbolCodec.Encoder
open Table

/-- An entry is escaped just when its cell has the code of a byte. -/
theorem code_newEntry (order : List Nat) (cell : Cell) (entry : Entry)
    (found : entry = (newEntry order cell).getD .escape) :
    (if entry.escaped then none else some entry.code) =
      if cell.code < firstCode then none else some (UInt8.ofNat (newCode order cell.code)) := by
  subst found
  by_cases byte : cell.code < firstCode
  · simp [newEntry, byte, Nat.not_le_of_lt byte, Entry.escape]
  · simp [newEntry, byte, Nat.le_of_not_lt byte]

section
variable {t : Table} (wf : t.WellFormed)
include wf

theorem long?_newSlots (order : List Nat) (input : Bytes) :
    (((newSlots t order).find? (Word.load input)).filter fun s => s.len ≤ (input.take maxLength).length) =
      (t.long? input).map fun s => s.setCode (newCode order s.code) s.len := by
  have mapped : (newSlots t order).get (Word.slot (Word.load input)) =
      (t.slots.get (Word.slot (Word.load input))).map fun s => s.setCode (newCode order s.code) s.len := by
    simp [newSlots]
  simp only [Slots.find?, Table.long?, mapped]
  cases found : t.slots.get (Word.slot (Word.load input)) with
  | none => rfl
  | some s =>
    have normal := wf.normal s ((wf.slots _ s).mp found).1
    have mask : (s.setCode (newCode order s.code) s.len).mask = s.mask := by
      rw [Symbol.mask_eq (normal.setCode _).toProper, Symbol.mask_eq normal.toProper]
      rfl
    have word : (s.setCode (newCode order s.code) s.len).word = s.word := rfl
    have len : (s.setCode (newCode order s.code) s.len).len = s.len := rfl
    by_cases starts : s.word = Word.load input &&& s.mask
    · simp [Option.filter, mask, word, len, starts]
    · simp [Option.filter, mask, word, starts]

variable {e : Encoder} (run : ofTable t = .ok e)
include run

theorem symbol_newCode {s : Symbol} (member : s ∈ t.added) :
    e.symbol (UInt8.ofNat (newCode t.codeOrder s.code)) = s.setCode (newCode t.codeOrder s.code) s.len := by
  obtain ⟨i, inside, rfl⟩ := exists_place member
  have listed : t.renumber i ∈ e.symbols := (mem_symbols_ofTable wf run).mpr ⟨i, inside, rfl⟩
  have found := (wellFormed_ofTable wf run).symbol_code listed
  rw [code_renumber wf inside] at found
  rw [newCode_addedAt wf inside]
  exact found

/-- An encoder finds nothing where its table finds the first byte itself, and else
    what the table finds under its new code. -/
theorem find?_ofTable (a : UInt8) (rest : Bytes) :
    e.find? (a :: rest) =
      if t.longest (a :: rest) < firstCode then none
      else some (UInt8.ofNat (newCode t.codeOrder (t.longest (a :: rest)))) := by
  have word : Word.pack ((a :: rest).take maxLength) = Word.load (a :: rest) := rfl
  have slots : e.slots = newSlots t t.codeOrder := by rw [eq_of_ofTable run]
  have single : e.bytes.get a.toFin = (newEntry t.codeOrder (t.bytes.get a.toFin)).getD .escape := by
    rw [eq_of_ofTable run]
    simp [byteEntries]
  simp only [find?, word, slots, long?_newSlots wf]
  cases long : t.long? (a :: rest) with
  | some s =>
    have member := ((long?_eq_some_iff wf).mp long).1
    have added : ¬ s.code < firstCode := Nat.not_lt_of_le (firstCode_le_code wf member)
    obtain ⟨i, inside, rfl⟩ := exists_place member
    have code : ((t.addedAt i).setCode (newCode t.codeOrder (t.addedAt i).code) (t.addedAt i).len).code =
        newCode t.codeOrder (t.addedAt i).code := by
      rw [newCode_addedAt wf inside]
      exact code_renumber wf inside
    simp only [Option.map_some, longest_eq_of_long long, added, ↓reduceIte, code]
  | none =>
    cases rest with
    | nil =>
      rw [longest_eq_single long]
      simp only [Option.map_none, Word.first_load]
      exact code_newEntry _ _ _ single
    | cons b rest =>
      have several : ((a :: b :: rest).take maxLength).length ≥ 2 := by simp [maxLength]
      have pairs : e.pairs.get (Word.pairOf a b) =
          (newEntry t.codeOrder (t.pairs.get (Word.pairOf a b))).getD (e.bytes.get a.toFin) := by
        rw [eq_of_ofTable run]
        simp [pairEntries, Word.firstOfPair_pairOf]
      rw [longest_eq_pair long]
      simp only [Option.map_none, several, ↓reduceIte, Word.pair_load]
      by_cases pair : (t.pairs.get (Word.pairOf a b)).code ≥ firstCode
      · rw [if_pos pair]
        exact code_newEntry _ _ _ (by rw [pairs, newEntry, if_pos pair]; rfl)
      · rw [if_neg pair]
        exact code_newEntry _ _ _ (by rw [pairs, newEntry, if_neg pair, Option.getD_none, single])

end

/-! ### The same meaning -/

/-- An encoder finds what a table finds, under new codes. -/
structure Renumbers (e : Encoder) (t : Table) : Prop where
  size : e.symbols.size = t.added.size
  /-- Under its new code lies each added symbol itself. -/
  symbol : ∀ code, firstCode ≤ code → code < t.codes → e.symbols[newCode t.codeOrder code]? =
    some ((t.symbol code).setCode (newCode t.codeOrder code) (t.symbol code).len)
  /-- No two added symbols have one new code, even if they have the same bytes. -/
  injective : ∀ code other, firstCode ≤ code → code < t.codes → firstCode ≤ other → other < t.codes →
    newCode t.codeOrder code = newCode t.codeOrder other → code = other
  /-- Nothing is found exactly where the table finds the first byte itself. -/
  find?_eq_none_iff : ∀ input, input ≠ [] → (e.find? input = none ↔ t.longest input < firstCode)
  /-- Else it is the symbol that the table finds, under its new code. -/
  find?_eq_some : ∀ input, input ≠ [] → firstCode ≤ t.longest input → t.longest input < t.codes ∧
    ∃ c, e.find? input = some c ∧ c.toNat = newCode t.codeOrder (t.longest input) ∧ (e.symbol c).code = c.toNat ∧
      (e.symbol c).bytes = (t.symbol (t.longest input)).bytes ∧ (e.symbol c).len = (t.symbol (t.longest input)).len

theorem exists_place_of_code {t : Table} {code : Nat} (added : firstCode ≤ code) (used : code < t.codes) :
    ∃ i < t.added.size, code = firstCode + i ∧ t.symbol code = t.addedAt i ∧ newCode t.codeOrder code = t.codeOf i := by
  obtain ⟨i, rfl⟩ := Nat.exists_eq_add_of_le added
  have inside : i < t.added.size := Nat.lt_of_add_lt_add_left used
  refine ⟨i, inside, rfl, ?_, ?_⟩
  · rw [symbol_add t inside, addedAt_eq inside]
  · rw [newCode, Nat.add_sub_cancel_left, codeOf]

section
variable {t : Table} (wf : t.WellFormed) {e : Encoder} (run : ofTable t = .ok e)
include wf run

theorem getElem?_symbols_codeOf {i : Nat} (inside : i < t.added.size) :
    e.symbols[t.codeOf i]? = some (t.renumber i) := by
  have listed : t.codeOf i < t.codeOrder.length := List.idxOf_lt_length_of_mem ((mem_codeOrder wf).mpr inside)
  rw [eq_of_ofTable run]
  simp only [List.getElem?_toArray, List.getElem?_map, List.getElem?_eq_getElem listed, Option.map_some]
  rw [show t.codeOrder[t.codeOf i] = i from List.getElem_idxOf listed]

theorem renumbers_of_ofTable : e.Renumbers t where
  size := by
    rw [eq_of_ofTable run]
    simp [length_codeOrder wf]
  symbol := by
    intro code added used
    obtain ⟨i, inside, _, symbol, new⟩ := exists_place_of_code added used
    rw [new, symbol]
    exact getElem?_symbols_codeOf wf run inside
  injective := by
    intro code other added used added' used' same
    obtain ⟨i, inside, rfl, _, new⟩ := exists_place_of_code added used
    obtain ⟨j, inside', rfl, _, new'⟩ := exists_place_of_code added' used'
    rw [new, new'] at same
    rw [(List.idxOf_inj ((mem_codeOrder wf).mpr inside)).mp same]
  find?_eq_none_iff := by
    intro input some
    obtain ⟨a, rest, rfl⟩ := List.exists_cons_of_ne_nil some
    rw [find?_ofTable wf run a rest]
    by_cases byte : t.longest (a :: rest) < firstCode
    · simp [byte]
    · simp [byte]
  find?_eq_some := by
    intro input some added
    obtain ⟨a, rest, rfl⟩ := List.exists_cons_of_ne_nil some
    have used := ((finds_longest wf a rest).starts wf).1
    obtain ⟨i, inside, _, symbol, new⟩ := exists_place_of_code added used
    have finished := wellFormed_ofTable wf run
    have member : t.renumber i ∈ e.symbols := (mem_symbols_ofTable wf run).mpr ⟨i, inside, rfl⟩
    have code := finished.toNat_code member
    have found := finished.symbol_code member
    rw [code_renumber wf inside] at code found
    refine ⟨used, UInt8.ofNat (t.codeOf i), ?_, ?_, ?_, ?_, ?_⟩
    · rw [find?_ofTable wf run a rest, if_neg (Nat.not_lt_of_le added), new]
    · rw [code, new]
    · rw [found, code, code_renumber wf inside]
    · rw [found, symbol, bytes_renumber]
    · rw [found, symbol, len_renumber]

end

/-- Whatever symbols are added to a table, repeated ones included, its encoder finds what
    the table finds. -/
theorem renumbers_ofTable {terminator : UInt8} {zeroTerminated : Bool} {symbols : List Symbol} {t : Table}
    (built : (Table.empty terminator zeroTerminated).addAll symbols = .ok t) (few : t.added.size ≤ maxSymbols) :
    ∃ e, ofTable t = .ok e ∧ e.Renumbers t := by
  obtain ⟨e, run⟩ := exists_ofTable few
  exact ⟨e, run, renumbers_of_ofTable (wellFormed_addAll built) run⟩

/-- Byte 0 kept, a pair twice, and a longer symbol of the same bytes that is found. -/
theorem renumbers_ofTable_repeated : ∃ t e c,
    (Table.empty 0 true).addAll [.ofBytes [0], .ofBytes [97, 98], .ofBytes [97, 98, 99, 100], .ofBytes [97, 98]] =
      .ok t ∧ t.added.size = 4 ∧ t.added.size ≤ maxSymbols ∧ t.longest [97, 98, 99, 100] = 258 ∧
    ofTable t = .ok e ∧ e.Renumbers t ∧ e.find? [97, 98, 99, 100] = some c ∧
    (e.symbol c).bytes = [97, 98, 99, 100] := by
  obtain ⟨t, built, size, longest, bytes⟩ : ∃ t, (Table.empty 0 true).addAll [.ofBytes [0], .ofBytes [97, 98],
      .ofBytes [97, 98, 99, 100], .ofBytes [97, 98]] = .ok t ∧ t.added.size = 4 ∧
      t.longest [97, 98, 99, 100] = 258 ∧ (t.symbol 258).bytes = [97, 98, 99, 100] :=
    ⟨_, rfl, rfl, by decide +kernel, by decide +kernel⟩
  have few : t.added.size ≤ maxSymbols := by rw [size]; decide
  obtain ⟨e, run, renumbers⟩ := renumbers_ofTable built few
  obtain ⟨_, c, found, _, _, same, _⟩ :=
    renumbers.find?_eq_some [97, 98, 99, 100] (List.cons_ne_nil _ _) (by rw [longest]; decide)
  rw [longest, bytes] at same
  exact ⟨t, e, c, built, size, few, longest, run, renumbers, found, same⟩

end SymbolCodec.Encoder
