import SymbolCodec.Table
import SymbolCodec.Encoder.Chunk
import SymbolCodec.Proofs.Symbols

/-!
What holds of every encoder that codes can be trusted to
(`Encoder.WellFormed`): each look-up leads to a symbol with the bytes looked for,
if there is one, and the two limits lie where they tell lengths apart. Under it a
look-up through the window of a chunk finds what a look-up in the chunk alone
does (`Encoder.find?_window`, `Encoder.pairs_window`). Where no longer symbol
starts with one below the limit of the suffixes (`Encoder.SuffixFree`), such a
symbol is the longest.
-/
namespace SymbolCodec

/-- The entry under which a symbol of one byte or two is found. -/
def Symbol.entry (s : Symbol) : Entry := ⟨UInt8.ofNat s.code, false, s.len⟩

namespace Encoder

/-- What holds of an encoder whatever it was made from. -/
structure WellFormed (e : Encoder) : Prop where
  few : e.symbols.size ≤ maxSymbols
  normal : ∀ s ∈ e.symbols, s.Normal
  code_eq : ∀ i (inside : i < e.symbols.size), e.symbols[i].code = i
  terminator : ∀ s ∈ e.symbols, 1 < s.len → e.terminator ∉ s.bytes
  bytes : ∀ a : UInt8, (∃ s ∈ e.symbols, s.bytes = [a] ∧ e.bytes.get a.toFin = s.entry) ∨
    (∀ s ∈ e.symbols, s.bytes ≠ [a]) ∧ e.bytes.get a.toFin = .escape
  pairs : ∀ a b : UInt8, (∃ s ∈ e.symbols, s.bytes = [a, b] ∧ e.pairs.get (Word.pairOf a b) = s.entry) ∨
    (∀ s ∈ e.symbols, s.bytes ≠ [a, b]) ∧ e.pairs.get (Word.pairOf a b) = e.bytes.get a.toFin
  slots : ∀ (k : Fin slotCount) (s : Symbol), e.slots.get k = some s ↔ s ∈ e.symbols ∧ 2 < s.len ∧ s.slot = k
  byteLimit : e.firstLong ≤ e.byteLimit ∧
    ∀ s ∈ e.symbols, (e.firstLong.toNat ≤ s.code ∧ s.code < e.byteLimit.toNat) ↔ 1 < s.len
  suffixLimit : e.firstLong ≤ e.suffixLimit ∧
    ∀ s ∈ e.symbols, e.firstLong.toNat ≤ s.code → s.code < e.suffixLimit.toNat → s.len = 2

/-- No longer symbol starts with one whose code is below the limit of the
    suffixes. -/
def SuffixFree (e : Encoder) : Prop :=
  ∀ s ∈ e.symbols, e.firstLong.toNat ≤ s.code → s.code < e.suffixLimit.toNat →
    ∀ r ∈ e.symbols, 2 < r.len → ¬ s.bytes <+: r.bytes

/-- No longer symbol starts with two bytes under which a code below the limit of the
    suffixes is found. A symbol that another one of the same bytes hides is not
    found. -/
def PairsAlone (e : Encoder) : Prop :=
  ∀ a b : UInt8, e.below (e.pairs.get (Word.pairOf a b)).code e.suffixLimit = true →
    ∀ r ∈ e.symbols, 2 < r.len → ¬ [a, b] <+: r.bytes

/-- The symbol of three or more bytes that some bytes start with. -/
def long? (e : Encoder) (input : Bytes) : Option Symbol :=
  e.symbols.toList.find? fun s => 2 < s.len && s.bytes.isPrefixOf input

/-- What is found under the first two bytes, or under the first if it is the
    only one. -/
def entry (e : Encoder) : Bytes → Entry
  | [] => .escape
  | [a] => e.bytes.get a.toFin
  | a :: b :: _ => e.pairs.get (Word.pairOf a b)

theorem firstLong_le_one (e : Encoder) : e.firstLong.toNat ≤ 1 := by
  unfold firstLong
  split <;> decide

theorem below_iff {e : Encoder} {limit : UInt8} (le : e.firstLong ≤ limit) (code : UInt8) :
    e.below code limit = true ↔ e.firstLong.toNat ≤ code.toNat ∧ code.toNat < limit.toNat := by
  have small := e.firstLong_le_one
  have := code.toNat_lt
  have := limit.toNat_lt
  have le := UInt8.le_iff_toNat_le.mp le
  simp only [below, decide_eq_true_eq, UInt8.lt_iff_toNat_lt, UInt8.toNat_sub]
  omega

namespace WellFormed
variable {e : Encoder} (wf : e.WellFormed)
include wf

/-! ### Codes -/

theorem code_lt {s : Symbol} (member : s ∈ e.symbols) : s.code < e.symbols.size := by
  obtain ⟨i, inside, rfl⟩ := Array.mem_iff_getElem.mp member
  rwa [wf.code_eq i inside]

theorem toNat_code {s : Symbol} (member : s ∈ e.symbols) : (UInt8.ofNat s.code).toNat = s.code := by
  have inside := wf.code_lt member
  have few : e.symbols.size ≤ 255 := wf.few
  rw [UInt8.toNat_ofNat']
  omega

theorem symbol_code {s : Symbol} (member : s ∈ e.symbols) : e.symbol (UInt8.ofNat s.code) = s := by
  obtain ⟨i, inside, rfl⟩ := Array.mem_iff_getElem.mp member
  have code := wf.toNat_code (Array.getElem_mem inside)
  rw [wf.code_eq i inside] at code ⊢
  simp [symbol, code, inside]

theorem code_ne_escape {s : Symbol} (member : s ∈ e.symbols) : UInt8.ofNat s.code ≠ escapeCode := by
  intro equal
  have code := wf.toNat_code member
  have inside := wf.code_lt member
  have few : e.symbols.size ≤ 255 := wf.few
  rw [equal] at code
  simp only [escapeCode, UInt8.reduceToNat] at code
  omega

theorem below_byteLimit {s : Symbol} (member : s ∈ e.symbols) :
    e.below (UInt8.ofNat s.code) e.byteLimit = true ↔ 1 < s.len := by
  rw [below_iff wf.byteLimit.1, wf.toNat_code member, wf.byteLimit.2 s member]

theorem len_of_below_suffixLimit {s : Symbol} (member : s ∈ e.symbols)
    (low : e.below (UInt8.ofNat s.code) e.suffixLimit = true) : s.len = 2 := by
  obtain ⟨from_, before⟩ := (below_iff wf.suffixLimit.1 _).mp low
  rw [wf.toNat_code member] at from_ before
  exact wf.suffixLimit.2 s member from_ before

omit wf in
theorem not_below_escape {limit : UInt8} (le : e.firstLong ≤ limit) : e.below escapeCode limit = false := by
  have := limit.toNat_lt
  rw [← Bool.not_eq_true, below_iff le]
  simp only [escapeCode, UInt8.reduceToNat]
  omega

theorem not_below_byte (a : UInt8) : ¬ e.below (e.bytes.get a.toFin).code e.suffixLimit = true := by
  intro low
  rcases wf.bytes a with ⟨s, member, one, found⟩ | ⟨_, escape⟩
  · rw [found] at low
    have two := (wf.normal s member).length_bytes.trans (wf.len_of_below_suffixLimit member low)
    rw [one] at two
    cases two
  · rw [escape] at low
    exact absurd low (by rw [Entry.escape, not_below_escape wf.suffixLimit.1]; decide)

/-- Two bytes that lead to a code below the limit of the suffixes are a symbol. -/
theorem exists_pair_of_below {a b : UInt8}
    (low : e.below (e.pairs.get (Word.pairOf a b)).code e.suffixLimit = true) :
    ∃ s ∈ e.symbols, s.bytes = [a, b] ∧ e.pairs.get (Word.pairOf a b) = s.entry ∧
      e.firstLong.toNat ≤ s.code ∧ s.code < e.suffixLimit.toNat := by
  rcases wf.pairs a b with ⟨s, member, two, found⟩ | ⟨_, same⟩
  · have code : s.entry.code.toNat = s.code := wf.toNat_code member
    rw [found, below_iff wf.suffixLimit.1, code] at low
    exact ⟨s, member, two, found, low⟩
  · rw [same] at low
    exact absurd low (wf.not_below_byte a)

/-- No longer symbol starts with one that is found below the limit of the suffixes if
    none does with one of a code below it. -/
theorem pairsAlone (free : e.SuffixFree) : e.PairsAlone := by
  intro a b low r member long starts
  obtain ⟨s, inner, two, _, from_, before⟩ := wf.exists_pair_of_below low
  rw [← two] at starts
  exact free s inner from_ before r member long starts

/-! ### Long symbols -/

theorem long?_eq_some_iff {input : Bytes} {s : Symbol} :
    e.long? input = some s ↔ s ∈ e.symbols ∧ 2 < s.len ∧ s.bytes <+: input := by
  constructor
  · intro found
    have holds := List.find?_some found
    have member := List.mem_of_find?_eq_some found
    simp only [Bool.and_eq_true, decide_eq_true_eq, List.isPrefixOf_iff_prefix] at holds
    exact ⟨Array.mem_toList_iff.mp member, holds⟩
  · rintro ⟨member, long, starts⟩
    cases found : e.long? input with
    | none =>
      have none := List.find?_eq_none.mp found s (Array.mem_toList_iff.mpr member)
      simp [long, starts] at none
    | some r =>
      have holds := List.find?_some found
      have inner := Array.mem_toList_iff.mp (List.mem_of_find?_eq_some found)
      simp only [Bool.and_eq_true, decide_eq_true_eq, List.isPrefixOf_iff_prefix] at holds
      have slotR := Symbol.slot_load (wf.normal r inner) holds.1 holds.2
      have slotS := Symbol.slot_load (wf.normal s member) long starts
      rw [Slots.Hold.unique wf.slots inner member holds.1 long (slotR.symm.trans slotS)]

/-- Looking through the window of a chunk finds no symbol that runs past the
    chunk, whatever is left in the window. -/
theorem find?_window (chunk stale : Bytes) :
    e.slots.find? (Word.load (chunk ++ e.terminator :: stale)) = e.long? chunk := by
  apply Option.ext
  intro s
  rw [Slots.Hold.find?_eq_some_iff wf.slots, wf.long?_eq_some_iff]
  constructor
  · rintro ⟨member, long, _, starts⟩
    have absent := wf.terminator s member (by omega)
    exact ⟨member, long, (Symbol.starts_window (wf.normal s member) absent chunk stale).mp starts⟩
  · rintro ⟨member, long, starts⟩
    have absent := wf.terminator s member (by omega)
    have normal := wf.normal s member
    have slot := Symbol.slot_load normal long (starts.trans (List.prefix_append chunk (e.terminator :: stale)))
    exact ⟨member, long, slot.symm, (Symbol.starts_window normal absent chunk stale).mpr starts⟩

theorem find?_fitting (chunk : Bytes) :
    ((e.slots.find? (Word.load chunk)).filter fun s => s.len ≤ (chunk.take maxLength).length) = e.long? chunk := by
  apply Option.ext
  intro s
  rw [Slots.Hold.find?_fitting_eq_some_iff wf.slots wf.normal, wf.long?_eq_some_iff]

/-! ### Short symbols -/

/-- The entry of a chunk is that of a symbol of at most two bytes that the chunk
    starts with, or an escape. -/
theorem entry_cases (chunk : Bytes) :
    (∃ s ∈ e.symbols, s.len ≤ 2 ∧ s.bytes <+: chunk ∧ e.entry chunk = s.entry) ∨ e.entry chunk = .escape := by
  have single (a : UInt8) (rest : Bytes) :
      (∃ s ∈ e.symbols, s.len ≤ 2 ∧ s.bytes <+: a :: rest ∧ e.bytes.get a.toFin = s.entry) ∨
        e.bytes.get a.toFin = .escape := by
    rcases wf.bytes a with ⟨s, member, one, found⟩ | ⟨_, escape⟩
    · have len := (wf.normal s member).length_bytes
      rw [one] at len
      exact .inl ⟨s, member, by simp [← len], by simp [one], found⟩
    · exact .inr escape
  match chunk with
  | [] => exact .inr rfl
  | [a] => exact single a []
  | a :: b :: rest =>
    rcases wf.pairs a b with ⟨s, member, two, found⟩ | ⟨_, same⟩
    · have len := (wf.normal s member).length_bytes
      rw [two] at len
      exact .inl ⟨s, member, by simp [← len], by simp [two], found⟩
    · simp only [entry, same]
      exact single a (b :: rest)

/-- Looking under two bytes through the window of a chunk finds the entry of the
    chunk: a symbol of two bytes does not take in the terminator. -/
theorem pairs_window {chunk : Bytes} (nonempty : chunk ≠ []) (stale : Bytes) :
    e.pairs.get (Word.pair (Word.load (chunk ++ e.terminator :: stale))) = e.entry chunk := by
  match chunk, nonempty with
  | [a], _ =>
    simp only [List.cons_append, List.nil_append, Word.pair_load]
    rcases wf.pairs a e.terminator with ⟨s, member, two, _⟩ | ⟨_, same⟩
    · have len := (wf.normal s member).length_bytes
      rw [two] at len
      exact absurd (by simp [two]) (wf.terminator s member (by simp [← len]))
    · exact same
  | a :: b :: rest, _ => simp only [List.cons_append, Word.pair_load, entry]

omit wf in
theorem entry_eq {chunk : Bytes} (nonempty : chunk ≠ []) :
    (if (chunk.take maxLength).length ≥ 2 then e.pairs.get (Word.pair (Word.load chunk))
      else e.bytes.get (Word.first (Word.load chunk))) = e.entry chunk := by
  match chunk, nonempty with
  | [a], _ => simp only [Word.first_load]; rfl
  | a :: b :: rest, _ =>
    have several : ((a :: b :: rest).take maxLength).length ≥ 2 := by simp [maxLength]
    simp only [several, ↓reduceIte, Word.pair_load, entry]

/-- The longest symbol of some bytes is a long one if there is one, and else the
    one of their entry. -/
theorem find?_eq {chunk : Bytes} (nonempty : chunk ≠ []) :
    e.find? chunk =
      match e.long? chunk with
      | some s => some (UInt8.ofNat s.code)
      | none => if (e.entry chunk).escaped then none else some (e.entry chunk).code := by
  have word : Word.pack (chunk.take maxLength) = Word.load chunk := rfl
  cases long : e.long? chunk with
  | some s => simp only [find?, word, wf.find?_fitting, long]
  | none => simp only [find?, word, wf.find?_fitting, entry_eq nonempty, long]

end WellFormed

end Encoder
end SymbolCodec
