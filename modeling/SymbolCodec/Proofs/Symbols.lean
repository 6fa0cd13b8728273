import SymbolCodec.Symbol
import SymbolCodec.Proofs.Runs
import SymbolCodec.Proofs.Words

/-!
Symbols as byte strings. A symbol as a table holds it has no bits above its
length (`Symbol.Normal`), so its bytes determine it up to its code
(`Symbol.ext_of_bytes`). Comparing a word with it under its mask asks whether the
bytes of the word start with its bytes (`Symbol.starts_load`), and where a
chunk is followed by a byte that the symbol does not hold, whether the chunk
does (`Symbol.starts_window`). Among symbols of the same bytes the last one counts
(`Symbol.last?`).
-/
namespace SymbolCodec

theorem Slots.get_put (slots : Slots) (s : Symbol) (k : Fin slotCount) :
    (slots.put s).get k = if s.slot = k then some s else slots.get k := by
  rw [put, Vector.get_eq_getElem, Vector.getElem_set, Vector.get_eq_getElem]
  simp only [Fin.val_inj]

/-- What is put into a free slot is found there, and the others hold what they
    held. -/
theorem Slots.put_eq_some_iff {slots : Slots} {s : Symbol} (free : slots.get s.slot = none) (k : Fin slotCount)
    (r : Symbol) : (slots.put s).get k = some r ↔ slots.get k = some r ∨ r = s ∧ s.slot = k := by
  rw [get_put]
  by_cases here : s.slot = k
  · subst here
    rw [if_pos rfl, free, Option.some.injEq]
    constructor
    · rintro rfl
      exact .inr ⟨rfl, rfl⟩
    · rintro (old | ⟨rfl, _⟩)
      · cases old
      · rfl
  · rw [if_neg here]
    constructor
    · exact .inl
    · rintro (old | ⟨_, same⟩)
      · exact old
      · exact absurd same here

namespace Symbol

/-- The symbol has a length of its own and no bits above it. -/
structure Normal (s : Symbol) : Prop extends s.Proper where
  word_eq : s.word &&& s.mask = s.word

theorem mask_eq {s : Symbol} (proper : s.Proper) : s.mask = Word.mask s.len := by
  rw [mask, Word.mask, proper.ignored_eq]

theorem getElem?_bytes (s : Symbol) {i : Nat} (before : i < s.len) (inside : i < maxLength) :
    s.bytes[i]? = some (Word.byte s.word i) := by
  simp [bytes, Word.bytes, before, inside]

section
variable {s t : Symbol}

theorem Normal.length_bytes (normal : s.Normal) : s.bytes.length = s.len := by
  rw [Symbol.length_bytes, Nat.min_eq_left normal.le]

theorem Normal.bytes_ne_nil (normal : s.Normal) : s.bytes ≠ [] := by
  have pos := normal.pos
  rw [← normal.length_bytes] at pos
  exact List.ne_nil_of_length_pos pos

/-- After a symbol that some bytes start with come the bytes that it does not take
    in. -/
theorem Normal.append_drop (normal : s.Normal) {b : UInt8} {rest : Bytes} (starts : s.bytes <+: b :: rest) :
    s.bytes ++ rest.drop (s.len - 1) = b :: rest := by
  obtain ⟨after, split⟩ := starts
  have whole : (b :: rest).drop s.len = after := by rw [← split, ← normal.length_bytes, List.drop_left]
  have drop : rest.drop (s.len - 1) = after := by
    rw [← whole, ← Nat.sub_add_cancel normal.pos]
    rfl
  rw [drop, split]

/-- The bytes of the word of a symbol are those of the symbol, with zeros after
    them. -/
theorem Normal.byte_word (normal : s.Normal) {i : Nat} (inside : i < maxLength) :
    Word.byte s.word i = s.bytes[i]?.getD 0 := by
  have masked := Word.byte_mask s.word normal.pos normal.le inside
  rw [← mask_eq normal.toProper, normal.word_eq] at masked
  by_cases before : i < s.len
  · rw [getElem?_bytes s before inside]
    rfl
  · rw [masked, if_neg before, List.getElem?_eq_none (by rw [normal.length_bytes]; omega)]
    rfl

/-- Two symbols of the same bytes differ at most in their codes. -/
theorem ext_of_bytes (normal : s.Normal) (normal' : t.Normal) (code : s.code = t.code)
    (same : s.bytes = t.bytes) : s = t := by
  have len : s.len = t.len := by rw [← normal.length_bytes, ← normal'.length_bytes, same]
  have word : s.word = t.word := by
    apply Word.ext_bytes
    intro i inside
    rw [normal.byte_word inside, normal'.byte_word inside, same]
  have ignored : s.ignored = t.ignored := by rw [normal.ignored_eq, normal'.ignored_eq, len]
  cases s
  cases t
  simp_all

theorem byte_congr (len : s.len = t.len) (bytes : s.bytes = t.bytes) {i : Nat} (before : i < s.len)
    (inside : i < maxLength) : Word.byte s.word i = Word.byte t.word i := by
  have byte := getElem?_bytes s before inside
  rw [bytes, getElem?_bytes t (len ▸ before) inside, Option.some.injEq] at byte
  exact byte.symm

/-- Cutting off the bits above the length leaves the bytes. -/
theorem bytes_masked (s : Symbol) (pos : 1 ≤ s.len) (le : s.len ≤ maxLength) :
    ((Word.bytes (s.word &&& Word.mask s.len)).take s.len) = s.bytes := by
  apply List.ext_getElem?
  intro i
  by_cases before : i < s.len
  · have inside : i < maxLength := Nat.lt_of_lt_of_le before le
    rw [getElem?_bytes s before inside]
    simp [Word.bytes, before, inside, Word.byte_mask _ pos le inside]
  · simp [bytes, before]

/-- Symbols stand for the same string when they have the same bytes, whatever their codes
    and the bits above their lengths. -/
theorem same_iff_bytes (proper : s.Proper) (proper' : t.Proper) : s.same t = true ↔ s.bytes = t.bytes := by
  simp only [same, mask_eq proper, mask_eq proper', Bool.and_eq_true, beq_iff_eq]
  constructor
  · rintro ⟨word, len⟩
    rw [← bytes_masked s proper.pos proper.le, ← bytes_masked t proper'.pos proper'.le, word, len]
  · intro equal
    have len : s.len = t.len := by
      have lengths := congrArg List.length equal
      rwa [Symbol.length_bytes, Symbol.length_bytes, Nat.min_eq_left proper.le, Nat.min_eq_left proper'.le] at lengths
    refine ⟨Word.ext_bytes fun i inside => ?_, len⟩
    rw [Word.byte_mask _ proper.pos proper.le inside, Word.byte_mask _ proper'.pos proper'.le inside, ← len]
    split
    case isTrue before => exact byte_congr len equal before inside
    case isFalse => rfl

/-! ### Comparing with a word -/

/-- The word starts with the symbol. -/
theorem word_eq_masked_iff (normal : s.Normal) (w : UInt64) :
    (s.word == w &&& s.mask) = true ↔ s.bytes <+: Word.bytes w := by
  rw [beq_iff_eq, mask_eq normal.toProper, List.prefix_iff_eq_take, normal.length_bytes]
  constructor
  · intro equal
    rw [bytes, equal]
    apply List.ext_getElem?
    intro i
    by_cases before : i < s.len
    · have inside : i < maxLength := Nat.lt_of_lt_of_le before normal.le
      simp [Word.bytes, before, inside, Word.byte_mask w normal.pos normal.le inside]
    · simp [before]
  · intro equal
    apply Word.ext_bytes
    intro i inside
    rw [normal.byte_word inside, Word.byte_mask w normal.pos normal.le inside, equal]
    split
    case isTrue before => simp [Word.bytes, before, inside]
    case isFalse after => simp [after]

theorem prefix_append_iff {l bs zeros : Bytes} (short : l.length ≤ bs.length) :
    l <+: bs ++ zeros ↔ l <+: bs :=
  ⟨fun starts => List.prefix_of_prefix_length_le starts (List.prefix_append ..) short,
    fun starts => starts.trans (List.prefix_append ..)⟩

/-- The word of some bytes, filled up with zeros, starts with the symbol. -/
theorem starts_load (normal : s.Normal) (input : Bytes) :
    (s.word == Word.load input &&& s.mask) = true ↔ s.bytes <+: input ++ List.replicate maxLength 0 := by
  have filled : Word.bytes (Word.load input) = (input ++ List.replicate maxLength 0).take maxLength := by
    rw [Word.bytes_load, List.take_append, List.take_replicate]
    congr 2
    omega
  rw [word_eq_masked_iff normal, filled, List.prefix_take_iff, normal.length_bytes]
  exact and_iff_left normal.le

/-- Bytes that the symbol fits into start with it just when their word does. -/
theorem starts_of_fits (normal : s.Normal) {input : Bytes} (fits : s.len ≤ input.length) :
    (s.word == Word.load input &&& s.mask) = true ↔ s.bytes <+: input := by
  rw [starts_load normal, prefix_append_iff (by rwa [normal.length_bytes])]

theorem prefix_of_not_mem {l bs after : Bytes} {b : UInt8} (absent : b ∉ l) :
    l <+: bs ++ b :: after ↔ l <+: bs := by
  constructor
  · intro starts
    rcases List.prefix_or_prefix_of_prefix starts (List.prefix_append bs (b :: after)) with inner | outer
    · exact inner
    · obtain ⟨more, rfl⟩ := outer
      cases more with
      | nil => simp
      | cons c more =>
        have next := (List.prefix_append_right_inj bs).mp starts
        obtain ⟨same, _⟩ := List.cons_prefix_cons.mp next
        exact absurd (by simp [same]) absent
  · intro starts
    exact starts.trans (List.prefix_append ..)

/-- No match runs past a byte that the symbol does not hold, whatever follows. -/
theorem starts_window (normal : s.Normal) {terminator : UInt8} (absent : terminator ∉ s.bytes)
    (chunk stale : Bytes) :
    (s.word == Word.load (chunk ++ terminator :: stale) &&& s.mask) = true ↔ s.bytes <+: chunk := by
  rw [starts_load normal, List.append_assoc, List.cons_append, prefix_of_not_mem absent]

/-! ### Where a symbol is looked for -/

theorem first_word (normal : s.Normal) {a : UInt8} {rest : Bytes} (bytes : s.bytes = a :: rest) :
    Word.first s.word = a.toFin := by
  rw [Word.first_eq, normal.byte_word (by decide), bytes]
  rfl

theorem pair_word (normal : s.Normal) {a b : UInt8} {rest : Bytes} (bytes : s.bytes = a :: b :: rest) :
    Word.pair s.word = Word.pairOf a b := by
  rw [Word.pair_eq, normal.byte_word (by decide), normal.byte_word (by decide), bytes]
  rfl

/-- Bytes that start with a symbol of three or more have its slot. -/
theorem slot_load (normal : s.Normal) (long : 2 < s.len) {input : Bytes} (starts : s.bytes <+: input) :
    Word.slot (Word.load input) = s.slot := by
  apply Word.slot_congr
  intro i first
  have inside : i < maxLength := Nat.lt_trans first (by decide)
  obtain ⟨rest, rfl⟩ := starts
  rw [Word.byte_load _ inside, normal.byte_word inside,
    List.getElem?_append_left (by rw [normal.length_bytes]; omega)]

theorem slot_bytes (normal : s.Normal) (long : 2 < s.len) : Word.slot (Word.load s.bytes) = s.slot :=
  slot_load normal long (List.prefix_refl _)

theorem exists_bytes_one (normal : s.Normal) (len : s.len = 1) : ∃ a, s.bytes = [a] :=
  List.length_eq_one_iff.mp (normal.length_bytes.trans len)

theorem exists_bytes_two (normal : s.Normal) (len : s.len = 2) : ∃ a b, s.bytes = [a, b] :=
  List.length_eq_two.mp (normal.length_bytes.trans len)

theorem exists_bytes_long (normal : s.Normal) (long : 2 < s.len) : ∃ a b rest, s.bytes = a :: b :: rest := by
  have length := normal.length_bytes
  match bytes : s.bytes with
  | a :: b :: rest => exact ⟨a, b, rest, rfl⟩
  | [] =>
    rw [bytes, List.length_nil] at length
    omega
  | [a] =>
    rw [bytes, List.length_singleton] at length
    omega

theorem bytes_ne_of_len_ne (normal : s.Normal) (bs : Bytes) (other : s.len ≠ bs.length) : s.bytes ≠ bs :=
  fun same => other (by rw [← normal.length_bytes, same])

/-- What is put under the byte of a symbol is found under this byte alone. -/
theorem get_write_first {α : Type} (normal : s.Normal) (one : s.len = 1) (v : Vector α 256) (x : α) (a : UInt8) :
    (v.setIfInBounds (Word.first s.word) x).get a.toFin = if s.bytes = [a] then x else v.get a.toFin := by
  obtain ⟨b, single⟩ := exists_bytes_one normal one
  have here : Word.first s.word = a.toFin ↔ s.bytes = [a] := by
    rw [first_word normal single, single, UInt8.toFin_inj, List.singleton_inj]
  simp only [get_setIfInBounds, here]

/-- What is put under the two bytes of a symbol is found under these alone. -/
theorem get_write_pair {α : Type} (normal : s.Normal) (two : s.len = 2) (v : Vector α 65536) (x : α) (a b : UInt8) :
    (v.setIfInBounds (Word.pair s.word) x).get (Word.pairOf a b) =
      if s.bytes = [a, b] then x else v.get (Word.pairOf a b) := by
  obtain ⟨c, d, both⟩ := exists_bytes_two normal two
  have here : Word.pair s.word = Word.pairOf a b ↔ s.bytes = [a, b] := by
    rw [pair_word normal both, both, Word.pairOf_inj, List.cons.injEq, List.singleton_inj]
  simp only [get_setIfInBounds, here]

end

/-! ### Slots that hold the long symbols -/

end Symbol

/-- The slots hold the symbols of three or more bytes among some, each in its
    own. -/
def Slots.Hold (slots : Slots) (symbols : Array Symbol) : Prop :=
  ∀ (k : Fin slotCount) (s : Symbol), slots.get k = some s ↔ s ∈ symbols ∧ 2 < s.len ∧ s.slot = k

namespace Slots.Hold
variable {slots : Slots} {symbols : Array Symbol} (hold : slots.Hold symbols)
include hold

theorem unique {r s : Symbol} (inner : r ∈ symbols) (outer : s ∈ symbols) (long : 2 < r.len) (longer : 2 < s.len)
    (same : r.slot = s.slot) : r = s := by
  have found := (hold s.slot r).mpr ⟨inner, long, same⟩
  have found' := (hold s.slot s).mpr ⟨outer, longer, rfl⟩
  rw [found] at found'
  exact Option.some.inj found'

theorem find?_eq_some_iff {w : UInt64} {s : Symbol} :
    slots.find? w = some s ↔ s ∈ symbols ∧ 2 < s.len ∧ s.slot = Word.slot w ∧ (s.word == w &&& s.mask) = true := by
  simp only [find?, Option.filter_eq_some_iff, hold _ _, and_assoc]

/-- What is found in the slot of some bytes, and is no longer than they are, is
    the symbol of three or more bytes that they start with. -/
theorem find?_fitting_eq_some_iff (normal : ∀ s ∈ symbols, s.Normal) {input : Bytes} {s : Symbol} :
    (slots.find? (Word.load input)).filter (fun s => s.len ≤ (input.take maxLength).length) = some s ↔
      s ∈ symbols ∧ 2 < s.len ∧ s.bytes <+: input := by
  rw [Option.filter_eq_some_iff, hold.find?_eq_some_iff]
  simp only [decide_eq_true_eq, List.length_take]
  constructor
  · rintro ⟨⟨member, long, _, starts⟩, fits⟩
    exact ⟨member, long, (Symbol.starts_of_fits (normal s member) (by omega)).mp starts⟩
  · rintro ⟨member, long, starts⟩
    have shape := normal s member
    have fits := starts.length_le
    rw [shape.length_bytes] at fits
    have le := shape.le
    exact ⟨⟨member, long, (Symbol.slot_load shape long starts).symm, (Symbol.starts_of_fits shape fits).mpr starts⟩,
      by omega⟩

end Slots.Hold

namespace Symbol

/-! ### The last symbol of some bytes -/

/-- The last symbol of some bytes, if there is one. -/
def last? (symbols : List Symbol) (bs : Bytes) : Option Symbol := symbols.reverse.find? (·.bytes == bs)

theorem last?_concat (symbols : List Symbol) (s : Symbol) (bs : Bytes) :
    last? (symbols ++ [s]) bs = if s.bytes = bs then some s else last? symbols bs := by
  by_cases same : s.bytes = bs
  · simp [last?, same]
  · have other : (s.bytes == bs) = false := by simpa using same
    simp [last?, same, other]

theorem last?_cons (s : Symbol) (rest : List Symbol) (bs : Bytes) :
    last? (s :: rest) bs = (last? rest bs).or (if s.bytes = bs then some s else none) := by
  by_cases same : s.bytes = bs
  · simp [last?, List.find?_append, same]
  · have other : (s.bytes == bs) = false := by simpa using same
    simp [last?, List.find?_append, same, other]

theorem of_last?_eq_some {symbols : List Symbol} {bs : Bytes} {s : Symbol} (found : last? symbols bs = some s) :
    s ∈ symbols ∧ s.bytes = bs := by
  have member := List.mem_of_find?_eq_some found
  have same := List.find?_some found
  exact ⟨by simpa using member, by simpa using same⟩

theorem of_last?_eq_none {symbols : List Symbol} {bs : Bytes} (none : last? symbols bs = none) :
    ∀ s ∈ symbols, s.bytes ≠ bs := by
  intro s member
  have other := List.find?_eq_none.mp none s (by simpa using member)
  simpa using other

/-- No symbol of the same bytes stands behind the last one. -/
theorem place_of_last?_eq_some {bs : Bytes} {s : Symbol} : ∀ {symbols : List Symbol}, last? symbols bs = some s →
    ∃ i, symbols[i]? = some s ∧ ∀ (j : Nat) (r : Symbol), symbols[j]? = some r → r.bytes = bs → j ≤ i
  | r :: rest, found => by
    rw [last?_cons] at found
    cases last : last? rest bs with
    | some r =>
      rw [last, Option.some_or] at found
      cases found
      obtain ⟨i, here, behind⟩ := place_of_last?_eq_some last
      refine ⟨i + 1, here, ?_⟩
      intro j other listed same
      cases j with
      | zero => exact Nat.zero_le _
      | succ j => exact Nat.succ_le_succ (behind j other listed same)
    | none =>
      rw [last, Option.none_or, Option.ite_none_right_eq_some] at found
      cases found.2
      refine ⟨0, rfl, ?_⟩
      intro j other listed same
      cases j with
      | zero => exact Nat.le_refl 0
      | succ j => exact absurd same (of_last?_eq_none last other (List.mem_of_getElem? listed))

/-! ### Making symbols -/

theorem bytes_setCode (s : Symbol) (code : Nat) : (s.setCode code s.len).bytes = s.bytes := rfl

theorem Normal.setCode {s : Symbol} (normal : s.Normal) (code : Nat) : (s.setCode code s.len).Normal := by
  have proper : (s.setCode code s.len).Proper := ⟨normal.pos, normal.le, rfl⟩
  have masked := normal.word_eq
  rw [mask_eq normal.toProper] at masked
  refine ⟨proper, ?_⟩
  rw [mask_eq proper]
  exact masked

theorem setCode_len (s : Symbol) (code len : Nat) : (s.setCode code len).len = len := rfl

theorem setCode_code (s : Symbol) {code : Nat} (len : Nat) (small : code < codeLimit) :
    (s.setCode code len).code = code := Nat.mod_eq_of_lt small

theorem masked_masked (w : UInt64) (len : Nat) : w &&& Word.mask len &&& Word.mask len = w &&& Word.mask len := by
  rw [UInt64.and_assoc, UInt64.and_self]

theorem bytes_ofBytes {bs : Bytes} (short : bs.length ≤ maxLength) : (ofBytes bs).bytes = bs := by
  have len : min bs.length maxLength = bs.length := Nat.min_eq_left short
  apply List.ext_getElem?
  intro i
  by_cases before : i < bs.length
  · have inside : i < maxLength := Nat.lt_of_lt_of_le before short
    simp [ofBytes, bytes, Symbol.setCode, Word.bytes, len, before,
      Word.byte_mask _ (by omega : 1 ≤ bs.length) short inside, Word.byte_load bs inside]
  · simp [ofBytes, bytes, Symbol.setCode, len, before]

theorem len_ofBytes {bs : Bytes} (short : bs.length ≤ maxLength) : (ofBytes bs).len = bs.length :=
  Nat.min_eq_left short

theorem normal_ofBytes {bs : Bytes} (pos : 1 ≤ bs.length) (short : bs.length ≤ maxLength) :
    (ofBytes bs).Normal := by
  have len := len_ofBytes short
  have proper : (ofBytes bs).Proper := ⟨by rwa [len], by rwa [len], rfl⟩
  refine ⟨proper, ?_⟩
  rw [mask_eq proper]
  exact masked_masked _ _

theorem normal_ofByte (b : UInt8) : (ofByte b 0).Normal where
  pos := Nat.le_refl 1
  le := by simp [ofByte, maxLength, codeLimit]
  ignored_eq := rfl
  word_eq := by
    have mask : (ofByte b 0).mask = Word.mask 1 := rfl
    apply UInt64.toNat_inj.mp
    rw [mask, Word.toNat_and_mask _ (by decide) (by decide)]
    exact Nat.mod_eq_of_lt (by simpa [ofByte] using b.toNat_lt)

theorem bytes_ofByte (b : UInt8) : (ofByte b 0).bytes = [b] := by
  obtain ⟨a, single⟩ := exists_bytes_one (normal_ofByte b) rfl
  have low := (normal_ofByte b).byte_word (i := 0) (by decide)
  rw [single] at low ⊢
  simp only [List.getElem?_cons_zero, Option.getD_some] at low
  rw [← low, ← Word.toUInt8_eq]
  simp [ofByte]

end Symbol
end SymbolCodec
