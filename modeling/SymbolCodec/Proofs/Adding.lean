import SymbolCodec.Proofs.Matching

/-!
The five parts of a table in step. Whatever symbols are added, each part says the same
about which symbols there are (`Table.Represented`): the codes are used without a gap, a
cell leads to the last symbol of its bytes (`Table.CellOf`), and a slot holds the only
symbol of three or more bytes that belongs there (`Table.SlotOf`). To add a symbol either
puts it behind the others or changes nothing at all (`Table.Adds`), and which of the two
is decided by its bytes (`Table.add_congr`).
-/
namespace SymbolCodec.Table

/-! ### What the parts of a table say -/

/-- What is found under some bytes: the last added symbol of these bytes with its length, or the
    first byte itself. -/
inductive CellOf (t : Table) (first : UInt8) (bs : Bytes) : Cell → Prop
  | last {code : Nat} : t.LastOf bs code → CellOf t first bs ⟨code, bs.length⟩
  | byte : (∀ s ∈ t.added, s.bytes ≠ bs) → CellOf t first bs ⟨first.toNat, 1⟩

/-- What lies in a slot: the only added symbol of three or more bytes that has it, or nothing. -/
inductive SlotOf (t : Table) (k : Fin slotCount) : Option Symbol → Prop
  | only {s : Symbol} : s ∈ t.added → 2 < s.len → s.slot = k →
      (∀ r ∈ t.added, 2 < r.len → r.slot = k → r = s) → SlotOf t k (some s)
  | free : (∀ s ∈ t.added, 2 < s.len → s.slot ≠ k) → SlotOf t k none

/-- The parts of a table agree about the symbols that were added. -/
structure Represented (t : Table) : Prop where
  room : firstCode + t.added.size ≤ Symbol.codeLimit
  /-- The codes below those of added symbols are the bytes. -/
  byte : ∀ b : UInt8, (t.symbol b.toNat).bytes = [b]
  /-- Each symbol knows its code and has no bits above its length. -/
  symbol : ∀ code < firstCode + t.added.size, (t.symbol code).code = code ∧ (t.symbol code).Normal
  histogram : ∀ len, 1 ≤ len → len ≤ maxLength →
    t.histogram.get (lengthPlace len) = t.added.toList.countP (·.len = len)
  bytes : ∀ a : UInt8, t.CellOf a [a] (t.bytes.get a.toFin)
  pairs : ∀ a b : UInt8, t.CellOf a [a, b] (t.pairs.get (Word.pairOf a b))
  slots : ∀ k : Fin slotCount, t.SlotOf k (t.slots.get k)
  /-- No long symbol is missing from its slot. -/
  placed : ∀ s ∈ t.added, 2 < s.len → t.slots.get s.slot = some s
  terminator : ∀ s ∈ t.added, 1 < s.len → t.terminator ∉ s.bytes

section
variable {t : Table} (wf : t.WellFormed)
include wf

theorem code_symbol {code : Nat} (used : code < t.codes) : (t.symbol code).code = code := by
  by_cases byte : code < firstCode
  · rw [symbol_of_lt byte]
  · obtain ⟨i, rfl⟩ := Nat.exists_eq_add_of_le (Nat.le_of_not_lt byte)
    have inside : i < t.added.size := Nat.lt_of_add_lt_add_left used
    rw [symbol_add t inside, wf.code_eq i inside]

theorem cellOf_latest {first : UInt8} {bs : Bytes} {len : Nat} (length : bs.length = len) {cell : Cell}
    (found : cell = ((t.latest bs).map fun s => ⟨s.code, len⟩).getD ⟨first.toNat, 1⟩) : t.CellOf first bs cell := by
  cases latest : t.latest bs with
  | some s =>
    rw [found, latest, ← length]
    exact .last (lastOf_of_latest wf latest)
  | none =>
    rw [found, latest]
    exact .byte fun s member => bytes_ne_of_latest latest member

theorem slotOf_get (k : Fin slotCount) : t.SlotOf k (t.slots.get k) := by
  cases found : t.slots.get k with
  | some s =>
    obtain ⟨member, long, here⟩ := (wf.slots k s).mp found
    refine .only member long here fun r inner longer there => ?_
    exact Slots.Hold.unique wf.slots inner member longer long (there.trans here.symm)
  | none =>
    refine .free fun s member long here => ?_
    have taken := (wf.slots k s).mpr ⟨member, long, here⟩
    rw [found] at taken
    cases taken

theorem WellFormed.represented : t.Represented where
  room := wf.room
  byte b := by rw [bytes_symbol_of_lt b.toNat_lt, UInt8.ofNat_toNat]
  symbol _ used := ⟨code_symbol wf used, normal_symbol wf used⟩
  histogram len pos le := by rw [wf.histogram, val_lengthPlace pos le]
  bytes a := cellOf_latest wf rfl (wf.bytes a)
  pairs a b := cellOf_latest wf rfl (wf.pairs a b)
  slots := slotOf_get wf
  placed s member long := (wf.slots s.slot s).mpr ⟨member, long, rfl⟩
  terminator := wf.terminator

end

/-! ### One symbol more -/

/-- A symbol is refused if it has several bytes and one of them is the terminator, or three or
    more bytes and a slot that is taken. -/
def Refuses (t : Table) (s : Symbol) : Prop :=
  1 < s.len ∧ t.terminator ∈ s.bytes ∨ 2 < s.len ∧ t.slots.get s.slot ≠ none

/-- What adding a symbol comes to: it stands behind the others under the next code, or it is
    refused and nothing is changed. -/
structure Adds (t : Table) (s : Symbol) (t' : Table) (accepted : Bool) : Prop where
  refused_iff : accepted = false ↔ t.Refuses s
  unchanged : accepted = false → t' = t
  pushed : accepted = true → ∃ r, t'.added = t.added.push r ∧ r.code = t.codes ∧ r.bytes = s.bytes
  terminator_eq : t'.terminator = t.terminator
  zeroTerminated_eq : t'.zeroTerminated = t.zeroTerminated

theorem slot_numbered (t : Table) {s : Symbol} (long : 2 < s.len) (le : s.len ≤ maxLength) :
    (t.numbered s).slot = s.slot := by
  have pos : 1 ≤ s.len := Nat.le_of_lt (Nat.lt_of_succ_lt long)
  have proper : (s.setCode t.codes s.len).Proper := ⟨pos, le, rfl⟩
  apply Word.slot_congr
  intro i first
  simp only [numbered, Symbol.mask_eq proper]
  exact (Word.byte_mask s.word pos le (Nat.lt_trans first (by decide))).trans (if_pos (Nat.lt_of_lt_of_le first long))

theorem accepts_numbered_iff (t : Table) {s : Symbol} (pos : 1 ≤ s.len) (le : s.len ≤ maxLength) :
    t.accepts (t.numbered s) = true ↔ ¬ t.Refuses s := by
  have len : (t.numbered s).len = s.len := rfl
  have taken : t.slots.taken (t.numbered s) = true ↔ t.slots.get (t.numbered s).slot ≠ none := by
    rw [Slots.taken, Option.isSome_iff_ne_none]
  simp only [accepts, Symbol.holds, bytes_numbered pos le, len, Refuses, not_or, not_and, Bool.and_eq_true,
    Bool.not_eq_true', Bool.and_eq_false_imp, decide_eq_true_eq, List.contains_eq_mem, decide_eq_false_iff_not]
  refine and_congr_right fun _ => forall_congr' fun long => ?_
  rw [← Bool.not_eq_true, taken, slot_numbered t long le]

theorem exists_adds {t : Table} {s : Symbol} (room : t.codes < Symbol.codeLimit) (pos : 1 ≤ s.len)
    (le : s.len ≤ maxLength) : ∃ t' accepted, t.add s = .ok (t', accepted) ∧ t.Adds s t' accepted := by
  have accepts := accepts_numbered_iff t pos le
  by_cases refused : t.Refuses s
  · refine ⟨t, false, add_eq_ok_iff.mpr ⟨room, pos, le, ?_⟩, by simp [refused], fun _ => rfl, by simp, rfl, rfl⟩
    rw [if_neg fun accepted => accepts.mp accepted refused]
  · refine ⟨t.place (t.numbered s), true, add_eq_ok_iff.mpr ⟨room, pos, le, ?_⟩, by simp [refused], by simp, fun _ => ?_,
      rfl, rfl⟩
    · rw [if_pos (accepts.mpr refused)]
    · exact ⟨t.numbered s, rfl, code_numbered room s, bytes_numbered pos le⟩

theorem numbered_congr (t : Table) {s r : Symbol} (pos : 1 ≤ s.len) (le : s.len ≤ maxLength) (len : s.len = r.len)
    (bytes : s.bytes = r.bytes) : t.numbered s = t.numbered r := by
  have pos' : 1 ≤ r.len := len ▸ pos
  have le' : r.len ≤ maxLength := len ▸ le
  refine Symbol.ext_of_bytes (normal_numbered pos le) (normal_numbered pos' le') rfl ?_
  rw [bytes_numbered pos le, bytes_numbered pos' le', bytes]

/-- Symbols of the same bytes are added alike, whatever their codes and the bits above their
    lengths. -/
theorem add_congr (t : Table) {s r : Symbol} (len : s.len = r.len) (bytes : s.bytes = r.bytes) : t.add s = t.add r := by
  have fits : s.fits = r.fits := by rw [Symbol.fits, Symbol.fits, len]
  by_cases proper : 1 ≤ s.len ∧ s.len ≤ maxLength
  · rw [add, add, numbered_congr t proper.1 proper.2 len bytes, len, fits]
  · have unfit : s.len = 0 ∨ ¬ s.fits = true := by
      simp only [Symbol.fits, decide_eq_true_eq]
      omega
    have unfit' : r.len = 0 ∨ ¬ r.fits = true := by rwa [len, fits] at unfit
    rw [add, add, if_pos unfit, if_pos unfit']

/-- In every table that symbols were added to the parts agree; a further symbol is refused for
    the terminator or for a taken slot only, and then nothing is changed; and its bytes alone
    decide. -/
theorem represented_and_adds {terminator : UInt8} {zeroTerminated : Bool} {symbols : List Symbol} {t : Table}
    (built : (Table.empty terminator zeroTerminated).addAll symbols = .ok t) :
    t.Represented ∧
      (∀ s : Symbol, 1 ≤ s.len → s.len ≤ maxLength → t.codes < Symbol.codeLimit →
        ∃ t' accepted, t.add s = .ok (t', accepted) ∧ t.Adds s t' accepted) ∧
      ∀ s r : Symbol, s.len = r.len → s.bytes = r.bytes → t.add s = t.add r :=
  ⟨(wellFormed_addAll built).represented, fun _ pos le room => exists_adds room pos le,
    fun _ _ len bytes => add_congr t len bytes⟩

/-- Four bytes with a code and with bits above them, whose slot is taken by three bytes that had
    such bits, too: they are refused. -/
theorem represented_and_adds_stray : ∃ t : Table,
    (Table.empty 0 false).addAll [⟨0xFFFF000000636261, 7, 3, 0⟩, .ofBytes [97, 98], .ofBytes [97, 0],
      .ofBytes [97, 98]] = .ok t ∧ t.added.size = 3 ∧ t.Represented ∧ t.codes < Symbol.codeLimit ∧
    t.add ⟨0xFF00000064636261, 9, 4, 3⟩ = .ok (t, false) ∧
    (.ofBytes [97, 98, 99, 100] : Symbol).len = 4 ∧
    (.ofBytes [97, 98, 99, 100] : Symbol).bytes = (⟨0xFF00000064636261, 9, 4, 3⟩ : Symbol).bytes ∧
    t.add (.ofBytes [97, 98, 99, 100]) = .ok (t, false) := by
  obtain ⟨t, built, size, taken⟩ : ∃ t : Table, (Table.empty 0 false).addAll [⟨0xFFFF000000636261, 7, 3, 0⟩,
      .ofBytes [97, 98], .ofBytes [97, 0], .ofBytes [97, 98]] = .ok t ∧ t.added.size = 3 ∧
      t.slots.get (⟨0xFF00000064636261, 9, 4, 3⟩ : Symbol).slot ≠ none :=
    ⟨_, rfl, rfl, by decide +kernel⟩
  have room : t.codes < Symbol.codeLimit := by rw [codes, size]; decide
  have bytes : (.ofBytes [97, 98, 99, 100] : Symbol).bytes = (⟨0xFF00000064636261, 9, 4, 3⟩ : Symbol).bytes := by decide
  obtain ⟨represented, adds, congr⟩ := represented_and_adds built
  obtain ⟨t', accepted, run, outcome⟩ := adds ⟨0xFF00000064636261, 9, 4, 3⟩ (by decide) (by decide) room
  have refused : accepted = false := outcome.refused_iff.mpr (.inr ⟨by decide, taken⟩)
  rw [outcome.unchanged refused, refused] at run
  exact ⟨t, built, size, represented, room, run, by decide, bytes, (congr _ _ (by decide) bytes).trans run⟩

end SymbolCodec.Table
