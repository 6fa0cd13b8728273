import SymbolCodec.Table
import SymbolCodec.Proofs.Runs
import SymbolCodec.Proofs.Symbols

/-!
What holds of every table that symbols were added to (`Table.WellFormed`). Adding
does one of two things (`Table.add_eq_ok_iff`): it leaves the table as it is, or it
places a symbol under the next code, and neither breaks the invariant
(`Table.wellFormed_addAll`). The latest symbol of one or two bytes hides earlier
ones (`Table.latest`), and a slot holds the only symbol of three or more bytes
that belongs there.
-/
namespace SymbolCodec.Table

/-- The last added symbol of some bytes. -/
def latest (t : Table) (bs : Bytes) : Option Symbol := Symbol.last? t.added.toList bs

/-- What holds of a table whatever was added to it. -/
structure WellFormed (t : Table) : Prop where
  room : t.codes ≤ Symbol.codeLimit
  normal : ∀ s ∈ t.added, s.Normal
  code_eq : ∀ i (inside : i < t.added.size), t.added[i].code = firstCode + i
  terminator : ∀ s ∈ t.added, 1 < s.len → t.terminator ∉ s.bytes
  bytes : ∀ a : UInt8, t.bytes.get a.toFin = ((t.latest [a]).map fun s => ⟨s.code, 1⟩).getD ⟨a.toNat, 1⟩
  pairs : ∀ a b : UInt8,
    t.pairs.get (Word.pairOf a b) = ((t.latest [a, b]).map fun s => ⟨s.code, 2⟩).getD ⟨a.toNat, 1⟩
  slots : ∀ (k : Fin slotCount) (s : Symbol), t.slots.get k = some s ↔ s ∈ t.added ∧ 2 < s.len ∧ s.slot = k
  histogram : ∀ i : Fin 8, t.histogram.get i = t.added.toList.countP (·.len = i.val + 1)

/-! ### One symbol more -/

theorem codes_place (t : Table) (s : Symbol) : (t.place s).codes = t.codes + 1 := by
  simp [codes, place, Nat.add_assoc]

theorem code_numbered {t : Table} (room : t.codes < Symbol.codeLimit) (s : Symbol) :
    (t.numbered s).code = t.codes := Nat.mod_eq_of_lt room

section
variable {t : Table} {s : Symbol} (pos : 1 ≤ s.len) (le : s.len ≤ maxLength)

include pos le

theorem normal_numbered : (t.numbered s).Normal := by
  have proper : (t.numbered s).Proper := ⟨pos, le, rfl⟩
  have setProper : (s.setCode t.codes s.len).Proper := ⟨pos, le, rfl⟩
  refine ⟨proper, ?_⟩
  rw [Symbol.mask_eq proper]
  simp only [numbered, Symbol.mask_eq setProper]
  exact Symbol.masked_masked _ _

theorem bytes_numbered : (t.numbered s).bytes = s.bytes := by
  have setProper : (s.setCode t.codes s.len).Proper := ⟨pos, le, rfl⟩
  simp only [Symbol.bytes, numbered, Symbol.mask_eq setProper]
  exact Symbol.bytes_masked s pos le

end

/-- A symbol of a possible length can be added as long as there is a code left: it
    is placed under the next code if it is accepted, and else nothing changes. -/
theorem add_eq_ok_iff {t : Table} {s : Symbol} {result : Table × Bool} :
    t.add s = .ok result ↔ t.codes < Symbol.codeLimit ∧ 1 ≤ s.len ∧ s.len ≤ maxLength ∧
      result = if t.accepts (t.numbered s) then (t.place (t.numbered s), true) else (t, false) := by
  have fits : ¬ (s.len = 0 ∨ ¬ s.fits) ↔ 1 ≤ s.len ∧ s.len ≤ maxLength := by
    simp only [Symbol.fits, decide_eq_true_eq]
    omega
  rw [add, check_eq_ok_iff, check_eq_ok_iff, fits, Nat.not_le, and_assoc]
  by_cases accepted : t.accepts (t.numbered s) = true
  · rw [if_pos accepted, if_pos accepted, Except.ok.injEq, eq_comm (a := result)]
  · rw [if_neg accepted, if_neg accepted, Except.ok.injEq, eq_comm (a := result)]

theorem latest_place (t : Table) (s : Symbol) (bs : Bytes) :
    (t.place s).latest bs = if s.bytes = bs then some s else t.latest bs := by
  rw [latest, place, Array.toList_push, Symbol.last?_concat, latest]

private theorem terminator_place {t : Table} (wf : t.WellFormed) {s : Symbol} (accepted : t.accepts s) :
    ∀ r ∈ (t.place s).added, 1 < r.len → (t.place s).terminator ∉ r.bytes := by
  intro r member several
  rcases Array.mem_push.mp member with old | rfl
  · exact wf.terminator r old several
  · simp only [accepts, Symbol.holds, Bool.and_eq_true, Bool.not_eq_true', Bool.and_eq_false_iff,
      decide_eq_false_iff_not, List.contains_eq_mem] at accepted
    exact accepted.1.resolve_left (by omega)

private theorem bytes_place {t : Table} (wf : t.WellFormed) {s : Symbol} (normal : s.Normal) (a : UInt8) :
    (t.place s).bytes.get a.toFin =
      (((t.place s).latest [a]).map fun s => ⟨s.code, 1⟩).getD ⟨a.toNat, 1⟩ := by
  rw [latest_place]
  by_cases one : s.len = 1
  · simp only [place, one, ↓reduceIte, Symbol.get_write_first normal one, wf.bytes a]
    split <;> rfl
  · simp only [place, one, ↓reduceIte, Symbol.bytes_ne_of_len_ne normal [a] one]
    exact wf.bytes a

private theorem pairs_place {t : Table} (wf : t.WellFormed) {s : Symbol} (normal : s.Normal) (a b : UInt8) :
    (t.place s).pairs.get (Word.pairOf a b) =
      (((t.place s).latest [a, b]).map fun s => ⟨s.code, 2⟩).getD ⟨a.toNat, 1⟩ := by
  rw [latest_place]
  by_cases two : s.len = 2
  · simp only [place, two, ↓reduceIte, Symbol.get_write_pair normal two, wf.pairs a b]
    split <;> rfl
  · simp only [place, two, ↓reduceIte, Symbol.bytes_ne_of_len_ne normal [a, b] two]
    exact wf.pairs a b

private theorem slots_place {t : Table} (wf : t.WellFormed) {s : Symbol} (accepted : t.accepts s)
    (k : Fin slotCount) (r : Symbol) :
    (t.place s).slots.get k = some r ↔ r ∈ (t.place s).added ∧ 2 < r.len ∧ r.slot = k := by
  simp only [place, Array.mem_push]
  by_cases long : s.len > 2
  · have free : t.slots.get s.slot = none := by
      simp only [accepts, Bool.and_eq_true, Bool.not_eq_true', Bool.and_eq_false_iff,
        decide_eq_false_iff_not] at accepted
      simpa [Slots.taken] using accepted.2.resolve_left (by omega)
    simp only [long, ↓reduceIte, Slots.put_eq_some_iff free, wf.slots k r]
    constructor
    · rintro (⟨old, rest⟩ | ⟨rfl, here⟩)
      · exact ⟨.inl old, rest⟩
      · exact ⟨.inr rfl, long, here⟩
    · rintro ⟨old | rfl, longer, here⟩
      · exact .inl ⟨old, longer, here⟩
      · exact .inr ⟨rfl, here⟩
  · simp only [long, ↓reduceIte, wf.slots k r]
    constructor
    · rintro ⟨old, rest⟩
      exact ⟨.inl old, rest⟩
    · rintro ⟨old | rfl, longer, equal⟩
      · exact ⟨old, longer, equal⟩
      · exact absurd longer long

private theorem histogram_place {t : Table} (wf : t.WellFormed) (s : Symbol) (i : Fin 8) :
    (t.place s).histogram.get i = (t.place s).added.toList.countP (·.len = i.val + 1) := by
  have before := wf.histogram i
  by_cases here : i.val + 1 = s.len
  · simp [place, countLength, ← here, ← before]
  · have apart : s.len ≠ i.val + 1 := fun equal => here equal.symm
    simp [place, countLength, here, apart, ← before]

theorem wellFormed_place {t : Table} (wf : t.WellFormed) {s : Symbol} (room : t.codes < Symbol.codeLimit)
    (normal : s.Normal) (code : s.code = t.codes) (accepted : t.accepts s) : (t.place s).WellFormed where
  room := by rw [codes_place]; exact room
  normal := by
    intro r member
    rcases Array.mem_push.mp member with old | rfl
    · exact wf.normal r old
    · exact normal
  code_eq := by
    intro i inside
    simp only [place, Array.getElem_push]
    split
    case isTrue old => exact wf.code_eq i old
    case isFalse new =>
      have last : i = t.added.size := by simp only [place, Array.size_push] at inside; omega
      rw [code, codes, last]
  terminator := terminator_place wf accepted
  bytes := bytes_place wf normal
  pairs := pairs_place wf normal
  slots := slots_place wf accepted
  histogram := histogram_place wf s

/-! ### Every table -/

theorem wellFormed_empty (terminator : UInt8) (zeroTerminated : Bool) :
    (empty terminator zeroTerminated).WellFormed where
  room := by simp [codes, empty, firstCode, Symbol.codeLimit]
  normal := by simp [empty]
  code_eq := by simp [empty]
  terminator := by simp [empty]
  bytes := by simp [empty, latest, Symbol.last?]
  pairs := by simp [empty, latest, Symbol.last?, Word.firstOfPair_pairOf]
  slots := by simp [empty, Slots.empty]
  histogram := by simp [empty]

theorem wellFormed_add {t t' : Table} {s : Symbol} {added : Bool} (wf : t.WellFormed)
    (run : t.add s = .ok (t', added)) : t'.WellFormed := by
  obtain ⟨room, pos, le, outcome⟩ := add_eq_ok_iff.mp run
  by_cases accepted : t.accepts (t.numbered s) = true
  · rw [if_pos accepted] at outcome
    cases outcome
    exact wellFormed_place wf room (normal_numbered pos le) (code_numbered room s) accepted
  · rw [if_neg accepted] at outcome
    cases outcome
    exact wf

theorem addAll_cons (t : Table) (s : Symbol) (rest : List Symbol) :
    t.addAll (s :: rest) = t.add s >>= fun added => added.1.addAll rest := by
  simp only [addAll, List.foldlM_cons, bind_assoc, pure_bind]

/-- What adding one symbol preserves, adding many does. -/
theorem addAll_induction {P : Table → Prop}
    (step : ∀ {t t' : Table} {s : Symbol} {added : Bool}, P t → t.add s = .ok (t', added) → P t') :
    ∀ (symbols : List Symbol) {t t' : Table}, P t → t.addAll symbols = .ok t' → P t'
  | [], t, t', start, run => by
    cases run
    exact start
  | s :: rest, t, t', start, run => by
    rw [addAll_cons, bind_eq_ok_iff] at run
    obtain ⟨added, first, later⟩ := run
    exact addAll_induction step rest (step start first) later

theorem wellFormed_addAll {terminator : UInt8} {zeroTerminated : Bool} {symbols : List Symbol} {t : Table}
    (run : (empty terminator zeroTerminated).addAll symbols = .ok t) : t.WellFormed :=
  addAll_induction wellFormed_add symbols (wellFormed_empty terminator zeroTerminated) run

end SymbolCodec.Table
