import SymbolCodec.Training.Candidates
import SymbolCodec.Proofs.Counting
import SymbolCodec.Proofs.Joining

/-!
What the counts of a round put forward. Of a tally that keeps counts, all codes
with a count are found, and all pairs, so what is put forward is a function of the
counts (`Training.forward`), of which training has what fits into words
(`Training.inWord`), and so are the candidates (`Tally.Keeps.candidates`). Each has
the bytes of an event with a count, as many as a symbol holds
(`Training.exists_event_of_gains`).
-/
namespace SymbolCodec
namespace Training
open Table

/-! ### Putting symbols forward -/

def forwardPairs (t : Table) (f : Counts) (left : Nat) : List (Symbol × Nat) :=
  ((Tally.nonzeros (fun right => f (.pair left right)) 0 t.codes).filter fun (right, _) => joins t (t.symbol right)).map
    fun (right, count) => (Symbol.concat (t.symbol left) (t.symbol right), count)

def forwardCode (t : Table) (f : Counts) (fraction : Nat) (config : Config) (code count : Nat) : List (Symbol × Nat) :=
  (t.symbol code, (if (t.symbol code).len = 1 then config.byteWeight.toNat else 1) * count) ::
    if fraction < fullFraction ∧ joins t (t.symbol code) then forwardPairs t f code else []

/-- What counts put forward, in numbers of any size. -/
def forward (t : Table) (f : Counts) (fraction : Nat) (config : Config) : List (Symbol × Nat) :=
  ((Tally.nonzeros (fun code => f (.single code)) 0 t.codes).map fun (code, count) =>
    forwardCode t f fraction config code count).flatten

/-- What is put forward, in words of 64 bits. -/
def inWord (entry : Symbol × Nat) : Symbol × UInt64 := (entry.1, UInt64.ofNat entry.2)

/-- The gains of what counts put forward often enough, byte string by byte string. -/
def gains (t : Table) (f : Counts) (fraction : Nat) (least : UInt64) (config : Config) : Std.HashMap Bytes UInt64 :=
  totals ((((forward t f fraction config).map inWord).filter fun (_, count) => count ≥ least).map fun (s, count) =>
    (s.bytes, count * UInt64.ofNat s.len))

theorem inWord_weight (s : Symbol) (config : Config) (count : Nat) :
    inWord (s, (if s.len = 1 then config.byteWeight.toNat else 1) * count) =
      (s, (if s.len = 1 then config.byteWeight else 1) * UInt64.ofNat count) := by
  rw [inWord, UInt64.ofNat_mul]
  split
  · rw [UInt64.ofNat_toNat]
  · rfl

section
variable {κ : Type} [Tally κ] [LawfulTally κ] {counters : κ} {f : Counts} (keeps : Tally.Keeps counters f)
  {t : Table} (few : t.added.size ≤ maxSymbols)
include keeps few

theorem pairContributions_eq {left : Nat} (inside : left < countedCodes) :
    pairContributions t counters left = .ok ((forwardPairs t f left).map inWord) := by
  rw [pairContributions, keeps.scanPairs (codes_le few) inside, forwardPairs, List.map_map]
  rfl

theorem contributions_eq (fraction : Nat) (config : Config) :
    contributions t counters fraction config = .ok ((forward t f fraction config).map inWord) := by
  rw [contributions, keeps.scanSingles (codes_le few), forward, List.map_flatten, List.map_map]
  refine bind_eq_ok_iff.mpr ⟨_, rfl, bind_eq_ok_iff.mpr ⟨_, mapM_eq_ok ?_, rfl⟩⟩
  rintro ⟨code, count⟩ member
  obtain ⟨_, inside, _⟩ := Tally.mem_nonzeros.mp member
  have pairs := pairContributions_eq keeps few (Nat.lt_of_lt_of_le inside (codes_le few))
  by_cases joined : fraction < fullFraction ∧ joins t (t.symbol code)
  · simp only [joined, and_self, ↓reduceIte, pairs, forwardCode, Function.comp_apply, List.map_cons, inWord_weight]
    rfl
  · simp only [joined, ↓reduceIte, forwardCode, Function.comp_apply, List.map_cons, inWord_weight]
    rfl

end

/-! ### The terminator -/

def terminatorCode (t : Table) : Nat := (t.bytes.get t.terminator.toFin).code

/-- Counts with that of the terminator at the cap. -/
def raiseTerminator (t : Table) (f : Counts) : Counts := f.setSingle (terminatorCode t) singleCap

theorem raiseTerminator_le_cap (t : Table) {f : Counts} {e : Event} (le : f e ≤ e.cap) :
    raiseTerminator t f e ≤ e.cap := by
  rw [raiseTerminator, Counts.setSingle]
  split
  case isTrue raised => exact raised ▸ Nat.min_le_right ..
  case isFalse => exact le

section
variable {t : Table} (wf : t.WellFormed)
include wf

theorem terminatorCode_spec :
    terminatorCode t < t.codes ∧ (t.symbol (terminatorCode t)).bytes = [t.terminator] := by
  rw [terminatorCode, wf.bytes]
  cases latest : t.latest [t.terminator] with
  | none =>
    have byte : t.terminator.toNat < firstCode := t.terminator.toNat_lt
    refine ⟨Nat.lt_of_lt_of_le byte (Nat.le_add_right ..), ?_⟩
    show (t.symbol t.terminator.toNat).bytes = _
    rw [bytes_symbol_of_lt byte, UInt8.ofNat_toNat]
  | some s =>
    obtain ⟨listed, same⟩ := Symbol.of_last?_eq_some latest
    have member := Array.mem_toList_iff.mp listed
    refine ⟨code_lt_codes wf member, ?_⟩
    show (t.symbol s.code).bytes = _
    rw [symbol_code wf member, same]

/-- What has a count once the terminator is raised had one before or is the
    terminator. -/
theorem bytes_of_raiseTerminator {f : Counts} {e : Event} (some : raiseTerminator t f e ≠ 0) :
    f e ≠ 0 ∨ e.bytes t = [t.terminator] := by
  by_cases raised : e = .single (terminatorCode t)
  · rw [raised]
    exact .inr (terminatorCode_spec wf).2
  · rw [raiseTerminator, Counts.setSingle, if_neg raised] at some
    exact .inl some

end

/-! ### Gains -/

theorem mem_foldl_insert (gs : List (Bytes × UInt64)) (bs : Bytes) : ∀ sums : Std.HashMap Bytes UInt64,
    bs ∈ gs.foldl (fun sums (bs, gain) => sums.insert bs (sums.getD bs 0 + gain)) sums ↔
      bs ∈ sums ∨ bs ∈ gs.map Prod.fst := by
  induction gs with
  | nil => simp
  | cons entry gs ih =>
    intro sums
    obtain ⟨bs', gain⟩ := entry
    rw [List.foldl_cons, ih, Std.HashMap.mem_insert, List.map_cons, List.mem_cons, beq_iff_eq, or_assoc,
      or_left_comm, eq_comm]

theorem mem_totals {gs : List (Bytes × UInt64)} {bs : Bytes} : bs ∈ totals gs ↔ bs ∈ gs.map Prod.fst := by
  rw [totals, mem_foldl_insert]
  simp

section
variable {t : Table} (wf : t.WellFormed) {f : Counts}
include wf

theorem bytes_take_symbol {code : Nat} (used : code < t.codes) :
    (t.symbol code).bytes.take maxLength = (t.symbol code).bytes := by
  have normal := normal_symbol wf used
  exact List.take_of_length_le (by rw [normal.length_bytes]; exact normal.le)

theorem exists_event_of_forward {fraction : Nat} {config : Config} {s : Symbol} {n : Nat}
    (member : (s, n) ∈ forward t f fraction config) :
    ∃ e, f e ≠ 0 ∧ s.Normal ∧ s.bytes = (e.bytes t).take maxLength := by
  simp only [forward, List.mem_flatten, List.mem_map] at member
  obtain ⟨_, ⟨⟨code, count⟩, found, rfl⟩, listed⟩ := member
  obtain ⟨_, used, rfl, some⟩ := Tally.mem_nonzeros.mp found
  rcases List.mem_cons.mp listed with alone | after
  · obtain ⟨rfl, _⟩ := Prod.mk.inj alone
    exact ⟨.single code, some, normal_symbol wf used, (bytes_take_symbol wf used).symm⟩
  · split at after
    case isFalse => simp at after
    case isTrue =>
      obtain ⟨⟨right, count⟩, kept, same⟩ := List.mem_map.mp after
      obtain ⟨_, used', rfl, some'⟩ := Tally.mem_nonzeros.mp (List.mem_filter.mp kept).1
      obtain ⟨rfl, _⟩ := Prod.mk.inj same
      have left := normal_symbol wf used
      exact ⟨.pair code right, some', Symbol.normal_concat left.pos _,
        Symbol.bytes_concat left (normal_symbol wf used')⟩

/-- Each candidate has the bytes of an event with a count, as many as a symbol
    holds. -/
theorem exists_event_of_gains {fraction : Nat} {least : UInt64} {config : Config} {bs : Bytes}
    (member : bs ∈ gains t f fraction least config) :
    1 ≤ bs.length ∧ bs.length ≤ maxLength ∧ ∃ e, f e ≠ 0 ∧ bs = (e.bytes t).take maxLength := by
  obtain ⟨⟨_, _⟩, listed, rfl⟩ := List.mem_map.mp (mem_totals.mp member)
  obtain ⟨_, kept, same⟩ := List.mem_map.mp listed
  obtain ⟨⟨s, n⟩, found, rfl⟩ := List.mem_map.mp (List.mem_filter.mp kept).1
  obtain ⟨rfl, _⟩ := Prod.mk.inj same
  obtain ⟨e, some, normal, bytes⟩ := exists_event_of_forward wf found
  have length := normal.length_bytes
  exact ⟨length.symm ▸ normal.pos, length.symm ▸ normal.le, e, some, bytes⟩

end
end Training

/-- What is put forward once the count of the terminator is raised. -/
theorem Training.exists_raised {κ : Type} [Tally κ] [LawfulTally κ] {counters : κ} {f : Counts}
    (keeps : Tally.Keeps counters f) {t : Table} (wf : t.WellFormed) (few : t.added.size ≤ maxSymbols)
    (fraction : Nat) (config : Config) : ∃ raised,
      Tally.setSingle? counters (t.bytes.get t.terminator.toFin).code singleCap = (raised, .ok ()) ∧
        contributions t raised fraction config =
          .ok ((forward t (raiseTerminator t f) fraction config).map inWord) := by
  have inside := Nat.lt_of_lt_of_le (terminatorCode_spec wf).1 (codes_le few)
  obtain ⟨raised, run, kept⟩ := keeps.setSingle? inside singleCap
  exact ⟨raised, run, contributions_eq kept few fraction config⟩

/-- Of a tally that keeps counts the candidates are found, with the terminator
    raised. -/
theorem Tally.Keeps.candidates {κ : Type} [Tally κ] [LawfulTally κ] {counters : κ} {f : Counts}
    (keeps : Tally.Keeps counters f) {t : Table} (wf : t.WellFormed) (few : t.added.size ≤ maxSymbols)
    (fraction : Nat) (least : UInt64) (config : Config) :
    (Training.candidates t counters fraction least config).2 =
      .ok (Training.gains t (Training.raiseTerminator t f) fraction least config) := by
  obtain ⟨raised, run, found⟩ := Training.exists_raised keeps wf few fraction config
  simp only [Training.candidates, run]
  exact bind_eq_ok_iff.mpr ⟨(), rfl, bind_eq_ok_iff.mpr ⟨_, found, rfl⟩⟩

end SymbolCodec
