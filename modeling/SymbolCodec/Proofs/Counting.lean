import SymbolCodec.Training.Count
import SymbolCodec.Proofs.Matching
import SymbolCodec.Proofs.Tallies

/-!
What one pass counts. The events of a line are codes of its matches, or of the
first bytes of these, alone or side by side, so that their bytes stand in the line
(`Training.infix_of_mem_events`) and their codes are counted
(`Training.proper_of_mem_events`). A pass therefore always ends, with the gain of
the lines of the round (`Training.outcome_count`), and a tally then keeps the
counts of the events of these lines (`Tally.Keeps.count`), in which an event with
a count stands in one of the lines (`Training.exists_line_of_counts`).
-/
namespace SymbolCodec

/-- The bytes that an event stands for. -/
def Event.bytes (t : Table) : Event → Bytes
  | single code => (t.symbol code).bytes
  | pair left right => (t.symbol left).bytes ++ (t.symbol right).bytes

theorem infix_flatMap {α : Type} {xs ys : List α} (inner : xs <:+: ys) (f : α → Bytes) :
    xs.flatMap f <:+: ys.flatMap f := by
  obtain ⟨before, after, rfl⟩ := inner
  exact ⟨before.flatMap f, after.flatMap f, by simp only [List.flatMap_append]⟩

namespace Training
open Table

/-! ### Matches side by side -/

theorem withNext_cons (m n : Match) (rest : List Match) :
    withNext (m :: n :: rest) = (m, some n) :: withNext (n :: rest) := rfl

theorem infix_of_mem_withNext {m : Match} {next : Option Match} :
    ∀ {ms : List Match}, (m, next) ∈ withNext ms → m :: next.toList <:+: ms
  | [], member => by simp [withNext] at member
  | [n], member => by
    obtain ⟨rfl, rfl⟩ : m = n ∧ next = none := by simpa [withNext] using member
    exact List.infix_refl _
  | n :: n' :: rest, member => by
    rw [withNext_cons] at member
    rcases List.mem_cons.mp member with here | later
    · obtain ⟨rfl, rfl⟩ := Prod.mk.inj here
      exact (List.prefix_append [m, n'] rest).isInfix
    · exact List.infix_cons (infix_of_mem_withNext later)

/-- An event of a line is that of a match, of its first byte, or of either after
    another match. -/
theorem mem_events_cases {pairs : Bool} {ms : List Match} {e : Event} (member : e ∈ events pairs ms) :
    (∃ m, [m] <:+: ms ∧ (e = .single m.code ∨ e = .single m.first.toNat)) ∨
      ∃ m n, [m, n] <:+: ms ∧ (e = .pair m.code n.code ∨ e = .pair m.code n.first.toNat) := by
  obtain ⟨⟨m, next⟩, listed, source⟩ := List.mem_flatMap.mp member
  have side := infix_of_mem_withNext listed
  rcases List.mem_append.mp source with alone | both
  · refine .inl ⟨m, (List.prefix_append [m] next.toList).isInfix.trans side, ?_⟩
    rcases List.mem_cons.mp alone with rfl | first
    · exact .inl rfl
    · split at first
      case isTrue => exact .inr (List.mem_singleton.mp first)
      case isFalse => simp at first
  · cases next with
    | none => split at both <;> simp at both
    | some n =>
      refine .inr ⟨m, n, side, ?_⟩
      split at both
      case isFalse => simp at both
      case isTrue =>
        rcases List.mem_cons.mp both with rfl | first
        · exact .inl rfl
        · split at first
          case isTrue => exact .inr (List.mem_singleton.mp first)
          case isFalse => simp at first

theorem bytes_first {t : Table} {m : Match} (found : m.Found t) :
    (t.symbol m.first.toNat).bytes = [m.first] ∧ [m.first] <+: (t.symbol m.code).bytes := by
  refine ⟨?_, ?_⟩
  · rw [bytes_symbol_of_lt m.first.toNat_lt, UInt8.ofNat_toNat]
  · obtain ⟨rest, split⟩ := List.head?_eq_some_iff.mp found.head
    rw [split]
    exact List.prefix_append [m.first] rest

section
variable {t : Table} (wf : t.WellFormed)
include wf

theorem infix_of_mem_events {pairs : Bool} {line : Bytes} {e : Event} (member : e ∈ events pairs (t.parse line)) :
    e.bytes t <:+: line := by
  have inner {ms : List Match} (side : ms <:+: t.parse line) :
      ms.flatMap (fun m => (t.symbol m.code).bytes) <:+: line := by
    have bytes := infix_flatMap side fun m => (t.symbol m.code).bytes
    rwa [flatMap_parse wf] at bytes
  rcases mem_events_cases member with ⟨m, side, kind⟩ | ⟨m, n, side, kind⟩
  · have bytes : (t.symbol m.code).bytes <:+: line := by simpa using inner side
    rcases kind with rfl | rfl
    · exact bytes
    · obtain ⟨first, starts⟩ := bytes_first (found_of_mem_parse wf (side.mem (List.mem_singleton.mpr rfl)))
      rw [Event.bytes, first]
      exact starts.isInfix.trans bytes
  · have bytes : (t.symbol m.code).bytes ++ (t.symbol n.code).bytes <:+: line := by simpa using inner side
    rcases kind with rfl | rfl
    · exact bytes
    · obtain ⟨first, starts⟩ := bytes_first (found_of_mem_parse wf (side.mem (by simp : n ∈ [m, n])))
      rw [Event.bytes, first]
      exact ((List.prefix_append_right_inj _).mpr starts).isInfix.trans bytes

variable (few : t.added.size ≤ maxSymbols)
include few

omit wf in
theorem codes_le : t.codes ≤ countedCodes := by
  have size : t.added.size ≤ 255 := few
  show 256 + t.added.size ≤ 512
  omega

theorem proper_of_mem_events {pairs : Bool} {line : Bytes} {e : Event} (member : e ∈ events pairs (t.parse line)) :
    e.Proper := by
  have code {m : Match} (listed : m ∈ t.parse line) : m.code < countedCodes :=
    Nat.lt_of_lt_of_le (found_of_mem_parse wf listed).code_lt (codes_le few)
  have first (m : Match) : m.first.toNat < countedCodes := Nat.lt_trans m.first.toNat_lt (by decide)
  rcases mem_events_cases member with ⟨m, side, kind⟩ | ⟨m, n, side, kind⟩
  · have listed : m ∈ t.parse line := side.mem (by simp)
    rcases kind with rfl | rfl
    · exact code listed
    · exact first m
  · have left : m ∈ t.parse line := side.mem (by simp)
    have right : n ∈ t.parse line := side.mem (by simp)
    rcases kind with rfl | rfl
    · exact ⟨code left, code right⟩
    · exact ⟨code left, first n⟩

end

/-! ### One pass -/

def roundEvents (t : Table) (sample : Sample) (fraction : Nat) : List Event :=
  ((sample.roundLines fraction).map t.parse).flatMap (events (fraction < fullFraction))

/-- What a round counts from the start. -/
def counts (t : Table) (sample : Sample) (fraction : Nat) : Counts :=
  (roundEvents t sample fraction).foldl Counts.record .zero

/-- The sum of what the lines of a round save. -/
def roundGain (t : Table) (sample : Sample) (fraction : Nat) : Int :=
  ((sample.roundLines fraction).map fun line => gain (t.parse line)).sum

theorem mem_roundEvents {t : Table} {sample : Sample} {fraction : Nat} {e : Event} :
    e ∈ roundEvents t sample fraction ↔
      ∃ line ∈ sample.roundLines fraction, e ∈ events (fraction < fullFraction) (t.parse line) := by
  simp only [roundEvents, List.mem_flatMap, List.mem_map, exists_exists_and_eq_and]

theorem mem_lines_of_mem_roundLines {sample : Sample} {fraction : Nat} {line : Bytes}
    (member : line ∈ sample.roundLines fraction) : line ∈ sample.lines := by
  obtain ⟨⟨line', i⟩, listed, rfl⟩ := List.mem_map.mp member
  exact List.fst_mem_of_mem_zipIdx (List.mem_filter.mp listed).1

/-- Each event is counted as often as it comes, up to its cap. -/
theorem counts_eq (t : Table) (sample : Sample) (fraction : Nat) (e : Event) :
    counts t sample fraction e = min ((roundEvents t sample fraction).count e) e.cap := by
  rw [counts, Counts.foldl_record _ _ (Nat.zero_le _)]
  exact congrArg (min · e.cap) (Nat.zero_add _)

/-- What has a count stands in a line of the sample. -/
theorem exists_line_of_counts {t : Table} (wf : t.WellFormed) {sample : Sample} {fraction : Nat} {e : Event}
    (some : counts t sample fraction e ≠ 0) : ∃ line ∈ sample.lines, e.bytes t <:+: line := by
  have occurs : e ∈ roundEvents t sample fraction := by
    rw [counts_eq] at some
    exact List.count_pos_iff.mp (by omega)
  obtain ⟨line, listed, member⟩ := mem_roundEvents.mp occurs
  exact ⟨line, mem_lines_of_mem_roundLines listed, infix_of_mem_events wf member⟩

section
variable {t : Table} (wf : t.WellFormed) (few : t.added.size ≤ maxSymbols)
include wf few

theorem proper_of_mem_roundEvents {sample : Sample} {fraction : Nat} {e : Event}
    (member : e ∈ roundEvents t sample fraction) : e.Proper := by
  obtain ⟨line, _, listed⟩ := mem_roundEvents.mp member
  exact proper_of_mem_events wf few listed

/-- A pass ends, whatever the counts before it, with the gain of the lines of the
    round. -/
theorem outcome_count {κ : Type} [Tally κ] (sample : Sample) (fraction : Nat) (counters : κ) :
    (count t sample fraction counters).2 = .ok (roundGain t sample fraction) := by
  have all : (roundEvents t sample fraction).all Event.inRange = true :=
    List.all_eq_true.mpr fun e member => (proper_of_mem_roundEvents wf few member).inRange
  rw [roundEvents] at all
  simp only [count, Tally.recordAll, all, ↓reduceIte, Except.map, roundGain, foldl_add_eq_sum, List.map_map,
    Function.comp_def]

end
end Training

theorem Tally.Keeps.count {κ : Type} [Tally κ] [LawfulTally κ] {counters : κ} {f : Counts}
    (keeps : Tally.Keeps counters f) {t : Table} (wf : t.WellFormed) (few : t.added.size ≤ maxSymbols)
    (sample : Sample) (fraction : Nat) :
    Tally.Keeps (Training.count t sample fraction counters).1
      ((Training.roundEvents t sample fraction).foldl Counts.record f) := by
  have proper : ∀ e ∈ Training.roundEvents t sample fraction, e.Proper :=
    fun _ member => Training.proper_of_mem_roundEvents wf few member
  obtain ⟨t', run, kept⟩ := keeps.recordAll proper
  have same : (Training.count t sample fraction counters).1 = t' := by
    rw [Training.roundEvents] at run
    simp only [Training.count, run]
  rwa [same]

end SymbolCodec
