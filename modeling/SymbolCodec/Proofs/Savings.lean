import SymbolCodec.Tally.Layout
import SymbolCodec.Proofs.Counting
import SymbolCodec.Proofs.Greedy
import SymbolCodec.Proofs.Lookups

/-!
The gain of a table is what it saves. The codes that a finished table writes for a
chunk are as long as the matches of the chunk cost in the table under construction
(`Encoder.length_greedy_ofTable`), so that the gain of a line that is one chunk is
its length less the number of bytes that it is encoded to, and the gain of a pass
is the sum over the lines that the round does not leave out
(`Training.exists_encoder_count_savings`).
-/
namespace SymbolCodec

/-! ### The length of a line in codes -/

namespace Table

theorem sum_len_parse {t : Table} (wf : t.WellFormed) (line : Bytes) :
    ((t.parse line).map Match.len).sum = line.length := by
  have bytes := congrArg List.length (flatMap_parse wf line)
  rw [List.length_flatMap] at bytes
  rw [← bytes]
  congr 1
  refine List.map_congr_left fun m member => ?_
  have found := found_of_mem_parse wf member
  rw [(normal_symbol wf found.code_lt).length_bytes, found.len_eq]

end Table

namespace Encoder
open Table Training

theorem greedyLine_of_short (e : Encoder) {line : Bytes} (short : line.length ≤ chunkLength) :
    e.greedyLine line = e.greedy line := by
  cases line with
  | nil => simp [Encoder.greedy]
  | cons b rest => rw [greedyLine, chunks_of_short (List.cons_ne_nil b rest) short, List.flatMap_singleton]

theorem length_greedy_ofTable {t : Table} (wf : t.WellFormed) {e : Encoder} (run : ofTable t = .ok e) (line : Bytes) :
    (e.greedy line).length = ((t.parse line).map fun m => cost m.code).sum := by
  induction line using parse_induction (t := t) with
  | nil => simp [greedy]
  | cons b rest ih =>
    rw [parse_cons, List.map_cons, List.sum_cons, ← ih, greedy, find?_ofTable wf run b rest]
    have finds := finds_longest wf b rest
    generalize t.longest (b :: rest) = code at finds ⊢
    cases finds with
    | @byte b rest split =>
      have byte : b.toNat < firstCode := b.toNat_lt
      have len : (t.symbol b.toNat).len = 1 := by rw [symbol_of_lt byte]; rfl
      simp only [byte, ↓reduceIte, cost, len, List.length_cons, Nat.sub_self, List.drop_zero]
      omega
    | @symbol s longest =>
      have added : ¬ s.code < firstCode := Nat.not_lt_of_le (firstCode_le_code wf longest.mem)
      simp only [added, ↓reduceIte, cost, symbol_newCode wf run longest.mem, symbol_code wf longest.mem,
        List.length_cons]
      exact Nat.add_comm ..

end Encoder

/-! ### The gain of a pass -/

/-- The lines that a round at a fraction does not leave out, those without bytes
    included. -/
def Sample.keptLines (s : Sample) (fraction : Nat) : List Bytes :=
  (s.lines.zipIdx.filter fun (_, i) => !(s.skipsLines && skipsLine i fraction)).map Prod.fst

private theorem sum_filter_isEmpty {f : Bytes → Int} (nil : f [] = 0) (kept : Nat → Bool)
    (entries : List (Bytes × Nat)) :
    (((entries.filter fun (line, i) => !line.isEmpty && kept i).map Prod.fst).map f).sum =
      (((entries.filter fun (_, i) => kept i).map Prod.fst).map f).sum := by
  induction entries with
  | nil => rfl
  | cons entry entries ih =>
    obtain ⟨line, i⟩ := entry
    cases inside : kept i with
    | false => simpa [List.filter_cons, inside] using ih
    | true =>
      cases line with
      | nil => simpa [List.filter_cons, inside, nil] using ih
      | cons b rest => simpa [List.filter_cons, inside] using ih

/-- What is nothing for lines without bytes sums up over the lines that a round
    counts as over all that it does not leave out. -/
theorem Sample.sum_roundLines (s : Sample) (fraction : Nat) {f : Bytes → Int} (nil : f [] = 0) :
    ((s.roundLines fraction).map f).sum = ((s.keptLines fraction).map f).sum :=
  sum_filter_isEmpty nil (fun i => !(s.skipsLines && skipsLine i fraction)) s.lines.zipIdx

namespace Training
open Table

theorem gain_cons (m : Match) (ms : List Match) : gain (m :: ms) = (m.len : Int) - cost m.code + gain ms := by
  simp only [gain, foldl_add_eq_sum, List.map_cons, List.sum_cons]

theorem gain_eq (ms : List Match) :
    gain ms = (ms.map Match.len).sum - ((ms.map fun m => cost m.code).sum : Nat) := by
  induction ms with
  | nil => rfl
  | cons m ms ih =>
    rw [gain_cons, ih]
    simp only [List.map_cons, List.sum_cons, Nat.cast_add]
    omega

theorem gain_parse {t : Table} (wf : t.WellFormed) {e : Encoder} (run : Encoder.ofTable t = .ok e) (line : Bytes) :
    gain (t.parse line) = (line.length : Int) - (e.greedy line).length := by
  rw [gain_eq, Table.sum_len_parse wf, Encoder.length_greedy_ofTable wf run]

/-- A pass over a sample whose lines are no longer than a chunk gives what the
    finished table saves on the lines of the round: their length less the number of
    bytes that they are encoded to, whatever was counted before. -/
theorem exists_encoder_count_savings {κ : Type} [Tally κ] {terminator : UInt8} {zeroTerminated : Bool}
    {symbols : List Symbol} {t : Table} (built : (Table.empty terminator zeroTerminated).addAll symbols = .ok t)
    (few : t.added.size ≤ maxSymbols) {sample : Sample} (short : ∀ line ∈ sample.lines, line.length ≤ chunkLength)
    (fraction : Nat) (counters : κ) :
    ∃ e, Encoder.ofTable t = .ok e ∧ ∃ encoded : Bytes → Nat,
      (∀ line before, ∃ output, e.encode line before = .ok (output, encoded line)) ∧
      (count t sample fraction counters).2 =
        .ok ((sample.keptLines fraction).map fun line => (line.length : Int) - encoded line).sum := by
  have wf := wellFormed_addAll built
  obtain ⟨e, run⟩ := Encoder.exists_ofTable few
  have finished := Encoder.wellFormed_ofTable wf run
  have codes := finished.lineCodes_eq_greedyLine (Encoder.suffixFree_ofTable wf run) e.strategy
  refine ⟨e, run, fun line => (e.greedyLine line).length, fun line before => ?_, ?_⟩
  · refine ⟨before ++ e.greedyLine line, ?_⟩
    rw [finished.encode_eq line before, codes]
  · rw [outcome_count wf few, roundGain, ← Sample.sum_roundLines sample fraction (by simp)]
    congr 2
    refine List.map_congr_left fun line member => ?_
    have chunk := Encoder.greedyLine_of_short e (short line (mem_lines_of_mem_roundLines member))
    simp only [gain_parse wf run, chunk]

/-- Two symbols, and a sample with a line of theirs, one without bytes and one of
    escapes only. -/
theorem exists_encoder_count_savings_escapes : ∃ (t : Table) (sample : Sample),
    (Table.empty 0 false).addAll [.ofBytes [97, 98], .ofBytes [97]] = .ok t ∧ t.added.size ≤ maxSymbols ∧
      sample.lines = [[97, 98, 97], [], [120, 121, 122, 120]] ∧ (∀ line ∈ sample.lines, line.length ≤ chunkLength) ∧
      ∃ e, Encoder.ofTable t = .ok e ∧ ∃ encoded : Bytes → Nat,
        (∀ line before, ∃ output, e.encode line before = .ok (output, encoded line)) ∧
        (count t sample 8 (Counters.empty .halved)).2 =
          .ok ((sample.keptLines 8).map fun line => (line.length : Int) - encoded line).sum := by
  obtain ⟨t, built, size⟩ : ∃ t, (Table.empty 0 false).addAll [.ofBytes [97, 98], .ofBytes [97]] = .ok t ∧
      t.added.size = 2 := ⟨_, rfl, rfl⟩
  have few : t.added.size ≤ maxSymbols := by rw [size]; decide
  let sample : Sample := ⟨#[97, 98, 97, 120, 121, 122, 120], #[0, 3, 3, 7]⟩
  have lines : sample.lines = [[97, 98, 97], [], [120, 121, 122, 120]] := by decide
  have short : ∀ line ∈ sample.lines, line.length ≤ chunkLength := by rw [lines]; decide
  exact ⟨t, sample, built, few, lines, short, exists_encoder_count_savings built few short 8 (Counters.empty .halved)⟩

end Training
end SymbolCodec
