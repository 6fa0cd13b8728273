import SymbolCodec.Proofs.Batches
import SymbolCodec.Proofs.Finishing

/-!
The strategies against the plain rule. Where no longer symbol starts with one
below the limit of the suffixes, an encoder writes what the plain rule gives, for
each line and for each chunk alone, whatever the strategy
(`Encoder.FollowsGreedy`, `Encoder.WellFormed.followsGreedy`). That is so for the
encoder of every table (`Encoder.followsGreedy_ofTable`).
-/
namespace SymbolCodec.Encoder

/-- An encoder writes the codes of the plain rule. -/
structure FollowsGreedy (e : Encoder) : Prop where
  /-- The lines of a batch have the codes of each line alone, and these are all
      lines if the output is as long as their bounds say. -/
  batch : ∀ (strategy : Strategy) (size : Nat) (lines : List Bytes) (lens : Array Nat),
    ∃ batch, e.compressInto strategy size lines lens = .ok batch ∧
      batch.codes = (lines.take batch.done).flatMap e.greedyLine ∧
      batch.lens = lens ++ (lines.take batch.done).map (fun line => (e.greedyLine line).length) ∧
      ((lines.map fun line => bound line.length).sum ≤ size → batch.done = lines.length)
  /-- Each strategy makes the same batch. -/
  strategies : ∀ (strategy other : Strategy) (size : Nat) (lines : List Bytes) (lens : Array Nat),
    e.compressInto strategy size lines lens = e.compressInto other size lines lens
  /-- Whatever earlier chunks have left in the window does not matter. -/
  chunk : ∀ (strategy : Strategy) (stale chunk : Bytes) (room : Nat), 2 * chunk.length ≤ room →
    e.chunkCodes strategy (e.window stale chunk) chunk.length room = .ok (e.greedy chunk)

namespace WellFormed
variable {e : Encoder} (wf : e.WellFormed)
include wf

theorem lineCodes_eq_greedyLine (free : e.SuffixFree) (strategy : Strategy) :
    e.lineCodes strategy = e.greedyLine := by
  have codes : e.codes strategy = e.greedy := funext (wf.codes_eq_greedy fun _ => wf.pairsAlone free)
  funext line
  rw [lineCodes, greedyLine, codes]

/-! ### Other strategies -/

section
variable {strategy other : Strategy} (same : e.codes strategy = e.codes other)
include same

theorem writeChunks_congr (size : Nat) : ∀ (cs : List Bytes) (window : Bytes) (written : Array UInt8),
    e.writeChunks strategy size window written cs = e.writeChunks other size window written cs
  | [], _, _ => by rw [writeChunks, writeChunks]
  | chunk :: cs, window, written => by
    by_cases full : 2 * chunk.length + 7 > size - written.size
    · rw [writeChunks, if_pos full, writeChunks, if_pos full]
    · rw [wf.writeChunks_cons strategy window cs full, wf.writeChunks_cons other window cs full, same]
      exact writeChunks_congr size cs (e.window window chunk) (written ++ e.codes other chunk)

theorem writeLines_congr (size : Nat) : ∀ (lines : List Bytes) (window : Bytes) (batch : Batch),
    e.writeLines strategy size window batch lines = e.writeLines other size window batch lines
  | [], _, _ => by rw [writeLines, writeLines]
  | line :: lines, window, batch => by
    simp only [writeLines, wf.writeChunks_congr same, writeLines_congr size lines]

/-- Strategies that write the same codes for chunks make the same batches. -/
theorem compressInto_congr (size : Nat) (lines : List Bytes) (lens : Array Nat) :
    e.compressInto strategy size lines lens = e.compressInto other size lines lens :=
  wf.writeLines_congr same size lines emptyWindow ⟨#[], 0, lens, 0⟩

end

/-! ### The plain rule -/

theorem followsGreedy (free : e.SuffixFree) : e.FollowsGreedy where
  batch := by
    intro strategy size lines lens
    obtain ⟨batch, run, _, found⟩ := wf.compressInto_eq strategy size lines lens
    rw [wf.lineCodes_eq_greedyLine free strategy] at found
    exact ⟨batch, run, found⟩
  strategies := by
    intro strategy other size lines lens
    have alone := wf.pairsAlone free
    have same : e.codes strategy = e.codes other := by
      funext chunk
      rw [wf.codes_eq_greedy fun _ => alone, wf.codes_eq_greedy fun _ => alone]
    exact wf.compressInto_congr same size lines lens
  chunk := by
    intro strategy stale chunk room enough
    rw [wf.chunkCodes_eq strategy stale chunk enough, wf.codes_eq_greedy fun _ => wf.pairsAlone free]

end WellFormed

/-- Whatever symbols are added to a table, its encoder writes the codes of the
    plain rule in every strategy. -/
theorem followsGreedy_ofTable {terminator : UInt8} {zeroTerminated : Bool} {symbols : List Symbol} {t : Table}
    (built : (Table.empty terminator zeroTerminated).addAll symbols = .ok t) (few : t.added.size ≤ maxSymbols) :
    ∃ e, ofTable t = .ok e ∧ e.FollowsGreedy := by
  obtain ⟨e, run⟩ := exists_ofTable few
  have table := Table.wellFormed_addAll built
  exact ⟨e, run, (wellFormed_ofTable table run).followsGreedy (suffixFree_ofTable table run)⟩

/-- Byte 0 kept, a pair that a longer symbol starts with, and one that none
    does. -/
theorem followsGreedy_ofTable_extended : ∃ t e,
    (Table.empty 0 true).addAll [.ofBytes [0], .ofBytes [97, 98], .ofBytes [97, 98, 99, 100], .ofBytes [99, 100]] =
      .ok t ∧ t.added.size = 4 ∧ t.added.size ≤ maxSymbols ∧ ofTable t = .ok e ∧ e.FollowsGreedy := by
  obtain ⟨t, built, size⟩ : ∃ t, (Table.empty 0 true).addAll [.ofBytes [0], .ofBytes [97, 98],
      .ofBytes [97, 98, 99, 100], .ofBytes [99, 100]] = .ok t ∧ t.added.size = 4 := ⟨_, rfl, rfl⟩
  have few : t.added.size ≤ maxSymbols := by rw [size]; decide
  obtain ⟨e, run, follows⟩ := followsGreedy_ofTable built few
  exact ⟨t, e, built, size, few, run, follows⟩

end SymbolCodec.Encoder
