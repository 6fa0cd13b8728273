import SymbolCodec.Encoder.Compress
import SymbolCodec.Proofs.Chunks

/-!
The codes of lines. What is written for a line are the codes of its chunks
(`Encoder.lineCodes`), and a batch holds those of the lines it completes, from
the first one on (`Encoder.WellFormed.compressInto_eq`). No write runs out of the
output, and an output as long as the bounds of the lines say completes all of
them (`Encoder.WellFormed.compress_eq`).
-/
namespace SymbolCodec

/-- The bound of a line is the room that its chunks ask for one after another. -/
theorem bound_eq_sum (line : Bytes) :
    bound line.length = ((chunks line).map fun chunk => 2 * chunk.length + 7).sum := by
  unfold chunks
  fun_induction cutEvery chunkLength line with
  | case1 => rfl
  | case2 b rest ih =>
    simp only [List.map_cons, List.sum_cons, ← ih, bound, chunkLength, List.length_cons, List.length_take,
      List.length_drop]
    omega

theorem chunks_of_short {line : Bytes} (nonempty : line ≠ []) (short : line.length ≤ chunkLength) :
    chunks line = [line] := by
  cases line with
  | nil => exact absurd rfl nonempty
  | cons b rest =>
    have inside : rest.length ≤ chunkLength - 1 := Nat.le_sub_one_of_lt short
    rw [chunks, cutEvery, List.take_of_length_le inside, List.drop_of_length_le inside, cutEvery]

namespace Encoder

/-- The codes of a line, chunk by chunk. -/
def lineCodes (e : Encoder) (strategy : Strategy) (line : Bytes) : Bytes :=
  (chunks line).flatMap (e.codes strategy)

/-- The codes of a line that is one chunk. -/
theorem lineCodes_of_short (e : Encoder) (strategy : Strategy) {line : Bytes} (short : line.length ≤ chunkLength) :
    e.lineCodes strategy line = e.codes strategy line := by
  cases line with
  | nil => simp [lineCodes, chunks, cutEvery, codes]
  | cons b rest => rw [lineCodes, chunks_of_short (List.cons_ne_nil b rest) short, List.flatMap_singleton]

namespace WellFormed
variable {e : Encoder} (wf : e.WellFormed)
include wf

theorem length_codes_le (strategy : Strategy) (chunk : Bytes) : (e.codes strategy chunk).length ≤ 2 * chunk.length :=
  wf.length_le_of_spells (wf.spells_codes strategy chunk)

/-- The codes of a line spell it. -/
theorem spells_lineCodes (strategy : Strategy) (line : Bytes) : e.Spells (e.lineCodes strategy line) line := by
  have pieces (cs : List Bytes) : e.Spells (cs.flatMap (e.codes strategy)) cs.flatten := by
    induction cs with
    | nil => exact .nil
    | cons chunk rest ih => exact (wf.spells_codes strategy chunk).append ih
  have whole := pieces (chunks line)
  rwa [chunks, flatten_cutEvery] at whole

theorem chunkCodes_eq (strategy : Strategy) (before chunk : Bytes) {room : Nat} (enough : 2 * chunk.length ≤ room) :
    e.chunkCodes strategy (e.window before chunk) chunk.length room = .ok (e.codes strategy chunk) :=
  wf.chunkCodes_window strategy chunk (before.drop (chunk.length + 1)) enough

/-! ### Chunks -/

theorem writeChunks_cons (strategy : Strategy) {size : Nat} (window : Bytes) {written : Array UInt8} {chunk : Bytes}
    (cs : List Bytes) (fits : ¬ 2 * chunk.length + 7 > size - written.size) :
    e.writeChunks strategy size window written (chunk :: cs) =
      e.writeChunks strategy size (e.window window chunk) (written ++ e.codes strategy chunk) cs := by
  have enough : 2 * chunk.length ≤ size - written.size := by omega
  have codes := wf.chunkCodes_eq strategy window chunk enough
  rw [writeChunks, if_neg fits]
  simp only [codes]
  rfl

/-- The chunks of a line are written up to one that might not fit. -/
theorem writeChunks_eq (strategy : Strategy) (size : Nat) : ∀ (cs : List Bytes) (window : Bytes)
    (written : Array UInt8),
    ∃ after complete rest, cs = complete ++ rest ∧
      ((cs.map fun chunk => 2 * chunk.length + 7).sum ≤ size - written.size → rest = []) ∧
      e.writeChunks strategy size window written cs =
        .ok (after, written ++ complete.flatMap (e.codes strategy), rest.isEmpty)
  | [], window, written => ⟨window, [], [], rfl, fun _ => rfl, by simp [writeChunks]⟩
  | chunk :: cs, window, written => by
    by_cases full : 2 * chunk.length + 7 > size - written.size
    · refine ⟨window, [], chunk :: cs, rfl, ?_, by simp [writeChunks, full]⟩
      simp only [List.map_cons, List.sum_cons]
      omega
    · have short := wf.length_codes_le strategy chunk
      obtain ⟨after, complete, rest, split, fits, run⟩ :=
        writeChunks_eq strategy size cs (e.window window chunk) (written ++ e.codes strategy chunk)
      refine ⟨after, chunk :: complete, rest, by rw [split, List.cons_append], ?_, ?_⟩
      · intro room
        simp only [List.map_cons, List.sum_cons] at room
        exact fits (by rw [size_append_list]; omega)
      · rw [wf.writeChunks_cons strategy window cs full, List.flatMap_cons, ← append_list_append]
        exact run

omit wf in
/-- Chunks that are all written add the codes of the line. -/
theorem lineCodes_of_complete {strategy : Strategy} {line : Bytes} {complete rest : List Bytes}
    (split : chunks line = complete ++ rest) (all : rest.isEmpty = true) :
    complete.flatMap (e.codes strategy) = e.lineCodes strategy line := by
  rw [List.isEmpty_iff.mp all, List.append_nil] at split
  rw [lineCodes, split]

/-! ### Lines -/

/-- Lines are completed one after another up to one that might not fit, and at least as
    many as there is room for by their bounds. -/
theorem writeLines_eq (strategy : Strategy) (size : Nat) : ∀ (lines : List Bytes) (window : Bytes) (batch : Batch),
    batch.complete = batch.written.size →
    ∃ n ≤ lines.length, ∃ beyond : Bytes,
      (∀ k ≤ lines.length,
        ((lines.take k).map fun line => bound line.length).sum ≤ size - batch.written.size → k ≤ n) ∧
      e.writeLines strategy size window batch lines =
        .ok ⟨batch.written ++ ((lines.take n).flatMap (e.lineCodes strategy) ++ beyond),
          batch.written.size + ((lines.take n).flatMap (e.lineCodes strategy)).length,
          batch.lens ++ (lines.take n).map fun line => (e.lineCodes strategy line).length, batch.done + n⟩
  | [], window, batch, whole => ⟨0, Nat.le_refl 0, [], fun _ le _ => le, by simp [writeLines, ← whole]⟩
  | line :: lines, window, batch, whole => by
    obtain ⟨after, complete, rest, split, fits, run⟩ :=
      wf.writeChunks_eq strategy size (chunks line) window batch.written
    by_cases all : rest.isEmpty = true
    · rw [lineCodes_of_complete split all] at run
      have short := wf.length_le_of_spells (wf.spells_lineCodes strategy line)
      have within : 2 * line.length ≤ bound line.length := by simp only [bound]; omega
      obtain ⟨n, le, beyond, enough, later⟩ := writeLines_eq strategy size lines after
        ⟨batch.written ++ e.lineCodes strategy line, (batch.written ++ e.lineCodes strategy line).size,
          batch.lens.push ((batch.written ++ e.lineCodes strategy line).size - batch.complete), batch.done + 1⟩ rfl
      refine ⟨n + 1, by simpa using le, beyond, ?_, ?_⟩
      · intro k inside room
        cases k with
        | zero => exact Nat.zero_le _
        | succ k =>
          simp only [List.take_succ_cons, List.map_cons, List.sum_cons, List.length_cons] at inside room
          exact Nat.succ_le_succ (enough k (by omega) (by rw [size_append_list]; omega))
      · rw [writeLines, run]
        simp only [all]
        refine later.trans ?_
        simp only [List.take_succ_cons, List.flatMap_cons, List.map_cons, List.length_append, size_append_list, whole,
          append_list_append, List.append_assoc]
        congr 2
        · omega
        · apply Array.ext'
          simp
        · omega
    -- What was written of a line that does not fit stays behind those that do.
    · refine ⟨0, Nat.zero_le _, complete.flatMap (e.codes strategy), ?_, ?_⟩
      · intro k _ room
        cases k with
        | zero => exact Nat.le_refl 0
        | succ k =>
          simp only [List.take_succ_cons, List.map_cons, List.sum_cons] at room
          have none := fits (by rw [← bound_eq_sum]; omega)
          exact absurd (List.isEmpty_iff.mpr none) all
      · rw [writeLines, run]
        simp only [Bool.not_eq_true] at all
        simp [all, pure, Except.pure, bind, Except.bind, ← whole]

/-- A batch holds the codes of the lines that it completes, and their lengths after those
    given. The first lines are among them as far as there is room for their bounds. -/
theorem exists_compressInto (strategy : Strategy) (size : Nat) (lines : List Bytes) (lens : Array Nat) :
    ∃ batch, e.compressInto strategy size lines lens = .ok batch ∧ batch.done ≤ lines.length ∧
      batch.codes = (lines.take batch.done).flatMap (e.lineCodes strategy) ∧
      batch.lens = lens ++ (lines.take batch.done).map (fun line => (e.lineCodes strategy line).length) ∧
      ∀ k ≤ lines.length, ((lines.take k).map fun line => bound line.length).sum ≤ size → k ≤ batch.done := by
  obtain ⟨n, le, beyond, enough, run⟩ := wf.writeLines_eq strategy size lines emptyWindow ⟨#[], 0, lens, 0⟩ rfl
  refine ⟨_, run, by simpa using le, ?_, by simp, fun k inside room => by simpa using enough k inside room⟩
  simp [Batch.codes]

/-- A batch completes all lines where there is room for the bounds of all. -/
theorem compressInto_eq (strategy : Strategy) (size : Nat) (lines : List Bytes) (lens : Array Nat) :
    ∃ batch, e.compressInto strategy size lines lens = .ok batch ∧ batch.done ≤ lines.length ∧
      batch.codes = (lines.take batch.done).flatMap (e.lineCodes strategy) ∧
      batch.lens = lens ++ (lines.take batch.done).map (fun line => (e.lineCodes strategy line).length) ∧
      ((lines.map fun line => bound line.length).sum ≤ size → batch.done = lines.length) := by
  obtain ⟨batch, run, le, codes, lens, enough⟩ := wf.exists_compressInto strategy size lines lens
  refine ⟨batch, run, le, codes, lens, fun room => Nat.le_antisymm le (enough _ (Nat.le_refl _) ?_)⟩
  rwa [List.take_length]

/-- All lines are encoded, whatever they are. -/
theorem compress_eq (lines : List Bytes) :
    e.compress lines = .ok (lines.flatMap (e.lineCodes e.strategy),
      lines.map fun line => (e.lineCodes e.strategy line).length) := by
  obtain ⟨batch, run, _, codes, lens, enough⟩ :=
    wf.compressInto_eq e.strategy (lines.map fun line => bound line.length).sum lines #[]
  rw [enough (Nat.le_refl _), List.take_length] at codes lens
  rw [compress, foldl_add_eq_sum, run]
  show Except.ok (batch.codes, batch.lens.toList) = _
  rw [codes, lens]
  simp

/-! ### Strings -/

theorem encodeChunks_eq (size : Nat) : ∀ (cs : List Bytes) (window : Bytes) (written : Array UInt8),
    (cs.map fun chunk => 2 * chunk.length + 7).sum ≤ size - written.size →
      e.encodeChunks size window written cs = .ok (written ++ cs.flatMap (e.codes e.strategy))
  | [], window, written, _ => by simp [encodeChunks]
  | chunk :: cs, window, written, enough => by
    simp only [List.map_cons, List.sum_cons] at enough
    have short := wf.length_codes_le e.strategy chunk
    rw [encodeChunks, wf.chunkCodes_eq e.strategy window chunk (by omega), List.flatMap_cons, ← append_list_append]
    exact encodeChunks_eq size cs (e.window window chunk) (written ++ e.codes e.strategy chunk)
      (by rw [size_append_list]; omega)

/-- A string is encoded after what is in an output. -/
theorem encode_eq (data : Bytes) (output : Array UInt8) :
    e.encode data output =
      .ok (output ++ e.lineCodes e.strategy data, (e.lineCodes e.strategy data).length) := by
  have run := wf.encodeChunks_eq (output.size + bound data.length) (chunks data) emptyWindow output
    (by rw [← bound_eq_sum]; omega)
  rw [encode, run]
  show Except.ok (output ++ e.lineCodes e.strategy data, (output ++ e.lineCodes e.strategy data).size - output.size) = _
  rw [size_append_list, Nat.add_sub_cancel_left]

end WellFormed
end Encoder
end SymbolCodec
