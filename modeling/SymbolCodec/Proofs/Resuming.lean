import SymbolCodec.Proofs.Batches
import SymbolCodec.Proofs.Finishing

/-!
Compression in parts. Lines that one output does not take go into the next
(`Encoder.advance`), and whatever the sizes of the outputs, what has been written
is at each point that of the first lines alone (`Encoder.WellFormed.exists_advanceAll`):
a line that did not fit leaves no codes and no length behind. So nothing depends on
where the work is cut (`Encoder.Resumable`, `Encoder.resumable_ofTable`).
-/
namespace SymbolCodec

/-- How far some lines have been compressed. -/
structure Progress where
  /-- The number of complete lines. -/
  done : Nat
  codes : Bytes
  /-- The lengths of encoded lines, after those that were there before. -/
  lens : Array Nat
  deriving Repr, DecidableEq

/-- The codes of a batch are as much of its output as their number says. -/
theorem Batch.take_written (batch : Batch) : batch.written.toList.take batch.codes.length = batch.codes := by
  simp [Batch.codes]

namespace Encoder

/-- Goes on with the lines that are left, into one more output. -/
def advance (e : Encoder) (lines : List Bytes) (p : Progress) (size : Nat) : Except Fault Progress := do
  let batch ← e.compressInto e.strategy size (lines.drop p.done) p.lens
  return ⟨p.done + batch.done, p.codes ++ batch.codes, batch.lens⟩

/-- Goes on with the lines that are left, into outputs of the given sizes one after
    another. -/
def advanceAll (e : Encoder) (lines : List Bytes) (p : Progress) (sizes : List Nat) : Except Fault Progress :=
  sizes.foldlM (e.advance lines) p

/-! ### The lengths given -/

theorem writeLines_lens (e : Encoder) (strategy : Strategy) (size : Nat) (lens : Array Nat) :
    ∀ (lines : List Bytes) (window : Bytes) (batch : Batch),
      e.writeLines strategy size window { batch with lens := lens ++ batch.lens } lines =
        (e.writeLines strategy size window batch lines).map fun b => { b with lens := lens ++ b.lens } := by
  intro lines
  induction lines with
  | nil => intro window batch; rfl
  | cons line rest ih =>
    intro window batch
    rw [writeLines, writeLines]
    cases e.writeChunks strategy size window batch.written (chunks line) with
    | error what => rfl
    | ok result =>
      obtain ⟨window, written, fits⟩ := result
      cases fits with
      | false => rfl
      | true =>
        have pushed (len : Nat) : (lens ++ batch.lens).push len = lens ++ batch.lens.push len := by simp
        show e.writeLines strategy size window ⟨_, _, (lens ++ batch.lens).push _, _⟩ rest = _
        rw [pushed]
        exact ih window ⟨written, written.size, batch.lens.push (written.size - batch.complete), batch.done + 1⟩

/-- The lengths that are there before do not matter and stay as they are. -/
theorem compressInto_lens (e : Encoder) (strategy : Strategy) (size : Nat) (lines : List Bytes) (lens : Array Nat) :
    e.compressInto strategy size lines lens =
      (e.compressInto strategy size lines #[]).map fun batch => { batch with lens := lens ++ batch.lens } := by
  have added := e.writeLines_lens strategy size lens lines emptyWindow ⟨#[], 0, #[], 0⟩
  rw [Array.append_empty] at added
  exact added

/-! ### Outputs one after another -/

/-- What has been written of some lines is what belongs to the first of them, as
    many as are done. -/
structure Aligned (e : Encoder) (lines : List Bytes) (lens : Array Nat) (p : Progress) : Prop where
  le : p.done ≤ lines.length
  codes : p.codes = (lines.take p.done).flatMap (e.lineCodes e.strategy)
  lens : p.lens = lens ++ (lines.take p.done).map fun line => (e.lineCodes e.strategy line).length

theorem aligned_start (e : Encoder) (lines : List Bytes) (lens : Array Nat) : e.Aligned lines lens ⟨0, [], lens⟩ where
  le := Nat.zero_le _
  codes := rfl
  lens := by simp

theorem sum_bound_drop_le (lines : List Bytes) (n : Nat) :
    ((lines.drop n).map fun line => bound line.length).sum ≤ (lines.map fun line => bound line.length).sum := by
  have whole := congrArg (fun ls => (ls.map fun line : Bytes => bound line.length).sum) (List.take_append_drop n lines)
  simp only [List.map_append, List.sum_append] at whole
  omega

theorem advance_of_run {e : Encoder} {lines : List Bytes} {p : Progress} {size : Nat} {batch : Batch}
    (run : e.compressInto e.strategy size (lines.drop p.done) p.lens = .ok batch) :
    e.advance lines p size = .ok ⟨p.done + batch.done, p.codes ++ batch.codes, batch.lens⟩ := by
  rw [advance, run]
  rfl

namespace WellFormed
variable {e : Encoder} (wf : e.WellFormed)
include wf

/-- One more output takes lines from where the last one stopped, and all of them if
    it is as long as their bounds say. -/
theorem exists_advance {lines : List Bytes} {lens : Array Nat} {p : Progress} (aligned : e.Aligned lines lens p)
    (size : Nat) :
    ∃ p', e.advance lines p size = .ok p' ∧ e.Aligned lines lens p' ∧ p.done ≤ p'.done ∧
      ((lines.map fun line => bound line.length).sum ≤ size → p'.done = lines.length) := by
  obtain ⟨batch, run, le, codes, added, enough⟩ :=
    wf.compressInto_eq e.strategy size (lines.drop p.done) p.lens
  have split : lines.take (p.done + batch.done) = lines.take p.done ++ (lines.drop p.done).take batch.done :=
    List.take_add
  rw [List.length_drop] at le enough
  refine ⟨_, advance_of_run run, ⟨?_, ?_, ?_⟩, Nat.le_add_right .., ?_⟩
  · have before := aligned.le
    show p.done + batch.done ≤ lines.length
    omega
  · show p.codes ++ batch.codes = _
    rw [split, List.flatMap_append, aligned.codes, codes]
  · show batch.lens = _
    rw [split, added, aligned.lens]
    apply Array.ext'
    simp
  · intro room
    have before := aligned.le
    have all := enough (Nat.le_trans (sum_bound_drop_le lines p.done) room)
    show p.done + batch.done = lines.length
    omega

/-- Outputs of any sizes take lines from the first one on, and all of them if one of
    the outputs is as long as their bounds say. -/
theorem exists_advanceAll {lines : List Bytes} {lens : Array Nat} :
    ∀ (sizes : List Nat) {p : Progress}, e.Aligned lines lens p →
      ∃ p', e.advanceAll lines p sizes = .ok p' ∧ e.Aligned lines lens p' ∧ p.done ≤ p'.done ∧
        ((∃ size ∈ sizes, (lines.map fun line => bound line.length).sum ≤ size) → p'.done = lines.length) := by
  intro sizes
  induction sizes with
  | nil =>
    intro p aligned
    refine ⟨p, rfl, aligned, Nat.le_refl _, ?_⟩
    rintro ⟨size, member, _⟩
    cases member
  | cons size sizes ih =>
    intro p aligned
    obtain ⟨next, first, aligned', forth, enough⟩ := wf.exists_advance aligned size
    obtain ⟨last, later, aligned'', forth', enough'⟩ := ih aligned'
    refine ⟨last, ?_, aligned'', Nat.le_trans forth forth', ?_⟩
    · rw [advanceAll, List.foldlM_cons, first]
      exact later
    · rintro ⟨enormous, member, room⟩
      rcases List.mem_cons.mp member with rfl | other
      -- What is complete stays complete.
      · have all := enough room
        have most := aligned''.le
        omega
      · exact enough' ⟨enormous, other, room⟩

/-- Going on until a round takes no line is going on with as many outputs as there
    were rounds. -/
theorem exists_resume (size : Nat) (lines : List Bytes) (p : Progress) :
    ∃ rounds codes p', e.resume size p.lens (lines.drop p.done) = .ok (rounds, p'.lens.toList, codes) ∧
      e.advanceAll lines p (List.replicate rounds.length size) = .ok p' ∧
      p'.done = p.done + rounds.sum ∧ p'.codes = p.codes ++ codes := by
  cases left : lines.drop p.done with
  | nil => exact ⟨[], [], p, by rw [resume], rfl, rfl, by rw [List.append_nil]⟩
  | cons line rest =>
    obtain ⟨batch, run, _, codes, _⟩ := wf.compressInto_eq e.strategy size (line :: rest) p.lens
    have next := advance_of_run (left ▸ run)
    -- The induction is on the number of lines left: only a round that takes some goes on.
    by_cases some : 0 < batch.done
    · have shorter : lines.length - (p.done + batch.done) < lines.length - p.done := by
        have inside := congrArg List.length left
        rw [List.length_drop, List.length_cons] at inside
        omega
      obtain ⟨rounds, more, p', runs, outputs, done, whole⟩ :=
        exists_resume size lines ⟨p.done + batch.done, p.codes ++ batch.codes, batch.lens⟩
      have rest' : lines.drop (p.done + batch.done) = (line :: rest).drop batch.done := by
        rw [← left, List.drop_drop]
      simp only [rest'] at runs
      refine ⟨batch.done :: rounds, batch.codes ++ more, p', ?_, ?_, ?_, ?_⟩
      · rw [resume, run]
        show (if 0 < batch.done then _ else _) = _
        rw [if_pos some, runs]
        rfl
      · rw [List.length_cons, List.replicate_succ, advanceAll, List.foldlM_cons, next]
        exact outputs
      · rw [done, List.sum_cons, Nat.add_assoc]
      · rw [whole, List.append_assoc]
    · obtain none : batch.done = 0 := by omega
      rw [none, List.take_zero, List.flatMap_nil] at codes
      refine ⟨[batch.done], [], ⟨p.done + batch.done, p.codes ++ batch.codes, batch.lens⟩, ?_, ?_, ?_, ?_⟩
      · rw [resume, run]
        show (if 0 < batch.done then _ else _) = _
        rw [if_neg some]
        rfl
      · rw [List.length_singleton, List.replicate_one, advanceAll, List.foldlM_cons, next]
        rfl
      · rw [List.sum_singleton]
      · rw [codes]
termination_by lines.length - p.done

end WellFormed

/-! ### The whole and its parts -/

/-- What has been written of some lines is a part of what compressing them gives, cut
    after a line. -/
structure Part (e : Encoder) (lines : List Bytes) (lens : Array Nat) (p : Progress) : Prop where
  le : p.done ≤ lines.length
  /-- Each complete line has added one length after those given, codes and lengths are
      those of the complete lines alone, and those of the lines that are left come
      after them in the whole. -/
  cut : ∃ (added others : List Nat) (more : Bytes), p.lens.toList = lens.toList ++ added ∧ added.length = p.done ∧
    added.sum = p.codes.length ∧ e.compress (lines.take p.done) = .ok (p.codes, added) ∧
    e.compress (lines.drop p.done) = .ok (more, others) ∧ e.compress lines = .ok (p.codes ++ more, added ++ others)
  /-- Nothing is missing once all lines are complete. -/
  whole : p.done = lines.length →
    ∃ added : List Nat, p.lens.toList = lens.toList ++ added ∧ e.compress lines = .ok (p.codes, added)

/-- Lines can be compressed in parts. -/
structure Resumable (e : Encoder) : Prop where
  /-- The lengths that are there before do not matter and stay as they are. -/
  lens : ∀ (strategy : Strategy) (size : Nat) (lines : List Bytes) (lens : Array Nat),
    e.compressInto strategy size lines lens =
      (e.compressInto strategy size lines #[]).map fun batch => { batch with lens := lens ++ batch.lens }
  /-- One output takes a part, whose codes lie at its start. -/
  batch : ∀ (size : Nat) (lines : List Bytes) (lens : Array Nat),
    ∃ batch, e.compressInto e.strategy size lines lens = .ok batch ∧
      e.Part lines lens ⟨batch.done, batch.codes, batch.lens⟩ ∧
      batch.written.toList.take batch.codes.length = batch.codes
  /-- Outputs of any sizes take a part, and the whole if one of them is as long as the
      bounds of the lines say. -/
  outputs : ∀ (sizes : List Nat) (lines : List Bytes) (lens : Array Nat),
    ∃ p, e.advanceAll lines ⟨0, [], lens⟩ sizes = .ok p ∧ e.Part lines lens p ∧
      ((∃ size ∈ sizes, (lines.map fun line => bound line.length).sum ≤ size) → p.done = lines.length)
  /-- So do outputs of one size, as many as it takes until one takes no line. -/
  resume : ∀ (size : Nat) (lines : List Bytes) (lens : Array Nat),
    ∃ rounds p, e.resume size lens lines = .ok (rounds, p.lens.toList, p.codes) ∧ p.done = rounds.sum ∧
      e.advanceAll lines ⟨0, [], lens⟩ (List.replicate rounds.length size) = .ok p ∧ e.Part lines lens p
  /-- Lines can be cut anywhere and compressed apart. -/
  append : ∀ a b : List Bytes, ∃ codes more lens others, e.compress a = .ok (codes, lens) ∧
    e.compress b = .ok (more, others) ∧ e.compress (a ++ b) = .ok (codes ++ more, lens ++ others)

namespace WellFormed
variable {e : Encoder} (wf : e.WellFormed)
include wf

theorem compress_append (a b : List Bytes) :
    ∃ codes more lens others, e.compress a = .ok (codes, lens) ∧ e.compress b = .ok (more, others) ∧
      e.compress (a ++ b) = .ok (codes ++ more, lens ++ others) := by
  refine ⟨_, _, _, _, wf.compress_eq a, wf.compress_eq b, ?_⟩
  rw [wf.compress_eq (a ++ b), List.flatMap_append, List.map_append]

theorem part_of_aligned {lines : List Bytes} {lens : Array Nat} {p : Progress} (aligned : e.Aligned lines lens p) :
    e.Part lines lens p where
  le := aligned.le
  cut := by
    have first := wf.compress_eq (lines.take p.done)
    obtain ⟨codes, more, added, others, front, back, all⟩ := wf.compress_append (lines.take p.done) (lines.drop p.done)
    rw [List.take_append_drop] at all
    obtain ⟨rfl, rfl⟩ := Prod.mk.inj (Except.ok.inj (front.symm.trans first))
    rw [← aligned.codes] at front all
    refine ⟨_, others, more, ?_, ?_, ?_, front, back, all⟩
    · rw [aligned.lens]
      simp
    · rw [List.length_map, List.length_take, Nat.min_eq_left aligned.le]
    · rw [aligned.codes, List.length_flatMap]
  whole := by
    intro all
    have codes := aligned.codes
    have added := aligned.lens
    rw [all, List.take_length] at codes added
    refine ⟨lines.map fun line => (e.lineCodes e.strategy line).length, ?_, ?_⟩
    · rw [added]
      simp
    · rw [wf.compress_eq lines, ← codes]

theorem resumable : e.Resumable where
  lens := e.compressInto_lens
  batch := by
    intro size lines lens
    obtain ⟨batch, run, _⟩ := wf.compressInto_eq e.strategy size lines lens
    obtain ⟨p, next, aligned, _⟩ := wf.exists_advance (e.aligned_start lines lens) size
    rw [advance_of_run run, Except.ok.injEq] at next
    subst next
    refine ⟨batch, run, ?_, batch.take_written⟩
    simpa using wf.part_of_aligned aligned
  outputs := by
    intro sizes lines lens
    obtain ⟨p, run, aligned, _, enough⟩ := wf.exists_advanceAll sizes (e.aligned_start lines lens)
    exact ⟨p, run, wf.part_of_aligned aligned, enough⟩
  resume := by
    intro size lines lens
    obtain ⟨rounds, codes, p, run, outputs, done, same⟩ := wf.exists_resume size lines ⟨0, [], lens⟩
    obtain ⟨p', run', aligned, _⟩ :=
      wf.exists_advanceAll (List.replicate rounds.length size) (e.aligned_start lines lens)
    obtain rfl : p' = p := Except.ok.inj (run'.symm.trans outputs)
    rw [List.nil_append] at same
    rw [Nat.zero_add] at done
    rw [← same] at run
    exact ⟨rounds, p', run, done, outputs, wf.part_of_aligned aligned⟩
  append := wf.compress_append

end WellFormed

/-- Whatever symbols are added to a table, its encoder compresses lines in parts as it
    does in one go. -/
theorem resumable_ofTable {terminator : UInt8} {zeroTerminated : Bool} {symbols : List Symbol} {t : Table}
    (built : (Table.empty terminator zeroTerminated).addAll symbols = .ok t) (few : t.added.size ≤ maxSymbols) :
    ∃ e, ofTable t = .ok e ∧ e.Resumable := by
  obtain ⟨e, run⟩ := exists_ofTable few
  exact ⟨e, run, (wellFormed_ofTable (Table.wellFormed_addAll built) run).resumable⟩

/-- Byte 0 kept, a pair that a longer symbol starts with, and a byte. -/
theorem resumable_ofTable_kept : ∃ t e,
    (Table.empty 0 true).addAll [.ofBytes [0], .ofBytes [97, 98], .ofBytes [97, 98, 99, 100], .ofBytes [120]] =
      .ok t ∧ t.added.size = 4 ∧ t.added.size ≤ maxSymbols ∧ ofTable t = .ok e ∧ e.Resumable := by
  obtain ⟨t, built, size⟩ : ∃ t, (Table.empty 0 true).addAll [.ofBytes [0], .ofBytes [97, 98],
      .ofBytes [97, 98, 99, 100], .ofBytes [120]] = .ok t ∧ t.added.size = 4 := ⟨_, rfl, rfl⟩
  have few : t.added.size ≤ maxSymbols := by rw [size]; decide
  obtain ⟨e, run, resumable⟩ := resumable_ofTable built few
  exact ⟨t, e, built, size, few, run, resumable⟩

end Encoder
end SymbolCodec
