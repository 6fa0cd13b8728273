import SymbolCodec.Encoder.Buffers
import SymbolCodec.Proofs.Loading

/-!
Encoding stays inside its buffers. While it runs, the scratch buffer is the window of a
chunk, and the output begins with what is written so far (`Buffers.Shows`). A step that
has room for what it touches makes no access outside of them, and writes and takes in what
`Encoder.step` says (`Encoder.WellFormed.exists_encodeStep`); a chunk asks for two bytes
of room for each of its bytes and is read with the terminator and a word behind it
(`Encoder.WellFormed.exists_encodeChunk`). So whatever encoder can be made, encoding in
memory ends without a breach, and does what encoding does that keeps no buffers
(`Encoder.StaysInside`, `Encoder.staysInside_of_made`).
-/
namespace SymbolCodec
namespace Buffers

/-! ### Accesses -/

/-- The buffers hold a window in the scratch buffer, and in the output what is written
    and some free bytes after it. -/
structure Holds (b : Buffers) (window written free : Bytes) : Prop where
  scratch : b.scratch.toList = window
  output : b.output.toList = written ++ free
  pos : b.pos = written.length

namespace Holds
variable {b : Buffers} {window written free : Bytes}

theorem size_output (holds : b.Holds window written free) : b.output.size = written.length + free.length := by
  rw [← Array.length_toList, holds.output, List.length_append]

/-- A free byte that has some others before it is written. -/
theorem exists_write (front : Bytes) {old : UInt8} (holds : b.Holds window written (front ++ old :: free))
    (byte : UInt8) :
    ∃ b', b.write front.length byte = .ok b' ∧ b'.Holds window written (front ++ byte :: free) := by
  have size := holds.size_output
  rw [List.length_append, List.length_cons] at size
  refine ⟨_, if_pos (by rw [holds.pos]; omega), holds.scratch, ?_, holds.pos⟩
  rw [Array.toList_setIfInBounds, holds.output, holds.pos, List.set_append_right _ _ (Nat.le_add_right ..),
    Nat.add_sub_cancel_left, List.set_append_right _ _ (Nat.le_refl _), Nat.sub_self, List.set_cons_zero]

/-- The next code is written where a byte is free. -/
theorem exists_write_code {old : UInt8} (holds : b.Holds window written (old :: free)) (code : UInt8) :
    ∃ b', b.write 0 code = .ok b' ∧ b'.Holds window written (code :: free) :=
  exists_write [] holds code

/-- Where two bytes are free one is written ahead, and then any code before it. -/
theorem exists_write_both {old later : UInt8} (holds : b.Holds window written (old :: later :: free)) (byte : UInt8) :
    ∃ ahead, b.write 1 byte = .ok ahead ∧
      ∀ code, ∃ b', ahead.write 0 code = .ok b' ∧ b'.Holds window written (code :: byte :: free) := by
  obtain ⟨ahead, run, after⟩ := exists_write [old] holds byte
  exact ⟨ahead, run, fun code => after.exists_write_code code⟩

theorem advance (front : Bytes) (holds : b.Holds window written (front ++ free)) :
    (b.advance front.length).Holds window (written ++ front) free where
  scratch := holds.scratch
  output := by rw [List.append_assoc]; exact holds.output
  pos := by rw [List.length_append, ← holds.pos]; rfl

/-- Bytes are copied over as many of the window. -/
theorem exists_copy : ∀ (bytes front : Bytes) {b : Buffers} {old rest : Bytes},
    b.Holds (front ++ old ++ rest) written free → old.length = bytes.length →
    ∃ b', b.copy front.length bytes = .ok b' ∧ b'.Holds (front ++ bytes ++ rest) written free
  | [], front, b, old, rest, holds, same => by
    rw [List.eq_nil_of_length_eq_zero same] at holds
    exact ⟨b, rfl, holds⟩
  | byte :: bytes, front, b, [], rest, holds, same => by simp at same
  | byte :: bytes, front, b, o :: old, rest, holds, same => by
    have size : b.scratch.size = front.length + (old.length + 1) + rest.length := by
      rw [← Array.length_toList, holds.scratch, List.length_append, List.length_append, List.length_cons]
    have next : Holds { b with scratch := b.scratch.setIfInBounds front.length byte }
        ((front ++ [byte]) ++ old ++ rest) written free := by
      refine ⟨?_, holds.output, holds.pos⟩
      simp [holds.scratch, List.set_append_right]
    obtain ⟨b', run, after⟩ := exists_copy bytes (front ++ [byte]) next (by simpa using same)
    rw [List.length_append, List.length_singleton] at run
    refine ⟨b', ?_, by simpa using after⟩
    rw [copy, if_pos (by omega)]
    exact run

theorem word_eq (holds : b.Holds window written free) {i : Nat} (inside : i + maxLength ≤ window.length) :
    b.word i = .ok (Word.load (window.drop i)) := by
  have size : b.scratch.size = window.length := by rw [← Array.length_toList, holds.scratch]
  have read : (b.scratch.extract i (i + maxLength)).toList = (window.drop i).take maxLength := by
    rw [Array.toList_extract, holds.scratch, List.extract_eq_take_drop, Nat.add_sub_cancel_left]
  rw [word, if_pos (by rw [size]; exact inside), read, Word.load, List.take_take, Nat.min_self]
  rfl

end Holds

/-- The buffers show a window in the scratch buffer, and what is written at the start of
    an output of some size. -/
def Shows (b : Buffers) (window written : Bytes) (size : Nat) : Prop :=
  ∃ free, b.Holds window written free ∧ written.length + free.length = size

namespace Holds
variable {b : Buffers} {window written free : Bytes}

/-- A code is kept, and what is written after it counts as free. -/
theorem shows_code {code : UInt8} {size : Nat} (holds : b.Holds window written (code :: free))
    (whole : written.length + (free.length + 1) = size) : (b.advance 1).Shows window (written ++ [code]) size := by
  refine ⟨free, advance [code] holds, ?_⟩
  rw [List.length_append, List.length_singleton, Nat.add_assoc, Nat.add_comm 1]
  exact whole

/-- The code of an entry is kept, and the byte after it if the entry says so. -/
theorem shows_width {entry : Entry} {word : UInt64} {size : Nat}
    (holds : b.Holds window written (entry.code :: word.toUInt8 :: free))
    (whole : written.length + (free.length + 2) = size) :
    (b.advance entry.width).Shows window (written ++ Encoder.entryBytes entry word) size := by
  unfold Entry.width Encoder.entryBytes
  by_cases escaped : entry.escaped = true
  · rw [if_pos escaped, if_pos escaped]
    refine ⟨free, advance [entry.code, word.toUInt8] holds, ?_⟩
    simp only [List.length_append, List.length_cons, List.length_nil]
    omega
  · rw [if_neg escaped, if_neg escaped]
    exact holds.shows_code whole

end Holds

namespace Shows
variable {b : Buffers} {window written : Bytes} {size : Nat}

theorem pos_eq (shown : b.Shows window written size) : b.pos = written.length := by
  obtain ⟨free, holds, _⟩ := shown
  exact holds.pos

theorem size_output (shown : b.Shows window written size) : b.output.size = size := by
  obtain ⟨free, holds, whole⟩ := shown
  rw [holds.size_output, whole]

theorem length_le (shown : b.Shows window written size) : written.length ≤ size := by
  obtain ⟨free, _, whole⟩ := shown
  omega

theorem room_eq (shown : b.Shows window written size) : b.room = .ok (size - written.length) := by
  rw [room, shown.size_output, shown.pos_eq, if_pos shown.length_le]

/-- What is at the start of what is written is at the start of the output. -/
theorem take_output (shown : b.Shows window written size) {codes : Bytes} (front : codes <+: written) :
    b.output.toList.take codes.length = codes := by
  obtain ⟨free, holds, _⟩ := shown
  have starts : codes <+: b.output.toList := by
    rw [holds.output]
    exact front.trans (List.prefix_append written free)
  exact (List.prefix_iff_eq_take.mp starts).symm

theorem extract_output (shown : b.Shows window written size) : b.output.extract 0 b.pos = written.toArray := by
  obtain ⟨free, holds, _⟩ := shown
  apply Array.ext'
  rw [Array.toList_extract, holds.output, holds.pos, List.extract_eq_take_drop]
  simp

end Shows

/-- Before anything is encoded the scratch buffer is empty, and what is before the place
    to write at counts as written. -/
theorem shows_start (output : Array UInt8) (pos : Nat) (le : pos ≤ output.size) :
    (start output pos).Shows emptyWindow (output.toList.take pos) output.size := by
  have length : (output.toList.take pos).length = pos := by
    rw [List.length_take, Array.length_toList, Nat.min_eq_left le]
  refine ⟨output.toList.drop pos, ⟨?_, ?_, length.symm⟩, ?_⟩
  · simp [start, emptyWindow]
  · exact (List.take_append_drop pos output.toList).symm
  · rw [length, List.length_drop, Array.length_toList]
    omega

end Buffers

namespace Encoder
open Buffers

/-- A step that takes a pair at once touches one byte. -/
theorem reach_of_fast {e : Encoder} {strategy : Strategy} {input : Bytes}
    (fast : strategy = .pairsFirst ∧ e.below (e.pairs.get (Word.pair (Word.load input))).code e.suffixLimit = true) :
    (e.step strategy input).reach = 1 := by
  simp only [step, if_pos fast]

/-- Any other step touches two bytes. -/
theorem reach_of_slow {e : Encoder} {strategy : Strategy} {input : Bytes}
    (slow : ¬ (strategy = .pairsFirst ∧
      e.below (e.pairs.get (Word.pair (Word.load input))).code e.suffixLimit = true)) :
    (e.step strategy input).reach = 2 := by
  simp only [step, if_neg slow]
  split
  · rfl
  · split
    · rfl
    · split <;> rfl

namespace WellFormed
variable {e : Encoder} (wf : e.WellFormed)
include wf

/-! ### One step -/

/-- What is found under two bytes takes in one byte at least. -/
theorem one_le_entry_len (p : Fin 65536) : 1 ≤ (e.pairs.get p).len := by
  obtain ⟨a, b, rfl⟩ := Word.exists_pairOf p
  rcases wf.pairs a b with ⟨s, member, _, found⟩ | ⟨_, same⟩
  · rw [found]
    exact (wf.normal s member).pos
  · rw [same]
    rcases wf.bytes a with ⟨s, member, _, found⟩ | ⟨_, escape⟩
    · rw [found]
      exact (wf.normal s member).pos
    · rw [escape]
      decide

theorem one_le_slot_len {word : UInt64} {s : Symbol} (found : e.slots.find? word = some s) : 1 ≤ s.len := by
  have ⟨member, _⟩ := (Slots.Hold.find?_eq_some_iff wf.slots).mp found
  exact (wf.normal s member).pos

omit wf in
/-- A pair that is taken at once is written where a byte is free. -/
theorem exists_encodeStep_fast {b : Buffers} {window written : Bytes} {size : Nat}
    (before : b.Shows window written size) {strategy : Strategy} {cur : Nat} (inside : cur + maxLength ≤ window.length)
    (room : written.length + 1 ≤ size)
    (fast : strategy = .pairsFirst ∧
      e.below (e.pairs.get (Word.pair (Word.load (window.drop cur)))).code e.suffixLimit = true) :
    ∃ b', b.encodeStep e strategy cur = .ok (b', cur + ((e.step strategy (window.drop cur)).extra + 1)) ∧
      b'.Shows window (written ++ (e.step strategy (window.drop cur)).written) size := by
  obtain ⟨free, holds, whole⟩ := before
  simp only [step, encodeStep, holds.word_eq inside, ok_bind, if_pos fast]
  cases free with
  | nil =>
    rw [List.length_nil] at whole
    omega
  | cons old free =>
    obtain ⟨b', run, after⟩ := holds.exists_write_code (e.pairs.get (Word.pair (Word.load (window.drop cur)))).code
    rw [run]
    exact ⟨b'.advance 1, rfl, after.shows_code whole⟩

/-- Else the first byte is written ahead, and kept only if it is escaped. -/
theorem exists_encodeStep_slow {b : Buffers} {window written : Bytes} {size : Nat}
    (before : b.Shows window written size) {strategy : Strategy} {cur : Nat} (inside : cur + maxLength ≤ window.length)
    (room : written.length + 2 ≤ size)
    (slow : ¬ (strategy = .pairsFirst ∧
      e.below (e.pairs.get (Word.pair (Word.load (window.drop cur)))).code e.suffixLimit = true)) :
    ∃ b', b.encodeStep e strategy cur = .ok (b', cur + ((e.step strategy (window.drop cur)).extra + 1)) ∧
      b'.Shows window (written ++ (e.step strategy (window.drop cur)).written) size := by
  obtain ⟨free, holds, whole⟩ := before
  simp only [step, encodeStep, holds.word_eq inside, ok_bind, if_neg slow]
  generalize Word.load (window.drop cur) = word
  match free with
  | [] | [_] =>
    simp only [List.length_cons, List.length_nil] at whole
    omega
  | old :: later :: free =>
    obtain ⟨ahead, literal, codes⟩ := holds.exists_write_both word.toUInt8
    rw [literal, ok_bind]
    cases found : e.slots.find? word with
    | some s =>
      obtain ⟨b', run, after⟩ := codes (UInt8.ofNat s.code)
      simp only [run, ok_bind, Nat.sub_add_cancel (wf.one_le_slot_len found)]
      exact ⟨b'.advance 1, rfl, after.shows_code whole⟩
    | none =>
      obtain ⟨b', run, after⟩ := codes (e.pairs.get (Word.pair word)).code
      simp only [run, ok_bind]
      by_cases byLength : strategy = .entryLength
      · rw [if_pos byLength, if_pos byLength, Nat.sub_add_cancel (wf.one_le_entry_len _)]
        exact ⟨_, rfl, after.shows_width whole⟩
      · rw [if_neg byLength, if_neg byLength]
        by_cases several : e.below (e.pairs.get (Word.pair word)).code e.byteLimit = true
        · rw [if_pos several, if_pos several]
          exact ⟨_, rfl, after.shows_code whole⟩
        · rw [if_neg several, if_neg several]
          exact ⟨_, rfl, after.shows_width whole⟩

/-- A step in memory writes what the step writes and goes on where it goes on, if there
    is room for what it touches. -/
theorem exists_encodeStep {b : Buffers} {window written : Bytes} {size : Nat} (before : b.Shows window written size)
    (strategy : Strategy) {cur : Nat} (inside : cur + maxLength ≤ window.length)
    (room : written.length + (e.step strategy (window.drop cur)).reach ≤ size) :
    ∃ b', b.encodeStep e strategy cur = .ok (b', cur + ((e.step strategy (window.drop cur)).extra + 1)) ∧
      b'.Shows window (written ++ (e.step strategy (window.drop cur)).written) size := by
  by_cases fast : strategy = .pairsFirst ∧
      e.below (e.pairs.get (Word.pair (Word.load (window.drop cur)))).code e.suffixLimit = true
  · rw [reach_of_fast fast] at room
    exact exists_encodeStep_fast before inside room fast
  · rw [reach_of_slow fast] at room
    exact wf.exists_encodeStep_slow before inside room fast

/-! ### Chunks -/

/-- A step at the start of what is left of a chunk sees no more than this and the terminator,
    and the word that it reads is inside if a word comes after them. -/
theorem exists_encodeStep_chunk (strategy : Strategy) {b : Buffers} {front rest stale written : Bytes} {first : UInt8}
    {size : Nat} (before : b.Shows (front ++ (first :: rest ++ e.terminator :: stale)) written size)
    (padded : maxLength ≤ stale.length) (room : written.length + 2 ≤ size) :
    ∃ b', b.encodeStep e strategy front.length =
        .ok (b', front.length + ((e.step strategy (first :: rest ++ [e.terminator])).extra + 1)) ∧
      b'.Shows (front ++ (first :: rest ++ e.terminator :: stale))
        (written ++ (e.step strategy (first :: rest ++ [e.terminator])).written) size := by
  have small := (wf.step_le_two strategy first rest).2
  have input : (front ++ (first :: rest ++ e.terminator :: stale)).drop front.length =
      first :: rest ++ e.terminator :: stale := List.drop_left
  have inside : front.length + maxLength ≤ (front ++ (first :: rest ++ e.terminator :: stale)).length := by
    simp only [List.length_append, List.length_cons]
    omega
  have run := wf.exists_encodeStep before strategy inside
  rw [input, wf.step_stale] at run
  exact run (by omega)

/-- The steps of a chunk that ends in the terminator and a word after it write its codes,
    if there are two bytes of room for each byte. -/
theorem exists_encodeSteps (strategy : Strategy) (chunk : Bytes) : ∀ (front : Bytes) {b : Buffers}
    {stale written : Bytes} {size : Nat}, b.Shows (front ++ (chunk ++ e.terminator :: stale)) written size →
      maxLength ≤ stale.length → written.length + 2 * chunk.length ≤ size →
      ∃ b', b.encodeSteps e strategy (front.length + chunk.length) front.length = .ok b' ∧
        b'.Shows (front ++ (chunk ++ e.terminator :: stale)) (written ++ e.codes strategy chunk) size := by
  fun_induction codes e strategy chunk
  case case1 =>
    intro front b stale written size before _ _
    refine ⟨b, ?_, by rwa [List.append_nil]⟩
    rw [encodeSteps, if_neg (by simp)]
  case case2 first rest step ih =>
    intro front b stale written size before padded room
    have few : step.extra ≤ rest.length := wf.extra_lt strategy first rest
    have small : step.written.length ≤ 2 := (wf.step_le_two strategy first rest).1
    rw [List.length_cons] at room
    have taken := wf.exists_encodeStep_chunk strategy before padded (by omega)
    obtain ⟨next, run, after⟩ : ∃ next, b.encodeStep e strategy front.length =
        .ok (next, front.length + (step.extra + 1)) ∧
        next.Shows (front ++ (first :: rest ++ e.terminator :: stale)) (written ++ step.written) size := taken
    -- What the step has taken in is now in front of what is left of the chunk.
    have window : front ++ (first :: rest ++ e.terminator :: stale) =
        (front ++ first :: rest.take step.extra) ++ (rest.drop step.extra ++ e.terminator :: stale) := by
      rw [List.append_assoc, List.cons_append, List.cons_append, ← List.append_assoc (rest.take step.extra),
        List.take_append_drop]
    have length : (front ++ first :: rest.take step.extra).length = front.length + (step.extra + 1) := by
      rw [List.length_append, List.length_cons, List.length_take, Nat.min_eq_left few]
    rw [window] at after
    obtain ⟨b', later, last⟩ := ih _ after padded (by rw [List.length_append, List.length_drop]; omega)
    have all : front.length + (step.extra + 1) + (rest.drop step.extra).length =
        front.length + (first :: rest).length := by
      rw [List.length_drop, List.length_cons]
      omega
    rw [length, all] at later
    refine ⟨b', ?_, ?_⟩
    · rw [encodeSteps, if_pos (by simp), run, ok_bind]
      show (if front.length < front.length + (step.extra + 1) then _ else _) = _
      rw [if_pos (by omega)]
      exact later
    · rw [window, ← List.append_assoc written]
      exact last

omit wf in
theorem length_window {window chunk : Bytes} (whole : window.length = windowLength)
    (short : chunk.length ≤ chunkLength) : (e.window window chunk).length = windowLength := by
  have enough : chunkLength + 1 + maxLength = windowLength := rfl
  rw [Encoder.window, List.length_append, List.length_cons, List.length_drop]
  omega

/-- A chunk is encoded through the window that holds it, if there are two bytes of room for
    each of its bytes. -/
theorem exists_encodeChunk {b : Buffers} {window written : Bytes} {size : Nat} (before : b.Shows window written size)
    (strategy : Strategy) {chunk : Bytes} (whole : window.length = windowLength) (short : chunk.length ≤ chunkLength)
    (room : written.length + 2 * chunk.length ≤ size) :
    ∃ b', b.encodeChunk e strategy chunk = .ok b' ∧
      b'.Shows (e.window window chunk) (written ++ e.codes strategy chunk) size := by
  obtain ⟨free, holds, sum⟩ := before
  have enough : chunkLength + 1 + maxLength = windowLength := rfl
  have copied : (window.take (chunk.length + 1)).length = (chunk ++ [e.terminator]).length := by
    rw [List.length_take, List.length_append, List.length_singleton]
    omega
  rw [← List.take_append_drop (chunk.length + 1) window] at holds
  obtain ⟨loaded, run, after⟩ := Holds.exists_copy (chunk ++ [e.terminator]) [] holds copied
  rw [List.nil_append, List.append_assoc, List.singleton_append] at after
  have padded : maxLength ≤ (window.drop (chunk.length + 1)).length := by
    rw [List.length_drop]
    omega
  obtain ⟨b', steps, shown⟩ := wf.exists_encodeSteps strategy chunk [] ⟨free, after, sum⟩ padded room
  rw [List.length_nil, Nat.zero_add] at steps
  refine ⟨b', ?_, shown⟩
  rw [encodeChunk]
  exact (congrArg (· >>= _) run).trans steps

/-! ### Lines -/

/-- The chunks of a line are encoded as they are without buffers. -/
theorem exists_encodeLine (strategy : Strategy) (size : Nat) : ∀ (cs : List Bytes) {b : Buffers} {window : Bytes}
    {written : Array UInt8}, (∀ chunk ∈ cs, chunk.length ≤ chunkLength) → b.Shows window written.toList size →
      window.length = windowLength →
      ∃ b' after written' fits, b.encodeLine e strategy cs = .ok (b', fits) ∧
        e.writeChunks strategy size window written cs = .ok (after, written', fits) ∧
        b'.Shows after written'.toList size ∧ after.length = windowLength
  | [], b, window, written, _, before, whole => ⟨b, window, written, true, rfl, rfl, before, whole⟩
  | chunk :: cs, b, window, written, short, before, whole => by
    have room := before.room_eq
    rw [Array.length_toList] at room
    have le := before.length_le
    rw [Array.length_toList] at le
    by_cases full : 2 * chunk.length + 7 > size - written.size
    · refine ⟨b, window, written, false, ?_, ?_, before, whole⟩
      · rw [encodeLine, room, ok_bind, if_pos full]
        rfl
      · rw [writeChunks, if_pos full]
    · have inside := short chunk (by simp)
      obtain ⟨next, run, shown⟩ := wf.exists_encodeChunk before strategy whole inside
        (by rw [Array.length_toList]; omega)
      rw [← Array.toList_appendList] at shown
      obtain ⟨b', after, written', fits, later, same, last, kept⟩ :=
        exists_encodeLine strategy size cs (fun other member => short other (by simp [member])) shown
          (length_window whole inside)
      refine ⟨b', after, written', fits, ?_, ?_, last, kept⟩
      · rw [encodeLine, room, ok_bind, if_neg full, run]
        exact later
      · rw [wf.writeChunks_cons strategy window cs full]
        exact same

omit wf in
theorem length_le_of_mem_chunks {line chunk : Bytes} (member : chunk ∈ chunks line) : chunk.length ≤ chunkLength :=
  length_le_of_mem_cutEvery (by decide) member

/-- Lines are encoded as they are without buffers. -/
theorem exists_encodeLines (strategy : Strategy) (size : Nat) : ∀ (lines : List Bytes) (f : Filled) (batch : Batch)
    {window : Bytes}, f.buffers.Shows window batch.written.toList size → window.length = windowLength →
      batch.complete = batch.written.size → f.lens = batch.lens → f.done = batch.done →
      ∃ f' after batch', f.encodeLines e strategy lines = .ok f' ∧
        e.writeLines strategy size window batch lines = .ok batch' ∧
        f'.buffers.Shows after batch'.written.toList size ∧ f'.lens = batch'.lens ∧ f'.done = batch'.done
  | [], f, batch, window, before, _, _, lens, done => ⟨f, window, batch, rfl, rfl, before, lens, done⟩
  | line :: lines, f, batch, window, before, whole, complete, lens, done => by
    obtain ⟨b', after, written, fits, run, same, shown, kept⟩ :=
      wf.exists_encodeLine strategy size (chunks line) (fun _ member => length_le_of_mem_chunks member) before whole
    cases fits with
    | false =>
      refine ⟨{ f with buffers := b' }, after, { batch with written }, ?_, ?_, shown, lens, done⟩
      · rw [Filled.encodeLines, run]
        rfl
      · rw [writeLines, same]
        rfl
    | true =>
      have length : b'.pos - f.buffers.pos = written.size - batch.complete := by
        rw [shown.pos_eq, before.pos_eq, complete, Array.length_toList, Array.length_toList]
      obtain ⟨f', last, batch', more, others, shown', lens', done'⟩ :=
        exists_encodeLines strategy size lines ⟨b', f.lens.push (b'.pos - f.buffers.pos), f.done + 1⟩
          ⟨written, written.size, batch.lens.push (written.size - batch.complete), batch.done + 1⟩
          shown kept rfl (by rw [length, lens]) (by rw [done])
      refine ⟨f', last, batch', ?_, ?_, shown', lens', done'⟩
      · rw [Filled.encodeLines, run]
        exact more
      · rw [writeLines, same]
        exact others

/-- An output is filled with lines as it is without buffers. -/
theorem exists_fillOutput (strategy : Strategy) (output : Array UInt8) (lines : List Bytes) (lens : Array Nat) :
    ∃ f after batch, e.fillOutput strategy output lines lens = .ok f ∧
      e.compressInto strategy output.size lines lens = .ok batch ∧
      f.buffers.Shows after batch.written.toList output.size ∧ f.lens = batch.lens ∧ f.done = batch.done :=
  wf.exists_encodeLines strategy output.size lines ⟨.start output 0, lens, 0⟩ ⟨#[], 0, lens, 0⟩
    (shows_start output 0 (Nat.zero_le _)) List.length_replicate rfl rfl rfl

/-- The chunks of a string are encoded if there is room for their bounds. -/
theorem exists_encodeString (strategy : Strategy) {size : Nat} : ∀ (cs : List Bytes) {b : Buffers}
    {window written : Bytes}, (∀ chunk ∈ cs, chunk.length ≤ chunkLength) → b.Shows window written size →
      window.length = windowLength → written.length + (cs.map fun chunk => 2 * chunk.length + 7).sum ≤ size →
      ∃ b' after, b.encodeString e strategy cs = .ok b' ∧ b'.Shows after (written ++ cs.flatMap (e.codes strategy)) size
  | [], b, window, written, _, before, _, _ => ⟨b, window, rfl, by simpa using before⟩
  | chunk :: cs, b, window, written, short, before, whole, room => by
    simp only [List.map_cons, List.sum_cons] at room
    have inside := short chunk (by simp)
    have few := wf.length_codes_le strategy chunk
    obtain ⟨next, run, shown⟩ := wf.exists_encodeChunk before strategy whole inside (by omega)
    obtain ⟨b', after, later, last⟩ := exists_encodeString strategy cs
      (fun other member => short other (by simp [member])) shown (length_window whole inside)
      (by rw [List.length_append]; omega)
    refine ⟨b', after, ?_, ?_⟩
    · rw [encodeString, run]
      exact later
    · rw [List.flatMap_cons, ← List.append_assoc]
      exact last

/-- No more than two codes are written for each byte of a line. -/
theorem length_lineCodes_le (strategy : Strategy) (line : Bytes) :
    (e.lineCodes strategy line).length ≤ 2 * line.length :=
  wf.length_le_of_spells (wf.spells_lineCodes strategy line)

end WellFormed

/-! ### What is promised -/

/-- Encoding in memory stays inside its buffers, which are long enough. -/
structure StaysInside (e : Encoder) : Prop where
  /-- An output of any size takes lines without a breach, in any strategy. It keeps its
      size, and begins with what is written; each complete line adds a length of at most
      two for each of its bytes, and the first lines are complete as far as there is room
      for their bounds. -/
  fill : ∀ (strategy : Strategy) (output : Array UInt8) (lines : List Bytes) (lens : Array Nat),
    ∃ f batch added, e.fillOutput strategy output lines lens = .ok f ∧
      e.compressInto strategy output.size lines lens = .ok batch ∧
      f.buffers.output.size = output.size ∧ f.buffers.pos ≤ output.size ∧
      f.buffers.output.extract 0 f.buffers.pos = batch.written ∧ f.done = batch.done ∧ f.lens = batch.lens ∧
      f.lens.toList = lens.toList ++ added ∧
      List.Forall₂ (fun line len => len ≤ 2 * line.length) (lines.take f.done) added ∧
      ∀ k ≤ lines.length, ((lines.take k).map fun line => bound line.length).sum ≤ output.size → k ≤ f.done
  /-- All lines are compressed without a breach. -/
  compress : ∀ lines : List Bytes, ∃ codes lens, e.compressInMemory lines = .ok (codes, lens) ∧
    e.compress lines = .ok (codes, lens) ∧ codes.length = lens.sum ∧
    List.Forall₂ (fun line len => len ≤ 2 * line.length) lines lens
  /-- A string is encoded after what is in an output without a breach, to at most two codes
      for each byte. -/
  encode : ∀ (data : Bytes) (output : Array UInt8), ∃ codes : Bytes,
    e.encodeInMemory data output = .ok (output ++ codes, codes.length) ∧
      e.encode data output = .ok (output ++ codes, codes.length) ∧ codes.length ≤ 2 * data.length

namespace WellFormed
variable {e : Encoder} (wf : e.WellFormed)
include wf

theorem forall₂_lens (strategy : Strategy) (lines : List Bytes) :
    List.Forall₂ (fun line len => len ≤ 2 * line.length) lines
      (lines.map fun line => (e.lineCodes strategy line).length) := by
  rw [List.forall₂_map_right_iff, List.forall₂_same]
  intro line _
  exact wf.length_lineCodes_le strategy line

theorem staysInside : e.StaysInside where
  fill := by
    intro strategy output lines lens
    obtain ⟨f, after, batch, run, same, shown, added, done⟩ := wf.exists_fillOutput strategy output lines lens
    obtain ⟨batch', run', _, _, lens', enough⟩ := wf.exists_compressInto strategy output.size lines lens
    obtain rfl : batch' = batch := Except.ok.inj (run'.symm.trans same)
    have le := shown.length_le
    rw [← shown.pos_eq] at le
    refine ⟨f, batch', _, run, same, shown.size_output, le, shown.extract_output, done, added, ?_,
      wf.forall₂_lens strategy _, fun k inside room => done ▸ enough k inside room⟩
    rw [added, lens', done]
    simp
  compress := by
    intro lines
    let size := (lines.map fun line => bound line.length).sum
    obtain ⟨f, after, batch, run, same, shown, added, done⟩ :=
      wf.exists_fillOutput e.strategy (Array.replicate size 0) lines #[]
    rw [Array.size_replicate] at same shown
    obtain ⟨batch', run', le, codes, lens, enough⟩ := wf.exists_compressInto e.strategy size lines #[]
    obtain rfl : batch' = batch := Except.ok.inj (run'.symm.trans same)
    have all : batch'.done = lines.length :=
      Nat.le_antisymm le (enough lines.length (Nat.le_refl _) (by rw [List.take_length]))
    rw [all, List.take_length] at codes lens
    have whole := wf.compress_eq lines
    have sum : (lines.flatMap (e.lineCodes e.strategy)).length =
        (lines.map fun line => (e.lineCodes e.strategy line).length).sum := List.length_flatMap
    refine ⟨_, _, ?_, whole, sum, wf.forall₂_lens e.strategy lines⟩
    have front : batch'.codes <+: batch'.written.toList := by simp [Batch.codes, List.take_prefix]
    have total : f.lens.foldl (· + ·) 0 = batch'.codes.length := by
      rw [added, lens, codes, sum]
      simp [List.sum_eq_foldl]
    have cut : (f.buffers.output.extract 0 (f.lens.foldl (· + ·) 0)).toList = batch'.codes := by
      rw [total, Array.toList_extract, List.extract_eq_take_drop, List.drop_zero, Nat.sub_zero]
      exact shown.take_output front
    rw [compressInMemory, foldl_add_eq_sum, run, ok_bind, done, if_pos all, cut, codes, added, lens]
    simp [pure, Except.pure]
  encode := by
    intro data output
    let longer := output ++ Array.replicate (bound data.length) 0
    have size : longer.size = output.size + bound data.length := by simp [longer]
    have front : longer.toList.take output.size = output.toList := by simp [longer]
    have start := shows_start longer output.size (by rw [size]; exact Nat.le_add_right ..)
    rw [front] at start
    obtain ⟨b, after, run, shown⟩ := wf.exists_encodeString e.strategy (chunks data)
      (fun _ member => length_le_of_mem_chunks member) start List.length_replicate
      (by rw [← bound_eq_sum, size, Array.length_toList])
    refine ⟨e.lineCodes e.strategy data, ?_, wf.encode_eq data output, wf.length_lineCodes_le e.strategy data⟩
    have joined : (output.toList ++ e.lineCodes e.strategy data).toArray = output ++ e.lineCodes e.strategy data :=
      Array.ext' (by simp)
    have length : (output.toList ++ e.lineCodes e.strategy data).length - output.size =
        (e.lineCodes e.strategy data).length := by simp
    rw [encodeInMemory, run, ok_bind, shown.extract_output, shown.pos_eq]
    show Except.ok ((output.toList ++ e.lineCodes e.strategy data).toArray,
      (output.toList ++ e.lineCodes e.strategy data).length - output.size) = _
    rw [joined, length]

end WellFormed

/-- Whatever encoder can be made, encoding in memory makes no access outside its buffers,
    never has less than no room, and never has too little. -/
theorem staysInside_of_made {e : Encoder} (made : e.Made) : e.StaysInside := made.wellFormed.staysInside

/-- The encoder of a table of one pair, which has room for one line of three at least, and
    that of a dictionary. -/
theorem staysInside_of_made_pair : ∃ t e loaded, (Table.empty 0 false).addAll [.ofBytes [97, 98]] = .ok t ∧
    ofTable t = .ok e ∧ e.Made ∧ e.StaysInside ∧
    (∃ f, e.fillOutput .codeLimit (Array.replicate 18 7) [[97, 98, 97, 98], [97, 98, 97, 98], [97, 98, 97, 98]] #[] =
      .ok f ∧ f.buffers.output.size = 18 ∧ 1 ≤ f.done) ∧
    ofDictionary editedDictionary = .ok loaded ∧ loaded.Made ∧ loaded.StaysInside := by
  obtain ⟨t, built, few⟩ : ∃ t, (Table.empty 0 false).addAll [.ofBytes [97, 98]] = .ok t ∧
      t.added.size ≤ maxSymbols := ⟨_, rfl, by decide⟩
  obtain ⟨e, run⟩ := exists_ofTable few
  obtain ⟨loaded, load⟩ : ∃ loaded, ofDictionary editedDictionary = .ok loaded := ⟨_, rfl⟩
  have made : e.Made := .ofTable built run
  have made' : loaded.Made := .ofDictionary load
  have inside := staysInside_of_made made
  obtain ⟨f, _, _, filled, _, size, _, _, _, _, _, _, enough⟩ := inside.fill .codeLimit (Array.replicate 18 7)
    [[97, 98, 97, 98], [97, 98, 97, 98], [97, 98, 97, 98]] #[]
  exact ⟨t, e, loaded, built, run, made, inside, ⟨f, filled, size, enough 1 (by decide) (by decide)⟩, load, made',
    staysInside_of_made made'⟩

end Encoder
end SymbolCodec
