import SymbolCodec.Training.Walk
import SymbolCodec.Proofs.ReachedCounts
import SymbolCodec.Proofs.Samples
import SymbolCodec.Proofs.Savings

/-!
What a pass adds to the counts. A line is split from the left at longest symbols
(`Table.Splits`), and a code or a pair of codes is counted as often as it occurs in the
split line, and as often as a longer symbol stands in its place that starts with its byte
(`Table.uses`, `Table.neighbours`); the events of a line are as many
(`Training.count_single_events`, `Training.count_pair_events`). The walk over a line is
always at a match that lies in it (`Training.Lies`), so that it goes on to the next one and
ends where the line does (`Training.run_eq`). So the walk over a sample makes no misstep,
and it leaves each count larger by what the split lines add to it, up to the cap
(`Training.Tallied`, `Training.exists_tallied`).
-/
namespace SymbolCodec

namespace Table

/-! ### Splitting a line -/

/-- A line is split from the left: the code of the longest symbol that it starts with, and
    then the codes of what comes after the bytes of this symbol. -/
inductive Splits (t : Table) : Bytes → List Nat → Prop
  | nil : Splits t [] []
  | cons {line rest : Bytes} {codes : List Nat} : line ≠ [] → line = (t.symbol (t.longest line)).bytes ++ rest →
      Splits t rest codes → Splits t line (t.longest line :: codes)

theorem splits_parse {t : Table} (wf : t.WellFormed) (line : Bytes) :
    t.Splits line ((t.parse line).map Match.code) := by
  induction line using parse_induction (t := t) with
  | nil =>
    rw [parse_nil]
    exact .nil
  | cons b rest ih =>
    rw [parse_cons]
    exact .cons (List.cons_ne_nil b rest) (append_rest wf b rest).symm ih

/-- The symbol of a code is of several bytes, of which the given one is the first. -/
def leads (t : Table) (b code : Nat) : Bool :=
  1 < (t.symbol code).len && (t.symbol code).bytes.head?.map UInt8.toNat == some b

/-- How often a code is counted in a split line: as often as it occurs, and as often as a
    symbol of several bytes starts with it. -/
def uses (t : Table) (codes : List Nat) (code : Nat) : Nat := codes.count code + codes.countP (t.leads code)

/-- How often a pair of codes is counted in a split line: as often as they occur side by
    side, and as often as a symbol of several bytes that starts with the right one comes
    after the left one. -/
def neighbours (t : Table) (codes : List Nat) (left right : Nat) : Nat :=
  (codes.zip codes.tail).count (left, right) +
    (codes.zip codes.tail).countP fun side => side.1 == left && t.leads right side.2

theorem uses_cons (t : Table) (c : Nat) (codes : List Nat) (code : Nat) :
    t.uses (c :: codes) code =
      (if c = code then 1 else 0) + (if t.leads code c then 1 else 0) + t.uses codes code := by
  simp only [uses, List.count_cons, List.countP_cons, beq_iff_eq]
  omega

theorem neighbours_cons (t : Table) (c c' : Nat) (codes : List Nat) (left right : Nat) :
    t.neighbours (c :: c' :: codes) left right =
      (if c = left ∧ c' = right then 1 else 0) + (if c = left ∧ t.leads right c' then 1 else 0) +
        t.neighbours (c' :: codes) left right := by
  simp only [neighbours, List.tail_cons, List.zip_cons_cons, List.count_cons, List.countP_cons, beq_iff_eq,
    Prod.mk.injEq, Bool.and_eq_true]
  omega

end Table

namespace Training
open Table

/-! ### The events of a line -/

theorem events_cons (pairs : Bool) (m : Match) (rest : List Match) :
    events pairs (m :: rest) =
      (matchEvents m ++ if pairs then (rest.head?.map (pairEvents m)).getD [] else []) ++ events pairs rest := by
  cases rest with
  | nil => rfl
  | cons n rest => rfl

theorem count_ite_singleton {kept : Prop} [Decidable kept] (e x : Event) :
    (if kept then [e] else []).count x = if kept ∧ e = x then 1 else 0 := by
  by_cases here : kept
  · simp [here, List.count_singleton]
  · simp [here]

section
variable {t : Table}

theorem leads_code {m : Match} (found : m.Found t) (b : Nat) :
    t.leads b m.code = true ↔ 1 < m.len ∧ m.first.toNat = b := by
  simp [leads, found.head, ← found.len_eq]

theorem count_matchEvents (wf : t.WellFormed) {m : Match} (found : m.Found t) (code : Nat) :
    (matchEvents m).count (.single code) =
      (if m.code = code then 1 else 0) + if t.leads code m.code then 1 else 0 := by
  have pos := (normal_symbol wf found.code_lt).pos
  rw [← found.len_eq] at pos
  have several : m.len ≠ 1 ↔ 1 < m.len := by omega
  simp only [matchEvents, leads_code found, List.count_cons, count_ite_singleton, beq_iff_eq, Event.single.injEq,
    several, Nat.add_comm]

theorem count_pairEvents (m : Match) {n : Match} (found : n.Found t) (left right : Nat) :
    (pairEvents m n).count (.pair left right) =
      (if m.code = left ∧ n.code = right then 1 else 0) +
        if m.code = left ∧ t.leads right n.code then 1 else 0 := by
  simp only [pairEvents, leads_code found, List.count_cons, count_ite_singleton, beq_iff_eq, Event.pair.injEq, gt_iff_lt,
    Nat.add_comm, and_left_comm]

theorem count_single_events (wf : t.WellFormed) (pairs : Bool) (code : Nat) : ∀ {ms : List Match},
    (∀ m ∈ ms, m.Found t) → (events pairs ms).count (.single code) = t.uses (ms.map Match.code) code
  | [], _ => rfl
  | m :: rest, found => by
    have later := count_single_events wf pairs code (fun n member => found n (List.mem_cons_of_mem m member))
    have beside : (if pairs then (rest.head?.map (pairEvents m)).getD [] else []).count (.single code) = 0 := by
      refine List.count_eq_zero.mpr fun member => ?_
      split at member
      case isFalse => simp at member
      case isTrue =>
        cases next : rest.head? with
        | none => simp [next] at member
        | some n => simp [next, pairEvents] at member
    rw [events_cons, List.count_append, List.count_append, beside, later,
      count_matchEvents wf (found m List.mem_cons_self), List.map_cons, uses_cons, Nat.add_zero]

theorem count_pair_matchEvents (m : Match) (left right : Nat) : (matchEvents m).count (.pair left right) = 0 := by
  refine List.count_eq_zero.mpr fun member => ?_
  rcases List.mem_cons.mp member with same | first
  · cases same
  · split at first
    case isTrue => cases List.mem_singleton.mp first
    case isFalse => cases first

theorem count_pair_events (left right : Nat) : ∀ {ms : List Match}, (∀ m ∈ ms, m.Found t) →
    (events true ms).count (.pair left right) = t.neighbours (ms.map Match.code) left right
  | [], _ => rfl
  | [m], _ => by
    rw [events_cons, List.count_append, List.count_append, count_pair_matchEvents]
    rfl
  | m :: n :: rest, found => by
    have later := count_pair_events left right (fun n member => found n (List.mem_cons_of_mem m member))
    have beside : (if true then (((n :: rest).head?).map (pairEvents m)).getD [] else []) = pairEvents m n := rfl
    rw [events_cons, List.count_append, List.count_append, beside, later, count_pair_matchEvents,
      count_pairEvents m (found n (by simp)), List.map_cons, List.map_cons, List.map_cons, neighbours_cons,
      Nat.zero_add]

/-- At the whole sample no pair is counted. -/
theorem count_pair_events_whole (left right : Nat) : ∀ ms : List Match, (events false ms).count (.pair left right) = 0
  | [] => rfl
  | m :: rest => by
    rw [events_cons, List.count_append, List.count_append, count_pair_matchEvents, count_pair_events_whole left right rest]
    rfl

end

/-! ### Walking over a line -/

section
variable {κ : Type} {t : Table} {line : Bytes}

/-- A match lies in a line: the bytes of the symbol of its code stand where it starts, and
    the rest of the line where it stops. -/
structure Lies (t : Table) (line : Bytes) (start code stop : Nat) : Prop where
  used : code < t.codes
  le : stop ≤ line.length
  split : line.drop start = (t.symbol code).bytes ++ line.drop stop

/-- The match of a code at a place of a line. -/
def matchAt (t : Table) (line : Bytes) (start code : Nat) : Match :=
  ⟨code, (t.symbol code).len, (line.drop start).headD 0⟩

theorem increment_eq [Tally κ] (counters : κ) {e : Event} (inRange : e.inRange = true) :
    increment counters e = .ok (Tally.record counters e) := if_pos inRange

theorem lengthOf_eq {code : Nat} (used : code < t.codes) : lengthOf t code = .ok (t.symbol code).len := if_pos used

theorem codeAt_eq {place : Nat} (inside : place < line.length) :
    codeAt t line place = .ok (t.longest (line.drop place)) := if_pos inside

theorem byteAt_eq {bs : Bytes} {place : Nat} {b : UInt8} {rest : Bytes} (here : bs.drop place = b :: rest) :
    byteAt bs place = .ok b := by
  have found : bs[place]? = some b := by
    rw [← List.head?_drop, here]
    rfl
  rw [byteAt, found]

variable (wf : t.WellFormed)
include wf

theorem Lies.byteAt_eq {start code stop : Nat} (lies : Lies t line start code stop) :
    byteAt line start = .ok (matchAt t line start code).first := by
  obtain ⟨b, rest, bytes⟩ := List.exists_cons_of_ne_nil (normal_symbol wf lies.used).bytes_ne_nil
  have here : line.drop start = b :: (rest ++ line.drop stop) := by rw [lies.split, bytes, List.cons_append]
  rw [Training.byteAt_eq here, matchAt, here]
  rfl

/-- At a place where bytes are left lies a match of the longest symbol that they start with,
    and the line is cut after it. -/
theorem exists_lies {place : Nat} (inside : place < line.length) :
    ∃ code, codeAt t line place = .ok code ∧ place < place + (t.symbol code).len ∧
      Lies t line place code (place + (t.symbol code).len) ∧
      t.parse (line.drop place) = matchAt t line place code :: t.parse (line.drop (place + (t.symbol code).len)) := by
  obtain ⟨b, rest, here⟩ := List.exists_cons_of_ne_nil
    (show line.drop place ≠ [] by rw [ne_eq, List.drop_eq_nil_iff]; omega)
  have look := codeAt_eq (t := t) inside
  have whole := append_rest wf b rest
  obtain ⟨used, starts⟩ := (finds_longest wf b rest).starts wf
  have parse := parse_cons t b rest
  rw [← here] at whole used starts parse
  generalize t.longest (line.drop place) = code at look whole used starts parse
  have normal := normal_symbol wf used
  have pos := normal.pos
  have fits := starts.length_le
  rw [normal.length_bytes, List.length_drop] at fits
  -- After the match comes what is left of the line at the next place.
  have after : rest.drop ((t.symbol code).len - 1) = line.drop (place + (t.symbol code).len) := by
    rw [← List.drop_drop, here, ← List.drop_succ_cons (a := b), Nat.sub_add_cancel pos]
  rw [after] at whole parse
  refine ⟨code, look, by omega, ⟨used, by omega, whole.symm⟩, ?_⟩
  rw [parse, matchAt, here, List.headD_cons]

/-- A walk begins at the first match of a line. -/
theorem exists_begin (some : line ≠ []) (counters : κ) (gained : Int) :
    ∃ code, Walk.begin t line counters gained =
        .ok ⟨counters, gained + ((t.symbol code).len - cost code), 0, code, (t.symbol code).len⟩ ∧
      Lies t line 0 code (t.symbol code).len ∧
      t.parse line = matchAt t line 0 code :: t.parse (line.drop (t.symbol code).len) := by
  obtain ⟨code, look, _, lies, parse⟩ := exists_lies wf (List.length_pos_of_ne_nil some)
  rw [Nat.zero_add] at lies parse
  refine ⟨code, ?_, lies, parse⟩
  rw [Walk.begin, look, ok_bind, lengthOf_eq lies.used]
  rfl

variable [Tally κ] (few : t.added.size ≤ maxSymbols) (fraction : Nat)
include few

theorem countLast_eq {w : Walk κ} (lies : Lies t line w.start w.code w.cur) :
    w.countLast t line = .ok ((matchEvents (matchAt t line w.start w.code)).foldl Tally.record w.counters) := by
  have inside : (Event.single w.code).inRange = true :=
    Event.Proper.inRange (e := .single w.code) (Nat.lt_of_lt_of_le lies.used (codes_le few))
  have first : (Event.single (matchAt t line w.start w.code).first.toNat).inRange = true :=
    Event.Proper.inRange (e := .single _) (Nat.lt_trans (matchAt t line w.start w.code).first.toNat_lt (by decide))
  rw [Walk.countLast, increment_eq _ inside, ok_bind, lengthOf_eq lies.used, ok_bind]
  by_cases one : (t.symbol w.code).len = 1
  · rw [if_neg (not_not.mpr one)]
    simp [matchEvents, matchAt, one]
    rfl
  · rw [if_pos one, lies.byteAt_eq wf, ok_bind, increment_eq _ first]
    simp [matchEvents, matchAt, one]

theorem countPair_eq {w : Walk κ} {code stop : Nat} (lies : Lies t line w.start w.code w.cur)
    (lies' : Lies t line w.cur code stop) (counters : κ) :
    w.countPair line counters code (t.symbol code).len =
      .ok ((pairEvents (matchAt t line w.start w.code) (matchAt t line w.cur code)).foldl Tally.record counters) := by
  have left := Nat.lt_of_lt_of_le lies.used (codes_le few)
  have pair : (Event.pair w.code code).inRange = true :=
    Event.Proper.inRange (e := .pair _ _) ⟨left, Nat.lt_of_lt_of_le lies'.used (codes_le few)⟩
  have first : (Event.pair w.code (matchAt t line w.cur code).first.toNat).inRange = true :=
    Event.Proper.inRange (e := .pair _ _)
      ⟨left, Nat.lt_trans (matchAt t line w.cur code).first.toNat_lt (by decide)⟩
  rw [Walk.countPair, increment_eq _ pair, ok_bind]
  by_cases several : (t.symbol code).len > 1
  · rw [if_pos several, lies'.byteAt_eq wf, ok_bind, increment_eq _ first]
    simp [pairEvents, matchAt, Nat.lt_of_lt_of_le Nat.one_lt_two several]
  · rw [if_neg several]
    simp [pairEvents, matchAt, several]
    rfl

/-- Where bytes are left, a walk goes on to the match that they start with. -/
theorem exists_onward {w : Walk κ} (lies : Lies t line w.start w.code w.cur) (inside : w.cur < line.length)
    (counters : κ) : ∃ next, w.onward t line fraction counters = .ok next ∧ w.cur < next.cur ∧
      Lies t line next.start next.code next.cur ∧
      t.parse (line.drop w.cur) = matchAt t line next.start next.code :: t.parse (line.drop next.cur) ∧
      next.gain = w.gain + ((matchAt t line next.start next.code).len - cost next.code) ∧
      next.counters = (if fraction < fullFraction then
        pairEvents (matchAt t line w.start w.code) (matchAt t line next.start next.code) else []).foldl
          Tally.record counters := by
  obtain ⟨code, look, later, lies', parse⟩ := exists_lies wf inside
  rw [Walk.onward, look, ok_bind, lengthOf_eq lies'.used, ok_bind]
  by_cases below : fraction < fullFraction
  · rw [if_pos below, countPair_eq wf few lies lies', ok_bind]
    exact ⟨_, rfl, later, lies', parse, rfl, by rw [if_pos below]⟩
  · rw [if_neg below, ok_bind]
    exact ⟨_, rfl, later, lies', parse, rfl, by rw [if_neg below]; rfl⟩

/-- A walk counts the matches from the one that it is at to the end of the line, and there
    it ends. -/
theorem run_eq (w : Walk κ) (lies : Lies t line w.start w.code w.cur) :
    w.run t line fraction =
      .ok ((events (fraction < fullFraction)
          (matchAt t line w.start w.code :: t.parse (line.drop w.cur))).foldl Tally.record w.counters,
        w.gain + gain (t.parse (line.drop w.cur))) := by
  rw [Walk.run, countLast_eq wf few lies, ok_bind]
  by_cases done : w.cur = line.length
  · rw [if_pos done, done, List.drop_length, parse_nil]
    simp [events, withNext, gain]
    rfl
  · have le := lies.le
    obtain ⟨next, step, later, lies', parse, gained, counted⟩ := exists_onward wf few fraction lies (by omega)
      ((matchEvents (matchAt t line w.start w.code)).foldl Tally.record w.counters)
    have ih := run_eq next lies'
    rw [if_neg done, if_neg (by omega), step, ok_bind, if_pos later, ih, parse, gained, counted,
      events_cons _ (matchAt t line w.start w.code), List.foldl_append, List.foldl_append, gain_cons, Int.add_assoc]
    simp only [decide_eq_true_eq, List.head?_cons, Option.map_some, Option.getD_some]
    rfl
termination_by line.length - w.cur
decreasing_by
  have := lies'.le
  omega

/-! ### Walking over a sample -/

/-- What a line adds to the counts and to the gain. -/
def countLine (t : Table) (fraction : Nat) (state : κ × Int) (line : Bytes) : κ × Int :=
  ((events (fraction < fullFraction) (t.parse line)).foldl Tally.record state.1, state.2 + gain (t.parse line))

theorem walkLine_eq (sample : Sample) (state : κ × Int) (line : Bytes) (i : Nat) :
    walkLine t sample fraction state line i =
      .ok (if !line.isEmpty && !(sample.skipsLines && Sample.skipsLine i fraction) then countLine t fraction state line
        else state) := by
  rw [walkLine]
  by_cases left : line.isEmpty = true ∨ (sample.skipsLines = true ∧ Sample.skipsLine i fraction = true)
  · have out : (!line.isEmpty && !(sample.skipsLines && Sample.skipsLine i fraction)) = false := by
      rcases left with none | skipped
      · simp [none]
      · simp [skipped]
    rw [if_pos left, out]
    rfl
  · obtain ⟨some, kept⟩ := not_or.mp left
    have inside : (!line.isEmpty && !(sample.skipsLines && Sample.skipsLine i fraction)) = true := by
      simpa [some, Decidable.or_iff_not_imp_left] using kept
    obtain ⟨code, begun, lies, parse⟩ := exists_begin wf (mt List.isEmpty_iff.mpr some) state.1 state.2
    have run := run_eq wf few fraction ⟨state.1, state.2 + ((t.symbol code).len - cost code), 0, code,
      (t.symbol code).len⟩ lies
    rw [if_neg left, inside, begun, ok_bind, run, if_pos rfl, countLine, parse, gain_cons, Int.add_assoc]
    rfl

end

theorem lineBetween_eq {buffer : Array UInt8} {start stop : Nat} (le : start ≤ stop) (inside : stop ≤ buffer.size) :
    lineBetween buffer start stop = .ok (buffer.extract start stop).toList := if_pos ⟨le, inside⟩

theorem le_of_mem_zip_tail {a b : Nat} : ∀ {offsets : List Nat}, offsets.Pairwise (· ≤ ·) →
    (a, b) ∈ offsets.zip offsets.tail → a ≤ b
  | [], _, member => by simp at member
  | [_], _, member => by simp at member
  | x :: y :: rest, sorted, member => by
    rcases List.mem_cons.mp member with here | later
    · obtain ⟨rfl, rfl⟩ := Prod.mk.inj here
      exact List.rel_of_pairwise_cons sorted List.mem_cons_self
    · exact le_of_mem_zip_tail sorted.of_cons later

/-- Offsets that never decrease and end with the buffer are those of lines in it. -/
theorem lines_inside {sample : Sample} (back : sample.BackToBack) :
    ∀ ends ∈ sample.offsets.toList.zip sample.offsets.toList.tail,
      ends.1 ≤ ends.2 ∧ ends.2 ≤ sample.buffer.size := by
  rintro ⟨start, stop⟩ member
  exact ⟨le_of_mem_zip_tail back.sorted member, back.le_size (List.mem_of_mem_tail (List.of_mem_zip member).2)⟩

section
variable {κ : Type} [Tally κ] {t : Table} (wf : t.WellFormed) (few : t.added.size ≤ maxSymbols)
include wf few

theorem walkLines_eq (sample : Sample) (fraction : Nat) : ∀ (ends : List (Nat × Nat)) (i : Nat) (state : κ × Int),
    (∀ e ∈ ends, e.1 ≤ e.2 ∧ e.2 ≤ sample.buffer.size) →
    walkLines t sample fraction state i ends =
    .ok (((((ends.map fun (start, stop) => (sample.buffer.extract start stop).toList).zipIdx i).filter fun (line, i) =>
      !line.isEmpty && !(sample.skipsLines && Sample.skipsLine i fraction)).map Prod.fst).foldl
        (countLine t fraction) state)
  | [], _, _, _ => rfl
  | (start, stop) :: ends, i, state, inside => by
    obtain ⟨le, fits⟩ := inside (start, stop) List.mem_cons_self
    have later := fun state => walkLines_eq sample fraction ends (i + 1) state
      fun e member => inside e (List.mem_cons_of_mem _ member)
    rw [walkLines, lineBetween_eq le fits, ok_bind, walkLine_eq wf few, ok_bind, later, List.map_cons,
      List.zipIdx_cons, List.filter_cons]
    split
    case isTrue => rfl
    case isFalse => rfl

end

/-- Lines counted one after another add all of their events to the counts, and all that they
    save to the gain. -/
theorem foldl_countLine {κ : Type} [Tally κ] (t : Table) (fraction : Nat) : ∀ (lines : List Bytes) (state : κ × Int),
    lines.foldl (countLine t fraction) state =
      (((lines.map t.parse).flatMap (events (fraction < fullFraction))).foldl Tally.record state.1,
        state.2 + (lines.map fun line => gain (t.parse line)).sum)
  | [], state => by simp
  | line :: rest, state => by
    rw [List.foldl_cons, foldl_countLine t fraction rest, List.map_cons, List.flatMap_cons, List.foldl_append,
      List.map_cons, List.sum_cons, countLine, Int.add_assoc]

section
variable {κ : Type} [Tally κ] {t : Table} (wf : t.WellFormed) (few : t.added.size ≤ maxSymbols)
include wf few

theorem fst_count (sample : Sample) (fraction : Nat) (counters : κ) :
    (count t sample fraction counters).1 = (roundEvents t sample fraction).foldl Tally.record counters := by
  have inRange : ∀ e ∈ roundEvents t sample fraction, e.inRange = true := fun e member =>
    (proper_of_mem_roundEvents wf few member).inRange
  have takeWhile := List.takeWhile_eq_self_iff.mpr inRange
  rw [roundEvents] at takeWhile
  simp only [count, Tally.recordAll, takeWhile, roundEvents]

/-- The walk over a sample counts what a pass counts, and makes no misstep. -/
theorem walk_eq {sample : Sample} (back : sample.BackToBack) (fraction : Nat) (counters : κ) :
    walk t sample fraction counters =
      .ok ((count t sample fraction counters).1, roundGain t sample fraction) := by
  have walked := walkLines_eq wf few sample fraction _ 0 (counters, 0) (lines_inside back)
  rw [foldl_countLine] at walked
  rw [walk, walked, fst_count wf few, Int.zero_add]
  rfl

end

/-! ### What a pass leaves -/

/-- What a pass leaves in the counters when it has split the lines of a round: each count is
    the old one and what the lines add to it, up to its cap. -/
structure Tallied (t : Table) (fraction : Nat) (before after : Counters) (splits : List (List Nat)) : Prop where
  single : ∀ code < countedCodes, Tally.get after (.single code) =
    min (Tally.get before (.single code) + (splits.map fun codes => t.uses codes code).sum) singleCap
  pair : fraction < fullFraction → ∀ left < countedCodes, ∀ right < countedCodes,
    Tally.get after (.pair left right) =
      min (Tally.get before (.pair left right) + (splits.map fun codes => t.neighbours codes left right).sum) pairCap
  /-- At the whole sample no count of a pair changes. -/
  whole : fullFraction ≤ fraction → ∀ left < countedCodes, ∀ right < countedCodes,
    Tally.get after (.pair left right) = Tally.get before (.pair left right)

/-- The codes that the lines of a round are split into. -/
def splitLines (t : Table) (sample : Sample) (fraction : Nat) : List (List Nat) :=
  (sample.roundLines fraction).map fun line => (t.parse line).map Match.code

theorem count_roundEvents (t : Table) (sample : Sample) (fraction : Nat) (e : Event) :
    (roundEvents t sample fraction).count e =
      ((sample.roundLines fraction).map fun line =>
        (events (fraction < fullFraction) (t.parse line)).count e).sum := by
  rw [roundEvents, List.count_flatMap, List.map_map]
  rfl

theorem tallied {t : Table} (wf : t.WellFormed) (few : t.added.size ≤ maxSymbols) (sample : Sample) (fraction : Nat)
    {counters : Counters} {f : Counts} (keeps : Tally.Keeps counters f) :
    Tallied t fraction counters (count t sample fraction counters).1 (splitLines t sample fraction) := by
  have kept := keeps.count wf few sample fraction
  have found (line : Bytes) : ∀ m ∈ t.parse line, m.Found t := fun m member => found_of_mem_parse wf member
  have after {e : Event} (proper : e.Proper) : Tally.get (count t sample fraction counters).1 e =
      min (Tally.get counters e + (roundEvents t sample fraction).count e) e.cap := by
    have le := LawfulTally.get_le keeps.valid proper
    rw [keeps.get_eq e proper] at le
    rw [kept.get_eq e proper, Counts.foldl_record _ _ le, keeps.get_eq e proper]
  constructor
  case single =>
    intro code inside
    rw [after (e := .single code) inside, count_roundEvents]
    simp only [count_single_events wf _ code (found _), splitLines, List.map_map, Function.comp_def, Event.cap]
  case pair =>
    intro below left inside right inside'
    rw [after (e := .pair left right) ⟨inside, inside'⟩, count_roundEvents, decide_eq_true below]
    simp only [count_pair_events left right (found _), splitLines, List.map_map, Function.comp_def, Event.cap]
  case whole =>
    intro above left inside right inside'
    have proper : (Event.pair left right).Proper := ⟨inside, inside'⟩
    rw [after proper, count_roundEvents, decide_eq_false (Nat.not_lt_of_le above)]
    simp only [count_pair_events_whole, List.map_const', List.sum_replicate, smul_zero, Nat.add_zero]
    exact Nat.min_eq_left (LawfulTally.get_le keeps.valid proper)

/-- Whatever table was built and whatever was counted before, the walk over the lines of a
    sample ends at the end of each line, and leaves the counts of the lines split from the
    left at longest symbols. -/
theorem exists_tallied {terminator : UInt8} {zeroTerminated : Bool} {symbols : List Symbol} {t : Table}
    (built : (Table.empty terminator zeroTerminated).addAll symbols = .ok t) (few : t.added.size ≤ maxSymbols)
    {sample : Sample} (back : sample.BackToBack) (fraction : Nat) {layout : Layout} {counters : Counters}
    (reachable : Counters.Reachable layout counters) :
    ∃ after gained splits, walk t sample fraction counters = .ok (after, gained) ∧
      count t sample fraction counters = (after, .ok gained) ∧
      List.Forall₂ t.Splits (sample.roundLines fraction) splits ∧ Tallied t fraction counters after splits := by
  have wf := wellFormed_addAll built
  obtain ⟨f, keeps⟩ := reachable.exists_keeps
  refine ⟨_, _, splitLines t sample fraction, walk_eq wf few back fraction counters,
    Prod.ext rfl (outcome_count wf few sample fraction counters), ?_, tallied wf few sample fraction keeps⟩
  exact List.forall₂_map_right_iff.mpr (List.forall₂_same.mpr fun line _ => splits_parse wf line)

/-- A symbol that another one starts with, and a line in which each of them stands before the
    other. -/
theorem exists_tallied_repeated : ∃ t, (Table.empty 0 false).addAll [.ofBytes [97, 98], .ofBytes [97, 98, 99]] = .ok t ∧
    t.added.size ≤ maxSymbols ∧
    (Sample.ofLines [[97, 98, 99, 97, 98, 97, 98, 99], [], [120]] .standard).BackToBack ∧
    Counters.Reachable .halved (.empty .halved) ∧
    ∃ after gained splits,
      walk t (Sample.ofLines [[97, 98, 99, 97, 98, 97, 98, 99], [], [120]] .standard) 8 (Counters.empty .halved) =
        .ok (after, gained) ∧
      count t (Sample.ofLines [[97, 98, 99, 97, 98, 97, 98, 99], [], [120]] .standard) 8 (Counters.empty .halved) =
        (after, .ok gained) ∧
      List.Forall₂ t.Splits
        ((Sample.ofLines [[97, 98, 99, 97, 98, 97, 98, 99], [], [120]] .standard).roundLines 8) splits ∧
      Tallied t 8 (.empty .halved) after splits := by
  obtain ⟨t, built, size⟩ : ∃ t, (Table.empty 0 false).addAll [.ofBytes [97, 98], .ofBytes [97, 98, 99]] = .ok t ∧
      t.added.size = 2 := ⟨_, rfl, rfl⟩
  have few : t.added.size ≤ maxSymbols := by rw [size]; decide
  have back := Sample.backToBack_ofLines [[97, 98, 99, 97, 98, 97, 98, 99], [], [120]] .standard
  exact ⟨t, built, few, back, .empty, exists_tallied built few back 8 .empty⟩

end Training
end SymbolCodec
