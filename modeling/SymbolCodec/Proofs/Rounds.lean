import SymbolCodec.Training
import SymbolCodec.Proofs.Finishing
import SymbolCodec.Proofs.Selecting

/-!
The rounds of training. Every table of a round has at most as many symbols as there
are codes, and its byte strings are the terminator and strings that stand in a line
of the sample (`Training.Ready`); the table of the next round is made and is again
like that (`Training.exists_next`). So the rounds have a course up to the whole
sample (`Training.exists_course`), which is what training goes through and reports
(`Training.Course.rounds_eq`); they end with a table and with what was counted with
it (`Training.exists_best`), and the table made of these counts can be finished
(`Training.exists_onSample`). None of this depends on the layout of the counts
(`Training.Course.congr`, `Training.onSample_congr`).
-/
namespace SymbolCodec.Training
open Table

/-- The bytes stand in a line of the sample. -/
def Stands (sample : Sample) (bs : Bytes) : Prop := ∃ line ∈ sample.lines, bs <:+: line

/-- What every table of a round is like. -/
structure Ready (sample : Sample) (terminator : UInt8) (zeroTerminated : Bool) (t : Table) : Prop where
  wf : t.WellFormed
  few : t.added.size ≤ maxSymbols
  terminator_eq : t.terminator = terminator
  zeroTerminated_eq : t.zeroTerminated = zeroTerminated
  stands : ∀ bs ∈ t.strings, bs = [terminator] ∨ Stands sample bs

section
variable {sample : Sample} {terminator : UInt8} {zeroTerminated : Bool}

/-- The table of the first round. -/
abbrev firstTable (sample : Sample) (config : Config) : Table :=
  .empty (sample.terminator config.zeroTerminated) config.zeroTerminated

theorem ready_firstTable (sample : Sample) (config : Config) :
    Ready sample (sample.terminator config.zeroTerminated) config.zeroTerminated (firstTable sample config) where
  wf := wellFormed_empty ..
  few := Nat.zero_le _
  terminator_eq := rfl
  zeroTerminated_eq := rfl
  stands := by simp [strings, Table.empty]

theorem Selected.ready {t : Table} (selected : Selected terminator zeroTerminated (Stands sample) t) :
    Ready sample terminator zeroTerminated t where
  wf := selected.wf
  few := selected.few
  terminator_eq := selected.terminator_eq
  zeroTerminated_eq := selected.zeroTerminated_eq
  stands := by
    obtain ⟨chosen, strings, _, kinds⟩ := selected.strings_eq
    intro bs member
    rw [strings] at member
    rcases List.mem_cons.mp member with rfl | later
    · exact .inl rfl
    · exact .inr (kinds bs later).2

theorem stands_of_counts {t : Table} (wf : t.WellFormed) {fraction : Nat} {e : Event}
    (some : counts t sample fraction e ≠ 0) : Stands sample ((e.bytes t).take maxLength) := by
  obtain ⟨line, member, inner⟩ := exists_line_of_counts wf some
  exact ⟨line, member, (List.take_prefix _ _).isInfix.trans inner⟩

end

/-! ### One round -/

def singlesOf (f : Counts) : List Nat := (List.range countedCodes).map fun code => f (.single code)

theorem length_singlesOf (f : Counts) : (singlesOf f).length = countedCodes := by simp [singlesOf]

/-- What has a count once the counts of codes are read back had one before. -/
theorem ne_zero_of_ofSingles {f : Counts} {e : Event} (some : Counts.ofSingles (singlesOf f) e ≠ 0) : f e ≠ 0 := by
  cases e with
  | pair left right => exact absurd rfl some
  | single code =>
    intro none
    refine some ?_
    rw [Counts.ofSingles, singlesOf, List.getElem?_map]
    by_cases inside : code < countedCodes
    · rw [List.getElem?_range inside, Option.map_some, none]
      rfl
    · rw [List.getElem?_eq_none (by simpa using inside)]
      rfl

/-- The round of a table at a fraction: its gain and the counts of its codes. -/
def roundOf (sample : Sample) (fraction : Nat) (t : Table) : Round :=
  ⟨t, roundGain t sample fraction, singlesOf (counts t sample fraction)⟩

/-- What is reported of a round with its fraction and its table. -/
def report (sample : Sample) (round : UInt32 × Table) : Notice :=
  .round round.1 (roundGain round.2 sample round.1.toNat) round.2.added.size

/-- The table that follows from counts. -/
def nextTable (sample : Sample) (config : Config) (fraction : Nat) (t : Table) (f : Counts) : Except Fault Table :=
  select t.terminator t.zeroTerminated
    (gains t (raiseTerminator t f) fraction (sample.threshold config fraction) config).toList

section
variable {sample : Sample} {terminator : UInt8} {zeroTerminated : Bool}

/-- The next table is made, of byte strings that stand in lines of the sample if all
    that has a count does. -/
theorem exists_nextTable {t : Table} (ready : Ready sample terminator zeroTerminated t) (config : Config)
    (fraction : Nat) {f : Counts} (source : ∀ e, f e ≠ 0 → Stands sample ((e.bytes t).take maxLength)) :
    ∃ t', nextTable sample config fraction t f = .ok t' ∧ Selected terminator zeroTerminated (Stands sample) t' := by
  obtain ⟨t', run, selected⟩ :=
    exists_select_gains ready.wf f fraction (sample.threshold config fraction) config
  rw [ready.terminator_eq, ready.zeroTerminated_eq] at selected
  refine ⟨t', run, selected.imp fun bs _ counted => ?_⟩
  obtain ⟨e, some, rfl⟩ := counted
  exact source e some

theorem exists_next {t : Table} (ready : Ready sample terminator zeroTerminated t) (config : Config) (fraction : Nat) :
    ∃ t', nextTable sample config fraction t (counts t sample fraction) = .ok t' ∧
      Ready sample terminator zeroTerminated t' := by
  obtain ⟨t', run, selected⟩ := exists_nextTable ready config fraction fun _ some => stands_of_counts ready.wf some
  exact ⟨t', run, selected.ready⟩

/-- A round that has been gone through with a table of training. -/
def Round.Sound (sample : Sample) (terminator : UInt8) (zeroTerminated : Bool) (r : Round) : Prop :=
  ∃ fraction t, Ready sample terminator zeroTerminated t ∧ r = roundOf sample fraction t

theorem Round.Sound.better {best : Option Round} (sound : ∀ b, best = some b → b.Sound sample terminator zeroTerminated)
    {r : Round} (sound' : r.Sound sample terminator zeroTerminated) :
    (Round.better best r).Sound sample terminator zeroTerminated := by
  cases best with
  | none => exact sound'
  | some b =>
    show (if r.gain ≥ b.gain then r else b).Sound sample terminator zeroTerminated
    split
    case isTrue => exact sound'
    case isFalse => exact sound b rfl

/-- The counts of the best round, once they are read back, lead to a table, too. -/
theorem exists_last {best : Round} (sound : best.Sound sample terminator zeroTerminated) (config : Config) :
    ∃ t, nextTable sample config fullFraction best.table (.ofSingles best.counts) = .ok t ∧
      Selected terminator zeroTerminated (Stands sample) t := by
  obtain ⟨fraction, t, ready, rfl⟩ := sound
  have source (e : Event) (some : Counts.ofSingles (singlesOf (counts t sample fraction)) e ≠ 0) :
      Stands sample ((e.bytes t).take maxLength) := stands_of_counts ready.wf (ne_zero_of_ofSingles some)
  simp only [roundOf]
  exact exists_nextTable ready config fullFraction source

end

section
variable {κ : Type} [Tally κ] [LawfulTally κ] {fresh : κ} (keeps : Tally.Keeps fresh .zero)
  {sample : Sample} {config : Config}
include keeps

section
variable {t : Table} (wf : t.WellFormed) (few : t.added.size ≤ maxSymbols)
include wf few

theorem keeps_counts (sample : Sample) (fraction : Nat) :
    Tally.Keeps (count t sample fraction fresh).1 (counts t sample fraction) :=
  keeps.count wf few sample fraction

theorem makeTable_count (sample : Sample) (config : Config) (fraction : Nat) :
    (makeTable t (count t sample fraction fresh).1 fraction (sample.threshold config fraction) config).2 =
      nextTable sample config fraction t (counts t sample fraction) :=
  (keeps_counts keeps wf few sample fraction).makeTable wf few fraction _ config

/-- One round, whatever the layout of the counts. -/
theorem rounds_eq (fraction : UInt32) (best : Option Round) (log : List Notice) :
    rounds fresh sample config fraction t best log =
      if fraction.toNat < fullFraction then do
        rounds fresh sample config (config.following fraction)
          (← nextTable sample config fraction.toNat t (counts t sample fraction.toNat))
          (some (Round.better best (roundOf sample fraction.toNat t))) (log ++ [report sample (fraction, t)])
      else .ok (Round.better best (roundOf sample fraction.toNat t), log ++ [report sample (fraction, t)]) := by
  have singles : Tally.singles (count t sample fraction.toNat fresh).1 =
      singlesOf (counts t sample fraction.toNat) := (keeps_counts keeps wf few sample fraction.toNat).singles
  have next := makeTable_count keeps wf few sample config fraction.toNat
  have outcome := outcome_count wf few sample fraction.toNat fresh
  rw [rounds]
  generalize count t sample fraction.toNat fresh = pass at singles next outcome ⊢
  obtain ⟨counters, gain⟩ := pass
  cases outcome
  simp only at singles next
  rw [roundOf, report, ← singles, ← next]
  by_cases below : fraction.toNat < fullFraction
  · simp only [bind, Except.bind, below, ↓reduceIte]
  · simp only [bind, Except.bind, below, ↓reduceIte, pure, Except.pure]

end

/-! ### All rounds -/

/-- The rounds from one on, each with its fraction and its table: the counts of a round make the
    table of the next one, up to a round at the whole sample. -/
inductive Course {κ : Type} [Tally κ] (fresh : κ) (sample : Sample) (config : Config) :
    UInt32 → Table → List (UInt32 × Table) → Prop
  | whole {fraction : UInt32} {t : Table} : ¬fraction.toNat < fullFraction →
      Course fresh sample config fraction t [(fraction, t)]
  | next {fraction : UInt32} {t t' : Table} {later : List (UInt32 × Table)} : fraction.toNat < fullFraction →
      (makeTable t (count t sample fraction.toNat fresh).1 fraction.toNat
        (sample.threshold config fraction.toNat) config).2 = .ok t' →
      Course fresh sample config (config.following fraction) t' later →
      Course fresh sample config fraction t ((fraction, t) :: later)

/-- The best of rounds, and of one before them. -/
def bestOf (sample : Sample) (before : Option Round) (course : List (UInt32 × Table)) : Option Round :=
  course.foldl (fun best round => some (Round.better best (roundOf sample round.1.toNat round.2))) before

section
variable {terminator : UInt8} {zeroTerminated : Bool}

omit keeps in
theorem sound_bestOf {course : List (UInt32 × Table)}
    (ready : ∀ round ∈ course, Ready sample terminator zeroTerminated round.2) {before : Option Round}
    (sound : ∀ b, before = some b → b.Sound sample terminator zeroTerminated) {r : Round}
    (best : bestOf sample before course = some r) : r.Sound sample terminator zeroTerminated := by
  induction course generalizing before with
  | nil => exact sound r best
  | cons round later ih =>
    obtain ⟨here, ready'⟩ := List.forall_mem_cons.mp ready
    have better := Round.Sound.better sound ⟨round.1.toNat, round.2, here, rfl⟩
    exact ih ready' (fun b same => Option.some.inj same ▸ better) best

/-- The table that a round makes is one of training again. -/
theorem Ready.next {t t' : Table} (ready : Ready sample terminator zeroTerminated t) {fraction : Nat}
    (made : (makeTable t (count t sample fraction fresh).1 fraction (sample.threshold config fraction) config).2 =
      .ok t') : Ready sample terminator zeroTerminated t' := by
  obtain ⟨t'', next, ready'⟩ := exists_next ready config fraction
  rw [makeTable_count keeps ready.wf ready.few, next] at made
  cases made
  exact ready'

/-- The rounds come to the whole sample, whatever the step of the fraction. -/
theorem exists_course (sample : Sample) (config : Config) (fraction : UInt32) {t : Table}
    (ready : Ready sample terminator zeroTerminated t) : ∃ course, Course fresh sample config fraction t course := by
  by_cases below : fraction.toNat < fullFraction
  · obtain ⟨t', next, ready'⟩ := exists_next ready config fraction.toNat
    have made := (makeTable_count keeps ready.wf ready.few sample config fraction.toNat).trans next
    obtain ⟨later, course⟩ := exists_course sample config (config.following fraction) ready'
    exact ⟨_, .next below made course⟩
  · exact ⟨_, .whole below⟩
termination_by config.roundsAfter fraction
decreasing_by exact config.roundsAfter_following_lt below

namespace Course
variable {fraction : UInt32} {t : Table} {course : List (UInt32 × Table)}
  (run : Course fresh sample config fraction t course) (ready : Ready sample terminator zeroTerminated t)
include run ready

omit [LawfulTally κ] keeps ready in
theorem exists_bestOf (before : Option Round) : ∃ best, bestOf sample before course = some best := by
  induction run generalizing before with
  | whole _ => exact ⟨_, rfl⟩
  | next _ _ _ ih => exact ih _

theorem forall_ready : ∀ round ∈ course, Ready sample terminator zeroTerminated round.2 := by
  induction run with
  | whole _ => simpa using ready
  | next below made _ ih => exact List.forall_mem_cons.mpr ⟨ready, ih (ready.next keeps made)⟩

/-- Training goes through the rounds of a course: it reports each of them, and ends with the best. -/
theorem rounds_eq {before : Option Round} {best : Round} (kept : bestOf sample before course = some best)
    (log : List Notice) :
    rounds fresh sample config fraction t before log = .ok (best, log ++ course.map (report sample)) := by
  induction run generalizing before log with
  | whole full =>
    cases kept
    rw [Training.rounds_eq keeps ready.wf ready.few, if_neg full]
    rfl
  | @next fraction t t' later below made _ ih =>
    have ran := ih (ready.next keeps made) kept (log ++ [report sample (fraction, t)])
    rw [List.append_assoc] at ran
    rw [Training.rounds_eq keeps ready.wf ready.few, if_pos below, ← makeTable_count keeps ready.wf ready.few, made]
    exact ran

/-- The course is the same in every layout of the counts. -/
theorem congr {κ' : Type} [Tally κ'] [LawfulTally κ'] {fresh' : κ'} (keeps' : Tally.Keeps fresh' .zero)
    (layout : Layout) : Course fresh' sample { config with layout } fraction t course := by
  induction run with
  | whole full => exact .whole full
  | @next fraction t t' later below made _ ih =>
    refine .next below ?_ (ih (ready.next keeps made))
    rw [makeTable_count keeps ready.wf ready.few] at made
    exact (makeTable_count keeps' ready.wf ready.few sample { config with layout } fraction.toNat).trans made

end Course

/-- The rounds end, with what was counted with a table of one of them. -/
theorem exists_best (sample : Sample) (config : Config) :
    ∃ best log, rounds fresh sample config config.firstFraction (firstTable sample config) none [] = .ok (best, log) ∧
      best.Sound sample (sample.terminator config.zeroTerminated) config.zeroTerminated := by
  have ready := ready_firstTable sample config
  obtain ⟨course, run⟩ := exists_course keeps sample config config.firstFraction ready
  obtain ⟨best, kept⟩ := run.exists_bestOf none
  exact ⟨best, _, run.rounds_eq keeps ready kept [],
    sound_bestOf (run.forall_ready keeps ready) (fun _ none => by cases none) kept⟩

/-- After the rounds, the table made of the best one's counts is finished. -/
theorem onSample_eq {best : Round} {log : List Notice}
    (run : rounds fresh sample config config.firstFraction (firstTable sample config) none [] = .ok (best, log))
    (sound : best.Sound sample terminator zeroTerminated) :
    onSample fresh sample config = (do
      let table ← nextTable sample config fullFraction best.table (.ofSingles best.counts)
      let encoder ← Encoder.ofTable table
      return (encoder, log ++
        [.finished best.gain (sample.terminator config.zeroTerminated) table.added.size])) := by
  obtain ⟨fraction, t, ready, rfl⟩ := sound
  obtain ⟨counters, restored, kept⟩ := keeps.restore (length_singlesOf (counts t sample fraction))
  have table := kept.makeTable ready.wf ready.few fullFraction (sample.threshold config fullFraction) config
  rw [onSample, run]
  simp only [bind, Except.bind, roundOf, restored, nextTable, ← table]

end

/-- Training ends, and its last table is finished. -/
theorem exists_onSample (sample : Sample) (config : Config) :
    ∃ t e log, onSample fresh sample config = .ok (e, log) ∧ Encoder.ofTable t = .ok e ∧
      Selected (sample.terminator config.zeroTerminated) config.zeroTerminated (Stands sample) t := by
  obtain ⟨best, log, run, sound⟩ := exists_best keeps sample config
  obtain ⟨t, last, selected⟩ := exists_last sound config
  obtain ⟨e, finished⟩ := Encoder.exists_ofTable selected.few
  refine ⟨t, e, log ++ [.finished best.gain (sample.terminator config.zeroTerminated) t.added.size], ?_, finished,
    selected⟩
  rw [onSample_eq keeps run sound, last]
  exact bind_eq_ok_iff.mpr ⟨t, rfl, bind_eq_ok_iff.mpr ⟨e, finished, rfl⟩⟩

/-- Training is the same in every layout of the counts. -/
theorem onSample_congr {κ' : Type} [Tally κ'] [LawfulTally κ'] {fresh' : κ'} (keeps' : Tally.Keeps fresh' .zero)
    (layout : Layout) (sample : Sample) (config : Config) :
    onSample fresh sample config = onSample fresh' sample { config with layout } := by
  have ready := ready_firstTable sample config
  obtain ⟨course, run⟩ := exists_course keeps sample config config.firstFraction ready
  obtain ⟨best, kept⟩ := run.exists_bestOf none
  have sound := sound_bestOf (run.forall_ready keeps ready) (fun _ none => by cases none) kept
  have run' := run.congr keeps ready keeps' layout
  rw [onSample_eq keeps (run.rounds_eq keeps ready kept []) sound,
    onSample_eq keeps' (run'.rounds_eq keeps' ready kept []) sound]
  rfl

end
end SymbolCodec.Training
