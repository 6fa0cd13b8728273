import SymbolCodec.Proofs.Trained

/-!
The layout of the counts is not seen. Training goes through the same rounds in either
layout (`Training.Course`), and in every one of them both layouts give the same gain,
the same counts of codes, the same candidates and the same next table
(`Training.SameRound`), so that training with either gives the same encoder and the
same notices (`Training.exists_train_layouts`).
-/
namespace SymbolCodec.Training

/-! ### Every round -/

/-- In a round with a table both layouts lead to the same. -/
structure SameRound (t : Table) (sample : Sample) (fraction : Nat) (least : UInt64) (config : Config) : Prop where
  gain : ∃ gain, (count t sample fraction (Counters.empty .whole)).2 = .ok gain ∧
    (count t sample fraction (Counters.empty .halved)).2 = .ok gain
  singles : Tally.singles (count t sample fraction (Counters.empty .whole)).1 =
    Tally.singles (count t sample fraction (Counters.empty .halved)).1
  candidates : ∃ gains,
    (candidates t (count t sample fraction (Counters.empty .whole)).1 fraction least config).2 = .ok gains ∧
    (candidates t (count t sample fraction (Counters.empty .halved)).1 fraction least config).2 = .ok gains
  next : ∃ t', (makeTable t (count t sample fraction (Counters.empty .whole)).1 fraction least config).2 = .ok t' ∧
    (makeTable t (count t sample fraction (Counters.empty .halved)).1 fraction least config).2 = .ok t'

theorem Ready.sameRound {sample : Sample} {terminator : UInt8} {zeroTerminated : Bool} {t : Table}
    (ready : Ready sample terminator zeroTerminated t) (fraction : Nat) (least : UInt64) (config : Config) :
    SameRound t sample fraction least config := by
  have kept (layout : Layout) := keeps_counts (Counters.keeps_empty layout) ready.wf ready.few sample fraction
  have made (layout : Layout) := (kept layout).makeTable ready.wf ready.few fraction least config
  obtain ⟨t', run, _⟩ := exists_select_gains ready.wf (counts t sample fraction) fraction least config
  exact {
    gain := ⟨_, outcome_count ready.wf ready.few .., outcome_count ready.wf ready.few ..⟩
    singles := (kept .whole).singles.trans (kept .halved).singles.symm
    candidates := ⟨_, (kept .whole).candidates ready.wf ready.few .., (kept .halved).candidates ready.wf ready.few ..⟩
    next := ⟨t', (made .whole).trans run, (made .halved).trans run⟩ }

/-- The rounds that training goes through in a layout, what it reports of them and the one that it
    keeps. -/
structure GoesThrough (sample : Sample) (config : Config) (layout : Layout) (course : List (UInt32 × Table))
    (best : Round) : Prop where
  run : Course (Counters.empty layout) sample config config.firstFraction (firstTable sample config) course
  rounds_eq : rounds (Counters.empty layout) sample config config.firstFraction (firstTable sample config) none [] =
    .ok (best, course.map (report sample))
  kept : bestOf sample none course = some best

section
variable (sample : Sample) (config : Config)

/-- There is one course of rounds for both layouts. -/
theorem exists_goesThrough : ∃ course best,
    (∀ layout, GoesThrough sample { config with layout } layout course best) ∧
      ∀ round ∈ course, Ready sample (sample.terminator config.zeroTerminated) config.zeroTerminated round.2 := by
  have ready := ready_firstTable sample config
  have whole := Counters.keeps_empty .whole
  obtain ⟨course, run⟩ := exists_course whole sample config config.firstFraction ready
  obtain ⟨best, kept⟩ := run.exists_bestOf none
  refine ⟨course, best, fun layout => ?_, run.forall_ready whole ready⟩
  have keeps := Counters.keeps_empty layout
  have run' := run.congr whole ready keeps layout
  exact ⟨run', run'.rounds_eq keeps ready kept [], kept⟩

variable {sample config}

/-- Training reports the rounds that it goes through, and then that it has ended. -/
theorem GoesThrough.log_eq {layout : Layout} {course : List (UInt32 × Table)} {best : Round}
    (goes : GoesThrough sample config layout course best)
    (ready : ∀ round ∈ course, Ready sample (sample.terminator config.zeroTerminated) config.zeroTerminated round.2)
    {e : Encoder} {log : List Notice} (trained : onSample (Counters.empty layout) sample config = .ok (e, log)) :
    ∃ symbols, log = course.map (report sample) ++
      [.finished best.gain (sample.terminator config.zeroTerminated) symbols] := by
  have sound := sound_bestOf ready (fun _ none => by cases none) goes.kept
  rw [onSample_eq (Counters.keeps_empty layout) goes.rounds_eq sound] at trained
  obtain ⟨table, _, later⟩ := bind_eq_ok_iff.mp trained
  obtain ⟨_, _, ended⟩ := bind_eq_ok_iff.mp later
  cases ended
  exact ⟨_, rfl⟩

end

/-! ### Every training -/

theorem train_congr (lines : List Bytes) (config : Config) (layout : Layout) :
    train lines config = train lines { config with layout } := by
  have sample : Sample.ofLines lines { config with layout } = Sample.ofLines lines config := rfl
  rw [train, train, sample]
  by_cases none : (Sample.ofLines lines config).buffer.isEmpty = true
  · simp only [none, ↓reduceIte]
  · simp only [none]
    exact onSample_congr (Counters.keeps_empty config.layout) (Counters.keeps_empty layout) layout _ config

/-- Training gives the same encoder and the same notices in both layouts, since it goes through the
    same rounds and comes to the same in each of them. -/
theorem exists_train_layouts (lines : List Bytes) (config : Config) : ∃ e log course best,
    train lines { config with layout := .whole } = .ok (e, log) ∧
      train lines { config with layout := .halved } = .ok (e, log) ∧
      (∀ layout, GoesThrough (Sample.ofLines lines config) { config with layout } layout course best) ∧
      ((Sample.ofLines lines config).buffer.isEmpty = false → ∃ symbols,
        log = course.map (report (Sample.ofLines lines config)) ++
          [.finished best.gain ((Sample.ofLines lines config).terminator config.zeroTerminated) symbols]) ∧
      ∀ round ∈ course, SameRound round.2 (Sample.ofLines lines config) round.1.toNat
        ((Sample.ofLines lines config).threshold config round.1.toNat) config := by
  obtain ⟨e, log, run, _⟩ := train_cases lines { config with layout := .whole }
  obtain ⟨course, best, goes, ready⟩ := exists_goesThrough (Sample.ofLines lines config) config
  refine ⟨e, log, course, best, run, ?_, goes, fun some => ?_, fun round member => (ready round member).sameRound ..⟩
  · exact (train_congr lines { config with layout := .whole } .halved).symm.trans run
  · have trained : onSample (Counters.empty .whole) (Sample.ofLines lines config) { config with layout := .whole } =
        .ok (e, log) := by
      rw [← run, train]
      exact (if_neg (Bool.eq_false_iff.mp some)).symm
    exact (goes .whole).log_eq ready trained

end SymbolCodec.Training
