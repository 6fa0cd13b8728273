import SymbolCodec.Proofs.Adding
import SymbolCodec.Proofs.Ranked
import SymbolCodec.Proofs.ReachedCounts
import SymbolCodec.Proofs.Trained

/-!
The order of the candidates is not seen. The entries that compare symbols are the gains of byte
strings (`Training.gathers_entries`), and no two of them are equal in the order of
candidates (`Training.Gathers.pairwise`). So a heap leaves nothing open: there is one table
that follows from the counts of a round (`Training.anyTable_eq`) and one outcome
of the rounds (`Training.anyRounds_eq`), and so of every training
(`Training.oneOutcome`).
-/
namespace SymbolCodec

/-! ### Choices that leave nothing open -/

namespace Outcomes
variable {α β : Type}

theorem only_ok_bind (a : α) (next : α → Outcomes β) : only (.ok a) >>= next = next a := by
  funext outcome
  apply propext
  constructor
  · rintro (⟨a', same, goes⟩ | ⟨_, fault, _⟩)
    · cases same
      exact goes
    · cases fault
  · exact fun goes => .inl ⟨a, rfl, goes⟩

/-- A choice does not matter if whatever is chosen leads to the same. -/
theorem anyOf_bind {kind : α → Prop} (some : ∃ a, kind a) {next : α → Outcomes β} {outcomes : Outcomes β}
    (same : ∀ a, kind a → next a = outcomes) : anyOf kind >>= next = outcomes := by
  funext outcome
  apply propext
  constructor
  · rintro (⟨a, ⟨_, chosen, equal⟩, goes⟩ | ⟨_, ⟨_, _, equal⟩, _⟩)
    · cases equal
      rwa [same a chosen] at goes
    · cases equal
  · intro goes
    obtain ⟨a, chosen⟩ := some
    exact .inl ⟨a, ⟨a, chosen, rfl⟩, (same a chosen).symm ▸ goes⟩

end Outcomes

/-- The byte string of a candidate, with its gain. -/
def Candidate.keyed (c : Candidate) : Bytes × UInt64 := (c.symbol.bytes, c.gain)

namespace Training
open Table

/-! ### Entries -/

/-- A gain goes to the entry of the same symbol, or makes a new one at the end. -/
theorem addGain_cases (s : Symbol) (gain : UInt64) : ∀ es : List Candidate,
    (∃ before c after, es = before ++ c :: after ∧ c.symbol.same s = true ∧
      addGain s gain es = before ++ ⟨c.symbol, c.gain + gain⟩ :: after) ∨
    (∀ c ∈ es, c.symbol.same s = false) ∧ addGain s gain es = es ++ [⟨s, gain⟩]
  | [] => .inr ⟨by simp, rfl⟩
  | c :: rest => by
    cases same : c.symbol.same s with
    | true => exact .inl ⟨[], c, rest, rfl, same, by simp [addGain, same]⟩
    | false =>
      rcases addGain_cases s gain rest with ⟨before, d, after, split, here, added⟩ | ⟨absent, added⟩
      · exact .inl ⟨c :: before, d, after, by rw [split]; rfl, here, by simp [addGain, same, added]⟩
      · exact .inr ⟨by simpa [same] using absent, by simp [addGain, same, added]⟩

/-- Entries of symbols without bits above their lengths have the byte strings and gains of a map. -/
structure Gathers (es : List Candidate) (sums : Std.HashMap Bytes UInt64) : Prop where
  normal : ∀ c ∈ es, c.symbol.Normal
  perm : (es.map Candidate.keyed).Perm sums.toList

namespace Gathers
variable {es : List Candidate} {sums : Std.HashMap Bytes UInt64} (gathers : Gathers es sums)
include gathers

theorem nodup : (es.map fun c => c.symbol.bytes).Nodup := by
  have keys := (gathers.perm.map Prod.fst).nodup_iff.mpr (nodup_keys sums)
  rwa [List.map_map] at keys

theorem getD_of_mem {c : Candidate} (member : c ∈ es) : sums.getD c.symbol.bytes 0 = c.gain := by
  have listed : (c.symbol.bytes, c.gain) ∈ sums.toList :=
    gathers.perm.mem_iff.mp (List.mem_map_of_mem (f := Candidate.keyed) member)
  rw [Std.HashMap.getD_eq_getD_getElem?, Std.HashMap.mem_toList_iff_getElem?_eq_some.mp listed, Option.getD_some]

theorem getD_of_absent {bs : Bytes} (absent : ∀ c ∈ es, c.symbol.bytes ≠ bs) : sums.getD bs 0 = 0 := by
  cases found : sums[bs]? with
  | none => rw [Std.HashMap.getD_eq_getD_getElem?, found, Option.getD_none]
  | some gain =>
    have listed := gathers.perm.mem_iff.mpr (Std.HashMap.mem_toList_iff_getElem?_eq_some.mpr found)
    obtain ⟨c, member, same⟩ := List.mem_map.mp listed
    exact absurd (Prod.mk.inj same).1 (absent c member)

omit gathers in
theorem filter_keyed {es : List Candidate} {bs : Bytes} (apart : ∀ c ∈ es, c.symbol.bytes ≠ bs) :
    (es.map Candidate.keyed).filter (fun entry => decide ¬ (bs == entry.1) = true) = es.map Candidate.keyed := by
  refine List.filter_eq_self.mpr fun entry member => ?_
  obtain ⟨c, listed, rfl⟩ := List.mem_map.mp member
  simpa [Candidate.keyed] using (apart c listed).symm

/-- More gain for an entry is more gain for its bytes. -/
theorem raise {before after : List Candidate} {c : Candidate} (split : es = before ++ c :: after) (gain : UInt64) :
    Gathers (before ++ ⟨c.symbol, c.gain + gain⟩ :: after) (sums.insert c.symbol.bytes (c.gain + gain)) where
  normal := by
    intro d listed
    rcases List.mem_append.mp listed with early | late
    · exact gathers.normal d (by simp [split, early])
    · rcases List.mem_cons.mp late with rfl | late
      · exact gathers.normal c (by simp [split])
      · exact gathers.normal d (by simp [split, late])
  perm := by
    have nodup := gathers.nodup
    have others := gathers.perm.filter fun entry => decide ¬ (c.symbol.bytes == entry.1) = true
    rw [split, List.map_append, List.map_cons, List.nodup_middle, List.nodup_cons, ← List.map_append] at nodup
    have apart : ∀ d ∈ before ++ after, d.symbol.bytes ≠ c.symbol.bytes := by
      intro d listed equal
      exact nodup.1 (equal ▸ List.mem_map_of_mem (f := fun c : Candidate => c.symbol.bytes) listed)
    have rest : (es.map Candidate.keyed).filter (fun entry => decide ¬ (c.symbol.bytes == entry.1) = true) =
        (before ++ after).map Candidate.keyed := by
      rw [← filter_keyed apart, split]
      simp [Candidate.keyed]
    have middle : ((before ++ ⟨c.symbol, c.gain + gain⟩ :: after).map Candidate.keyed).Perm
        ((c.symbol.bytes, c.gain + gain) :: (before ++ after).map Candidate.keyed) := by
      rw [List.map_append, List.map_cons, Candidate.keyed, List.map_append]
      exact List.perm_middle
    rw [rest] at others
    exact middle.trans ((others.cons _).trans Std.HashMap.toList_insert_perm.symm)

/-- A new entry is a gain for new bytes. -/
theorem append {s : Symbol} (normal : s.Normal) (apart : ∀ c ∈ es, c.symbol.bytes ≠ s.bytes) (gain : UInt64) :
    Gathers (es ++ [⟨s, gain⟩]) (sums.insert s.bytes gain) where
  normal := by
    intro d listed
    rcases List.mem_append.mp listed with old | new
    · exact gathers.normal d old
    · rw [List.mem_singleton.mp new]
      exact normal
  perm := by
    have others := gathers.perm.filter fun entry => decide ¬ (s.bytes == entry.1) = true
    rw [filter_keyed apart] at others
    rw [List.map_append]
    exact List.perm_append_comm.trans ((others.cons _).trans Std.HashMap.toList_insert_perm.symm)

/-- The map adds a gain to that of the same bytes, too. -/
theorem addGain {s : Symbol} (normal : s.Normal) (gain : UInt64) :
    Gathers (addGain s gain es) (sums.insert s.bytes (sums.getD s.bytes 0 + gain)) := by
  rcases addGain_cases s gain es with ⟨before, c, after, split, same, added⟩ | ⟨absent, added⟩
  · have member : c ∈ es := by simp [split]
    have bytes := (Symbol.same_iff_bytes (gathers.normal c member).toProper normal.toProper).mp same
    rw [added, ← bytes, gathers.getD_of_mem member]
    exact gathers.raise split gain
  · have apart : ∀ c ∈ es, c.symbol.bytes ≠ s.bytes := by
      intro c member equal
      have same := (Symbol.same_iff_bytes (gathers.normal c member).toProper normal.toProper).mpr equal
      rw [absent c member] at same
      cases same
    rw [added, gathers.getD_of_absent apart, UInt64.zero_add]
    exact gathers.append normal apart gain

end Gathers

theorem gathers_foldl (found : List (Symbol × UInt64)) (normal : ∀ entry ∈ found, entry.1.Normal) :
    ∀ {es : List Candidate} {sums : Std.HashMap Bytes UInt64}, Gathers es sums →
      Gathers (found.foldl (fun es (s, count) => addGain s (count * UInt64.ofNat s.len) es) es)
        (found.foldl (fun sums (s, count) =>
          sums.insert s.bytes (sums.getD s.bytes 0 + count * UInt64.ofNat s.len)) sums) := by
  induction found with
  | nil => exact fun gathers => gathers
  | cons entry found ih =>
    intro es sums gathers
    exact ih (fun other member => normal other (by simp [member])) (gathers.addGain (normal entry (by simp)) _)

/-- The entries of symbols have the gains of their byte strings. -/
theorem gathers_entries {found : List (Symbol × UInt64)} (normal : ∀ entry ∈ found, entry.1.Normal) (least : UInt64) :
    Gathers (entries found least) (totals ((found.filter fun (_, count) => count ≥ least).map fun (s, count) =>
      (s.bytes, count * UInt64.ofNat s.len))) := by
  rw [totals, List.foldl_map]
  exact gathers_foldl _ (fun entry member => normal entry (List.mem_filter.mp member).1) ⟨by simp, by simp⟩

/-- No two entries are equal in the order of candidates. -/
theorem Gathers.pairwise {es : List Candidate} {sums : Std.HashMap Bytes UInt64} (gathers : Gathers es sums) :
    es.Pairwise fun c d => c.compare d ≠ .eq :=
  (List.pairwise_map.mp gathers.nodup).imp fun apart equal => apart (Candidate.eq_of_compare equal).1

/-- What goes to the heap are the gains of the byte strings but for the terminator. -/
theorem Gathers.filter {es : List Candidate} {sums : Std.HashMap Bytes UInt64} (gathers : Gathers es sums)
    (terminator : UInt8) :
    ((es.filter fun c => !c.symbol.same (.ofBytes [terminator])).map Candidate.keyed).Perm
      (sums.toList.filter fun (bs, _) => bs != [terminator]) := by
  have kept : es.filter (fun c => !c.symbol.same (.ofBytes [terminator])) =
      es.filter ((fun (bs, _) => bs != [terminator]) ∘ Candidate.keyed) := by
    refine List.filter_congr fun c member => ?_
    have single : (Symbol.ofBytes [terminator]).Normal := Symbol.normal_ofBytes (by simp) (by simp [maxLength])
    have same := Symbol.same_iff_bytes (gathers.normal c member).toProper single.toProper
    rw [Symbol.bytes_ofBytes (by simp [maxLength])] at same
    rw [Bool.eq_iff_iff, Bool.not_eq_true', ← Bool.not_eq_true, same]
    simp [Candidate.keyed]
  rw [kept, ← List.filter_map]
  exact gathers.perm.filter _

/-! ### The next table -/

/-- Only the bytes of a candidate count when it is added. -/
theorem fill_map_plain : ∀ (cs : List Candidate) (t : Table), (∀ c ∈ cs, c.symbol.Normal) →
    fill t (cs.map Candidate.plain) = fill t cs
  | [], _, _ => rfl
  | c :: cs, t, normal => by
    have here := normal c (by simp)
    have add : t.add c.plain.symbol = t.add c.symbol :=
      add_congr t (Candidate.len_plain here) (Candidate.bytes_plain here)
    have rest (t' : Table) := fill_map_plain cs t' fun d member => normal d (by simp [member])
    simp only [List.map_cons, fill, add, rest]

/-- Whatever order the entries come in, and whatever a heap makes of them, the candidates are those of
    the ranking. -/
theorem Gathers.map_plain {es : List Candidate} {sums : Std.HashMap Bytes UInt64} (gathers : Gathers es sums)
    {terminator : UInt8} {heap popped : List Candidate}
    (order : (es.filter fun c => !c.symbol.same (.ofBytes [terminator])).Perm heap) (pops : Candidate.Pops heap popped) :
    popped.map Candidate.plain = ranking terminator sums.toList := by
  have normal : ∀ c ∈ heap, c.symbol.Normal := fun c member =>
    gathers.normal c (List.mem_filter.mp (order.mem_iff.mpr member)).1
  have keyed := (order.map Candidate.keyed).symm.trans (gathers.filter terminator)
  have made := keyed.map fun (bs, gain) => (⟨.ofBytes bs, gain⟩ : Candidate)
  rw [List.map_map] at made
  exact pops.map_plain normal made

section
variable {κ : Type} [Tally κ] [LawfulTally κ] {counters : κ} {f : Counts} (keeps : Tally.Keeps counters f) {t : Table}
  (wf : t.WellFormed) (few : t.added.size ≤ maxSymbols) (fraction : Nat) (least : UInt64) (config : Config)
include keeps wf few

omit keeps few in
theorem gathers_forward (g : Counts) :
    Gathers (entries ((forward t g fraction config).map inWord) least) (gains t g fraction least config) := by
  refine gathers_entries (fun _ member => ?_) least
  obtain ⟨⟨s, n⟩, listed, rfl⟩ := List.mem_map.mp member
  obtain ⟨_, _, normal, _⟩ := exists_event_of_forward wf listed
  exact normal

/-- One table follows from counts, whatever the order of the candidates. -/
theorem anyTable_eq :
    anyTable t counters fraction least config = Outcomes.only (makeTable t counters fraction least config).2 := by
  obtain ⟨raised, run, found⟩ := exists_raised keeps wf few fraction config
  have gathers := gathers_forward wf fraction least config (raiseTerminator t f)
  obtain ⟨start, first, _⟩ := exists_start t.terminator t.zeroTerminated
  have made : (makeTable t counters fraction least config).2 =
      fill start (ranking t.terminator (gains t (raiseTerminator t f) fraction least config).toList) := by
    rw [keeps.makeTable wf few, select, first]
    rfl
  rw [anyTable, run, made]
  simp only [Outcomes.only_ok_bind, found]
  refine Outcomes.anyOf_bind ⟨_, .refl _⟩ fun heap order => ?_
  refine Outcomes.anyOf_bind ⟨_, Candidate.pops_ranked heap⟩ fun popped pops => ?_
  have normal : ∀ c ∈ popped, c.symbol.Normal := by
    intro c member
    have listed := order.mem_iff.mpr ((Candidate.pops_iff.mp pops).1.mem_iff.mp member)
    exact gathers.normal c (List.mem_filter.mp listed).1
  rw [first, Outcomes.only_ok_bind, ← fill_map_plain popped start normal, gathers.map_plain order pops]

end

/-! ### The rounds -/

section
variable {κ : Type} [Tally κ] [LawfulTally κ] {fresh : κ} (keeps : Tally.Keeps fresh .zero)
  {sample : Sample} {config : Config}
include keeps

theorem anyRounds_eq {terminator : UInt8} {zeroTerminated : Bool} (fraction : UInt32) {t : Table}
    (ready : Ready sample terminator zeroTerminated t) (best : Option Round) (log : List Notice) :
    anyRounds fresh sample config fraction t best log =
      Outcomes.only (rounds fresh sample config fraction t best log) := by
  have kept := keeps_counts keeps ready.wf ready.few sample fraction.toNat
  have table := anyTable_eq kept ready.wf ready.few fraction.toNat (sample.threshold config fraction.toNat) config
  have made := makeTable_count keeps ready.wf ready.few sample config fraction.toNat
  have outcome := outcome_count ready.wf ready.few sample fraction.toNat fresh
  obtain ⟨t', next, ready'⟩ := exists_next ready config fraction.toNat
  rw [next] at made
  rw [anyRounds, rounds]
  generalize count t sample fraction.toNat fresh = pass at table made outcome ⊢
  obtain ⟨counters, gain⟩ := pass
  cases outcome
  simp only at table made
  by_cases below : fraction.toNat < fullFraction
  · have later := anyRounds_eq (config.following fraction) ready'
      (some (Round.better best ⟨t, roundGain t sample fraction.toNat, Tally.singles counters⟩))
      (log ++ [.round fraction (roundGain t sample fraction.toNat) t.added.size])
    simp only [Outcomes.only_ok_bind, below, ↓reduceIte, table, made, later]
    rfl
  · simp only [Outcomes.only_ok_bind, below, ↓reduceIte]
    rfl
termination_by config.roundsAfter fraction
decreasing_by exact config.roundsAfter_following_lt below

theorem anyOnSample_eq (sample : Sample) (config : Config) :
    anyOnSample fresh sample config = Outcomes.only (onSample fresh sample config) := by
  obtain ⟨best, log, run, sound⟩ := exists_best keeps sample config
  have open_eq : anyRounds fresh sample config config.firstFraction (firstTable sample config) none [] = _ :=
    anyRounds_eq keeps config.firstFraction (ready_firstTable sample config) none []
  obtain ⟨t', last, selected⟩ := exists_last sound config
  obtain ⟨e, finished⟩ := Encoder.exists_ofTable selected.few
  have whole : onSample fresh sample config = .ok (e, log ++
      [.finished best.gain (sample.terminator config.zeroTerminated) t'.added.size]) := by
    rw [onSample_eq keeps run sound, last]
    exact bind_eq_ok_iff.mpr ⟨t', rfl, bind_eq_ok_iff.mpr ⟨e, finished, rfl⟩⟩
  obtain ⟨fraction, t, ready, rfl⟩ := sound
  obtain ⟨counters, restored, kept⟩ := keeps.restore (length_singlesOf (counts t sample fraction))
  have table := anyTable_eq kept ready.wf ready.few fullFraction (sample.threshold config fullFraction) config
  have made := kept.makeTable ready.wf ready.few fullFraction (sample.threshold config fullFraction) config
  simp only [roundOf, nextTable] at last
  rw [last] at made
  rw [anyOnSample, whole, open_eq, run]
  simp only [Outcomes.only_ok_bind, roundOf, restored, table, made, finished]
  rfl

end

/-! ### Every training -/

theorem trainAnyOrder_eq (lines : List Bytes) (config : Config) :
    trainAnyOrder lines config = Outcomes.only (train lines config) := by
  rw [trainAnyOrder, train]
  by_cases none : (Sample.ofLines lines config).buffer.isEmpty = true
  · obtain ⟨e, finished⟩ := Encoder.exists_ofTable (t := Table.empty 0 config.zeroTerminated) (Nat.zero_le _)
    simp only [none, ↓reduceIte, finished, Outcomes.only_ok_bind]
    rfl
  · simp only [none]
    exact anyOnSample_eq (Counters.keeps_empty config.layout) _ config

/-- The candidates of a round are different in their order, and one table follows whatever the order
    in which they are handed over. -/
structure OneTable (t : Table) (counters : Counters) (fraction : Nat) (least : UInt64) (config : Config) :
    Prop where
  /-- The entries are the gains, and no two of them are equal in the order of candidates. -/
  distinct : ∃ found gains,
    contributions t (candidates t counters fraction least config).1 fraction config = .ok found ∧
    (candidates t counters fraction least config).2 = .ok gains ∧
    ((entries found least).map Candidate.keyed).Perm gains.toList ∧
    (entries found least).Pairwise fun c d => c.compare d ≠ .eq
  one : ∃ next, (makeTable t counters fraction least config).2 = .ok next ∧
    ∀ outcome, anyTable t counters fraction least config outcome ↔ outcome = .ok next

theorem oneTable {t : Table} (wf : t.WellFormed) (few : t.added.size ≤ maxSymbols) {counters : Counters} {f : Counts}
    (keeps : Tally.Keeps counters f) (fraction : Nat) (least : UInt64) (config : Config) :
    OneTable t counters fraction least config where
  distinct := by
    obtain ⟨raised, run, found⟩ := exists_raised keeps wf few fraction config
    have gathers := gathers_forward wf fraction least config (raiseTerminator t f)
    have first : (candidates t counters fraction least config).1 = raised := by simp only [candidates, run]
    refine ⟨_, _, by rw [first]; exact found, keeps.candidates wf few fraction least config, gathers.perm,
      gathers.pairwise⟩
  one := by
    obtain ⟨next, run, _⟩ := exists_select_gains wf f fraction least config
    refine ⟨next, (keeps.makeTable wf few fraction least config).trans run, fun outcome => ?_⟩
    rw [anyTable_eq keeps wf few, (keeps.makeTable wf few fraction least config).trans run]
    exact Iff.rfl

/-- The order of candidates is total. So the order in which they are handed over is not seen: neither in
    the table that follows from counts, whatever was done to these, nor in what training
    gives. -/
theorem oneOutcome : Std.TransCmp Candidate.compare ∧
    (∀ (terminator : UInt8) (zeroTerminated : Bool) (symbols : List Symbol) (t : Table),
      (Table.empty terminator zeroTerminated).addAll symbols = .ok t → t.added.size ≤ maxSymbols →
      ∀ (layout : Layout) (counters : Counters), Counters.Reachable layout counters →
      ∀ (fraction : Nat) (least : UInt64) (config : Config), OneTable t counters fraction least config) ∧
    ∀ (lines : List Bytes) (config : Config), ∃ e log, train lines config = .ok (e, log) ∧
      ∀ outcome, trainAnyOrder lines config outcome ↔ outcome = .ok (e, log) := by
  refine ⟨inferInstance, ?_, ?_⟩
  · intro _ _ _ t built few layout counters reachable fraction least config
    obtain ⟨f, keeps⟩ := reachable.exists_keeps
    exact oneTable (wellFormed_addAll built) few keeps fraction least config
  · intro lines config
    obtain ⟨e, log, run, _⟩ := train_cases lines config
    refine ⟨e, log, run, fun outcome => ?_⟩
    rw [trainAnyOrder_eq, run]
    exact Iff.rfl

/-- Counts of two bytes and of the pair of them that a table has, in either layout, and two lines. -/
theorem oneOutcome_pair : ∃ t, (Table.empty 0 false).addAll [.ofBytes [97, 98]] = .ok t ∧ t.added.size = 1 ∧
    t.added.size ≤ maxSymbols ∧
    (∀ layout, Counters.Reachable layout
        (Tally.recordAll (Counters.empty layout) [.single 97, .single 256, .pair 97 98, .pair 97 256]).1 ∧
      OneTable t (Tally.recordAll (Counters.empty layout) [.single 97, .single 256, .pair 97 98, .pair 97 256]).1
        64 1 .standard) ∧
    ∃ e log, train [[97, 98], [97, 97, 98]] .standard = .ok (e, log) ∧
      ∀ outcome, trainAnyOrder [[97, 98], [97, 97, 98]] .standard outcome ↔ outcome = .ok (e, log) := by
  obtain ⟨t, built, size⟩ : ∃ t, (Table.empty 0 false).addAll [.ofBytes [97, 98]] = .ok t ∧ t.added.size = 1 :=
    ⟨_, rfl, rfl⟩
  have few : t.added.size ≤ maxSymbols := by rw [size]; decide
  obtain ⟨_, tables, trainings⟩ := oneOutcome
  refine ⟨t, built, size, few, fun layout => ?_, trainings _ _⟩
  have reachable := Counters.Reachable.recordAll [.single 97, .single 256, .pair 97 98, .pair 97 256]
    (.empty : Counters.Reachable layout _)
  exact ⟨reachable, tables 0 false _ t built few layout _ reachable 64 1 .standard⟩

end Training
end SymbolCodec
