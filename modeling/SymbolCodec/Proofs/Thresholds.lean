import SymbolCodec.Proofs.Gains
import SymbolCodec.Proofs.Tallying

/-!
What passes the threshold of a round. The threshold is never more than the number of lines of
the sample, so that a pair of codes that stand side by side in every line may be thought to
pass it always. It is counted once at least in each line that the round does not leave out
(`Training.le_count_pair`), and so it passes in a sample with fewer lines than the fraction has
parts, where no line is left out (`Training.EveryLine.whole`). In a larger sample the lines left
out count in the threshold all the same: a pair that nothing else contributes to passes just
when it is counted often enough (`Training.EveryLine.mem_iff`), and this may not be so
(`Training.misses_everyLine`).
-/
namespace SymbolCodec

namespace Sample
variable (s : Sample)

theorem length_lines : s.lines.length = s.size := by
  simp only [lines, size, List.length_map, List.length_zip, List.length_tail, Array.length_toList]
  omega

/-- Of lines that all have bytes, a round counts those whose numbers are not left out. -/
theorem length_roundLines (some : ∀ line ∈ s.lines, line ≠ []) (fraction : Nat) :
    (s.roundLines fraction).length =
      (List.range s.size).countP fun i => !(s.skipsLines && skipsLine i fraction) := by
  have numbers : s.lines.zipIdx.map Prod.snd = List.range s.size := by
    rw [List.zipIdx_map_snd, length_lines, List.range_eq_range']
  rw [roundLines, List.length_map, ← List.countP_eq_length_filter, ← numbers, List.countP_map]
  refine List.countP_congr fun entry member => ?_
  have bytes : entry.1.isEmpty = false := by simpa using some _ (List.fst_mem_of_mem_zipIdx member)
  simp [bytes]

theorem length_roundLines_of_size_lt (some : ∀ line ∈ s.lines, line ≠ []) (fraction : Nat)
    (small : s.size < fullFraction) : (s.roundLines fraction).length = s.size := by
  have all : s.skipsLines = false := decide_eq_false (Nat.not_le_of_lt small)
  rw [length_roundLines s some, all]
  simp

theorem threshold_le_size (config : Config) (fraction : Nat) : (s.threshold config fraction).toNat ≤ s.size := by
  rw [threshold, UInt64.toNat_min, UInt64.toNat_ofNat']
  exact (Nat.min_le_right ..).trans (Nat.mod_le ..)

end Sample

namespace Training
open Table

/-! ### Side by side -/

theorem mem_zip_tail_of_beside {α : Type} {a b : α} {xs : List α} (beside : [a, b] <:+: xs) :
    (a, b) ∈ xs.zip xs.tail := by
  obtain ⟨before, after, rfl⟩ := beside
  induction before with
  | nil => simp
  | cons c before ih =>
    obtain ⟨d, rest, split⟩ := List.exists_cons_of_ne_nil
      (show before ++ [a, b] ++ after ≠ [] by simp)
    rw [List.cons_append, List.cons_append, List.tail_cons, split, List.zip_cons_cons]
    rw [split, List.tail_cons] at ih
    exact List.mem_cons_of_mem _ ih

section
variable {t : Table} {codes : List Nat} {left right : Nat} (beside : [left, right] <:+: codes)
include beside

theorem one_le_neighbours : 1 ≤ t.neighbours codes left right :=
  Nat.le_add_right_of_le (List.count_pos_iff.mpr (mem_zip_tail_of_beside beside))

theorem one_le_uses : 1 ≤ t.uses codes left :=
  Nat.le_add_right_of_le (List.count_pos_iff.mpr (beside.subset List.mem_cons_self))

end

/-! ### Counts of a round -/

section
variable (t : Table) {f : Counts}

theorem raiseTerminator_pair (f : Counts) (left right : Nat) :
    raiseTerminator t f (.pair left right) = f (.pair left right) := by
  rw [raiseTerminator, Counts.setSingle, if_neg (by simp)]

theorem raiseTerminator_single_ne_zero {code : Nat} (some : f (.single code) ≠ 0) :
    raiseTerminator t f (.single code) ≠ 0 := by
  rw [raiseTerminator, Counts.setSingle]
  split
  · decide
  · exact some

end

section
variable {t : Table} {sample : Sample} {fraction left right : Nat}
  (beside : ∀ line ∈ sample.lines, [left, right] <:+: (t.parse line).map Match.code)
include beside

theorem ne_nil_of_beside : ∀ line ∈ sample.lines, line ≠ [] := by
  rintro line member rfl
  have inner := beside [] member
  rw [parse_nil] at inner
  simpa using inner.length_le

theorem length_le_sum {uses : List Nat → Nat} (one : ∀ codes, [left, right] <:+: codes → 1 ≤ uses codes) :
    (sample.roundLines fraction).length ≤ ((splitLines t sample fraction).map uses).sum := by
  have each : ∀ n ∈ (splitLines t sample fraction).map uses, 1 ≤ n := by
    intro n member
    obtain ⟨_, split, rfl⟩ := List.mem_map.mp member
    obtain ⟨line, listed, rfl⟩ := List.mem_map.mp split
    exact one _ (beside line (mem_lines_of_mem_roundLines listed))
  simpa [splitLines] using List.length_le_sum_of_one_le _ each

variable {layout : Layout} {counters : Counters}
  (tallied : Tallied t fraction (.empty layout) counters (splitLines t sample fraction))
include tallied

omit beside in
theorem get_pair (below : fraction < fullFraction) (inside : left < countedCodes) (inside' : right < countedCodes) :
    Tally.get counters (.pair left right) =
      min ((splitLines t sample fraction).map fun codes => t.neighbours codes left right).sum pairCap := by
  have none := (Counters.keeps_empty layout).get_eq (.pair left right) ⟨inside, inside'⟩
  rw [tallied.pair below left inside right inside', none, Counts.zero, Nat.zero_add]

omit beside in
/-- The count of a pair fits into a word, as it ends at its cap. -/
theorem get_pair_lt (below : fraction < fullFraction) (inside : left < countedCodes) (inside' : right < countedCodes) :
    Tally.get counters (.pair left right) < 2 ^ 64 := by
  rw [get_pair tallied below inside inside']
  exact Nat.lt_of_le_of_lt (Nat.min_le_right ..) (by decide)

omit beside in
theorem length_roundLines_pos (below : fraction < fullFraction) (inside : left < countedCodes)
    (inside' : right < countedCodes) (counted : 0 < Tally.get counters (.pair left right)) :
    0 < (sample.roundLines fraction).length := by
  rw [get_pair tallied below inside inside'] at counted
  refine Nat.pos_of_ne_zero fun none => ?_
  rw [splitLines, List.eq_nil_of_length_eq_zero none] at counted
  exact absurd counted (Nat.lt_irrefl 0)

/-- A pair in every line is counted once at least for each line of the round. -/
theorem le_count_pair (below : fraction < fullFraction) (inside : left < countedCodes)
    (inside' : right < countedCodes) :
    min (sample.roundLines fraction).length pairCap ≤ Tally.get counters (.pair left right) := by
  rw [get_pair tallied below inside inside']
  exact min_le_min_right _ (length_le_sum beside fun _ => one_le_neighbours)

theorem single_ne_zero (some : 0 < (sample.roundLines fraction).length) (inside : left < countedCodes) :
    Tally.get counters (.single left) ≠ 0 := by
  have none := (Counters.keeps_empty layout).get_eq (.single left) inside
  have uses : (sample.roundLines fraction).length ≤ _ := length_le_sum beside fun _ => one_le_uses (t := t)
  rw [tallied.single left inside, none, Counts.zero, Nat.zero_add]
  exact Nat.ne_of_gt (Nat.lt_min.mpr ⟨Nat.lt_of_lt_of_le some uses, by decide⟩)

end

/-! ### Shares of a pair -/

section
variable {t : Table} {f : Counts} {fraction left right : Nat} (config : Config)

theorem mem_shares_pair (below : fraction < fullFraction) (used : left < t.codes) (used' : right < t.codes)
    (joined : joinable t left = true) (joined' : joinable t right = true) (alone : f (.single left) ≠ 0)
    (both : f (.pair left right) ≠ 0) :
    f (.pair left right) ∈ shares t f fraction config (((Event.pair left right).bytes t).take maxLength) := by
  rw [shares, if_pos below]
  refine List.mem_append_right _ (List.mem_flatMap.mpr ⟨left, ?_, List.mem_map.mpr ⟨right, ?_, rfl⟩⟩)
  · exact List.mem_filter.mpr ⟨List.mem_range.mpr used, decide_eq_true ⟨alone, joined⟩⟩
  · exact List.mem_filter.mpr ⟨List.mem_range.mpr used', decide_eq_true ⟨both, joined', rfl⟩⟩

theorem pos_of_mem_shares {bs : Bytes} {share : Nat} (member : share ∈ shares t f fraction config bs) : 0 < share := by
  rcases List.mem_append.mp member with alone | both
  · obtain ⟨code, found, rfl⟩ := List.mem_map.mp alone
    obtain ⟨some, _⟩ : f (.single code) ≠ 0 ∧ (t.symbol code).bytes = bs := by simpa using (List.mem_filter.mp found).2
    refine Nat.mul_pos ?_ (Nat.pos_of_ne_zero some)
    split
    · exact config.byteWeight_pos
    · exact Nat.one_pos
  · split at both
    case isFalse => cases both
    case isTrue =>
      obtain ⟨left, _, inner⟩ := List.mem_flatMap.mp both
      obtain ⟨right, found, rfl⟩ := List.mem_map.mp inner
      have kept := (List.mem_filter.mp found).2
      simp only [decide_eq_true_eq] at kept
      exact Nat.pos_of_ne_zero kept.1

end

/-! ### Without symbols -/

section
variable {t : Table} (none : t.added = #[])
include none

/-- A table without symbols cuts a line into its bytes. -/
theorem map_code_parse (wf : t.WellFormed) (line : Bytes) : (t.parse line).map Match.code = line.map UInt8.toNat := by
  induction line using parse_induction (t := t) with
  | nil => rw [parse_nil, List.map_nil, List.map_nil]
  | cons b rest ih =>
    have found := (finds_longest wf b rest).findsLongest wf
    have byte := found.byte_iff.mpr (by simp [none])
    have code : b.toNat = t.longest (b :: rest) := by simpa using found.byte byte
    have len : (t.symbol (t.longest (b :: rest))).len = 1 := by
      rw [← (normal_symbol wf found.used).length_bytes, bytes_symbol_of_lt byte]
      rfl
    rw [len] at ih
    rw [parse_cons, len, List.map_cons, List.map_cons, ← code, ih]
    rfl

/-- Two bytes get what is counted of them side by side, and nothing else. -/
theorem eq_of_mem_shares {f : Counts} {fraction : Nat} {config : Config} {a b : UInt8} {share : Nat}
    (member : share ∈ shares t f fraction config [a, b]) : share = f (.pair a.toNat b.toNat) := by
  have codes : t.codes = firstCode := by rw [Table.codes, none]; rfl
  have symbol {code : Nat} (listed : code ∈ List.range t.codes) : (t.symbol code).bytes = [UInt8.ofNat code] :=
    bytes_symbol_of_lt (by rw [List.mem_range, codes] at listed; exact listed)
  have number {code : Nat} (listed : code ∈ List.range t.codes) : (UInt8.ofNat code).toNat = code := by
    rw [List.mem_range, codes] at listed
    exact UInt8.toNat_ofNat_of_lt' listed
  rcases List.mem_append.mp member with alone | both
  · obtain ⟨code, found, _⟩ := List.mem_map.mp alone
    obtain ⟨listed, kept⟩ := List.mem_filter.mp found
    simp [symbol listed] at kept
  · split at both
    case isFalse => cases both
    case isTrue =>
      obtain ⟨left, found, inner⟩ := List.mem_flatMap.mp both
      obtain ⟨right, found', rfl⟩ := List.mem_map.mp inner
      have listed := (List.mem_filter.mp found).1
      obtain ⟨listed', kept⟩ := List.mem_filter.mp found'
      simp only [symbol listed, symbol listed', decide_eq_true_eq] at kept
      obtain ⟨rfl, rfl⟩ : UInt8.ofNat left = a ∧ UInt8.ofNat right = b := by simpa [maxLength] using kept.2.2
      rw [number listed, number listed']

end

/-! ### A pair in every line -/

/-- What comes of a pair whose codes stand side by side in every line of a sample, when a round
    has counted from the start. -/
structure EveryLine (t : Table) (sample : Sample) (fraction : Nat) (config : Config) (left right : Nat)
    (counters : Counters) (sums : Std.HashMap Bytes UInt64) : Prop where
  /-- It is counted as often as it stands in the lines that the round does not leave out. -/
  count_eq : Tally.get counters (.pair left right) =
    min ((splitLines t sample fraction).map fun codes => t.neighbours codes left right).sum pairCap
  le_count : min (sample.roundLines fraction).length pairCap ≤ Tally.get counters (.pair left right)
  /-- What is counted, and as often as the threshold asks, passes. -/
  passes : 0 < Tally.get counters (.pair left right) →
    (sample.threshold config fraction).toNat ≤ Tally.get counters (.pair left right) →
      ((Event.pair left right).bytes t).take maxLength ∈ sums
  /-- Where nothing contributes more to the bytes of the pair, nothing else passes. -/
  mem_iff : (∀ share ∈ shares t (raiseTerminator t (Tally.get counters)) fraction config
      (((Event.pair left right).bytes t).take maxLength), share ≤ Tally.get counters (.pair left right)) →
    (((Event.pair left right).bytes t).take maxLength ∈ sums ↔
      0 < Tally.get counters (.pair left right) ∧
        (sample.threshold config fraction).toNat ≤ Tally.get counters (.pair left right))
  /-- A sample of fewer lines than the fraction has parts has no line that is left out. -/
  whole : 0 < sample.size → sample.size < fullFraction → ((Event.pair left right).bytes t).take maxLength ∈ sums

section
variable {t : Table} (few : t.added.size ≤ maxSymbols) {fraction : Nat} (below : fraction < fullFraction)
  {left right : Nat} (used : left < t.codes) (used' : right < t.codes) (joined : joinable t left = true)
  (joined' : joinable t right = true) {sample : Sample}
  (beside : ∀ line ∈ sample.lines, [left, right] <:+: (t.parse line).map Match.code) {layout : Layout}
  {counters : Counters} (tallied : Tallied t fraction (.empty layout) counters (splitLines t sample fraction))
  {config : Config} {least : UInt64} {sums : Std.HashMap Bytes UInt64}
include few below used used' joined joined' beside tallied

/-- A pair that is counted often enough is a candidate, since its left code is counted, too. -/
theorem mem_of_le_count (gains : GainsOf t (raiseTerminator t (Tally.get counters)) fraction least config sums)
    (counted : 0 < Tally.get counters (.pair left right))
    (enough : least.toNat ≤ Tally.get counters (.pair left right)) :
    ((Event.pair left right).bytes t).take maxLength ∈ sums := by
  have inside := Nat.lt_of_lt_of_le used (codes_le few)
  have inside' := Nat.lt_of_lt_of_le used' (codes_le few)
  have line := length_roundLines_pos tallied below inside inside' counted
  have alone := raiseTerminator_single_ne_zero t (single_ne_zero beside tallied line inside)
  have both : raiseTerminator t (Tally.get counters) (.pair left right) ≠ 0 := by
    rw [raiseTerminator_pair]
    exact Nat.ne_of_gt counted
  refine (gains.wrapped_key_iff _).mpr ⟨_, mem_shares_pair config below used used' joined joined' alone both, ?_⟩
  rwa [raiseTerminator_pair, le_ofNat_iff (get_pair_lt tallied below inside inside')]

theorem everyLine (gains : GainsOf t (raiseTerminator t (Tally.get counters)) fraction
      (sample.threshold config fraction) config sums) :
    EveryLine t sample fraction config left right counters sums := by
  have inside := Nat.lt_of_lt_of_le used (codes_le few)
  have inside' := Nat.lt_of_lt_of_le used' (codes_le few)
  have le_count := le_count_pair beside tallied below inside inside'
  have passes := mem_of_le_count few below used used' joined joined' beside tallied gains
  refine ⟨get_pair tallied below inside inside', le_count, passes,
    fun most => ⟨fun key => ?_, fun both => passes both.1 both.2⟩, fun pos small => ?_⟩
  · have small := get_pair_lt tallied below inside inside'
    obtain ⟨share, member, enough⟩ :=
      (gains.key_iff _ fun share member => Nat.lt_of_le_of_lt (most share member) small).mp key
    have le := most share member
    exact ⟨Nat.lt_of_lt_of_le (pos_of_mem_shares config member) le, Nat.le_trans enough le⟩
  · have lines := sample.length_roundLines_of_size_lt (ne_nil_of_beside beside) fraction small
    have size : sample.size ≤ Tally.get counters (.pair left right) := by
      rw [lines, Nat.min_eq_left (Nat.le_trans (Nat.le_of_lt small) (by decide))] at le_count
      exact le_count
    exact passes (Nat.lt_of_lt_of_le pos size) (Nat.le_trans (sample.threshold_le_size config fraction) size)

end

section
variable {terminator : UInt8} {zeroTerminated : Bool} {symbols : List Symbol} {t : Table}
  (built : (Table.empty terminator zeroTerminated).addAll symbols = .ok t) (few : t.added.size ≤ maxSymbols)
include built few

/-- A round that counts from the start has its candidates. -/
theorem exists_round (sample : Sample) (fraction : Nat) (least : UInt64) (config : Config) (layout : Layout) :
    ∃ counters gain sums, count t sample fraction (Counters.empty layout) = (counters, .ok gain) ∧
      (candidates t counters fraction least config).2 = .ok sums ∧
      Tallied t fraction (.empty layout) counters (splitLines t sample fraction) ∧
      GainsOf t (raiseTerminator t (Tally.get counters)) fraction least config sums := by
  have wf := wellFormed_addAll built
  have fresh := Counters.keeps_empty layout
  have counted : Tally.Keeps (count t sample fraction (Counters.empty layout)).1
      (Tally.get (count t sample fraction (Counters.empty layout)).1) :=
    ⟨(fresh.count wf few sample fraction).valid, fun _ _ => rfl⟩
  exact ⟨_, _, _, Prod.ext rfl (outcome_count wf few sample fraction _),
    counted.candidates wf few fraction least config, tallied wf few sample fraction fresh,
    gainsOf_gains wf _ fraction least config⟩

/-- Of whatever table was built, two symbols that may be joined and stand side by side in every
    line of a sample pass in a sample with no line left out, and in a larger one as far as they
    are counted. -/
theorem exists_everyLine (sample : Sample) (config : Config) {fraction : Nat} (below : fraction < fullFraction)
    {left right : Nat} (used : left < t.codes) (used' : right < t.codes) (joined : joinable t left = true)
    (joined' : joinable t right = true)
    (beside : ∀ line ∈ sample.lines, [left, right] <:+: (t.parse line).map Match.code) (layout : Layout) :
    ∃ counters gain sums, count t sample fraction (Counters.empty layout) = (counters, .ok gain) ∧
      (candidates t counters fraction (sample.threshold config fraction) config).2 = .ok sums ∧
      EveryLine t sample fraction config left right counters sums := by
  obtain ⟨counters, gain, sums, counted, found, tallied, gains⟩ :=
    exists_round built few sample fraction (sample.threshold config fraction) config layout
  exact ⟨counters, gain, sums, counted, found, everyLine few below used used' joined joined' beside tallied gains⟩

end

/-- A least count that no sample of fewer lines reaches at a small fraction. -/
def strict : Config := (Config.ofSettings [.leastCount 1000]).1

/-- Lines of the same two bytes. -/
def sameLines (n : Nat) : Sample := .ofLines (List.replicate n [97, 98]) strict

theorem lines_sameLines {n : Nat} (small : n * 2 < 16384) : (sameLines n).lines = List.replicate n [97, 98] := by
  refine (Sample.sound_ofLines (List.replicate n [97, 98]) strict).whole ?_
  rw [List.map_replicate, List.sum_replicate]
  exact small

theorem size_sameLines {n : Nat} (small : n * 2 < 16384) : (sameLines n).size = n := by
  rw [← Sample.length_lines, lines_sameLines small, List.length_replicate]

theorem codes_sameLines {n : Nat} (small : n * 2 < 16384) {line : Bytes} (member : line ∈ (sameLines n).lines) :
    ((Table.empty 0 false).parse line).map Match.code = [97, 98] := by
  rw [lines_sameLines small] at member
  rw [List.eq_of_mem_replicate member, map_code_parse rfl (wellFormed_empty 0 false)]
  rfl

theorem beside_sameLines {n : Nat} (small : n * 2 < 16384) : ∀ line ∈ (sameLines n).lines,
    [97, 98] <:+: ((Table.empty 0 false).parse line).map Match.code := by
  intro line member
  rw [codes_sameLines small member]

theorem splitLines_sameLines {n : Nat} (small : n * 2 < 16384) (fraction : Nat) :
    splitLines (Table.empty 0 false) (sameLines n) fraction =
      List.replicate ((sameLines n).roundLines fraction).length [97, 98] := by
  refine List.eq_replicate_iff.mpr ⟨by rw [splitLines, List.length_map], fun codes member => ?_⟩
  obtain ⟨line, listed, rfl⟩ := List.mem_map.mp member
  exact codes_sameLines small (mem_lines_of_mem_roundLines listed)

/-- Two lines with the same two bytes, the only ones of the sample, which the threshold is cut
    down to. -/
theorem exists_everyLine_two : (Table.empty 0 false).addAll [] = .ok (Table.empty 0 false) ∧
    (Table.empty 0 false).added.size ≤ maxSymbols ∧ 8 < fullFraction ∧ joinable (Table.empty 0 false) 97 = true ∧
    joinable (Table.empty 0 false) 98 = true ∧ (sameLines 2).threshold strict 8 = 2 ∧ strict.leastCountAt 8 = 62 ∧
    ∃ counters gain sums, count (Table.empty 0 false) (sameLines 2) 8 (Counters.empty .halved) = (counters, .ok gain) ∧
      (candidates (Table.empty 0 false) counters 8 ((sameLines 2).threshold strict 8) strict).2 = .ok sums ∧
      EveryLine (Table.empty 0 false) (sameLines 2) 8 strict 97 98 counters sums ∧ [97, 98] ∈ sums := by
  have built : (Table.empty 0 false).addAll [] = .ok (Table.empty 0 false) := rfl
  have few : (Table.empty 0 false).added.size ≤ maxSymbols := by decide
  have size : (sameLines 2).size = 2 := size_sameLines (by decide)
  have threshold : (sameLines 2).threshold strict 8 = 2 := by
    rw [Sample.threshold, size]
    rfl
  obtain ⟨counters, gain, sums, counted, found, every⟩ := exists_everyLine built few (sameLines 2) strict
    (by decide : 8 < fullFraction) (by decide) (by decide) rfl rfl (beside_sameLines (by decide)) .halved
  refine ⟨built, few, by decide, rfl, rfl, threshold, rfl, counters, gain, sums, counted, found, every, ?_⟩
  exact every.whole (by rw [size]; decide) (by rw [size]; decide)

/-- In a sample of 128 lines with the same two bytes a round at a small fraction counts eight of
    them, while the threshold is 62: what every line has does not pass. -/
theorem misses_everyLine : (∀ line ∈ (sameLines 128).lines, line ≠ [] ∧
      [97, 98] <:+: ((Table.empty 0 false).parse line).map Match.code) ∧
    joinable (Table.empty 0 false) 97 = true ∧ joinable (Table.empty 0 false) 98 = true ∧
    ∃ counters gain sums,
      count (Table.empty 0 false) (sameLines 128) 8 (Counters.empty .halved) = (counters, .ok gain) ∧
      (candidates (Table.empty 0 false) counters 8 ((sameLines 128).threshold strict 8) strict).2 = .ok sums ∧
      [97, 98] ∉ sums := by
  have built : (Table.empty 0 false).addAll [] = .ok (Table.empty 0 false) := rfl
  have few : (Table.empty 0 false).added.size ≤ maxSymbols := by decide
  have beside := beside_sameLines (by decide : 128 * 2 < 16384)
  have some := ne_nil_of_beside beside
  have size : (sameLines 128).size = 128 := size_sameLines (by decide)
  have threshold : (sameLines 128).threshold strict 8 = 62 := by
    rw [Sample.threshold, size]
    rfl
  have lines : ((sameLines 128).roundLines 8).length = 8 := by
    rw [Sample.length_roundLines _ some, Sample.skipsLines, size]
    decide +kernel
  obtain ⟨counters, gain, sums, counted, found, tallied, gains⟩ := exists_round built few (sameLines 128) 8
    ((sameLines 128).threshold strict 8) strict .halved
  have every := everyLine few (by decide) (by decide) (by decide) rfl rfl beside tallied gains
  have times : Tally.get counters (.pair 97 98) = 8 := by
    rw [every.count_eq, splitLines_sameLines (by decide), lines]
    rfl
  have only : ∀ share ∈ shares (Table.empty 0 false) (raiseTerminator (Table.empty 0 false) (Tally.get counters)) 8
      strict [97, 98], share ≤ Tally.get counters (.pair 97 98) := by
    intro share member
    rw [eq_of_mem_shares rfl member, raiseTerminator_pair]
    exact Nat.le_refl _
  refine ⟨fun line member => ⟨some line member, beside line member⟩, rfl, rfl, counters, gain, sums, counted, found,
    fun key => ?_⟩
  have enough := ((every.mem_iff only).mp key).2
  rw [threshold, times] at enough
  exact absurd enough (by decide)

end Training
end SymbolCodec
