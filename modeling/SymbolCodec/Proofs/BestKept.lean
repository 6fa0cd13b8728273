import SymbolCodec.Proofs.Gains
import SymbolCodec.Proofs.Ranked

/-!
The next table keeps the best candidates. Candidates enter it in their order, by gain, then by
length, then by word (`Training.Outranks`, `Training.pairwise_outranks`), after the terminator,
which is not one of them. One that is left out found the table full of the terminator and of
byte strings that outrank it, or has three or more bytes and found its slot taken by one that
outranks it (`Training.KeepsBest`): the terminator itself takes no slot, and no candidate is
refused for it. This holds of the table that follows from whatever was counted
(`Training.exists_keepsBest`).
-/
namespace SymbolCodec

theorem Symbol.word_ofBytes {bs : Bytes} (pos : 1 ≤ bs.length) (short : bs.length ≤ maxLength) :
    (ofBytes bs).word = Word.load bs := by
  apply Word.ext_bytes
  intro i inside
  rw [(normal_ofBytes pos short).byte_word inside, bytes_ofBytes short, Word.byte_load bs inside]

namespace Training
open Table

/-! ### The order of candidates -/

/-- A byte string comes before another: its gain is larger, or it is longer for the same gain, or
    its word is smaller for the same gain and length. -/
def Outranks (sums : Std.HashMap Bytes UInt64) (a b : Bytes) : Prop :=
  sums.getD b 0 < sums.getD a 0 ∨ sums.getD a 0 = sums.getD b 0 ∧
    (b.length < a.length ∨ a.length = b.length ∧ Word.load a < Word.load b)

section
variable {terminator : UInt8} {sums : Std.HashMap Bytes UInt64}

/-- The candidates of a ranking are byte strings with their gains. -/
theorem of_mem_ranking {c : Candidate} (member : c ∈ ranking terminator sums.toList) :
    ∃ bs ∈ sums, c = ⟨.ofBytes bs, sums.getD bs 0⟩ := by
  obtain ⟨bs, gain, listed, _, rfl⟩ := mem_ranking member
  have value := Std.HashMap.mem_toList_iff_getElem?_eq_some.mp listed
  refine ⟨bs, mem_keys.mp (List.mem_map_of_mem listed), ?_⟩
  rw [Std.HashMap.getD_eq_getD_getElem?, value]
  rfl

variable (lengths : ∀ bs ∈ sums, 1 ≤ bs.length ∧ bs.length ≤ maxLength)
include lengths

theorem ranking_perm_keys : ((ranking terminator sums.toList).map fun c => c.symbol.bytes).Perm
    ((sums.toList.map Prod.fst).filter fun bs => bs != [terminator]) :=
  ranking_perm terminator fun bs listed => (lengths bs (mem_keys.mp listed)).2

theorem nodup_ranking : ((ranking terminator sums.toList).map fun c => c.symbol.bytes).Nodup :=
  (ranking_perm_keys lengths).nodup_iff.mpr ((nodup_keys sums).filter _)

theorem mem_ranking_iff {bs : Bytes} :
    bs ∈ (ranking terminator sums.toList).map (fun c => c.symbol.bytes) ↔ bs ∈ sums ∧ bs ≠ [terminator] := by
  rw [(ranking_perm_keys lengths).mem_iff, List.mem_filter, mem_keys, bne_iff_ne]

theorem compare_gt_iff_outranks {a b : Bytes} (inner : a ∈ sums) (outer : b ∈ sums) :
    (⟨.ofBytes a, sums.getD a 0⟩ : Candidate).compare ⟨.ofBytes b, sums.getD b 0⟩ = .gt ↔ Outranks sums a b := by
  obtain ⟨pos, short⟩ := lengths a inner
  obtain ⟨pos', short'⟩ := lengths b outer
  rw [Candidate.compare_gt_iff, Outranks, Symbol.len_ofBytes short, Symbol.len_ofBytes short',
    Symbol.word_ofBytes pos short, Symbol.word_ofBytes pos' short']

/-- The ranking is strict, as no byte string is in it twice. -/
theorem pairwise_outranks :
    ((ranking terminator sums.toList).map fun c => c.symbol.bytes).Pairwise (Outranks sums) := by
  have distinct : ((ranking terminator sums.toList).map fun c => c.symbol.bytes).Nodup := nodup_ranking lengths
  rw [List.Nodup, List.pairwise_map] at distinct
  rw [List.pairwise_map]
  refine (distinct.and (Candidate.pairwise_ranked _)).imp_of_mem fun {c d} inner outer ⟨apart, order⟩ => ?_
  obtain ⟨a, listed, rfl⟩ := of_mem_ranking inner
  obtain ⟨b, listed', rfl⟩ := of_mem_ranking outer
  rw [Symbol.bytes_ofBytes (lengths a listed).2, Symbol.bytes_ofBytes (lengths b listed').2,
    ← compare_gt_iff_outranks lengths listed listed']
  cases outcome : Candidate.compare ⟨.ofBytes a, sums.getD a 0⟩ ⟨.ofBytes b, sums.getD b 0⟩ with
  | lt => exact absurd outcome order
  | eq => exact absurd (Candidate.eq_of_compare outcome).1 apart
  | gt => rfl

end

/-! ### The best candidates -/

/-- A table of the terminator and the best of the byte strings that gain something. -/
structure KeepsBest (terminator : UInt8) (sums : Std.HashMap Bytes UInt64) (t : Table) (kept : List Bytes) : Prop where
  strings_eq : t.added.toList.map Symbol.bytes = [terminator] :: kept
  /-- The terminator has the first code. -/
  first : (t.symbol firstCode).bytes = [terminator] ∧ (t.symbol firstCode).code = firstCode
  few : t.added.size ≤ maxSymbols
  distinct : ([terminator] :: kept).Nodup
  candidates : ∀ bs ∈ kept, bs ∈ sums
  sorted : kept.Pairwise (Outranks sums)
  /-- What is left out comes after all that is in a full table, or after what has its slot. -/
  left_out : ∀ bs ∈ sums, bs ∉ [terminator] :: kept →
    (t.added.size = maxSymbols ∧ ∀ held ∈ kept, Outranks sums held bs) ∨
      3 ≤ bs.length ∧ ∃ s, t.slots.get (Word.slot (Word.load bs)) = some s ∧ s.bytes ∈ kept ∧
        Outranks sums s.bytes bs

theorem first_of_strings {t : Table} (wf : t.WellFormed) {bs : Bytes} {more : List Bytes}
    (strings : t.strings = bs :: more) : (t.symbol firstCode).bytes = bs ∧ (t.symbol firstCode).code = firstCode := by
  have inside : 0 < t.added.size := by
    rw [← length_strings, strings]
    exact Nat.succ_pos _
  rw [show t.symbol firstCode = t.added[0] from symbol_add t inside]
  refine ⟨?_, wf.code_eq 0 inside⟩
  have head : t.strings[0]? = some bs := by rw [strings]; rfl
  rw [Table.strings, List.getElem?_map, Array.getElem?_toList, Array.getElem?_eq_getElem inside] at head
  exact Option.some.inj head

theorem exists_select_keepsBest (terminator : UInt8) (zeroTerminated : Bool) {sums : Std.HashMap Bytes UInt64}
    (lengths : ∀ bs ∈ sums, 1 ≤ bs.length ∧ bs.length ≤ maxLength)
    (without : ∀ bs ∈ sums, 1 < bs.length → terminator ∉ bs) :
    ∃ t kept, select terminator zeroTerminated sums.toList = .ok t ∧ KeepsBest terminator sums t kept := by
  obtain ⟨start, t, kept, run, grown, fills⟩ := exists_select_fills terminator zeroTerminated
    (fun bs listed => lengths bs (mem_keys.mp listed)) (pairwise_outranks lengths)
  have whole := grown.trans fills.grown
  have strings : t.strings = [terminator] :: kept := whole.strings_eq
  have source {bs : Bytes} (member : bs ∈ kept) : bs ∈ sums ∧ bs ≠ [terminator] :=
    (mem_ranking_iff lengths).mp (fills.part.subset member)
  have distinct : ([terminator] :: kept).Nodup :=
    List.nodup_cons.mpr ⟨fun member => (source member).2 rfl, fills.part.nodup (nodup_ranking lengths)⟩
  have sorted : kept.Pairwise (Outranks sums) := (pairwise_outranks lengths).sublist fills.part
  refine ⟨t, kept, run, strings, first_of_strings whole.wf strings, fills.few, distinct,
    fun bs member => (source member).1, sorted, fun bs member absent => ?_⟩
  rw [List.mem_cons, not_or] at absent
  cases fills.left_out bs ((mem_ranking_iff lengths).mpr ⟨member, absent.1⟩) absent.2 with
  | full size first => exact .inl ⟨size, first⟩
  | terminator several held =>
    rw [grown.terminator_eq] at held
    exact absurd held (without bs member several)
  | taken inside clash =>
    -- the terminator, which is all there is at the start, is too short for a slot
    rw [grown.strings_eq] at inside
    rw [List.mem_singleton.mp inside] at clash
    exact absurd clash.held_long (by simp)
  | beaten inside above clash =>
    have member' : _ ∈ t.strings := strings ▸ List.mem_cons_of_mem _ inside
    obtain ⟨s, found, rfl⟩ := exists_slot whole.wf member' clash.held_long
    exact .inr ⟨clash.long, s, clash.slot_eq ▸ found, inside, above⟩

/-- Of whatever table was built and whatever was counted, the next table is made, and it keeps the
    best of the candidates. -/
theorem exists_keepsBest {terminator : UInt8} {zeroTerminated : Bool} {symbols : List Symbol} {t : Table}
    (built : (Table.empty terminator zeroTerminated).addAll symbols = .ok t) (few : t.added.size ≤ maxSymbols)
    {layout : Layout} {counters : Counters} (reachable : Counters.Reachable layout counters)
    (fraction : Nat) (least : UInt64) (config : Config) :
    ∃ sums next kept, (candidates t counters fraction least config).2 = .ok sums ∧
      (makeTable t counters fraction least config).2 = .ok next ∧ KeepsBest t.terminator sums next kept := by
  have wf := wellFormed_addAll built
  obtain ⟨f, keeps⟩ := reachable.exists_keeps
  have found := gainsOf_gains wf (raiseTerminator t f) fraction least config
  obtain ⟨next, kept, run, best⟩ := exists_select_keepsBest t.terminator t.zeroTerminated found.length found.terminator
  exact ⟨_, next, kept, keeps.candidates wf few fraction least config,
    (keeps.makeTable wf few fraction least config).trans run, best⟩

/-- A candidate whose two counts at the cap outrank that of the terminator. -/
theorem exists_keepsBest_saturated : ∃ t, (Table.empty 35 false).addAll [.ofBytes [97], .ofBytes [35]] = .ok t ∧
    t.added.size ≤ maxSymbols ∧ ∀ layout,
      Counters.Reachable layout
        (Tally.setSingle? (Tally.setSingle? (Counters.empty layout) 256 singleCap).1 97 singleCap).1 ∧
      ∃ sums next kept,
        (candidates t (Tally.setSingle? (Tally.setSingle? (Counters.empty layout) 256 singleCap).1 97 singleCap).1
          68 2 .standard).2 = .ok sums ∧
        (makeTable t (Tally.setSingle? (Tally.setSingle? (Counters.empty layout) 256 singleCap).1 97 singleCap).1
          68 2 .standard).2 = .ok next ∧ KeepsBest t.terminator sums next kept := by
  obtain ⟨t, built, size⟩ : ∃ t, (Table.empty 35 false).addAll [.ofBytes [97], .ofBytes [35]] = .ok t ∧
      t.added.size = 2 := ⟨_, rfl, rfl⟩
  have few : t.added.size ≤ maxSymbols := by rw [size]; decide
  refine ⟨t, built, few, fun layout => ?_⟩
  have reachable := ((.empty : Counters.Reachable layout _).setSingle 256 singleCap).setSingle 97 singleCap
  exact ⟨reachable, exists_keepsBest built few reachable 68 2 .standard⟩

end Training
end SymbolCodec
