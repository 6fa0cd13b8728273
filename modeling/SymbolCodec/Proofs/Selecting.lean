import SymbolCodec.Proofs.Adding
import SymbolCodec.Proofs.Candidates

/-!
The table that follows from counts. Adding candidates to a table always succeeds
while there are codes, and adds the byte strings of some of them in their order; each
other one is refused, or comes when there are no codes (`Training.exists_fill`). The
table of the terminator and the best candidates is therefore always made; it has the
terminator first, then byte strings that differ from it and from each other
(`Training.Selected`), and each of these comes from an event with a count
(`Training.exists_select_gains`). A tally that keeps the counts leads to this table
(`Tally.Keeps.makeTable`).
-/
namespace SymbolCodec

theorem Candidate.ranked_perm (cs : List Candidate) : (ranked cs).Perm cs := List.mergeSort_perm cs _

namespace Table

def strings (t : Table) : List Bytes := t.added.toList.map Symbol.bytes

theorem length_strings (t : Table) : t.strings.length = t.added.size := by
  rw [strings, List.length_map, Array.length_toList]

/-- The table has some more byte strings than another, and the same terminator. -/
structure Grown (t t' : Table) (more : List Bytes) : Prop where
  wf : t'.WellFormed
  terminator_eq : t'.terminator = t.terminator
  zeroTerminated_eq : t'.zeroTerminated = t.zeroTerminated
  strings_eq : t'.strings = t.strings ++ more

namespace Grown
variable {t t₁ t' : Table} {more more' : List Bytes}

theorem refl (wf : t.WellFormed) : t.Grown t [] := ⟨wf, rfl, rfl, (List.append_nil _).symm⟩

theorem trans (grown : t.Grown t₁ more) (grown' : t₁.Grown t' more') : t.Grown t' (more ++ more') :=
  ⟨grown'.wf, grown'.terminator_eq.trans grown.terminator_eq, grown'.zeroTerminated_eq.trans grown.zeroTerminated_eq,
    by rw [grown'.strings_eq, grown.strings_eq, List.append_assoc]⟩

theorem size (grown : t.Grown t' more) : t'.added.size = t.added.size + more.length := by
  rw [← length_strings, grown.strings_eq, List.length_append, length_strings]

end Grown

/-! ### What a table refuses -/

/-- Two byte strings of three or more bytes that have one slot. -/
structure Clash (held bs : Bytes) : Prop where
  held_long : 3 ≤ held.length
  long : 3 ≤ bs.length
  slot_eq : Word.slot (Word.load held) = Word.slot (Word.load bs)

/-- A byte string of three or more bytes lies in its slot. -/
theorem exists_slot {t : Table} (wf : t.WellFormed) {held : Bytes} (member : held ∈ t.strings) (long : 3 ≤ held.length) :
    ∃ s, t.slots.get (Word.slot (Word.load held)) = some s ∧ s.bytes = held := by
  obtain ⟨s, listed, rfl⟩ := List.mem_map.mp member
  have inside := Array.mem_toList_iff.mp listed
  have normal := wf.normal s inside
  rw [normal.length_bytes] at long
  rw [Symbol.slot_bytes normal long]
  exact ⟨s, (wf.slots s.slot s).mpr ⟨inside, long, rfl⟩, rfl⟩

/-- A table refuses byte strings that hold the terminator among several bytes, and those whose
    slot one of its own has. -/
theorem refuses_iff {t : Table} (wf : t.WellFormed) {s : Symbol} (normal : s.Normal) :
    t.Refuses s ↔ 1 < s.bytes.length ∧ t.terminator ∈ s.bytes ∨ ∃ held ∈ t.strings, Clash held s.bytes := by
  have length := normal.length_bytes
  rw [Refuses, length]
  refine or_congr_right ?_
  constructor
  · rintro ⟨long, taken⟩
    obtain ⟨r, found⟩ := Option.ne_none_iff_exists'.mp taken
    obtain ⟨member, longer, here⟩ := (wf.slots _ r).mp found
    have normal' := wf.normal r member
    refine ⟨r.bytes, List.mem_map_of_mem (Array.mem_toList_iff.mpr member), ?_⟩
    refine ⟨normal'.length_bytes.symm ▸ longer, length.symm ▸ long, ?_⟩
    rw [Symbol.slot_bytes normal' longer, here, Symbol.slot_bytes normal long]
  · rintro ⟨held, member, longer, long, here⟩
    obtain ⟨r, found, _⟩ := exists_slot wf member longer
    rw [length] at long
    rw [here, Symbol.slot_bytes normal long] at found
    exact ⟨long, found ▸ Option.some_ne_none r⟩

theorem add_refused {t : Table} {s : Symbol} (room : t.codes < Symbol.codeLimit) (normal : s.Normal)
    (refused : t.Refuses s) : t.add s = .ok (t, false) := by
  refine add_eq_ok_iff.mpr ⟨room, normal.pos, normal.le, ?_⟩
  rw [if_neg fun accepted => (accepts_numbered_iff t normal.pos normal.le).mp accepted refused]

theorem exists_add_accepted {t : Table} (wf : t.WellFormed) (room : t.codes < Symbol.codeLimit) {s : Symbol}
    (normal : s.Normal) (accepted : ¬ t.Refuses s) : ∃ t', t.add s = .ok (t', true) ∧ t.Grown t' [s.bytes] := by
  have accepts := (accepts_numbered_iff t normal.pos normal.le).mpr accepted
  have run : t.add s = .ok (t.place (t.numbered s), true) :=
    add_eq_ok_iff.mpr ⟨room, normal.pos, normal.le, (if_pos accepts).symm⟩
  refine ⟨_, run, wellFormed_add wf run, rfl, rfl, ?_⟩
  rw [strings, place, Array.toList_push, List.map_append, List.map_singleton, bytes_numbered normal.pos normal.le]
  rfl

/-- The terminator is the first symbol of a table. -/
theorem exists_start (terminator : UInt8) (zeroTerminated : Bool) :
    ∃ start, (empty terminator zeroTerminated).add (.ofBytes [terminator]) = .ok (start, true) ∧
      (empty terminator zeroTerminated).Grown start [[terminator]] := by
  have single : (Symbol.ofBytes [terminator]).Normal := Symbol.normal_ofBytes (by simp) (by simp [maxLength])
  have accepted : ¬ (empty terminator zeroTerminated).Refuses (.ofBytes [terminator]) := by
    have len : (Symbol.ofBytes [terminator]).len = 1 := rfl
    rintro (⟨several, _⟩ | ⟨long, _⟩)
    · exact absurd several (by simp [len])
    · exact absurd long (by simp [len])
  have room : (empty terminator zeroTerminated).codes < Symbol.codeLimit := by
    show firstCode < Symbol.codeLimit
    decide
  obtain ⟨start, run, grown⟩ := exists_add_accepted (wellFormed_empty terminator zeroTerminated) room single accepted
  exact ⟨start, run, by rwa [Symbol.bytes_ofBytes (by simp [maxLength])] at grown⟩

end Table

namespace Training
open Table

theorem codes_lt {t : Table} (few : t.added.size ≤ maxSymbols) : t.codes < Symbol.codeLimit :=
  Nat.lt_of_le_of_lt (codes_le few) (by decide)

/-! ### Adding candidates -/

section
variable (above : Bytes → Bytes → Prop)

/-- Why a byte string is not among those that a table was grown by, one `above` the next. -/
inductive LeftOut (t t' : Table) (kept : List Bytes) (bs : Bytes) : Prop
  /-- There are no codes. -/
  | full : t'.added.size = maxSymbols → (∀ held ∈ kept, above held bs) → LeftOut t t' kept bs
  /-- Only symbols of one byte may hold the terminator. -/
  | terminator : 1 < bs.length → t.terminator ∈ bs → LeftOut t t' kept bs
  /-- The slot was taken at the start. -/
  | taken {held : Bytes} : held ∈ t.strings → Clash held bs → LeftOut t t' kept bs
  /-- The slot was taken by a byte string above. -/
  | beaten {held : Bytes} : held ∈ kept → above held bs → Clash held bs → LeftOut t t' kept bs

/-- A table is grown by some byte strings of a list in their order, the others left out. -/
structure Fills (t : Table) (listed : List Bytes) (t' : Table) (kept : List Bytes) : Prop where
  grown : t.Grown t' kept
  few : t'.added.size ≤ maxSymbols
  part : kept.Sublist listed
  left_out : ∀ bs ∈ listed, bs ∉ kept → LeftOut above t t' kept bs

variable {above} {t t₁ t' : Table} {bs : Bytes} {listed kept : List Bytes}

namespace Fills

theorem full (wf : t.WellFormed) (size : t.added.size = maxSymbols) : Fills above t listed t [] where
  grown := .refl wf
  few := Nat.le_of_eq size
  part := List.nil_sublist _
  left_out _ _ _ := .full size (by simp)

/-- What was above all that came later is above what was left out. -/
theorem cons_kept (grown : t.Grown t₁ [bs]) (ahead : ∀ other ∈ listed, above bs other)
    (fills : Fills above t₁ listed t' kept) : Fills above t (bs :: listed) t' (bs :: kept) where
  grown := grown.trans fills.grown
  few := fills.few
  part := fills.part.cons_cons bs
  left_out := by
    intro other member absent
    rw [List.mem_cons, not_or] at absent
    have later := (List.mem_cons.mp member).resolve_left absent.1
    cases fills.left_out other later absent.2 with
    | full size first =>
      refine .full size fun held inside => ?_
      rcases List.mem_cons.mp inside with rfl | inside
      · exact ahead other later
      · exact first held inside
    | terminator several held => exact .terminator several (grown.terminator_eq ▸ held)
    | taken inside clash =>
      rw [grown.strings_eq, List.mem_append, List.mem_singleton] at inside
      rcases inside with old | rfl
      · exact .taken old clash
      · exact .beaten List.mem_cons_self (ahead other later) clash
    | beaten inside first clash => exact .beaten (List.mem_cons_of_mem _ inside) first clash

theorem cons_refused (refused : 1 < bs.length ∧ t.terminator ∈ bs ∨ ∃ held ∈ t.strings, Clash held bs)
    (fills : Fills above t listed t' kept) : Fills above t (bs :: listed) t' kept where
  grown := fills.grown
  few := fills.few
  part := fills.part.cons bs
  left_out := by
    intro other member absent
    rcases List.mem_cons.mp member with rfl | later
    · rcases refused with ⟨several, held⟩ | ⟨_, inside, clash⟩
      · exact .terminator several held
      · exact .taken inside clash
    · exact fills.left_out other later absent

end Fills

/-- Candidates are added while there are codes: some of them, in their order, and the others are
    left out for a reason. -/
theorem exists_fill : ∀ (cs : List Candidate) {t : Table}, t.WellFormed → t.added.size ≤ maxSymbols →
    (∀ c ∈ cs, c.symbol.Normal) → (cs.map fun c => c.symbol.bytes).Pairwise above →
      ∃ t' kept, fill t cs = .ok t' ∧ Fills above t (cs.map fun c => c.symbol.bytes) t' kept
  | [], t, wf, few, _, _ => ⟨t, [], rfl, .refl wf, few, .slnil, by simp⟩
  | c :: cs, t, wf, few, normal, order => by
    obtain ⟨ahead, order'⟩ := List.pairwise_cons.mp order
    have here := normal c (by simp)
    have normal' : ∀ d ∈ cs, d.symbol.Normal := fun d member => normal d (by simp [member])
    by_cases room : t.added.size < maxSymbols
    · rw [fill, if_pos room]
      by_cases refused : t.Refuses c.symbol
      · obtain ⟨t', kept, later, fills⟩ := exists_fill cs wf few normal' order'
        rw [add_refused (codes_lt few) here refused]
        exact ⟨t', kept, later, fills.cons_refused ((refuses_iff wf here).mp refused)⟩
      · obtain ⟨t₁, run, grown⟩ := exists_add_accepted wf (codes_lt few) here refused
        have few₁ : t₁.added.size ≤ maxSymbols := grown.size ▸ room
        obtain ⟨t', kept, later, fills⟩ := exists_fill cs grown.wf few₁ normal' order'
        rw [run]
        exact ⟨t', c.symbol.bytes :: kept, later, fills.cons_kept grown ahead⟩
    · rw [fill, if_neg room]
      exact ⟨t, [], rfl, .full wf (Nat.le_antisymm few (Nat.le_of_not_lt room))⟩

end

/-! ### The terminator and the best candidates -/

/-- A table of a terminator and byte strings that differ from it and from each
    other, all of some kind. -/
structure Selected (terminator : UInt8) (zeroTerminated : Bool) (kind : Bytes → Prop) (t : Table) : Prop where
  wf : t.WellFormed
  few : t.added.size ≤ maxSymbols
  terminator_eq : t.terminator = terminator
  zeroTerminated_eq : t.zeroTerminated = zeroTerminated
  strings_eq : ∃ chosen, t.strings = [terminator] :: chosen ∧ chosen.Nodup ∧ ∀ bs ∈ chosen, bs ≠ [terminator] ∧ kind bs

theorem Selected.imp {terminator : UInt8} {zeroTerminated : Bool} {kind kind' : Bytes → Prop} {t : Table}
    (selected : Selected terminator zeroTerminated kind t) (imp : ∀ bs, bs ≠ [terminator] → kind bs → kind' bs) :
    Selected terminator zeroTerminated kind' t := by
  obtain ⟨chosen, strings, nodup, kinds⟩ := selected.strings_eq
  exact { selected with
    strings_eq := ⟨chosen, strings, nodup, fun bs member =>
      ⟨(kinds bs member).1, imp bs (kinds bs member).1 (kinds bs member).2⟩⟩ }

theorem mem_ranking {terminator : UInt8} {gains : List (Bytes × UInt64)} {c : Candidate}
    (member : c ∈ ranking terminator gains) :
    ∃ bs gain, (bs, gain) ∈ gains ∧ bs ≠ [terminator] ∧ c = ⟨.ofBytes bs, gain⟩ := by
  obtain ⟨⟨bs, gain⟩, kept, rfl⟩ := List.mem_map.mp ((Candidate.ranked_perm _).mem_iff.mp member)
  obtain ⟨listed, other⟩ := List.mem_filter.mp kept
  exact ⟨bs, gain, listed, by simpa using other, rfl⟩

/-- The ranking has the byte strings other than the terminator, each as often as the
    gains. -/
theorem ranking_perm (terminator : UInt8) {gains : List (Bytes × UInt64)}
    (short : ∀ bs ∈ gains.map Prod.fst, bs.length ≤ maxLength) :
    ((ranking terminator gains).map fun c => c.symbol.bytes).Perm
      ((gains.map Prod.fst).filter fun bs => bs != [terminator]) := by
  refine ((Candidate.ranked_perm _).map _).trans (List.Perm.of_eq ?_)
  rw [List.map_map, List.filter_map]
  refine List.map_congr_left fun entry kept => ?_
  exact Symbol.bytes_ofBytes (short _ (List.mem_map_of_mem (List.mem_filter.mp kept).1))

/-- The table of the terminator and the best candidates is made, whatever they are ordered by. -/
theorem exists_select_fills {above : Bytes → Bytes → Prop} (terminator : UInt8) (zeroTerminated : Bool)
    {gains : List (Bytes × UInt64)} (lengths : ∀ bs ∈ gains.map Prod.fst, 1 ≤ bs.length ∧ bs.length ≤ maxLength)
    (order : ((ranking terminator gains).map fun c => c.symbol.bytes).Pairwise above) :
    ∃ start t kept, select terminator zeroTerminated gains = .ok t ∧
      (Table.empty terminator zeroTerminated).Grown start [[terminator]] ∧
      Fills above start ((ranking terminator gains).map fun c => c.symbol.bytes) t kept := by
  obtain ⟨start, first, grown⟩ := exists_start terminator zeroTerminated
  have few : start.added.size ≤ maxSymbols := by
    rw [grown.size]
    show 0 + 1 ≤ maxSymbols
    decide
  have normal : ∀ c ∈ ranking terminator gains, c.symbol.Normal := by
    intro c member
    obtain ⟨bs, gain, listed, _, rfl⟩ := mem_ranking member
    obtain ⟨pos, short⟩ := lengths bs (List.mem_map_of_mem listed)
    exact Symbol.normal_ofBytes pos short
  obtain ⟨t, kept, run, fills⟩ := exists_fill _ grown.wf few normal order
  refine ⟨start, t, kept, ?_, grown, fills⟩
  rw [select, first]
  exact run

theorem exists_select (terminator : UInt8) (zeroTerminated : Bool) {gains : List (Bytes × UInt64)}
    (nodup : (gains.map Prod.fst).Nodup)
    (lengths : ∀ bs ∈ gains.map Prod.fst, 1 ≤ bs.length ∧ bs.length ≤ maxLength) :
    ∃ t, select terminator zeroTerminated gains = .ok t ∧
      Selected terminator zeroTerminated (· ∈ gains.map Prod.fst) t := by
  have short (bs : Bytes) (member : bs ∈ gains.map Prod.fst) := (lengths bs member).2
  obtain ⟨start, t, kept, run, grown, fills⟩ := exists_select_fills terminator zeroTerminated lengths
    (List.pairwise_of_forall fun _ _ => trivial)
  have whole := grown.trans fills.grown
  refine ⟨t, run, whole.wf, fills.few, whole.terminator_eq, whole.zeroTerminated_eq, kept, whole.strings_eq, ?_, ?_⟩
  · exact fills.part.nodup ((ranking_perm terminator short).nodup_iff.mpr (nodup.filter _))
  · intro bs member
    have listed := (ranking_perm terminator short).mem_iff.mp (fills.part.subset member)
    obtain ⟨listed, other⟩ := List.mem_filter.mp listed
    exact ⟨by simpa using other, listed⟩

theorem nodup_keys (sums : Std.HashMap Bytes UInt64) : (sums.toList.map Prod.fst).Nodup := by
  rw [List.Nodup, List.pairwise_map]
  exact Std.HashMap.distinct_keys_toList.imp fun apart same => by simp [same] at apart

theorem mem_keys {sums : Std.HashMap Bytes UInt64} {bs : Bytes} : bs ∈ sums.toList.map Prod.fst ↔ bs ∈ sums := by
  rw [Std.HashMap.map_fst_toList_eq_keys, Std.HashMap.mem_keys]

/-- A table is made of the candidates, and each of its byte strings is the terminator
    or comes from an event with a count. -/
theorem exists_select_gains {t : Table} (wf : t.WellFormed) (f : Counts) (fraction : Nat) (least : UInt64)
    (config : Config) :
    ∃ t', select t.terminator t.zeroTerminated (gains t (raiseTerminator t f) fraction least config).toList = .ok t' ∧
      Selected t.terminator t.zeroTerminated (fun bs => ∃ e, f e ≠ 0 ∧ bs = (e.bytes t).take maxLength) t' := by
  let sums := gains t (raiseTerminator t f) fraction least config
  have source {bs : Bytes} (listed : bs ∈ sums.toList.map Prod.fst) : 1 ≤ bs.length ∧ bs.length ≤ maxLength ∧
      ∃ e, raiseTerminator t f e ≠ 0 ∧ bs = (e.bytes t).take maxLength :=
    exists_event_of_gains wf (mem_keys.mp listed)
  obtain ⟨t', run, selected⟩ := exists_select t.terminator t.zeroTerminated (nodup_keys sums)
    fun bs listed => ⟨(source listed).1, (source listed).2.1⟩
  refine ⟨t', run, selected.imp fun bs other listed => ?_⟩
  obtain ⟨_, _, e, some, bytes⟩ := source listed
  -- the raised count of the terminator puts only the terminator itself forward
  rcases bytes_of_raiseTerminator wf some with counted | terminator
  · exact ⟨e, counted, bytes⟩
  · rw [terminator] at bytes
    exact absurd bytes other

end Training

theorem Tally.Keeps.makeTable {κ : Type} [Tally κ] [LawfulTally κ] {counters : κ} {f : Counts}
    (keeps : Tally.Keeps counters f) {t : Table} (wf : t.WellFormed) (few : t.added.size ≤ maxSymbols)
    (fraction : Nat) (least : UInt64) (config : Config) :
    (Training.makeTable t counters fraction least config).2 = Training.select t.terminator t.zeroTerminated
      (Training.gains t (Training.raiseTerminator t f) fraction least config).toList := by
  show (do Training.select _ _ (← (Training.candidates t counters fraction least config).2).toList) = _
  rw [keeps.candidates wf few fraction least config]
  rfl

end SymbolCodec
