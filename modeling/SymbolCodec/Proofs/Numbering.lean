import SymbolCodec.Encoder.Numbering
import SymbolCodec.Proofs.Runs
import SymbolCodec.Proofs.Lookups
import SymbolCodec.Proofs.Reloading

/-!
The code layout of a finished table. Numbering the symbols in one pass fills the order of the new
codes without a hole: at each place the cursors have moved over as many codes as symbols of
their kinds were met before (`Table.Pass.Numbers`), so that the next symbol gets the code
that it has in that order (`Table.numbers_next`). What this says of the symbols of a finished table
is `Encoder.CodesByLength`.
-/
namespace SymbolCodec

namespace Table

/-! ### Places -/

theorem length_kept_eq (t : Table) : t.kept.length = t.keptCount := t.length_kept

theorem kept_append_places (t : Table) : t.kept ++ t.places = List.range t.added.size := by
  unfold kept places keptCount
  split
  case isTrue keeps =>
    obtain ⟨n, size⟩ : ∃ n, t.added.size = n + 1 := ⟨_, (Nat.succ_pred_eq_of_pos (keepsZero_spec keeps).1).symm⟩
    rw [size, List.range_succ_eq_map]
    rfl
  case isFalse => rfl

theorem notMem_kept_of_mem_places {t : Table} {i : Nat} (member : i ∈ t.places) : i ∉ t.kept := by
  have nodup : (t.kept ++ t.places).Nodup := by
    rw [kept_append_places]
    exact List.nodup_range
  exact fun zero => (List.nodup_append'.mp nodup).2.2 zero member

theorem ofLength_eq (t : Table) (len : Nat) : t.ofLength len = t.places.filter fun i => (t.addedAt i).len = len := by
  rw [ofLength, ← kept_append_places, List.filter_append]
  have none : t.kept.filter (fun i => (t.addedAt i).len == len && !(t.keepsZero && i == 0)) = [] := by
    refine List.filter_eq_nil_iff.mpr fun i zero => ?_
    obtain ⟨keeps, rfl⟩ := mem_kept.mp zero
    simp [keeps]
  rw [none, List.nil_append]
  refine List.filter_congr fun i member => ?_
  have other : (t.keepsZero && i == 0) = false := by
    simpa using fun keeps zero => notMem_kept_of_mem_places member (mem_kept.mpr ⟨keeps, zero⟩)
  rw [other, Bool.not_false, Bool.and_true, beq_eq_decide]

/-- The plain pairs, or the extended ones. -/
theorem filter_pairs (t : Table) (p : Nat → Bool) :
    (t.ofLength 2).filter p = t.places.filter fun i => (t.addedAt i).len = 2 ∧ p i = true := by
  rw [ofLength_eq, List.filter_filter]
  refine List.filter_congr fun i _ => ?_
  rw [Bool.eq_iff_iff]
  simp [and_comm]

/-- A place has as its code the number of places before it. -/
theorem codeOf_of_split {t : Table} {before after : List Nat} {i : Nat} (split : t.codeOrder = before ++ i :: after) :
    t.codeOf i = before.length := by
  have inside : before.length < t.codeOrder.length := by
    rw [split, List.length_append, List.length_cons]
    omega
  have here : t.codeOrder[before.length] = i := by
    simp only [split, List.getElem_append_right (Nat.le_refl _), Nat.sub_self, List.getElem_cons_zero]
  have code := codeOf_getElem inside
  rwa [here] at code

/-! ### Where the codes of a length start -/

section
variable {t : Table} (wf : t.WellFormed)
include wf

/-- Before the symbols of a length from three on come those of the lengths from two on. -/
theorem firstOfLength_add_three (k : Nat) (le : k + 3 ≤ maxLength) :
    t.firstOfLength (k + 3) = (t.kept ++ t.paired ++ (List.range' 3 k).flatMap t.ofLength).length := by
  induction k with
  | zero =>
    rw [firstOfLength, counted_several wf (Nat.le_refl 2) (by decide), firstOfLength, ← length_kept_eq]
    simp [length_paired]
  | succ k ih =>
    rw [firstOfLength, ih (by omega), counted_several wf (Nat.le_add_left 2 (k + 1)) (by omega), List.range'_concat]
    simp [Nat.add_assoc, Nat.add_comm 3 k]

/-- The symbols of a length other than two stand together from the first code of the length on. -/
theorem exists_block (len : Nat) (pos : 1 ≤ len) (le : len ≤ maxLength) (other : len ≠ 2) :
    ∃ before after, t.codeOrder = before ++ t.ofLength len ++ after ∧ before.length = t.firstOfLength len := by
  by_cases one : len = 1
  · subst one
    refine ⟨t.kept ++ (t.alone ++ t.longer), [], by rw [codeOrder_eq, List.append_nil], ?_⟩
    have whole := Encoder.kept_add_blocks wf
    rw [List.length_append, firstOfLength, counted_one wf, ← t.length_kept_eq]
    omega
  · obtain ⟨k, rfl⟩ : ∃ k, len = k + 3 := ⟨len - 3, by omega⟩
    have lengths : ([3, 4, 5, 6, 7, 8, 1] : List Nat) =
        List.range' 3 k ++ (k + 3) :: (List.range' (k + 4) (5 - k) ++ [1]) := by
      have few : k ≤ 5 := by simp only [maxLength] at le; omega
      interval_cases k <;> rfl
    refine ⟨_, (List.range' (k + 4) (5 - k) ++ [1]).flatMap t.ofLength, ?_, (firstOfLength_add_three wf k le).symm⟩
    rw [codeOrder_eq_lengths, lengths]
    simp only [List.flatMap_append, List.flatMap_cons, List.append_assoc]

end

/-! ### The code of the next symbol -/

section
variable {t : Table} (wf : t.WellFormed) {done rest : List Nat} {i : Nat} (split : t.places = done ++ i :: rest)
include split

theorem lt_size_of_split : i < t.added.size := by
  have member : i ∈ t.kept ++ t.places := by simp [split]
  rwa [kept_append_places, List.mem_range] at member

include wf in
/-- A symbol that is no pair comes behind those of its length that were added before it. -/
theorem codeOf_of_len_ne (other : (t.addedAt i).len ≠ 2) :
    t.codeOf i = t.firstOfLength (t.addedAt i).len + done.countP fun j => (t.addedAt j).len = (t.addedAt i).len := by
  have normal := wf.normal _ (addedAt_mem (lt_size_of_split split))
  obtain ⟨before, after, order, start⟩ := exists_block wf _ normal.pos normal.le other
  rw [ofLength_eq, split, List.filter_append, List.filter_cons_of_pos (by simp)] at order
  simp only [List.append_assoc, List.cons_append] at order
  rw [← List.append_assoc] at order
  rw [codeOf_of_split order, List.length_append, start, List.countP_eq_length_filter]

/-- A pair that is not extended comes behind the plain ones before it. -/
theorem codeOf_plain (two : (t.addedAt i).len = 2) (plain : t.extended i = false) :
    t.codeOf i = t.firstOfLength 2 + done.countP fun j => (t.addedAt j).len = 2 ∧ t.extended j = false := by
  have order := t.codeOrder_eq
  rw [alone, filter_pairs, split, List.filter_append, List.filter_cons_of_pos (by simp [two, plain])] at order
  simp only [List.append_assoc, List.cons_append] at order
  rw [← List.append_assoc] at order
  rw [codeOf_of_split order, List.length_append, length_kept_eq, firstOfLength, List.countP_eq_length_filter]
  simp

include wf in
/-- An extended pair comes before the extended ones that were added before it. -/
theorem codeOf_extended (two : (t.addedAt i).len = 2) (extended : t.extended i = true) :
    t.codeOf i + 1 + (done.countP fun j => (t.addedAt j).len = 2 ∧ t.extended j = true) = t.firstOfLength 3 := by
  have pairs : (t.ofLength 2).filter (t.extended ·) =
      (done.filter fun j => (t.addedAt j).len = 2 ∧ t.extended j = true) ++
        i :: rest.filter fun j => (t.addedAt j).len = 2 ∧ t.extended j = true := by
    rw [filter_pairs, split, List.filter_append, List.filter_cons_of_pos (by simp [two, extended])]
  have order := t.codeOrder_eq_lengths
  have first := firstOfLength_add_three wf 0 (by decide)
  rw [paired, pairs] at order first
  simp only [List.reverse_append, List.reverse_cons, List.append_assoc, List.cons_append, List.nil_append] at order
  rw [← List.append_assoc, ← List.append_assoc] at order
  rw [codeOf_of_split order, first, List.countP_eq_length_filter]
  simp only [List.length_append, List.length_reverse, List.length_cons, List.range'_zero, List.flatMap_nil,
    List.length_nil]
  omega

end

/-! ### One step, and all -/

theorem countP_concat (p : Nat → Bool) (done : List Nat) (i : Nat) :
    (done ++ [i]).countP p = done.countP p + if p i then 1 else 0 := by
  rw [List.countP_append, List.countP_singleton]

/-- How far a numbering is when the symbols of some places have their codes: these symbols lie under
    the codes that they have in the order of the new codes, and each cursor has moved over
    as many codes as it gave. -/
structure Pass.Numbers (t : Table) (done : List Nat) (pass : Pass) : Prop where
  codes : pass.codes.toList = (t.kept ++ done).map t.codeOf
  symbols : pass.symbols.toList = t.codeOrder.map fun i => if i ∈ t.kept ++ done then t.renumber i else .free
  lengths : ∀ len, 1 ≤ len → len ≤ maxLength → len ≠ 2 → pass.lengths.get (lengthPlace len) =
    t.firstOfLength len + done.countP fun i => (t.addedAt i).len = len
  plain : pass.plain =
    t.firstOfLength 2 + done.countP fun i => (t.addedAt i).len = 2 ∧ t.extended i = false
  extended : pass.extended + (done.countP fun i => (t.addedAt i).len = 2 ∧ t.extended i = true) = t.firstOfLength 3

section
variable {t : Table} (wf : t.WellFormed) {done rest : List Nat} {i : Nat}

theorem codes_give {pass : Pass} {code : Nat} (before : pass.codes.toList = (t.kept ++ done).map t.codeOf)
    (same : t.codeOf i = code) : (pass.give t i code).codes.toList = (t.kept ++ (done ++ [i])).map t.codeOf := by
  simp [Pass.give, before, same]

/-- The symbol that gets its code lies there from then on, and the others as before. -/
theorem symbols_give {pass : Pass} {code : Nat} (member : i ∈ t.codeOrder)
    (before : pass.symbols.toList = t.codeOrder.map fun j => if j ∈ t.kept ++ done then t.renumber j else .free)
    (same : t.codeOf i = code) : (pass.give t i code).symbols.toList =
      t.codeOrder.map fun j => if j ∈ t.kept ++ (done ++ [i]) then t.renumber j else .free := by
  have written : (pass.give t i code).symbols.toList = pass.symbols.toList.set code (t.renumber i) := by
    rw [Pass.give, Array.toList_setIfInBounds, renumber, same]
  rw [written, before, ← same]
  apply List.ext_getElem
  · simp
  · intro k inside inside'
    have listed : k < t.codeOrder.length := by simpa using inside'
    simp only [List.getElem_set, List.getElem_map]
    by_cases here : t.codeOf i = k
    · have found : t.codeOrder[k] = i := by
        simp only [← here]
        exact List.getElem_idxOf (List.idxOf_lt_length_of_mem member)
      simp [here, found]
    · have apart : t.codeOrder[k] ≠ i := fun found => here (found ▸ codeOf_getElem listed)
      simp [here, apart]

section
variable (split : t.places = done ++ i :: rest) {pass : Pass} (numbers : pass.Numbers t done)
include split numbers

omit split in
/-- A pair moves no cursor of another length. -/
theorem lengths_of_pair (two : (t.addedAt i).len = 2) : ∀ len, 1 ≤ len → len ≤ maxLength → len ≠ 2 →
    pass.lengths.get (lengthPlace len) =
      t.firstOfLength len + (done ++ [i]).countP fun j => (t.addedAt j).len = len := by
  intro len pos le other
  rw [numbers.lengths len pos le other, countP_concat]
  simp [two, other.symm]

include wf in
theorem numbers_extended (two : (t.addedAt i).len = 2) (extended : t.extended i = true) :
    ({ pass with extended := pass.extended - 1 }.give t i (pass.extended - 1)).Numbers t (done ++ [i]) := by
  have member := (mem_codeOrder wf).mpr (lt_size_of_split split)
  have code := codeOf_extended wf split two extended
  have cursor := numbers.extended
  have same : t.codeOf i = pass.extended - 1 := by omega
  have lengths := lengths_of_pair numbers two
  refine ⟨codes_give numbers.codes same, symbols_give member numbers.symbols same, lengths, ?_, ?_⟩
  · rw [countP_concat]
    simpa [Pass.give, extended] using numbers.plain
  · rw [countP_concat, if_pos (by simp [two, extended])]
    simp only [Pass.give]
    omega

include wf in
theorem numbers_plain (two : (t.addedAt i).len = 2) (plain : t.extended i = false) :
    ({ pass with plain := pass.plain + 1 }.give t i pass.plain).Numbers t (done ++ [i]) := by
  have member := (mem_codeOrder wf).mpr (lt_size_of_split split)
  have same : t.codeOf i = pass.plain := (codeOf_plain split two plain).trans numbers.plain.symm
  have lengths := lengths_of_pair numbers two
  refine ⟨codes_give numbers.codes same, symbols_give member numbers.symbols same, lengths, ?_, ?_⟩
  · rw [countP_concat, if_pos (by simp [two, plain])]
    simp only [Pass.give, numbers.plain, Nat.add_assoc]
  · rw [countP_concat]
    simpa [Pass.give, plain] using numbers.extended

include wf in
theorem numbers_of_len_ne (other : (t.addedAt i).len ≠ 2) :
    ({ pass with
      lengths := pass.lengths.setIfInBounds (lengthPlace (t.addedAt i).len).val
        (pass.lengths.get (lengthPlace (t.addedAt i).len) + 1) }.give t i
      (pass.lengths.get (lengthPlace (t.addedAt i).len))).Numbers t (done ++ [i]) := by
  have inside := lt_size_of_split split
  have normal := wf.normal _ (addedAt_mem inside)
  have cursor := numbers.lengths _ normal.pos normal.le other
  have same := (codeOf_of_len_ne wf split other).trans cursor.symm
  refine ⟨codes_give numbers.codes same, symbols_give ((mem_codeOrder wf).mpr inside) numbers.symbols same, ?_, ?_, ?_⟩
  · intro len pos le another
    rw [countP_concat]
    simp only [Pass.give, get_setIfInBounds]
    by_cases here : (t.addedAt i).len = len
    · simp [← here, cursor, Nat.add_assoc]
    · have apart : lengthPlace (t.addedAt i).len ≠ lengthPlace len := by
        intro equal
        rw [← val_lengthPlace normal.pos normal.le, ← val_lengthPlace pos le, equal] at here
        exact here rfl
      simp [here, apart, numbers.lengths len pos le another]
  · rw [countP_concat]
    simpa [Pass.give, other] using numbers.plain
  · rw [countP_concat]
    simpa [Pass.give, other] using numbers.extended

include wf in
/-- The symbol at the next place gets the code that it has in the order of the new codes. -/
theorem numbers_next : (pass.next t i).Numbers t (done ++ [i]) := by
  by_cases two : (t.addedAt i).len = 2
  · cases extended : t.extended i with
    | true =>
      rw [Pass.next, if_pos two, if_pos extended]
      exact numbers_extended wf split numbers two extended
    | false =>
      rw [Pass.next, if_pos two, if_neg (by simp [extended])]
      exact numbers_plain wf split numbers two extended
  · rw [Pass.next, if_neg two]
    exact numbers_of_len_ne wf split numbers two

end

include wf in
/-- Before the pass only byte 0 has its code, and the other codes are free. -/
theorem symbols_start : (Pass.start t).symbols.toList =
    t.codeOrder.map fun i => if i ∈ t.kept then t.renumber i else .free := by
  have size := length_codeOrder wf
  by_cases keeps : t.keepsZero = true
  · have order := codeOrder_of_keepsZero keeps
    have apart := (List.nodup_cons.mp (order ▸ t.nodup_codeOrder)).1
    have renumbered : (t.addedAt 0).setCode 0 1 = t.renumber 0 := by
      rw [renumber, codeOf_zero keeps, (keepsZero_spec keeps).2.1]
    have others : (t.alone ++ t.longer ++ t.ofLength 1).map (fun j => if j = 0 then t.renumber j else Symbol.free) =
        List.replicate (t.alone ++ t.longer ++ t.ofLength 1).length Symbol.free :=
      List.map_eq_replicate_iff.mpr fun j member => if_neg fun zero : j = 0 => apart (zero ▸ member)
    rw [order, List.length_cons] at size
    simp only [Pass.start, keeps, if_true, ← size, Array.toList_setIfInBounds, Array.toList_replicate,
      List.replicate_succ, List.set_cons_zero, renumbered, order, List.map_cons, kept, List.mem_singleton, others]
  · simp [Pass.start, kept, keeps, ← size, List.map_const']

include wf in
theorem numbers_start : (Pass.start t).Numbers t [] where
  codes := by
    by_cases keeps : t.keepsZero = true
    · simp [Pass.start, kept, keeps, codeOf_zero keeps]
    · simp [Pass.start, kept, keeps]
  symbols := by
    rw [List.append_nil]
    exact symbols_start wf
  lengths := fun len pos le _ => by simp [Pass.start, val_lengthPlace pos le]
  plain := by simp [Pass.start]
  extended := by simp [Pass.start]

include wf in
/-- Every numbering comes to the order of the new codes. -/
theorem numbers_foldl (rest : List Nat) (split : t.places = done ++ rest) {pass : Pass} (numbers : pass.Numbers t done) :
    (rest.foldl (Pass.next t) pass).Numbers t t.places := by
  induction rest generalizing done pass with
  | nil =>
    rw [split, List.append_nil]
    exact numbers
  | cons i rest ih => exact ih (by rw [split, List.append_assoc]; rfl) (numbers_next wf split numbers)

include wf in
theorem numbers_numbering : t.numbering.Numbers t t.places :=
  numbers_foldl wf t.places rfl (numbers_start wf)

end

section
variable {t : Table} (wf : t.WellFormed)
include wf

theorem map_codeOf_perm : ((List.range t.added.size).map t.codeOf).Perm (List.range t.added.size) := by
  have indices : t.codeOrder.map t.codeOf = List.range t.added.size := by
    apply List.ext_getElem
    · rw [List.length_map, List.length_range, length_codeOrder wf]
    · intro code inside _
      rw [List.getElem_map, List.getElem_range, codeOf_getElem (by simpa using inside)]
  have places := ((codeOrder_perm wf).map t.codeOf).symm
  rwa [indices] at places

theorem codes_numbering : t.numbering.codes.toList = (List.range t.added.size).map t.codeOf := by
  rw [(numbers_numbering wf).codes, kept_append_places]

theorem symbols_numbering : t.numbering.symbols.toList = t.codeOrder.map t.renumber := by
  rw [(numbers_numbering wf).symbols, kept_append_places]
  refine List.map_congr_left fun i member => if_pos ?_
  exact List.mem_range.mpr ((mem_codeOrder wf).mp member)

theorem plain_numbering : t.numbering.plain = t.kept.length + t.alone.length := by
  rw [(numbers_numbering wf).plain, alone, filter_pairs, firstOfLength, length_kept_eq, List.countP_eq_length_filter]
  simp

/-- The codes of the extended pairs lie between the plain ones and the longer symbols. -/
theorem extended_iff_codeOf {i : Nat} (inside : i < t.added.size) :
    (t.kept.length + t.alone.length ≤ t.codeOf i ∧ t.codeOf i < t.kept.length + (t.ofLength 2).length) ↔
      i ∈ t.ofLength 2 ∧ t.extended i = true := by
  have order : t.codeOrder = t.kept ++ t.alone ++ ((t.ofLength 2).filter (t.extended ·)).reverse ++
      [3, 4, 5, 6, 7, 8, 1].flatMap t.ofLength := by
    rw [codeOrder_eq_lengths, paired]
    simp only [List.append_assoc]
  have block := mem_block_iff_codeOf wf order inside
  have halves := t.length_paired
  rw [paired, List.length_append] at halves
  rw [List.length_append, Nat.add_assoc, halves, List.mem_reverse, List.mem_filter] at block
  exact block

end

/-- Where a length comes in the order of the codes. -/
def lengthRank (len : Nat) : Nat := if len = 1 then maxLength + 1 else len

theorem pairwise_lengthRank (t : Table) :
    (t.codeOrder.drop t.kept.length).Pairwise fun i j => lengthRank (t.addedAt i).len ≤ lengthRank (t.addedAt j).len := by
  have ranks : ([3, 4, 5, 6, 7, 8, 1] : List Nat).Pairwise fun len len' => lengthRank len ≤ lengthRank len' := by decide
  rw [codeOrder_eq_lengths, List.drop_left]
  refine List.pairwise_append.mpr ⟨?_, List.pairwise_flatMap.mpr ⟨fun len _ => ?_, ranks.imp fun {len len'} le => ?_⟩, ?_⟩
  · refine List.pairwise_of_forall_mem_list fun i two j two' => ?_
    rw [len_of_mem_paired two, len_of_mem_paired two']
  · refine List.pairwise_of_forall_mem_list fun i member j member' => ?_
    rw [(mem_ofLength.mp member).2.1, (mem_ofLength.mp member').2.1]
  · intro i member j member'
    rwa [(mem_ofLength.mp member).2.1, (mem_ofLength.mp member').2.1]
  · intro i two j other
    obtain ⟨len, listed, member⟩ := List.mem_flatMap.mp other
    have two_le : ∀ len ∈ ([3, 4, 5, 6, 7, 8, 1] : List Nat), lengthRank 2 ≤ lengthRank len := by decide
    rw [len_of_mem_paired two, (mem_ofLength.mp member).2.1]
    exact two_le len listed

end Table

namespace Encoder
open Table

/-- How the symbols of a table lie in a finished one. -/
structure CodesByLength (t : Table) (e : Encoder) : Prop where
  /-- The codes are as many as the added symbols, and each is given once. -/
  codes : t.numbering.codes.toList.Perm (List.range t.added.size)
  symbols : e.symbols = t.numbering.symbols
  suffixLimit : e.suffixLimit.toNat = t.numbering.plain
  size : e.symbols.size = t.added.size
  code_eq : ∀ code (inside : code < e.symbols.size), e.symbols[code].code = code
  /-- The symbol at a place lies at the code of the place. -/
  placed : ∀ i code, t.numbering.codes[i]? = some code → e.symbols[code]? = some { t.addedAt i with code }
  /-- Byte 0 keeps code 0 where it ends strings and was added first. -/
  zero_iff : e.zeroTerminated = true ↔ t.zeroTerminated = true ∧ 0 < t.added.size ∧ (t.addedAt 0).bytes = [0]
  zero : e.zeroTerminated = true → t.numbering.codes[0]? = some 0
  lengths : ∀ s ∈ e.symbols, 1 ≤ s.len ∧ s.len ≤ maxLength
  /-- After byte 0 at code 0 come the lengths 2 to 8, and 1. -/
  ordered : (e.symbols.toList.drop e.firstLong.toNat).Pairwise fun r s => lengthRank r.len ≤ lengthRank s.len
  limits : e.firstLong.toNat ≤ e.suffixLimit.toNat ∧ e.suffixLimit.toNat ≤ e.byteLimit.toNat ∧
    e.byteLimit.toNat ≤ e.symbols.size
  /-- The pairs that no longer symbol starts with. -/
  plain : ∀ s ∈ e.symbols, (e.firstLong.toNat ≤ s.code ∧ s.code < e.suffixLimit.toNat) ↔
    s.len = 2 ∧ ∀ r ∈ e.symbols, 2 < r.len → ¬ s.bytes <+: r.bytes
  /-- The other pairs follow. -/
  extended : ∀ s ∈ e.symbols, (e.suffixLimit.toNat ≤ s.code ∧
      s.code < e.firstLong.toNat + (e.histogram.get (lengthPlace 2)).toNat) ↔
    s.len = 2 ∧ ∃ r ∈ e.symbols, 2 < r.len ∧ s.bytes <+: r.bytes
  several : ∀ s ∈ e.symbols, (e.firstLong.toNat ≤ s.code ∧ s.code < e.byteLimit.toNat) ↔ 1 < s.len
  histogram : ∀ len, 1 ≤ len → len ≤ maxLength →
    (e.histogram.get (lengthPlace len)).toNat = e.symbols.toList.countP fun s => s.len = len

section
variable {t : Table} (wf : t.WellFormed) {e : Encoder} (run : ofTable t = .ok e)
include wf

theorem renumber_eq {i : Nat} (inside : i < t.added.size) : t.renumber i = { t.addedAt i with code := t.codeOf i } := by
  have ignored := (wf.normal _ (addedAt_mem inside)).ignored_eq
  have code := code_renumber wf inside
  rw [renumber, Symbol.setCode] at code ⊢
  simp only at code
  rw [code, ← ignored]

omit wf in
/-- A place is one of a pair if its symbol has two bytes. -/
theorem mem_pairs_iff {i : Nat} (inside : i < t.added.size) : i ∈ t.ofLength 2 ↔ (t.renumber i).len = 2 := by
  rw [mem_ofLength, len_renumber]
  refine ⟨fun listed => listed.2.1, fun two => ⟨inside, two, ?_⟩⟩
  rintro ⟨keeps, rfl⟩
  have one := (keepsZero_spec keeps).2.1
  omega

include run

theorem extended_iff_ofTable {i : Nat} (inside : i < t.added.size) (two : (t.renumber i).len = 2) :
    t.extended i = true ↔ ∃ r ∈ e.symbols, 2 < r.len ∧ (t.renumber i).bytes <+: r.bytes := by
  obtain ⟨a, b, both⟩ := Symbol.exists_bytes_two (wf.normal _ (addedAt_mem inside)) two
  rw [extended_iff wf inside both, bytes_renumber, both]
  constructor
  · rintro ⟨r, member, long, starts⟩
    obtain ⟨j, within, rfl⟩ := exists_place member
    exact ⟨t.renumber j, (mem_symbols_ofTable wf run).mpr ⟨j, within, rfl⟩, long, starts⟩
  · rintro ⟨r, member, long, starts⟩
    obtain ⟨j, within, rfl⟩ := (mem_symbols_ofTable wf run).mp member
    exact ⟨t.addedAt j, addedAt_mem within, long, starts⟩

theorem codesByLength : e.CodesByLength t where
  codes := by
    rw [codes_numbering wf]
    exact map_codeOf_perm wf
  symbols := by rw [← Array.toList_inj, symbols_numbering wf, toList_symbols_ofTable run]
  suffixLimit := by rw [suffixLimit_ofTable wf run, plain_numbering wf]
  size := (renumbers_of_ofTable wf run).size
  code_eq := (wellFormed_ofTable wf run).code_eq
  placed := by
    intro i code given
    rw [← Array.getElem?_toList, codes_numbering wf, List.getElem?_map, Option.map_eq_some_iff] at given
    obtain ⟨place, found, rfl⟩ := given
    obtain ⟨within, rfl⟩ := List.getElem?_eq_some_iff.mp found
    rw [List.getElem_range]
    have inside : i < t.added.size := by simpa using within
    rw [getElem?_symbols_codeOf wf run inside, renumber_eq wf inside]
  zero_iff := by rw [zeroTerminated_ofTable run, keepsZero_iff wf]
  zero := by
    intro zero
    rw [zeroTerminated_ofTable run] at zero
    have inside : 0 < (List.range t.added.size).length := by simpa using (keepsZero_spec zero).1
    rw [← Array.getElem?_toList, codes_numbering wf, List.getElem?_map, List.getElem?_eq_getElem inside,
      List.getElem_range, Option.map_some, codeOf_zero zero]
  lengths := by
    intro s member
    have normal := (wellFormed_ofTable wf run).normal s member
    exact ⟨normal.pos, normal.le⟩
  ordered := by
    rw [toList_symbols_ofTable run, firstLong_ofTable run, ← List.map_drop, List.pairwise_map]
    exact t.pairwise_lengthRank
  limits := by
    have whole := kept_add_blocks wf
    have size := (renumbers_of_ofTable wf run).size
    rw [firstLong_ofTable run, suffixLimit_ofTable wf run, byteLimit_ofTable wf run, size]
    rw [List.length_append] at whole ⊢
    omega
  plain := by
    intro s member
    obtain ⟨i, inside, rfl⟩ := (mem_symbols_ofTable wf run).mp member
    rw [firstLong_ofTable run, suffixLimit_ofTable wf run, code_renumber wf inside, mem_alone_iff_codeOf wf inside,
      mem_alone, mem_pairs_iff inside]
    refine and_congr_right fun two => ?_
    rw [← Bool.not_eq_true, extended_iff_ofTable wf run inside two]
    simp only [not_exists, not_and]
  extended := by
    intro s member
    obtain ⟨i, inside, rfl⟩ := (mem_symbols_ofTable wf run).mp member
    rw [firstLong_ofTable run, suffixLimit_ofTable wf run, histogram_ofTable wf run,
      counted_several wf (Nat.le_refl 2) (by decide), code_renumber wf inside, extended_iff_codeOf wf inside,
      mem_pairs_iff inside]
    exact and_congr_right fun two => extended_iff_ofTable wf run inside two
  several := (wellFormed_ofTable wf run).byteLimit.2
  histogram := by
    intro len pos le
    rw [histogram_ofTable wf run, wf.histogram, val_lengthPlace pos le, toList_symbols_ofTable run, toList_added,
      List.countP_map, List.countP_map, (codeOrder_perm wf).countP_eq]
    rfl

end

/-- Whatever symbols are added to a table, finishing it gives each a code of its own from 0 on, in
    the order of the lengths. -/
theorem codesByLength_ofTable {terminator : UInt8} {zeroTerminated : Bool} {symbols : List Symbol} {t : Table}
    (built : (Table.empty terminator zeroTerminated).addAll symbols = .ok t) (few : t.added.size ≤ maxSymbols) :
    ∃ e, ofTable t = .ok e ∧ e.CodesByLength t := by
  obtain ⟨e, run⟩ := exists_ofTable few
  exact ⟨e, run, codesByLength (wellFormed_addAll built) run⟩

/-- Byte 0 kept, extended pairs one of which is repeated, a plain one and two other bytes. -/
theorem codesByLength_ofTable_kept : ∃ t e,
    (Table.empty 0 true).addAll [.ofBytes [0], .ofBytes [120], .ofBytes [97, 98], .ofBytes [99, 100],
      .ofBytes [97, 98, 99], .ofBytes [97, 98], .ofBytes [0], .ofBytes [97, 100]] = .ok t ∧
    t.added.size = 8 ∧ t.added.size ≤ maxSymbols ∧ ofTable t = .ok e ∧ e.CodesByLength t ∧
    t.numbering.codes = #[0, 6, 4, 1, 5, 3, 7, 2] := by
  obtain ⟨t, built, size, codes⟩ : ∃ t, (Table.empty 0 true).addAll [.ofBytes [0], .ofBytes [120], .ofBytes [97, 98],
      .ofBytes [99, 100], .ofBytes [97, 98, 99], .ofBytes [97, 98], .ofBytes [0], .ofBytes [97, 100]] = .ok t ∧
      t.added.size = 8 ∧ t.numbering.codes = #[0, 6, 4, 1, 5, 3, 7, 2] := ⟨_, rfl, rfl, by decide +kernel⟩
  have few : t.added.size ≤ maxSymbols := by rw [size]; decide
  obtain ⟨e, run, laid⟩ := codesByLength_ofTable built few
  exact ⟨t, e, built, size, few, run, laid, codes⟩

end Encoder
end SymbolCodec
