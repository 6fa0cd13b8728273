import SymbolCodec.Training.AnyOrder
import SymbolCodec.Proofs.Selecting

/-!
The order of candidates. It is total (`Candidate.transCmp_compare`), and among symbols without
bits above their length only those of the same bytes and of the same gain are equal in it
(`Candidate.eq_of_compare`). So a heap gives candidates back in the order of the ranking, up
to the codes of their symbols (`Candidate.Pops.map_plain`), however they were handed to it.
-/
namespace SymbolCodec.Candidate

/-! ### A total order -/

theorem compare_eq_compareLex : compare = compareLex (compareOn gain)
    (compareLex (compareOn fun c => c.symbol.len) fun a b => compareOn (fun c => c.symbol.word) b a) := rfl

instance transCmp_compare : Std.TransCmp compare := by
  have words : Std.TransCmp fun a b : Candidate => compareOn (fun c => c.symbol.word) b a := Std.TransCmp.opposite
  rw [compare_eq_compareLex]
  infer_instance

theorem compare_ne_lt_trans {a b c : Candidate} (first : a.compare b ≠ .lt) (second : b.compare c ≠ .lt) :
    a.compare c ≠ .lt :=
  Ordering.isGE_iff_ne_lt.mp
    (Std.TransCmp.isGE_trans (Ordering.isGE_iff_ne_lt.mpr first) (Ordering.isGE_iff_ne_lt.mpr second))

theorem compare_swap (a b : Candidate) : a.compare b = (b.compare a).swap := Std.OrientedCmp.eq_swap

theorem compare_ne_lt_total (a b : Candidate) : a.compare b ≠ .lt ∨ b.compare a ≠ .lt := by
  rw [compare_swap a b]
  cases b.compare a <;> simp

theorem compare_eq_of_ne_lt {a b : Candidate} (one : a.compare b ≠ .lt) (other : b.compare a ≠ .lt) :
    a.compare b = .eq := by
  rw [compare_swap b a] at other
  cases equal : a.compare b with
  | eq => rfl
  | lt => exact absurd equal one
  | gt => simp [equal] at other

theorem compare_eq_iff {a b : Candidate} :
    a.compare b = .eq ↔ a.gain = b.gain ∧ a.symbol.len = b.symbol.len ∧ a.symbol.word = b.symbol.word := by
  rw [compare, Ordering.then_eq_eq, Ordering.then_eq_eq, Std.LawfulEqOrd.compare_eq_iff_eq,
    Std.LawfulEqOrd.compare_eq_iff_eq, Std.LawfulEqOrd.compare_eq_iff_eq, eq_comm (a := b.symbol.word)]

theorem compare_gt_iff {a b : Candidate} :
    a.compare b = .gt ↔ b.gain < a.gain ∨ a.gain = b.gain ∧ (b.symbol.len < a.symbol.len ∨
      a.symbol.len = b.symbol.len ∧ a.symbol.word < b.symbol.word) := by
  simp only [compare, Ordering.then_eq_gt, Std.compare_eq_gt, Std.LawfulEqOrd.compare_eq_iff_eq]

/-- Equal candidates are candidates of the same bytes. -/
theorem eq_of_compare {a b : Candidate} (equal : a.compare b = .eq) :
    a.symbol.bytes = b.symbol.bytes ∧ a.gain = b.gain := by
  obtain ⟨gain, len, word⟩ := compare_eq_iff.mp equal
  exact ⟨by rw [Symbol.bytes, Symbol.bytes, word, len], gain⟩

theorem pairwise_ranked (cs : List Candidate) : (ranked cs).Pairwise fun a b => a.compare b ≠ .lt := by
  have trans : ∀ a b c : Candidate, (a.compare b != .lt) = true → (b.compare c != .lt) = true →
      (a.compare c != .lt) = true := by
    intro a b c first second
    rw [bne_iff_ne] at first second ⊢
    exact compare_ne_lt_trans first second
  have total : ∀ a b : Candidate, (a.compare b != .lt || b.compare a != .lt) = true := by
    intro a b
    rw [Bool.or_eq_true, bne_iff_ne, bne_iff_ne]
    exact compare_ne_lt_total a b
  exact (List.pairwise_mergeSort trans total cs).imp bne_iff_ne.mp

/-! ### Heaps -/

/-- A heap gives back what was handed to it, from the greatest to the least. -/
theorem pops_iff {heap popped : List Candidate} :
    Pops heap popped ↔ popped.Perm heap ∧ popped.Pairwise fun a b => a.compare b ≠ .lt := by
  constructor
  · intro pops
    induction pops with
    | nil => exact ⟨.refl _, .nil⟩
    | pop perm greatest _ ih =>
      obtain ⟨same, sorted⟩ := ih
      exact ⟨(same.cons _).trans perm.symm, sorted.cons fun d member => greatest d (same.mem_iff.mp member)⟩
  · rintro ⟨perm, sorted⟩
    induction popped generalizing heap with
    | nil =>
      rw [List.nil_perm.mp perm]
      exact .nil
    | cons c rest ih =>
      obtain ⟨greatest, sorted'⟩ := List.pairwise_cons.mp sorted
      exact .pop perm.symm greatest (ih (.refl _) sorted')

theorem pops_ranked (heap : List Candidate) : Pops heap (ranked heap) :=
  pops_iff.mpr ⟨ranked_perm heap, pairwise_ranked heap⟩

/-- The candidate with the symbol as its bytes make it. -/
def plain (c : Candidate) : Candidate := ⟨.ofBytes c.symbol.bytes, c.gain⟩

section
variable {c d : Candidate} (normal : c.symbol.Normal) (normal' : d.symbol.Normal)

include normal in
theorem normal_plain : c.plain.symbol.Normal := by
  have length := normal.length_bytes
  exact Symbol.normal_ofBytes (length.symm ▸ normal.pos) (length.symm ▸ normal.le)

include normal in
theorem bytes_plain : c.plain.symbol.bytes = c.symbol.bytes :=
  Symbol.bytes_ofBytes (normal.length_bytes.symm ▸ normal.le)

include normal in
theorem len_plain : c.plain.symbol.len = c.symbol.len := by
  rw [← (normal_plain normal).length_bytes, bytes_plain normal, normal.length_bytes]

include normal in
theorem word_plain : c.plain.symbol.word = c.symbol.word := by
  apply Word.ext_bytes
  intro i inside
  rw [(normal_plain normal).byte_word inside, normal.byte_word inside, bytes_plain normal]

include normal normal' in
/-- The code of a symbol does not count. -/
theorem compare_plain : c.plain.compare d.plain = c.compare d := by
  rw [compare, compare, len_plain normal, len_plain normal', word_plain normal, word_plain normal']
  rfl

include normal in
theorem plain_plain : c.plain.plain = c.plain := by
  rw [plain, bytes_plain normal]
  rfl

end

/-- There is one way to rank candidates that are as their bytes make them. -/
theorem eq_ranked {cs ds : List Candidate} (made : ∀ c ∈ cs, c.plain = c) (perm : ds.Perm cs)
    (sorted : ds.Pairwise fun a b => a.compare b ≠ .lt) : ds = ranked cs := by
  refine List.Perm.eq_of_pairwise ?_ sorted (pairwise_ranked cs) (perm.trans (ranked_perm cs).symm)
  intro a b inner outer one other
  obtain ⟨bytes, gain⟩ := eq_of_compare (compare_eq_of_ne_lt one other)
  rw [← made a (perm.mem_iff.mp inner), ← made b ((ranked_perm cs).mem_iff.mp outer), plain, plain, bytes, gain]

/-- Whatever order a heap gives candidates back in, it is that of the ranking up to the codes of
    their symbols. -/
theorem Pops.map_plain {heap popped cs : List Candidate} (pops : Pops heap popped)
    (normal : ∀ c ∈ heap, c.symbol.Normal) (same : (heap.map plain).Perm cs) : popped.map plain = ranked cs := by
  obtain ⟨perm, sorted⟩ := pops_iff.mp pops
  have normal' : ∀ c ∈ popped, c.symbol.Normal := fun c member => normal c (perm.mem_iff.mp member)
  refine eq_ranked ?_ ((perm.map plain).trans same) (List.pairwise_map.mpr ?_)
  · intro c member
    obtain ⟨d, listed, rfl⟩ := List.mem_map.mp (same.mem_iff.mpr member)
    exact plain_plain (normal d listed)
  · refine sorted.imp_of_mem fun {c d} inner outer above => ?_
    rwa [compare_plain (normal' c inner) (normal' d outer)]

end SymbolCodec.Candidate
