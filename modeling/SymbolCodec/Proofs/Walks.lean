import SymbolCodec.Proofs.ReachedCounts

/-!
Walks over the counts. What a walk is to find are the places from a start up to a limit
whose count is not zero, in order and each with its count (`Tally.Enumerates`). Whatever has
been done to a tally, a walk that skips zeros finds these, from an even place or an odd one
on, and no others from the row after; and one that looks at every place finds the same
(`Tally.WalksExactly`, `Tally.walksExactly`).
-/
namespace SymbolCodec.Tally

theorem pairwise_nonzeros (count : Nat → Nat) (start limit : Nat) :
    (nonzeros count start limit).Pairwise fun a b => a.1 < b.1 := by
  apply List.Pairwise.filter
  rw [List.pairwise_map]
  exact List.pairwise_lt_range'

section
variable {κ : Type} [Tally κ]

/-- What is found are the places from a start up to a limit whose event has a count that
    is not zero, in order and each once, with the counts. -/
structure Enumerates (t : κ) (event : Nat → Event) (start limit : Nat) (found : List (Nat × Nat)) : Prop where
  ascending : found.Pairwise fun a b => a.1 < b.1
  mem_iff : ∀ place n, (place, n) ∈ found ↔
    start ≤ place ∧ place < limit ∧ get? t (event place) = .ok n ∧ n ≠ 0

/-- The places at which plain counts are not zero are those that the tally shows. -/
theorem Keeps.enumerates [LawfulTally κ] {t : κ} {f : Counts} (keeps : Keeps t f) {event : Nat → Event} {limit : Nat}
    (proper : ∀ place < limit, (event place).Proper) (start : Nat) :
    Enumerates t event start limit (nonzeros (fun place => f (event place)) start limit) where
  ascending := pairwise_nonzeros _ start limit
  mem_iff place n := by
    rw [mem_nonzeros]
    constructor
    · rintro ⟨low, high, rfl, some⟩
      exact ⟨low, high, keeps.get?_eq (proper place high), some⟩
    · rintro ⟨low, high, shown, some⟩
      rw [keeps.get?_eq (proper place high), Except.ok.injEq] at shown
      exact ⟨low, high, shown.symm, some⟩

end

/-- A walk with skips over a tally in halves finds all counts that are not zero, and a walk
    over every place of a tally in cells finds the same. -/
structure WalksExactly (w : WholeTally) (h : HalvedTally) (start limit : Nat) : Prop where
  singles : ∃ found, scan (nextSingle h) limit start = .ok found ∧ scan (nextSingle w) limit start = .ok found ∧
    Enumerates h Event.single start limit found
  /-- The row of each left code is walked apart from the others. -/
  pairs : ∀ left < countedCodes, ∃ found, scan (nextPair h left) limit start = .ok found ∧
    scan (nextPair w left) limit start = .ok found ∧ Enumerates h (Event.pair left) start limit found

/-- Whatever operations were done, walks find all that they are to find. -/
theorem walksExactly (ops : List Operation) (start : Nat) {limit : Nat} (le : limit ≤ countedCodes) :
    WalksExactly (operateAll WholeTally.empty ops) (operateAll HalvedTally.empty ops) start limit where
  singles := by
    have whole := WholeTally.keeps_empty.operateAll ops
    have halved := HalvedTally.keeps_empty.operateAll ops
    have proper : ∀ code < limit, (Event.single code).Proper := fun code inside => Nat.lt_of_lt_of_le inside le
    exact ⟨_, halved.scan_nextSingle le start, whole.scan_nextSingle le start, halved.enumerates proper start⟩
  pairs := by
    intro left inside
    have whole := WholeTally.keeps_empty.operateAll ops
    have halved := HalvedTally.keeps_empty.operateAll ops
    have proper : ∀ right < limit, (Event.pair left right).Proper :=
      fun right inside' => ⟨inside, Nat.lt_of_lt_of_le inside' le⟩
    exact ⟨_, halved.scan_nextPair le inside start, whole.scan_nextPair le inside start,
      halved.enumerates proper start⟩

/-- The last pair of a row, the first of the next one, a pair whose right code is beyond
    the row, and a count outside the range. -/
def crossings : List Operation :=
  [.record (.pair 4 511), .record (.pair 5 0), .record (.pair 4 600), .record (.single 510), .setSingle 600 7,
    .restore [0, 1]]

/-- From an odd place on, the walk over the row finds the last pair, and nothing of the next
    row. -/
theorem walksExactly_crossings : 512 ≤ countedCodes ∧
    WalksExactly (operateAll WholeTally.empty crossings) (operateAll HalvedTally.empty crossings) 505 512 ∧
    ∃ found, scan (nextPair (operateAll HalvedTally.empty crossings) 4) 512 505 = .ok found ∧ (511, 1) ∈ found ∧
      ∀ n, (512, n) ∉ found := by
  have walks := walksExactly crossings 505 (Nat.le_refl 512)
  obtain ⟨found, run, _, enumerates⟩ := walks.pairs 4 (by decide)
  have last : get? (operateAll HalvedTally.empty crossings) (.pair 4 511) = .ok 1 :=
    (HalvedTally.keeps_empty.operateAll crossings).get?_eq (by decide)
  refine ⟨Nat.le_refl 512, walks, found, run, ?_, ?_⟩
  · exact (enumerates.mem_iff 511 1).mpr ⟨by decide, by decide, last, by decide⟩
  · intro n member
    exact absurd ((enumerates.mem_iff 512 n).mp member).2.1 (Nat.lt_irrefl 512)

end SymbolCodec.Tally
