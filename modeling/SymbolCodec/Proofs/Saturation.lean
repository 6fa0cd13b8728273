import SymbolCodec.Proofs.ReachedCounts

/-!
Counts that saturate. Each count goes its own way through the operations on a tally: it is
raised by one or set, and stops at its cap (`Tally.Operation.next`, `Tally.saturating`). As
long as no code is out of range, a tally shows exactly these counts, and the counts of
codes can be taken from one tally and put into another (`Tally.CountsExactly`). Both layouts
do so, and the high parts of the one in halves say which counts are zero
(`Tally.countsExactly_layouts`).
-/
namespace SymbolCodec

/-- An event whose codes are in range stands in its own row. -/
theorem Event.wrapped_of_proper {e : Event} (proper : e.Proper) : e.wrapped = e := by
  cases e with
  | single code => rfl
  | pair left right =>
    have inside : right < 512 := proper.2
    have row : right / 512 = 0 := by omega
    have place : right % 512 = right := by omega
    show Event.pair (left + right / 512) (right % 512) = .pair left right
    rw [row, place, Nat.add_zero]

namespace Tally

namespace Operation

/-- The codes of an operation are among those that are counted. -/
def Proper : Operation → Prop
  | record e => e.Proper
  | setSingle code _ => code < countedCodes
  | restore values => values.length ≤ countedCodes

instance : DecidablePred Proper
  | record e => inferInstanceAs (Decidable e.Proper)
  | setSingle code _ => inferInstanceAs (Decidable (code < countedCodes))
  | restore values => inferInstanceAs (Decidable (values.length ≤ countedCodes))

/-- The count of an event after one more operation. -/
def next : Event → Nat → Operation → Nat
  | e, n, record d => if e = d then min (n + 1) e.cap else n
  | e, n, setSingle code value => if e = .single code then min value singleCap else n
  | .single code, n, restore values => (values[code]?.map fun value => min value singleCap).getD n
  | .pair _ _, n, restore _ => n

end Operation

/-- The count of an event after some operations. -/
def saturating (ops : List Operation) (e : Event) : Nat := ops.foldl (Operation.next e) 0

end Tally

namespace Counts
open Tally

/-- An operation in range changes each plain count on its own. -/
theorem operate_eq_next (f : Counts) {op : Operation} (proper : op.Proper) (e : Event) :
    f.operate op e = op.next e (f e) := by
  cases op with
  | record d =>
    rw [operate, if_pos proper.inRange, Event.wrapped_of_proper proper, record, Operation.next]
    by_cases same : e = d
    · rw [if_pos same, if_pos same, same]
    · rw [if_neg same, if_neg same]
  | setSingle code value =>
    have inside : code < countedCodes := proper
    rw [operate, if_pos inside, setSingle, Operation.next]
  | restore values =>
    rw [operate, List.take_of_length_le proper]
    cases e with
    | pair left right => exact foldl_setSingle_pair _ f left right
    | single code =>
      rw [foldl_setSingle, Operation.next]
      by_cases inside : code < values.length
      · simp [inside]
      · simp [inside]

/-- So do operations in range one after another. -/
theorem foldl_operate_eq : ∀ (ops : List Operation) (f : Counts), (∀ op ∈ ops, op.Proper) → ∀ e : Event,
    ops.foldl operate f e = ops.foldl (Operation.next e) (f e)
  | [], _, _, _ => rfl
  | op :: ops, f, proper, e => by
    have first := operate_eq_next f (proper op (by simp)) e
    rw [List.foldl_cons, List.foldl_cons, foldl_operate_eq ops _ fun other member => proper other (by simp [member]),
      first]

end Counts

namespace Tally

section
variable {κ : Type} [Tally κ]

/-- An operation in range is not refused, whatever has been counted. -/
theorem operate_accepts (t : κ) {op : Operation} (proper : op.Proper) : (operate t op).2 = .ok () := by
  cases op with
  | record e => simp [operate, recordAll, Event.Proper.inRange proper]
  | setSingle code value =>
    have inside : code < countedCodes := proper
    rw [operate, setSingle?, if_pos inside]
  | restore values => exact if_pos proper

variable [LawfulTally κ] [WrapsRows κ]

/-- A tally shows the saturating counts of the operations. -/
theorem Keeps.saturating {t : κ} (keeps : Keeps t .zero) {ops : List Operation} (proper : ∀ op ∈ ops, op.Proper) :
    Keeps (Tally.operateAll t ops) (Tally.saturating ops) := by
  have same : ops.foldl Counts.operate .zero = Tally.saturating ops :=
    funext fun e => Counts.foldl_operate_eq ops .zero proper e
  rw [← same]
  exact keeps.operateAll ops

/-- To put counts of codes into a tally that has been put to any use is to show them. -/
theorem Keeps.exists_restore {t : κ} {g : Counts} (keeps : Keeps t g) {values : List Nat}
    (length : values.length = countedCodes) (le : ∀ value ∈ values, value ≤ singleCap) :
    ∃ after, Tally.restore t values = (after, .ok ()) ∧ Tally.singles after = values := by
  have proper : (Operation.restore values).Proper := Nat.le_of_eq length
  have kept : Keeps (Tally.restore t values).1 (g.operate (.restore values)) := keeps.operate (.restore values)
  refine ⟨(Tally.restore t values).1, Prod.ext rfl (operate_accepts t proper), ?_⟩
  rw [kept.singles]
  apply List.ext_getElem
  · rw [List.length_map, List.length_range, length]
  · intro code _ inside
    have small := le values[code] (List.getElem_mem inside)
    rw [List.getElem_map, List.getElem_range, Counts.operate_eq_next g proper, Operation.next,
      List.getElem?_eq_getElem inside]
    exact Nat.min_eq_left small

end

/-- A tally without counts counts exactly through some operations. -/
structure CountsExactly {κ : Type} [Tally κ] (fresh : κ) (ops : List Operation) : Prop where
  accepted : ∀ op ∈ ops, ∀ t : κ, (operate t op).2 = .ok ()
  /-- Each count is raised or set on its own, up to its cap. -/
  counts : ∀ e : Event, e.Proper →
    get? (operateAll fresh ops) e = .ok (saturating ops e) ∧ saturating ops e ≤ e.cap
  singles : Tally.singles (operateAll fresh ops) =
    (List.range countedCodes).map fun code => saturating ops (.single code)
  /-- All counts of codes come back in a tally to which anything else was done. -/
  restore : ∀ others : List Operation, ∃ after,
    Tally.restore (operateAll fresh others) (Tally.singles (operateAll fresh ops)) = (after, .ok ()) ∧
      Tally.singles after = Tally.singles (operateAll fresh ops)

theorem Keeps.countsExactly {κ : Type} [Tally κ] [LawfulTally κ] [WrapsRows κ] {fresh : κ} (keeps : Keeps fresh .zero)
    {ops : List Operation} (proper : ∀ op ∈ ops, op.Proper) : CountsExactly fresh ops where
  accepted op member t := operate_accepts t (proper op member)
  counts e inside := by
    have kept := keeps.saturating proper
    have le := LawfulTally.get_le kept.valid inside
    rw [kept.get_eq e inside] at le
    exact ⟨kept.get?_eq inside, le⟩
  singles := (keeps.saturating proper).singles
  restore others := by
    have kept := keeps.saturating proper
    apply (keeps.operateAll others).exists_restore
    · rw [Tally.singles, List.length_map, List.length_range]
    · intro value member
      obtain ⟨code, inside, rfl⟩ := List.mem_map.mp member
      exact LawfulTally.get_le kept.valid (e := .single code) (List.mem_range.mp inside)

/-- Operations in range are counted exactly in both layouts, and a high part is not zero
    exactly where the count is not. -/
theorem countsExactly_layouts {ops : List Operation} (proper : ∀ op ∈ ops, op.Proper) :
    CountsExactly WholeTally.empty ops ∧ CountsExactly HalvedTally.empty ops ∧
      ∀ e : Event, e.Proper → ((operateAll HalvedTally.empty ops).high e ≠ 0 ↔ saturating ops e ≠ 0) := by
  refine ⟨WholeTally.keeps_empty.countsExactly proper, HalvedTally.keeps_empty.countsExactly proper, ?_⟩
  intro e inside
  have kept := HalvedTally.keeps_empty.saturating proper
  have valid : HalvedTally.Valid (operateAll HalvedTally.empty ops) := kept.valid
  have same : (operateAll HalvedTally.empty ops).get e = saturating ops e := kept.get_eq e inside
  rw [← same, HalvedTally.get_eq, Ne, Ne, HalvedTally.join_eq_zero_iff (valid e inside)]

/-- A count that is carried into the high part, one at its cap, and two pairs that share a
    byte of high parts. -/
def carries : List Operation :=
  [.setSingle 300 255, .record (.single 300), .record (.single 300), .restore [7, 70000], .record (.single 1),
    .record (.pair 7 8), .record (.pair 7 9), .record (.pair 7 9)]

theorem countsExactly_layouts_carries : (∀ op ∈ carries, op.Proper) ∧
    (CountsExactly WholeTally.empty carries ∧ CountsExactly HalvedTally.empty carries ∧
      ∀ e : Event, e.Proper → ((operateAll HalvedTally.empty carries).high e ≠ 0 ↔ saturating carries e ≠ 0)) ∧
    saturating carries (.single 300) = 257 ∧ saturating carries (.single 1) = 65280 ∧
    saturating carries (.pair 7 8) = 1 ∧ saturating carries (.pair 7 9) = 2 := by
  have proper : ∀ op ∈ carries, op.Proper := by decide
  exact ⟨proper, countsExactly_layouts proper, rfl, rfl, rfl, rfl⟩

end Tally
end SymbolCodec
