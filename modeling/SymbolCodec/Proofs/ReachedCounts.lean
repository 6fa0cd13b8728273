import SymbolCodec.Proofs.HalvedTallies
import Mathlib.Data.List.Basic

/-!
The counts that can be reached. What is done to a tally is a list of operations
(`Tally.Operation`), and one that is refused leaves the tally as it is, or as far as it was
changed before (`Tally.operateAll`). A tally of either layout keeps plain counts through any
operations (`Tally.Keeps.operateAll`): a pair whose right code runs on beyond its row is
counted as a pair of a later row (`Tally.WrapsRows`). So counters that have come of
anything keep plain counts (`Counters.Reachable.exists_keeps`).
-/
namespace SymbolCodec

/-- A pair as the row counts it: a right code beyond the row stands in a later row. -/
def Event.wrapped : Event → Event
  | single code => .single code
  | pair left right => .pair (left + right / countedCodes) (right % countedCodes)

theorem Event.proper_wrapped {e : Event} (inRange : e.inRange = true) : e.wrapped.Proper := by
  cases e with
  | single code => exact (of_decide_eq_true inRange : code < countedCodes)
  | pair left right =>
    have cell : left * 512 + right < 512 * 512 := of_decide_eq_true inRange
    show left + right / 512 < 512 ∧ right % 512 < 512
    omega

theorem pairCell_wrapped (left right : Nat) :
    pairCell (left + right / countedCodes) (right % countedCodes) = pairCell left right := by
  show (left + right / 512) * 512 + right % 512 = left * 512 + right
  omega

namespace HalvedTally

theorem highCell_wrapped (left right : Nat) :
    highCell (left + right / countedCodes) (right % countedCodes) = highCell left right := by
  show (left + right / 512) * 256 + right % 512 / 2 = left * 256 + right / 2
  omega

theorem parity_wrapped (right : Nat) : right % countedCodes % 2 = right % 2 := Nat.mod_mod_of_dvd right (by decide)

theorem nibble_wrapped (byte : UInt8) (right : Nat) : nibble byte (right % countedCodes) = nibble byte right := by
  rw [nibble, nibble, parity_wrapped]

theorem nibbleOne_wrapped (right : Nat) : nibbleOne (right % countedCodes) = nibbleOne right := by
  rw [nibbleOne, nibbleOne, parity_wrapped]

theorem recordPair_wrapped (t : HalvedTally) (left right : Nat) :
    t.recordPair (left + right / countedCodes) (right % countedCodes) = t.recordPair left right := by
  simp only [recordPair, pairCell_wrapped, highCell_wrapped, nibble_wrapped, nibbleOne_wrapped]

end HalvedTally

namespace Tally

/-- A layout counts a pair that runs on beyond its row as one of a later row. -/
class WrapsRows (κ : Type) [Tally κ] : Prop where
  record_wrapped (t : κ) (e : Event) : Tally.record t e.wrapped = Tally.record t e

instance : WrapsRows WholeTally where
  record_wrapped t e := by
    cases e with
    | single code => rfl
    | pair left right => simp only [Tally.record, Event.wrapped, WholeTally.record, pairCell_wrapped]

instance : WrapsRows HalvedTally where
  record_wrapped t e := by
    cases e with
    | single code => rfl
    | pair left right =>
      simp only [Tally.record, Event.wrapped, HalvedTally.record, HalvedTally.recordPair_wrapped]

instance : WrapsRows Counters where
  record_wrapped counters e := by
    cases counters with
    | whole t => exact congrArg Counters.whole (WrapsRows.record_wrapped t e)
    | halved t => exact congrArg Counters.halved (WrapsRows.record_wrapped t e)

/-! ### Operations -/

/-- What can be done to a tally. -/
inductive Operation where
  /-- An event is counted once more. -/
  | record (e : Event)
  /-- The count of a code is set. -/
  | setSingle (code value : Nat)
  /-- The counts of the codes from the first on are set from a list. -/
  | restore (values : List Nat)
  deriving DecidableEq, Repr

section
variable {κ : Type} [Tally κ]

/-- What an operation makes of a tally, and whether it was in range. -/
def operate (t : κ) : Operation → κ × Except Fault Unit
  | .record e => recordAll t [e]
  | .setSingle code value => setSingle? t code value
  | .restore values => restore t values

/-- Operations one after another, also after one that was out of range. -/
def operateAll (t : κ) (ops : List Operation) : κ := ops.foldl (fun t op => (operate t op).1) t

theorem operateAll_append (t : κ) (ops more : List Operation) :
    operateAll t (ops ++ more) = operateAll (operateAll t ops) more := List.foldl_append

end

end Tally

/-- What an operation makes of plain counts. -/
def Counts.operate (f : Counts) : Tally.Operation → Counts
  | .record e => if e.inRange then f.record e.wrapped else f
  | .setSingle code value => if code < countedCodes then f.setSingle code value else f
  | .restore values =>
    (values.take countedCodes).zipIdx.foldl (fun f (value, code) => f.setSingle code value) f

namespace Tally.Keeps

section
variable {κ : Type} [Tally κ] [LawfulTally κ] [WrapsRows κ]

/-- A tally keeps plain counts through an operation, in range or not. -/
theorem operate {t : κ} {f : Counts} (keeps : Keeps t f) (op : Operation) :
    Keeps (Tally.operate t op).1 (f.operate op) := by
  cases op with
  | record e =>
    by_cases inRange : e.inRange = true
    · have kept := keeps.record (Event.proper_wrapped inRange)
      rw [WrapsRows.record_wrapped] at kept
      simpa [Tally.operate, Tally.recordAll, Counts.operate, inRange] using kept
    · simpa [Tally.operate, Tally.recordAll, Counts.operate, inRange] using keeps
  | setSingle code value =>
    by_cases inside : code < countedCodes
    · simpa only [Tally.operate, Tally.setSingle?, Counts.operate, if_pos inside] using keeps.setSingle inside value
    · simpa only [Tally.operate, Tally.setSingle?, Counts.operate, if_neg inside] using keeps
  | restore values =>
    refine foldl_setSingle (values.take countedCodes) 0 keeps ?_
    rw [List.length_take]
    omega

/-- A tally keeps plain counts through all operations. -/
theorem operateAll {t : κ} {f : Counts} (keeps : Keeps t f) (ops : List Operation) :
    Keeps (Tally.operateAll t ops) (ops.foldl Counts.operate f) := by
  induction ops generalizing t f with
  | nil => exact keeps
  | cons op ops ih => exact ih (keeps.operate op)

end

end Tally.Keeps

namespace Counters

/-- The counters that come of whatever is done to empty ones. What is out of range is a
    fault, and leaves what was done before it. -/
inductive Reachable (layout : Layout) : Counters → Prop
  | empty : Reachable layout (.empty layout)
  | recordAll {counters : Counters} (es : List Event) : Reachable layout counters →
      Reachable layout (Tally.recordAll counters es).1
  | setSingle {counters : Counters} (code value : Nat) : Reachable layout counters →
      Reachable layout (Tally.setSingle? counters code value).1
  | restore {counters : Counters} (values : List Nat) : Reachable layout counters →
      Reachable layout (Tally.restore counters values).1

/-- To record events up to the first one out of range is to record these one by one. -/
theorem recordAll_eq_operateAll (counters : Counters) (es : List Event) :
    (Tally.recordAll counters es).1 =
      Tally.operateAll counters ((es.takeWhile Event.inRange).map Tally.Operation.record) := by
  have inRange : ∀ e ∈ es.takeWhile Event.inRange, e.inRange = true := fun e => List.mem_takeWhile_imp
  simp only [Tally.recordAll, Tally.operateAll, List.foldl_map]
  refine List.foldl_ext _ _ _ fun t e member => ?_
  simp [Tally.operate, Tally.recordAll, inRange e member]

theorem Reachable.exists_operations {layout : Layout} {counters : Counters} (reachable : Reachable layout counters) :
    ∃ ops, Tally.operateAll (.empty layout) ops = counters := by
  induction reachable with
  | empty => exact ⟨[], rfl⟩
  | recordAll es _ ih =>
    obtain ⟨ops, rfl⟩ := ih
    exact ⟨ops ++ _, by rw [Tally.operateAll_append, recordAll_eq_operateAll]⟩
  | setSingle code value _ ih =>
    obtain ⟨ops, rfl⟩ := ih
    exact ⟨ops ++ [.setSingle code value], Tally.operateAll_append ..⟩
  | restore values _ ih =>
    obtain ⟨ops, rfl⟩ := ih
    exact ⟨ops ++ [.restore values], Tally.operateAll_append ..⟩

theorem Reachable.exists_keeps {layout : Layout} {counters : Counters} (reachable : Reachable layout counters) :
    ∃ f, Tally.Keeps counters f := by
  obtain ⟨ops, rfl⟩ := reachable.exists_operations
  exact ⟨_, (keeps_empty layout).operateAll ops⟩

end Counters
end SymbolCodec
