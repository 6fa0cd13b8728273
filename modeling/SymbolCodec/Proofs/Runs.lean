import SymbolCodec.Fault
import Mathlib

/-!
Runs that succeed, and what they go along. A run of two steps succeeds exactly if both
do (`bind_eq_ok_iff`), one behind a check exactly if the check finds nothing
(`check_eq_ok_iff`), and one for each entry of a list if all do (`mapM_eq_ok`). Folds
that add up have the lemmas of sums once they are sums (`foldl_add_eq_sum`); lists
are appended to arrays, and vectors are written cell by cell (`get_setIfInBounds`).
-/
namespace SymbolCodec

/-! ### Steps -/

section
variable {ε ε' α β : Type}

theorem pure_eq_ok_iff {a b : α} : (pure a : Except ε α) = .ok b ↔ a = b := by
  simp only [pure, Except.pure, Except.ok.injEq]

/-- After a step that succeeds the run goes on with what it gives. -/
theorem ok_bind (a : α) (f : α → Except ε β) : Except.ok a >>= f = f a := rfl

theorem bind_eq_ok_iff {x : Except ε α} {f : α → Except ε β} {b : β} :
    x >>= f = .ok b ↔ ∃ a, x = .ok a ∧ f a = .ok b := by
  cases x with
  | error what =>
    constructor
    · intro run
      cases run
    · rintro ⟨a, run, _⟩
      cases run
  | ok a =>
    constructor
    · intro run
      exact ⟨a, rfl, run⟩
    · rintro ⟨a', same, run⟩
      cases same
      exact run

theorem map_eq_ok_iff {x : Except ε α} {f : α → β} {b : β} : x.map f = .ok b ↔ ∃ a, x = .ok a ∧ f a = b := by
  cases x with
  | error what => simp [Except.map]
  | ok a => simp [Except.map]

theorem mapError_eq_ok_iff {x : Except ε α} {f : ε → ε'} {a : α} : x.mapError f = .ok a ↔ x = .ok a := by
  cases x with
  | error what => simp [Except.mapError]
  | ok b => simp [Except.mapError]

theorem check_eq_ok_iff {bad : Prop} [Decidable bad] {what : ε} {x : Except ε α} {a : α} :
    (if bad then .error what else x) = .ok a ↔ ¬ bad ∧ x = .ok a := by
  by_cases found : bad
  · simp [found]
  · simp [found]

/-- Steps that all succeed succeed together. -/
theorem mapM_eq_ok {f : α → Except ε β} {g : α → β} : ∀ {as : List α}, (∀ a ∈ as, f a = .ok (g a)) →
    as.mapM f = .ok (as.map g)
  | [], _ => rfl
  | a :: as, runs => by
    rw [List.mapM_cons, runs a (by simp), mapM_eq_ok fun a member => runs a (by simp [member])]
    rfl

end

/-! ### Folds, arrays and vectors -/

/-- A fold that adds up is a sum. -/
theorem foldl_add_eq_sum {α M : Type} [AddMonoid M] (f : α → M) (xs : List α) :
    xs.foldl (fun total x => total + f x) 0 = (xs.map f).sum := by
  rw [List.sum_eq_foldl, List.foldl_map]

/-- Lists that are appended one after another are appended as one. -/
theorem append_list_append {α : Type} (xs : Array α) (as bs : List α) : xs ++ as ++ bs = xs ++ (as ++ bs) :=
  Array.ext' (by simp)

theorem size_append_list {α : Type} (xs : Array α) (as : List α) : (xs ++ as).size = xs.size + as.length := by
  rw [← Array.length_toList]
  simp

theorem ext_get {α : Type} {n : Nat} {cells other : Vector α n} (same : ∀ i, cells.get i = other.get i) :
    cells = other :=
  Vector.ext fun i inside => same ⟨i, inside⟩

/-- What a vector holds after a write. -/
theorem get_setIfInBounds {α : Type} {n : Nat} (cells : Vector α n) (i j : Fin n) (a : α) :
    (cells.setIfInBounds i a).get j = if i = j then a else cells.get j := by
  rw [Vector.get_eq_getElem, Vector.getElem_setIfInBounds, Vector.get_eq_getElem]
  simp only [Fin.val_inj]

end SymbolCodec
