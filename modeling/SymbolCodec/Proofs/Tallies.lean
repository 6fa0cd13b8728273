import SymbolCodec.Tally.Layout
import Mathlib.Data.List.TakeWhile

/-!
Tallies against plain counts. Plain counts are a function from events
(`Counts`), and a layout is lawful if its counts behave like them: an event is
counted up to its cap, the count of a code is set up to the cap, and to look for
the next count passes over zeros only (`LawfulTally`). A tally of such a layout
keeps plain counts through all that training does with it (`Tally.Keeps`), and
a walk over it finds the places whose count is not zero (`Tally.scan_eq`). Counts
in cells of their own are lawful.
-/
namespace SymbolCodec

namespace Event

/-- The most that the count of an event goes up to. -/
def cap : Event → Nat
  | single _ => singleCap
  | pair _ _ => pairCap

/-- The codes of the event are among those that are counted. -/
def Proper : Event → Prop
  | single code => code < countedCodes
  | pair left right => left < countedCodes ∧ right < countedCodes

instance : DecidablePred Proper
  | single code => inferInstanceAs (Decidable (code < countedCodes))
  | pair left right => inferInstanceAs (Decidable (left < countedCodes ∧ right < countedCodes))

theorem Proper.inRange {e : Event} (proper : e.Proper) : e.inRange = true := by
  cases e with
  | single code => exact decide_eq_true proper
  | pair left right =>
    have first : left < 512 := proper.1
    have second : right < 512 := proper.2
    have cell : left * 512 + right < 512 * 512 := by omega
    exact decide_eq_true cell

end Event

/-- How often each event has been counted. -/
abbrev Counts := Event → Nat

namespace Counts

def zero : Counts := fun _ => 0

/-- One event counted once more, up to its cap. -/
def record (f : Counts) (e : Event) : Counts := fun x => if x = e then min (f e + 1) e.cap else f x

/-- The count of a code set to a value, up to the cap. -/
def setSingle (f : Counts) (code value : Nat) : Counts :=
  fun x => if x = .single code then min value singleCap else f x

/-- The counts of codes from a list, up to the cap, and none of pairs. -/
def ofSingles (values : List Nat) : Counts
  | .single code => min (values[code]?.getD 0) singleCap
  | .pair _ _ => 0

theorem foldl_record (es : List Event) (f : Counts) {e : Event} (le : f e ≤ e.cap) :
    es.foldl record f e = min (f e + es.count e) e.cap := by
  induction es generalizing f with
  | nil => simp [Nat.min_eq_left le]
  | cons d es ih =>
    rw [List.foldl_cons, ih]
    · by_cases same : e = d
      · subst same
        simp only [record, ↓reduceIte, List.count_cons_self]
        omega
      · have other : d ≠ e := fun equal => same equal.symm
        simp [record, same, List.count_cons_of_ne other]
    · by_cases same : e = d
      · subst same
        simp only [record, ↓reduceIte]
        omega
      · simpa [record, same] using le

end Counts

/-- An answer to where to look next from a place: there are only zeros before the
    place that it leads to, and it gives the count there. -/
def Looks (count : Nat → Nat) (start : Nat) (answer : Except Fault (Nat × Nat)) : Prop :=
  ∃ n skipped, answer = .ok (n, skipped) ∧
    (∀ i < skipped, start + i < countedCodes → count (start + i) = 0) ∧
    (start + skipped < countedCodes → n = count (start + skipped))

/-- What layouts of counts have in common. -/
class LawfulTally (κ : Type) [Tally κ] where
  /-- What holds of a tally whatever was counted. -/
  Valid : κ → Prop
  get_le {t : κ} (valid : Valid t) {e : Event} (proper : e.Proper) : Tally.get t e ≤ e.cap
  valid_record {t : κ} (valid : Valid t) {e : Event} (proper : e.Proper) : Valid (Tally.record t e)
  get_record {t : κ} (valid : Valid t) {e x : Event} (proper : e.Proper) (proper' : x.Proper) :
    Tally.get (Tally.record t e) x = if x = e then min (Tally.get t e + 1) e.cap else Tally.get t x
  valid_setSingle {t : κ} (valid : Valid t) {code : Nat} (value : Nat) (inside : code < countedCodes) :
    Valid (Tally.setSingle t code value)
  get_setSingle {t : κ} (valid : Valid t) {code : Nat} (value : Nat) {x : Event} (inside : code < countedCodes)
    (proper : x.Proper) :
    Tally.get (Tally.setSingle t code value) x = if x = .single code then min value singleCap else Tally.get t x
  nextSingle {t : κ} (valid : Valid t) {code : Nat} (inside : code < countedCodes) :
    Looks (fun i => Tally.get t (.single i)) code (Tally.nextSingle t code)
  nextPair {t : κ} (valid : Valid t) {left right : Nat} (inside : left < countedCodes)
    (inside' : right < countedCodes) :
    Looks (fun i => Tally.get t (.pair left i)) right (Tally.nextPair t left right)

namespace Tally

/-! ### Walking over counts -/

/-- The places from a start up to a limit whose count is not zero, with the
    counts. -/
def nonzeros (count : Nat → Nat) (start limit : Nat) : List (Nat × Nat) :=
  ((List.range' start (limit - start)).map fun place => (place, count place)).filter (·.2 ≠ 0)

theorem mem_nonzeros {count : Nat → Nat} {start limit place n : Nat} :
    (place, n) ∈ nonzeros count start limit ↔ start ≤ place ∧ place < limit ∧ n = count place ∧ n ≠ 0 := by
  simp only [nonzeros, List.mem_filter, List.mem_map, List.mem_range'_1, Prod.mk.injEq, decide_eq_true_eq]
  constructor
  · rintro ⟨⟨p, ⟨low, high⟩, rfl, rfl⟩, some⟩
    exact ⟨low, by omega, rfl, some⟩
  · rintro ⟨low, high, rfl, some⟩
    exact ⟨⟨place, ⟨low, by omega⟩, rfl, rfl⟩, some⟩

theorem nonzeros_congr {count count' : Nat → Nat} {start limit : Nat}
    (same : ∀ place < limit, count place = count' place) :
    nonzeros count start limit = nonzeros count' start limit := by
  simp only [nonzeros]
  congr 1
  refine List.map_congr_left fun place member => ?_
  rw [List.mem_range'_1] at member
  rw [same place (by omega)]

theorem nonzeros_of_le (count : Nat → Nat) {start limit : Nat} (le : limit ≤ start) :
    nonzeros count start limit = [] := by
  simp [nonzeros, Nat.sub_eq_zero_of_le le]

theorem nonzeros_of_lt (count : Nat → Nat) {start limit : Nat} (lt : start < limit) :
    nonzeros count start limit =
      if count start ≠ 0 then (start, count start) :: nonzeros count (start + 1) limit
      else nonzeros count (start + 1) limit := by
  obtain ⟨n, size⟩ : ∃ n, limit - start = n + 1 := ⟨limit - start - 1, by omega⟩
  have rest : limit - (start + 1) = n := by omega
  simp only [nonzeros, size, rest, List.range'_succ, List.map_cons, List.filter_cons, decide_eq_true_eq]

theorem nonzeros_add (count : Nat → Nat) {start limit : Nat} : ∀ (skipped : Nat),
    (∀ i < skipped, start + i < limit → count (start + i) = 0) →
      nonzeros count start limit = nonzeros count (start + skipped) limit
  | 0, _ => rfl
  | skipped + 1, zeros => by
    rw [nonzeros_add count skipped fun i before => zeros i (Nat.lt_succ_of_lt before)]
    by_cases inside : start + skipped < limit
    · rw [nonzeros_of_lt count inside, zeros skipped (Nat.lt_succ_self skipped) inside]
      rfl
    · rw [nonzeros_of_le count (by omega), nonzeros_of_le count (by omega)]

/-- A walk that passes over zeros only finds all the places whose count is not
    zero, in order and each once. -/
theorem scan_eq {next : Nat → Except Fault (Nat × Nat)} {count : Nat → Nat} {limit : Nat} (le : limit ≤ countedCodes)
    (looks : ∀ start < limit, Looks count start (next start)) (start : Nat) :
    scan next limit start = .ok (nonzeros count start limit) := by
  unfold scan
  by_cases inside : start < limit
  · obtain ⟨n, skipped, answer, zeros, found⟩ := looks start inside
    have later := scan_eq le looks (start + skipped + 1)
    rw [if_pos inside, answer,
      nonzeros_add count skipped fun i before within => zeros i before (Nat.lt_of_lt_of_le within le)]
    simp only [bind, Except.bind, later]
    -- the walk may be sent past the limit, where it finds nothing more
    by_cases within : start + skipped < limit
    · rw [found (Nat.lt_of_lt_of_le within le), nonzeros_of_lt count within]
      simp only [within, and_true]
    · rw [nonzeros_of_le count (by omega : limit ≤ start + skipped),
        nonzeros_of_le count (by omega : limit ≤ start + skipped + 1), if_neg (by simp [within])]
  · rw [if_neg inside, nonzeros_of_le count (Nat.le_of_not_lt inside)]
termination_by limit - start

/-! ### Keeping plain counts -/

section
variable {κ : Type} [Tally κ] [LawfulTally κ]

/-- The tally has the given counts. -/
structure Keeps (t : κ) (f : Counts) : Prop where
  valid : LawfulTally.Valid t
  get_eq : ∀ e : Event, e.Proper → get t e = f e

namespace Keeps
variable {t : κ} {f : Counts} (keeps : Keeps t f)
include keeps

theorem record {e : Event} (proper : e.Proper) : Keeps (Tally.record t e) (f.record e) where
  valid := LawfulTally.valid_record keeps.valid proper
  get_eq x proper' := by
    rw [LawfulTally.get_record keeps.valid proper proper', keeps.get_eq e proper, keeps.get_eq x proper']
    rfl

theorem setSingle {code : Nat} (inside : code < countedCodes) (value : Nat) :
    Keeps (Tally.setSingle t code value) (f.setSingle code value) where
  valid := LawfulTally.valid_setSingle keeps.valid value inside
  get_eq x proper := by
    rw [LawfulTally.get_setSingle keeps.valid value inside proper, keeps.get_eq x proper]
    rfl

omit keeps in
theorem foldl_record : ∀ (es : List Event) {t : κ} {f : Counts}, Keeps t f → (∀ e ∈ es, e.Proper) →
    Keeps (es.foldl Tally.record t) (es.foldl Counts.record f)
  | [], _, _, keeps, _ => keeps
  | e :: es, _, _, keeps, proper =>
    foldl_record es (keeps.record (proper e (by simp))) fun x member => proper x (by simp [member])

theorem recordAll {es : List Event} (proper : ∀ e ∈ es, e.Proper) :
    ∃ t', Tally.recordAll t es = (t', .ok ()) ∧ Keeps t' (es.foldl Counts.record f) := by
  have all : es.all Event.inRange = true := List.all_eq_true.mpr fun e member => (proper e member).inRange
  have takeWhile : es.takeWhile Event.inRange = es := List.takeWhile_eq_self_iff.mpr (List.all_eq_true.mp all)
  refine ⟨es.foldl Tally.record t, ?_, foldl_record es keeps proper⟩
  simp only [Tally.recordAll, all, ↓reduceIte, takeWhile]

theorem setSingle? {code : Nat} (inside : code < countedCodes) (value : Nat) :
    ∃ t', Tally.setSingle? t code value = (t', .ok ()) ∧ Keeps t' (f.setSingle code value) :=
  ⟨Tally.setSingle t code value, by rw [Tally.setSingle?, if_pos inside], keeps.setSingle inside value⟩

theorem singles : Tally.singles t = (List.range countedCodes).map fun code => f (.single code) := by
  refine List.map_congr_left fun code member => ?_
  exact keeps.get_eq (.single code) (List.mem_range.mp member)

theorem get?_eq {e : Event} (proper : e.Proper) : Tally.get? t e = .ok (f e) := by
  rw [Tally.get?, if_pos proper.inRange, keeps.get_eq e proper]

/-- A walk over the codes finds those that have been counted. -/
theorem scan_nextSingle {limit : Nat} (le : limit ≤ countedCodes) (start : Nat) :
    scan (Tally.nextSingle t) limit start = .ok (nonzeros (fun code => f (.single code)) start limit) := by
  rw [scan_eq le fun code inside => LawfulTally.nextSingle keeps.valid (Nat.lt_of_lt_of_le inside le)]
  congr 1
  exact nonzeros_congr fun code inside => keeps.get_eq (.single code) (Nat.lt_of_lt_of_le inside le)

/-- A walk over a row finds the right codes that have been counted after its left code. -/
theorem scan_nextPair {limit left : Nat} (le : limit ≤ countedCodes) (inside : left < countedCodes) (start : Nat) :
    scan (Tally.nextPair t left) limit start = .ok (nonzeros (fun right => f (.pair left right)) start limit) := by
  rw [scan_eq le fun right inside' => LawfulTally.nextPair keeps.valid inside (Nat.lt_of_lt_of_le inside' le)]
  congr 1
  exact nonzeros_congr fun right inside' =>
    keeps.get_eq (.pair left right) ⟨inside, Nat.lt_of_lt_of_le inside' le⟩

theorem scanSingles {limit : Nat} (le : limit ≤ countedCodes) :
    Tally.scanSingles t limit = .ok (nonzeros (fun code => f (.single code)) 0 limit) :=
  keeps.scan_nextSingle le 0

theorem scanPairs {limit left : Nat} (le : limit ≤ countedCodes) (inside : left < countedCodes) :
    Tally.scanPairs t limit left = .ok (nonzeros (fun right => f (.pair left right)) 0 limit) :=
  keeps.scan_nextPair le inside 0

omit keeps in
theorem foldl_setSingle : ∀ (values : List Nat) (start : Nat) {t : κ} {f : Counts}, Keeps t f →
    start + values.length ≤ countedCodes →
      Keeps ((values.zipIdx start).foldl (fun t (value, code) => Tally.setSingle t code value) t)
        ((values.zipIdx start).foldl (fun f (value, code) => f.setSingle code value) f)
  | [], _, _, _, keeps, _ => keeps
  | value :: values, start, _, _, keeps, fits => by
    rw [List.length_cons] at fits
    exact foldl_setSingle values (start + 1) (keeps.setSingle (by omega) value) (by omega)

end Keeps
end

end Tally

namespace Counts

theorem foldl_setSingle (values : List Nat) : ∀ (start : Nat) (f : Counts) (code : Nat),
    (values.zipIdx start).foldl (fun f (value, code) => f.setSingle code value) f (.single code) =
      if start ≤ code ∧ code < start + values.length then min (values[code - start]?.getD 0) singleCap
      else f (.single code) := by
  induction values with
  | nil =>
    intro start f code
    have out : ¬ (start ≤ code ∧ code < start + ([] : List Nat).length) := by
      rw [List.length_nil]
      omega
    rw [if_neg out]
    rfl
  | cons value values ih =>
    intro start f code
    rw [List.zipIdx_cons, List.foldl_cons, ih, List.length_cons]
    by_cases here : code = start
    · subst here
      rw [if_neg (by omega), if_pos (by omega), Nat.sub_self]
      simp [setSingle]
    · have other : Event.single code ≠ .single start := fun equal => here (Event.single.inj equal)
      by_cases later : start + 1 ≤ code ∧ code < start + 1 + values.length
      · obtain ⟨i, rfl⟩ := Nat.exists_eq_add_of_le later.1
        have place : start + 1 + i - start = i + 1 := by omega
        rw [if_pos later, if_pos (by omega), place, Nat.add_sub_cancel_left, List.getElem?_cons_succ]
      · rw [if_neg later, if_neg (by omega)]
        exact if_neg other

theorem foldl_setSingle_pair (values : List (Nat × Nat)) (f : Counts) (left right : Nat) :
    values.foldl (fun f (value, code) => f.setSingle code value) f (.pair left right) = f (.pair left right) := by
  induction values generalizing f with
  | nil => rfl
  | cons entry values ih =>
    rw [List.foldl_cons, ih]
    rfl

/-- Setting the counts of all codes from a list leaves no other counts. -/
theorem foldl_setSingle_zero (values : List Nat) :
    values.zipIdx.foldl (fun f (value, code) => f.setSingle code value) zero = ofSingles values := by
  funext e
  cases e with
  | pair left right => rw [foldl_setSingle_pair]; rfl
  | single code =>
    rw [foldl_setSingle, ofSingles]
    by_cases inside : code < values.length
    · simp [inside]
    · simp [inside, zero]

end Counts

theorem Tally.Keeps.restore {κ : Type} [Tally κ] [LawfulTally κ] {t : κ} (keeps : Keeps t .zero) {values : List Nat}
    (length : values.length = countedCodes) :
    ∃ t', Tally.restore t values = (t', .ok ()) ∧ Keeps t' (.ofSingles values) := by
  have all : values.take countedCodes = values := List.take_of_length_le (Nat.le_of_eq length)
  have kept := foldl_setSingle values 0 keeps (by omega)
  rw [Counts.foldl_setSingle_zero] at kept
  refine ⟨_, ?_, kept⟩
  simp only [Tally.restore, all, length, Nat.le_refl, ↓reduceIte]

/-! ### Cells -/

theorem getD_replicate {α : Type} (n i : Nat) (x : α) : (Vector.replicate n x)[i]?.getD x = x := by
  rw [Vector.getElem?_replicate]
  split <;> rfl

theorem getD_setIfInBounds {α : Type} {n : Nat} (cells : Vector α n) {i j : Nat} (inside : i < n) (x default : α) :
    (cells.setIfInBounds i x)[j]?.getD default = if j = i then x else cells[j]?.getD default := by
  rw [Vector.getElem?_setIfInBounds]
  by_cases same : i = j
  · subst same
    simp [inside]
  · have other : ¬ j = i := fun equal => same equal.symm
    simp [same, other]

theorem pairCell_inj {left right left' right' : Nat} (inside : right < countedCodes) (inside' : right' < countedCodes) :
    pairCell left right = pairCell left' right' ↔ left = left' ∧ right = right' := by
  have small : right < 512 := inside
  have small' : right' < 512 := inside'
  show left * 512 + right = left' * 512 + right' ↔ _
  omega

theorem pairCell_lt {left right : Nat} (inside : left < countedCodes) (inside' : right < countedCodes) :
    pairCell left right < pairCells :=
  of_decide_eq_true (Event.Proper.inRange (e := .pair left right) ⟨inside, inside'⟩)

/-! ### Cells of their own -/

namespace WholeTally

theorem getD_raise {n : Nat} (cells : Vector Nat n) {cap i j : Nat} (inside : i < n) (le : cells[i]?.getD 0 ≤ cap) :
    (raise cells cap i)[j]?.getD 0 = if j = i then min (cells[i]?.getD 0 + 1) cap else cells[j]?.getD 0 := by
  by_cases room : cells[i]?.getD 0 < cap
  · have raised : raise cells cap i = cells.setIfInBounds i (cells[i]?.getD 0 + 1) := if_pos room
    rw [raised, getD_setIfInBounds cells inside, Nat.min_eq_left room]
  · have full : raise cells cap i = cells := if_neg room
    rw [full]
    split
    case isTrue same =>
      subst same
      omega
    case isFalse => rfl

theorem getD_raise_le {n : Nat} {cells : Vector Nat n} {cap i : Nat} (inside : i < n)
    (le : ∀ j : Nat, cells[j]?.getD 0 ≤ cap) (j : Nat) : (raise cells cap i)[j]?.getD 0 ≤ cap := by
  rw [getD_raise cells inside (le i)]
  split
  case isTrue => exact Nat.min_le_right ..
  case isFalse => exact le j

/-- No count is above its cap. -/
structure Valid (t : WholeTally) : Prop where
  codes_le : ∀ i : Nat, t.codes[i]?.getD 0 ≤ singleCap
  pairs_le : ∀ i : Nat, t.pairs[i]?.getD 0 ≤ pairCap

theorem valid_record {t : WholeTally} (valid : t.Valid) {e : Event} (proper : e.Proper) : (t.record e).Valid := by
  cases e with
  | single code => exact ⟨getD_raise_le proper valid.codes_le, valid.pairs_le⟩
  | pair left right => exact ⟨valid.codes_le, getD_raise_le (pairCell_lt proper.1 proper.2) valid.pairs_le⟩

theorem valid_setSingle {t : WholeTally} (valid : t.Valid) {code : Nat} (value : Nat) (inside : code < countedCodes) :
    (t.setSingle code value).Valid where
  codes_le i := by
    simp only [setSingle, getD_setIfInBounds t.codes inside]
    split
    case isTrue => exact Nat.min_le_right ..
    case isFalse => exact valid.codes_le i
  pairs_le := valid.pairs_le

theorem get_record {t : WholeTally} (valid : t.Valid) {e x : Event} (proper : e.Proper) (proper' : x.Proper) :
    (t.record e).get x = if x = e then min (t.get e + 1) e.cap else t.get x := by
  cases e with
  | single code =>
    cases x with
    | single code' =>
      simp only [Event.single.injEq]
      exact getD_raise t.codes proper (valid.codes_le code)
    | pair left right => rw [if_neg Event.noConfusion]; rfl
  | pair left right =>
    cases x with
    | single code => rw [if_neg Event.noConfusion]; rfl
    | pair left' right' =>
      simp only [Event.pair.injEq, ← pairCell_inj proper'.2 proper.2]
      exact getD_raise t.pairs (pairCell_lt proper.1 proper.2) (valid.pairs_le _)

theorem get_setSingle (t : WholeTally) {code : Nat} (value : Nat) {x : Event} (inside : code < countedCodes) :
    (t.setSingle code value).get x = if x = .single code then min value singleCap else t.get x := by
  cases x with
  | single code' => simp only [get, setSingle, getD_setIfInBounds t.codes inside, Event.single.injEq]
  | pair left right => rw [if_neg Event.noConfusion]; rfl

end WholeTally

instance : LawfulTally WholeTally where
  Valid := WholeTally.Valid
  get_le {t} valid {e} _ := by
    cases e with
    | single code => exact valid.codes_le code
    | pair left right => exact valid.pairs_le (pairCell left right)
  valid_record := WholeTally.valid_record
  get_record {_} valid {_ _} proper proper' := WholeTally.get_record valid proper proper'
  valid_setSingle := WholeTally.valid_setSingle
  get_setSingle {t} _ {code} value {x} inside _ := WholeTally.get_setSingle t value inside
  nextSingle := by
    intro t valid code inside
    have proper : (Event.single code).inRange = true := Event.Proper.inRange (e := .single code) inside
    refine ⟨t.get (.single code), 0, ?_, by simp, fun _ => rfl⟩
    simp [Tally.nextSingle, proper, pure, Except.pure, bind, Except.bind]
  nextPair := by
    intro t valid left right inside inside'
    have proper : (Event.pair left right).inRange = true :=
      Event.Proper.inRange (e := .pair left right) ⟨inside, inside'⟩
    refine ⟨t.get (.pair left right), 0, ?_, by simp, fun _ => rfl⟩
    simp [Tally.nextPair, proper, pure, Except.pure, bind, Except.bind]

theorem WholeTally.keeps_empty : Tally.Keeps WholeTally.empty .zero where
  valid := ⟨fun i => by simp [empty, getD_replicate], fun i => by simp [empty, getD_replicate]⟩
  get_eq e _ := by
    cases e with
    | single code => exact getD_replicate _ _ _
    | pair left right => exact getD_replicate _ _ _

end SymbolCodec
