import SymbolCodec.Proofs.Candidates
import SymbolCodec.Proofs.ReachedCounts

/-!
What the candidates of a round gain. Each code with a count contributes to the byte string of
its symbol, and below the whole sample each pair with a count to the byte string of both of
its symbols, cut to eight bytes (`Training.shares`). Different codes and pairs may contribute
to one byte string; what counts put forward of it are these shares in some order
(`Training.forward_shares`), and what it gains is the sum of those that are enough, each
times its length, as far as words hold it (`Training.getD_gains`). Where shares and sums fit
into words (`Training.Fits`), as they always do for a moderate weight of single bytes
(`Training.fits_of_byteWeight_le`), the gain is the sum itself. So the candidates are the byte
strings with such a share, and none of several bytes holds the terminator
(`Training.GainsOf`, `Training.exists_gainsOf`).
-/
namespace SymbolCodec.Training
open Table

/-! ### Shares -/

/-- The symbol of a code may be one of a pair: it is shorter than a word and does not start
    with the terminator. -/
def joinable (t : Table) (code : Nat) : Bool :=
  (t.symbol code).bytes.length < maxLength && (t.symbol code).bytes.head? != some t.terminator

/-- What codes with a count contribute to a byte string, single bytes with more weight. -/
def codeShares (t : Table) (f : Counts) (config : Config) (bs : Bytes) : List Nat :=
  ((List.range t.codes).filter fun code => f (.single code) ≠ 0 ∧ (t.symbol code).bytes = bs).map fun code =>
    (if (t.symbol code).bytes.length = 1 then config.byteWeight.toNat else 1) * f (.single code)

/-- What pairs with a count contribute to a byte string: a left code must have a count of its
    own, and the symbols of both together must begin with the byte string, or be it. -/
def pairShares (t : Table) (f : Counts) (bs : Bytes) : List Nat :=
  ((List.range t.codes).filter fun left => f (.single left) ≠ 0 ∧ joinable t left).flatMap fun left =>
    ((List.range t.codes).filter fun right => f (.pair left right) ≠ 0 ∧ joinable t right ∧
      ((t.symbol left).bytes ++ (t.symbol right).bytes).take maxLength = bs).map fun right => f (.pair left right)

/-- All contributions of a round to a byte string. -/
def shares (t : Table) (f : Counts) (fraction : Nat) (config : Config) (bs : Bytes) : List Nat :=
  codeShares t f config bs ++ if fraction < fullFraction then pairShares t f bs else []

/-! ### Lists -/

section
variable {α β : Type}

theorem flatMap_filter_ite (kept : α → Bool) (g : α → List β) (xs : List α) :
    (xs.filter kept).flatMap g = xs.flatMap fun x => if kept x then g x else [] := by
  induction xs with
  | nil => rfl
  | cons x xs ih =>
    by_cases here : kept x
    · simp [here, ih]
    · simp [here, ih]

end

theorem nonzeros_eq_map (count : Nat → Nat) (limit : Nat) : Tally.nonzeros count 0 limit =
    ((List.range limit).filter fun place => count place ≠ 0).map fun place => (place, count place) := by
  rw [Tally.nonzeros, List.filter_map, List.range_eq_range']
  rfl

/-! ### What is put forward -/

section
variable {t : Table} (wf : t.WellFormed) (f : Counts)
include wf

theorem joins_eq {code : Nat} (used : code < t.codes) : joins t (t.symbol code) = joinable t code := by
  have normal := normal_symbol wf used
  obtain ⟨b, rest, bytes⟩ := List.exists_cons_of_ne_nil normal.bytes_ne_nil
  have first : (t.symbol code).first = b := UInt8.toFin_inj.mp (Symbol.first_word normal bytes)
  rw [joins, joinable, normal.length_bytes, first, bytes]
  rfl

theorem forwardPairs_shares {left : Nat} (used : left < t.codes) (bs : Bytes) :
    ((forwardPairs t f left).filter fun entry => entry.1.bytes = bs).map Prod.snd =
      ((List.range t.codes).filter fun right => f (.pair left right) ≠ 0 ∧ joinable t right ∧
        ((t.symbol left).bytes ++ (t.symbol right).bytes).take maxLength = bs).map
          fun right => f (.pair left right) := by
  have normal := normal_symbol wf used
  rw [forwardPairs, nonzeros_eq_map]
  simp only [List.filter_map, List.map_map, List.filter_filter]
  refine congrArg (List.map _) (List.filter_congr fun right member => ?_)
  have used' := List.mem_range.mp member
  simp only [Function.comp_apply, joins_eq wf used', Symbol.bytes_concat normal (normal_symbol wf used')]
  rw [Bool.eq_iff_iff]
  simp only [Bool.and_eq_true, decide_eq_true_eq]
  constructor
  · rintro ⟨bytes, joined, found⟩
    exact ⟨found, joined, bytes⟩
  · rintro ⟨found, joined, bytes⟩
    exact ⟨bytes, joined, found⟩

theorem forwardCode_shares {code : Nat} (used : code < t.codes) (fraction : Nat) (config : Config) (count : Nat)
    (bs : Bytes) :
    ((forwardCode t f fraction config code count).filter fun entry => entry.1.bytes = bs).map Prod.snd =
      (if (t.symbol code).bytes = bs then
        [(if (t.symbol code).bytes.length = 1 then config.byteWeight.toNat else 1) * count] else []) ++
      if fraction < fullFraction ∧ joinable t code then
        ((List.range t.codes).filter fun right => f (.pair code right) ≠ 0 ∧ joinable t right ∧
          ((t.symbol code).bytes ++ (t.symbol right).bytes).take maxLength = bs).map
            fun right => f (.pair code right)
      else [] := by
  rw [forwardCode, List.filter_cons, joins_eq wf used, ← forwardPairs_shares wf f used bs,
    (normal_symbol wf used).length_bytes]
  by_cases same : (t.symbol code).bytes = bs
  · by_cases joined : fraction < fullFraction ∧ joinable t code = true
    · simp [same, joined]
    · simp [same, joined]
  · by_cases joined : fraction < fullFraction ∧ joinable t code = true
    · simp [same, joined]
    · simp [same, joined]

/-- What counts put forward of the bytes of a byte string are its shares, in some order. -/
theorem forward_shares (fraction : Nat) (config : Config) (bs : Bytes) :
    (((forward t f fraction config).filter fun entry => entry.1.bytes = bs).map Prod.snd).Perm
      (shares t f fraction config bs) := by
  have codes : codeShares t f config bs = ((List.range t.codes).filter fun code => f (.single code) ≠ 0).flatMap
      fun code => if (t.symbol code).bytes = bs then
        [(if (t.symbol code).bytes.length = 1 then config.byteWeight.toNat else 1) * f (.single code)] else [] := by
    rw [codeShares, List.map_eq_flatMap, flatMap_filter_ite, flatMap_filter_ite]
    simp only [decide_eq_true_eq, ite_and]
  have pairs : (if fraction < fullFraction then pairShares t f bs else []) =
      ((List.range t.codes).filter fun code => f (.single code) ≠ 0).flatMap fun code =>
        if fraction < fullFraction ∧ joinable t code then
          ((List.range t.codes).filter fun right => f (.pair code right) ≠ 0 ∧ joinable t right ∧
            ((t.symbol code).bytes ++ (t.symbol right).bytes).take maxLength = bs).map
              fun right => f (.pair code right)
        else [] := by
    by_cases below : fraction < fullFraction
    · rw [if_pos below, pairShares, flatMap_filter_ite, flatMap_filter_ite]
      simp only [below, true_and, decide_eq_true_eq, ite_and]
    · simp [below]
  rw [shares, codes, pairs]
  refine .trans (.of_eq ?_) (List.flatMap_append_perm _ _ _).symm
  rw [forward, nonzeros_eq_map, List.map_map, ← List.flatMap_def, List.filter_flatMap, List.map_flatMap]
  refine List.flatMap_congr fun code member => ?_
  have used := List.mem_range.mp (List.mem_filter.mp member).1
  exact forwardCode_shares wf f used fraction config _ bs

end

/-! ### Sums -/

theorem getD_foldl_insert (gs : List (Bytes × UInt64)) (bs : Bytes) : ∀ sums : Std.HashMap Bytes UInt64,
    (gs.foldl (fun sums (bs, gain) => sums.insert bs (sums.getD bs 0 + gain)) sums).getD bs 0 =
      sums.getD bs 0 + UInt64.ofNat ((gs.filter fun entry => entry.1 = bs).map fun entry => entry.2.toNat).sum := by
  induction gs with
  | nil => simp
  | cons entry gs ih =>
    intro sums
    obtain ⟨bs', gain⟩ := entry
    rw [List.foldl_cons, ih, Std.HashMap.getD_insert]
    by_cases same : bs' = bs
    · subst same
      simp [UInt64.add_assoc]
    · simp [same]

theorem getD_totals (gs : List (Bytes × UInt64)) (bs : Bytes) : (totals gs).getD bs 0 =
    UInt64.ofNat ((gs.filter fun entry => entry.1 = bs).map fun entry => entry.2.toNat).sum := by
  rw [totals, getD_foldl_insert, Std.HashMap.getD_empty, UInt64.zero_add]

/-- Sums keep their lowest bits if their parts do. -/
theorem ofNat_sum_congr {α : Type} {g h : α → Nat} {xs : List α}
    (same : ∀ x ∈ xs, UInt64.ofNat (g x) = UInt64.ofNat (h x)) :
    UInt64.ofNat (xs.map g).sum = UInt64.ofNat (xs.map h).sum := by
  induction xs with
  | nil => rfl
  | cons x xs ih =>
    rw [List.forall_mem_cons] at same
    rw [List.map_cons, List.map_cons, List.sum_cons, List.sum_cons, UInt64.ofNat_add, UInt64.ofNat_add, same.1,
      ih same.2]

section
variable {t : Table} (wf : t.WellFormed) (f : Counts) (fraction : Nat) (least : UInt64) (config : Config) (bs : Bytes)
include wf

/-- What a byte string gains are its shares that are enough, each times its length, as far as a
    word holds the sum. -/
theorem getD_gains : (gains t f fraction least config).getD bs 0 = UInt64.ofNat
    (((shares t f fraction config bs).filter fun share => least ≤ UInt64.ofNat share).map (bs.length * ·)).sum := by
  have perm := ((forward_shares wf f fraction config bs).filter fun share => least ≤ UInt64.ofNat share).map
    (bs.length * ·)
  rw [gains, getD_totals, ← perm.sum_nat]
  simp only [List.filter_map, List.map_map, List.filter_filter]
  simp only [Function.comp_def, inWord, Bool.and_comm, ge_iff_le]
  refine ofNat_sum_congr fun entry member => ?_
  obtain ⟨listed, kept⟩ := List.mem_filter.mp member
  obtain ⟨_, _, normal, _⟩ := exists_event_of_forward wf (s := entry.1) (n := entry.2) listed
  have bytes : entry.1.bytes = bs := by simpa using (Bool.and_eq_true_iff.mp kept).2
  rw [UInt64.ofNat_toNat, ← bytes, normal.length_bytes, UInt64.ofNat_mul, UInt64.mul_comm]

theorem mem_gains_iff : bs ∈ gains t f fraction least config ↔
    ∃ share ∈ shares t f fraction config bs, least ≤ UInt64.ofNat share := by
  rw [gains, mem_totals]
  simp only [← (forward_shares wf f fraction config bs).mem_iff, List.mem_map, List.mem_filter, decide_eq_true_eq]
  constructor
  · rintro ⟨_, ⟨_, ⟨⟨⟨s, count⟩, listed, rfl⟩, enough⟩, rfl⟩, rfl⟩
    exact ⟨count, ⟨(s, count), ⟨listed, rfl⟩, rfl⟩, enough⟩
  · rintro ⟨_, ⟨⟨s, count⟩, ⟨listed, rfl⟩, rfl⟩, enough⟩
    exact ⟨_, ⟨_, ⟨⟨(s, count), listed, rfl⟩, enough⟩, rfl⟩, rfl⟩

end

/-! ### Keys -/

section
variable {t : Table} (wf : t.WellFormed)
include wf

theorem terminator_not_mem_symbol {code : Nat} (used : code < t.codes) (several : 1 < (t.symbol code).bytes.length) :
    t.terminator ∉ (t.symbol code).bytes := by
  have added : ¬ code < firstCode := by
    intro byte
    rw [bytes_symbol_of_lt byte] at several
    exact absurd several (Nat.lt_irrefl 1)
  obtain ⟨i, rfl⟩ := Nat.exists_eq_add_of_le (Nat.le_of_not_lt added)
  have inside : i < t.added.size := Nat.lt_of_add_lt_add_left used
  rw [symbol_add t inside] at several ⊢
  have member := Array.getElem_mem inside
  rw [(wf.normal _ member).length_bytes] at several
  exact wf.terminator _ member several

/-- The symbols of a pair do not hold the terminator, single bytes included. -/
theorem terminator_not_mem_joinable {code : Nat} (used : code < t.codes) (joined : joinable t code = true) :
    t.terminator ∉ (t.symbol code).bytes := by
  by_cases several : 1 < (t.symbol code).bytes.length
  · exact terminator_not_mem_symbol wf used several
  · obtain ⟨b, rest, bytes⟩ := List.exists_cons_of_ne_nil (normal_symbol wf used).bytes_ne_nil
    simp only [joinable, Bool.and_eq_true, bne_iff_ne, ne_eq] at joined
    rw [bytes] at several joined ⊢
    rw [List.length_cons] at several
    have none : rest = [] := List.eq_nil_of_length_eq_zero (by omega)
    rw [none, List.mem_singleton]
    exact fun same => joined.2 (by rw [same]; rfl)

/-- What has a share has the length of a symbol, and does not hold the terminator among
    several bytes. -/
theorem key_of_mem_shares {f : Counts} {fraction : Nat} {config : Config} {bs : Bytes} {share : Nat}
    (member : share ∈ shares t f fraction config bs) :
    1 ≤ bs.length ∧ bs.length ≤ maxLength ∧ (1 < bs.length → t.terminator ∉ bs) := by
  rcases List.mem_append.mp member with alone | both
  · obtain ⟨code, found, rfl⟩ := List.mem_map.mp alone
    obtain ⟨listed, kept⟩ := List.mem_filter.mp found
    obtain ⟨_, rfl⟩ : f (.single code) ≠ 0 ∧ (t.symbol code).bytes = bs := by simpa using kept
    have used := List.mem_range.mp listed
    have normal := normal_symbol wf used
    rw [normal.length_bytes]
    refine ⟨normal.pos, normal.le, fun several => ?_⟩
    exact terminator_not_mem_symbol wf used (by rwa [normal.length_bytes])
  · split at both
    case isFalse => cases both
    case isTrue =>
      obtain ⟨left, found, inner⟩ := List.mem_flatMap.mp both
      obtain ⟨right, found', rfl⟩ := List.mem_map.mp inner
      obtain ⟨listed, kept⟩ := List.mem_filter.mp found
      obtain ⟨listed', kept'⟩ := List.mem_filter.mp found'
      have used := List.mem_range.mp listed
      have used' := List.mem_range.mp listed'
      simp only [decide_eq_true_eq] at kept kept'
      obtain ⟨_, joined⟩ := kept
      obtain ⟨_, joined', rfl⟩ := kept'
      have pos := (normal_symbol wf used).pos
      rw [← (normal_symbol wf used).length_bytes] at pos
      refine ⟨?_, List.length_take_le .., fun _ held => ?_⟩
      · rw [List.length_take, List.length_append]
        exact Nat.le_min.mpr ⟨by decide, Nat.le_add_right_of_le pos⟩
      · rcases List.mem_append.mp (List.mem_of_mem_take held) with here | there
        · exact terminator_not_mem_joinable wf used joined here
        · exact terminator_not_mem_joinable wf used' joined' there

end

/-! ### What fits into words -/

/-- What a byte string gains in numbers of any size: its shares that are enough, each times its
    length. -/
def exactGain (t : Table) (f : Counts) (fraction least : Nat) (config : Config) (bs : Bytes) : Nat :=
  (((shares t f fraction config bs).filter fun share => least ≤ share).map (bs.length * ·)).sum

/-- Neither a share of a byte string nor its gain is too large for a word. -/
structure Fits (t : Table) (f : Counts) (fraction least : Nat) (config : Config) (bs : Bytes) : Prop where
  share_lt : ∀ share ∈ shares t f fraction config bs, share < 2 ^ 64
  gain_lt : exactGain t f fraction least config bs < 2 ^ 64

theorem le_ofNat_iff {least : UInt64} {share : Nat} (lt : share < 2 ^ 64) :
    least ≤ UInt64.ofNat share ↔ least.toNat ≤ share := by
  rw [UInt64.le_iff_toNat_le, UInt64.toNat_ofNat_of_lt' lt]

section
variable {t : Table} {f : Counts} {fraction : Nat} {config : Config} {bs : Bytes}

theorem length_shares_le : (shares t f fraction config bs).length ≤ t.codes + t.codes * t.codes := by
  have few (kept : Nat → Bool) : ((List.range t.codes).filter kept).length ≤ t.codes :=
    (List.length_filter_le ..).trans_eq List.length_range
  have alone : (codeShares t f config bs).length ≤ t.codes := by
    rw [codeShares, List.length_map]
    exact few _
  have both : (pairShares t f bs).length ≤ t.codes * t.codes := by
    rw [pairShares, List.length_flatMap]
    refine (List.sum_le_card_nsmul _ t.codes fun n member => ?_).trans ?_
    · obtain ⟨left, _, rfl⟩ := List.mem_map.mp member
      rw [List.length_map]
      exact few _
    · rw [List.length_map, smul_eq_mul]
      exact Nat.mul_le_mul_right _ (few _)
  rw [shares, List.length_append]
  refine Nat.add_le_add alone ?_
  split
  · exact both
  · exact Nat.zero_le _

variable (few : t.added.size ≤ maxSymbols) (capped : ∀ e : Event, e.Proper → f e ≤ e.cap)
include few capped

theorem le_of_mem_shares {share : Nat} (member : share ∈ shares t f fraction config bs) :
    share ≤ config.byteWeight.toNat * singleCap := by
  have weight : 1 ≤ config.byteWeight.toNat := config.byteWeight_pos
  have inside {code : Nat} (listed : code ∈ List.range t.codes) : code < countedCodes :=
    Nat.lt_of_lt_of_le (List.mem_range.mp listed) (codes_le few)
  rcases List.mem_append.mp member with alone | both
  · obtain ⟨code, found, rfl⟩ := List.mem_map.mp alone
    refine Nat.mul_le_mul ?_ (capped (.single code) (inside (List.mem_filter.mp found).1))
    split
    · exact Nat.le_refl _
    · exact weight
  · split at both
    case isFalse => cases both
    case isTrue =>
      obtain ⟨left, found, inner⟩ := List.mem_flatMap.mp both
      obtain ⟨right, found', rfl⟩ := List.mem_map.mp inner
      calc f (.pair left right)
        _ ≤ pairCap :=
          capped (.pair left right) ⟨inside (List.mem_filter.mp found).1, inside (List.mem_filter.mp found').1⟩
        _ ≤ singleCap := by decide
        _ ≤ config.byteWeight.toNat * singleCap := Nat.le_mul_of_pos_left _ weight

/-- With a moderate weight of single bytes nothing is too large for a word. -/
theorem fits_of_byteWeight_le (wf : t.WellFormed) (light : config.byteWeight.toNat ≤ 2 ^ 24) (least : Nat) :
    Fits t f fraction least config bs := by
  have share_le {share : Nat} (member : share ∈ shares t f fraction config bs) : share ≤ 2 ^ 24 * singleCap :=
    (le_of_mem_shares few capped member).trans (Nat.mul_le_mul_right _ light)
  refine ⟨fun share member => Nat.lt_of_le_of_lt (share_le member) (by decide), ?_⟩
  have codes : t.codes ≤ countedCodes := codes_le few
  have gain_le : ∀ gain ∈ ((shares t f fraction config bs).filter fun share => least ≤ share).map (bs.length * ·),
      gain ≤ maxLength * (2 ^ 24 * singleCap) := by
    intro gain member
    obtain ⟨share, kept, rfl⟩ := List.mem_map.mp member
    have listed := (List.mem_filter.mp kept).1
    exact Nat.mul_le_mul (key_of_mem_shares wf listed).2.1 (share_le listed)
  calc exactGain t f fraction least config bs
    _ ≤ (shares t f fraction config bs).length * (maxLength * (2 ^ 24 * singleCap)) := by
      refine (List.sum_le_card_nsmul _ _ gain_le).trans ?_
      rw [List.length_map, smul_eq_mul]
      exact Nat.mul_le_mul_right _ (List.length_filter_le ..)
    _ ≤ (countedCodes + countedCodes * countedCodes) * (maxLength * (2 ^ 24 * singleCap)) :=
      Nat.mul_le_mul_right _ (length_shares_le.trans (Nat.add_le_add codes (Nat.mul_le_mul codes codes)))
    _ < 2 ^ 64 := by decide

end

/-! ### The candidates -/

/-- The gains of a round are the sums of the shares that are enough. -/
structure GainsOf (t : Table) (f : Counts) (fraction : Nat) (least : UInt64) (config : Config)
    (sums : Std.HashMap Bytes UInt64) : Prop where
  value : ∀ bs, Fits t f fraction least.toNat config bs →
    (sums.getD bs 0).toNat = exactGain t f fraction least.toNat config bs
  key_iff : ∀ bs, (∀ share ∈ shares t f fraction config bs, share < 2 ^ 64) →
    (bs ∈ sums ↔ ∃ share ∈ shares t f fraction config bs, least.toNat ≤ share)
  /-- Of what is too large for a word the lowest bits count. -/
  wrapped_value : ∀ bs, sums.getD bs 0 = UInt64.ofNat
    (((shares t f fraction config bs).filter fun share => least ≤ UInt64.ofNat share).map (bs.length * ·)).sum
  wrapped_key_iff : ∀ bs, bs ∈ sums ↔ ∃ share ∈ shares t f fraction config bs, least ≤ UInt64.ofNat share
  length : ∀ bs ∈ sums, 1 ≤ bs.length ∧ bs.length ≤ maxLength
  terminator : ∀ bs ∈ sums, 1 < bs.length → t.terminator ∉ bs

theorem gainsOf_gains {t : Table} (wf : t.WellFormed) (f : Counts) (fraction : Nat) (least : UInt64)
    (config : Config) : GainsOf t f fraction least config (gains t f fraction least config) := by
  have key {bs : Bytes} (member : bs ∈ gains t f fraction least config) :
      1 ≤ bs.length ∧ bs.length ≤ maxLength ∧ (1 < bs.length → t.terminator ∉ bs) := by
    obtain ⟨_, listed, _⟩ := (mem_gains_iff wf f fraction least config bs).mp member
    exact key_of_mem_shares wf listed
  have enough {bs : Bytes} (small : ∀ share ∈ shares t f fraction config bs, share < 2 ^ 64) {share : Nat}
      (member : share ∈ shares t f fraction config bs) : least ≤ UInt64.ofNat share ↔ least.toNat ≤ share :=
    le_ofNat_iff (small share member)
  refine ⟨fun bs fits => ?_, fun bs small => ?_, getD_gains wf f fraction least config,
    mem_gains_iff wf f fraction least config, fun _ member => ⟨(key member).1, (key member).2.1⟩,
    fun _ member => (key member).2.2⟩
  · have same : (shares t f fraction config bs).filter (fun share => least ≤ UInt64.ofNat share) =
        (shares t f fraction config bs).filter fun share => least.toNat ≤ share :=
      List.filter_congr fun share member => decide_eq_decide.mpr (enough fits.share_lt member)
    rw [getD_gains wf, same]
    exact UInt64.toNat_ofNat_of_lt' fits.gain_lt
  · rw [mem_gains_iff wf]
    exact exists_congr fun share => and_congr_right fun member => enough small member

/-- Of whatever table was built and whatever was counted, the candidates are found, and they
    gain what the counts put forward, those of the terminator at the cap. -/
theorem exists_gainsOf {terminator : UInt8} {zeroTerminated : Bool} {symbols : List Symbol} {t : Table}
    (built : (Table.empty terminator zeroTerminated).addAll symbols = .ok t) (few : t.added.size ≤ maxSymbols)
    {layout : Layout} {counters : Counters} (reachable : Counters.Reachable layout counters)
    (fraction : Nat) (least : UInt64) (config : Config) :
    ∃ sums, (candidates t counters fraction least config).2 = .ok sums ∧
      GainsOf t (raiseTerminator t (Tally.get counters)) fraction least config sums ∧
      (config.byteWeight.toNat ≤ 2 ^ 24 →
        ∀ bs, Fits t (raiseTerminator t (Tally.get counters)) fraction least.toNat config bs) := by
  have wf := wellFormed_addAll built
  obtain ⟨f, keeps⟩ := reachable.exists_keeps
  have itself : Tally.Keeps counters (Tally.get counters) := ⟨keeps.valid, fun _ _ => rfl⟩
  have capped : ∀ e : Event, e.Proper → raiseTerminator t (Tally.get counters) e ≤ e.cap :=
    fun e proper => raiseTerminator_le_cap t (LawfulTally.get_le keeps.valid proper)
  exact ⟨_, itself.candidates wf few fraction least config, gainsOf_gains wf _ fraction least config,
    fun light bs => fits_of_byteWeight_le few capped wf light _⟩

/-- Counts of a pair and of the symbol that is this pair, which are shares of one byte string. -/
theorem exists_gainsOf_merged : ∃ t, (Table.empty 0 false).addAll [.ofBytes [97, 98]] = .ok t ∧
    t.added.size ≤ maxSymbols ∧ ∀ layout, Counters.Reachable layout
        (Tally.recordAll (Counters.empty layout) [.single 97, .single 256, .pair 97 98]).1 ∧
      ∃ sums, (candidates t (Tally.recordAll (Counters.empty layout) [.single 97, .single 256, .pair 97 98]).1
          64 1 .standard).2 = .ok sums ∧
        GainsOf t (raiseTerminator t
          (Tally.get (Tally.recordAll (Counters.empty layout) [.single 97, .single 256, .pair 97 98]).1))
          64 1 .standard sums ∧
        ∀ bs, (sums.getD bs 0).toNat = exactGain t (raiseTerminator t
          (Tally.get (Tally.recordAll (Counters.empty layout) [.single 97, .single 256, .pair 97 98]).1))
          64 1 .standard bs := by
  obtain ⟨t, built, size⟩ : ∃ t, (Table.empty 0 false).addAll [.ofBytes [97, 98]] = .ok t ∧ t.added.size = 1 :=
    ⟨_, rfl, rfl⟩
  have few : t.added.size ≤ maxSymbols := by rw [size]; decide
  refine ⟨t, built, few, fun layout => ?_⟩
  have reachable := Counters.Reachable.recordAll [.single 97, .single 256, .pair 97 98]
    (.empty : Counters.Reachable layout _)
  obtain ⟨sums, found, gains, fits⟩ := exists_gainsOf built few reachable 64 1 .standard
  exact ⟨reachable, sums, found, gains, fun bs => gains.value bs (fits (by decide) bs)⟩

end SymbolCodec.Training
