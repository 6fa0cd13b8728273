import SymbolCodec.Proofs.Greedy
import SymbolCodec.Proofs.Lookups
import SymbolCodec.Proofs.Reloading

/-!
Repeated symbols. Under the same bytes a table finds the symbol that was added last, and
the encoder of its dictionary the one of the highest code. That is the same symbol where
the new codes follow the order in which symbols were added, and another one where they run
backwards, which is so for the pairs that a longer symbol starts with
(`Table.place_lt_of_codeOf_lt`). So a table comes back from its dictionary exactly if it
does not repeat such a pair; else some of the codes change, but neither their number nor
what they stand for (`Encoder.reloads_ofTable`).
-/
namespace SymbolCodec

namespace Table

/-- Two bytes that were added more than once, and that a longer symbol starts with. -/
structure RepeatsExtended (t : Table) (a b : UInt8) : Prop where
  twice : ∃ i j, i < j ∧ j < t.added.size ∧ (t.addedAt i).bytes = [a, b] ∧ (t.addedAt j).bytes = [a, b]
  extended : ∃ r ∈ t.added, 2 < r.len ∧ [a, b] <+: r.bytes

/-! ### The order of new codes within a length -/

/-- The pairs that a longer symbol starts with are numbered backwards. -/
def backwards (t : Table) (i : Nat) : Bool := (t.addedAt i).len == 2 && t.extended i

/-- Of places of one length, both numbered forwards or both backwards, the first one comes
    before the other in the order of the new codes. -/
def Precedes (t : Table) (i j : Nat) : Prop :=
  (t.addedAt i).len = (t.addedAt j).len → t.backwards i = t.backwards j → if t.backwards i then j < i else i < j

section
variable {t : Table} {i j : Nat}

theorem forwards_of_len_ne (other : (t.addedAt i).len ≠ 2) : t.backwards i = false := by
  simp [backwards, other]

theorem precedes_of_forwards (forwards : t.backwards i = false) (before : i < j) : t.Precedes i j := by
  intro _ _
  simp [forwards, before]

theorem precedes_of_len_ne (other : (t.addedAt i).len ≠ (t.addedAt j).len) : t.Precedes i j :=
  fun len _ => absurd len other

theorem pairwise_ofLength (t : Table) (len : Nat) : (t.ofLength len).Pairwise (· < ·) :=
  List.pairwise_lt_range.filter _

theorem pairwise_paired (t : Table) : t.paired.Pairwise t.Precedes := by
  refine List.pairwise_append.mpr ⟨?_, ?_, ?_⟩
  · refine ((t.pairwise_ofLength 2).filter _).imp_of_mem ?_
    intro i j member _ before
    exact precedes_of_forwards (by simp [backwards, (mem_alone.mp member).2]) before
  · refine List.pairwise_reverse.mpr (((t.pairwise_ofLength 2).filter _).imp_of_mem ?_)
    intro i j _ member before _ _
    obtain ⟨listed, extended⟩ := List.mem_filter.mp member
    simp [backwards, (mem_ofLength.mp listed).2.1, extended, before]
  -- Of these one is numbered forwards and the other backwards.
  · intro i plain j turned len same
    obtain ⟨listed, extended⟩ := List.mem_filter.mp (List.mem_reverse.mp turned)
    simp [backwards, (mem_alone.mp plain).2, (mem_ofLength.mp listed).2.1, extended] at same

theorem pairwise_flatMap_ofLength (t : Table) : ([3, 4, 5, 6, 7, 8, 1].flatMap t.ofLength).Pairwise t.Precedes := by
  refine List.pairwise_flatMap.mpr ⟨?_, ?_⟩
  · intro len listed
    refine (t.pairwise_ofLength len).imp_of_mem ?_
    intro i j member _ before
    refine precedes_of_forwards (forwards_of_len_ne ?_) before
    rw [(mem_ofLength.mp member).2.1]
    rintro rfl
    revert listed
    decide
  · have lengths : ([3, 4, 5, 6, 7, 8, 1] : List Nat).Pairwise (· ≠ ·) := by decide
    refine lengths.imp ?_
    intro len len' apart i inner j outer
    rw [← (mem_ofLength.mp inner).2.1, ← (mem_ofLength.mp outer).2.1] at apart
    exact precedes_of_len_ne apart

theorem pairwise_codeOrder (t : Table) : t.codeOrder.Pairwise t.Precedes := by
  rw [codeOrder_eq_lengths]
  refine List.pairwise_append.mpr ⟨?_, List.pairwise_append.mpr ⟨t.pairwise_paired, t.pairwise_flatMap_ofLength, ?_⟩, ?_⟩
  · unfold kept
    split <;> simp
  · intro i two j other
    obtain ⟨len, listed, member⟩ := List.mem_flatMap.mp other
    refine precedes_of_len_ne ?_
    rw [len_of_mem_paired two, (mem_ofLength.mp member).2.1]
    rintro rfl
    revert listed
    decide
  -- Byte 0 at code 0 is the first place, so that it comes before other symbols of one byte.
  · intro i zero j other
    obtain ⟨keeps, rfl⟩ := mem_kept.mp zero
    have one := len_of_mem_kept zero
    rcases List.mem_append.mp other with two | more
    · exact precedes_of_len_ne (by rw [one, len_of_mem_paired two]; decide)
    · obtain ⟨len, _, member⟩ := List.mem_flatMap.mp more
      have apart := (mem_ofLength.mp member).2.2
      exact precedes_of_forwards (forwards_of_len_ne (by rw [one]; decide))
        (Nat.pos_of_ne_zero fun same => apart ⟨keeps, same⟩)

end

section
variable {t : Table} (wf : t.WellFormed) {i j : Nat} (inside : i < t.added.size) (inside' : j < t.added.size)
include wf inside inside'

theorem backwards_congr (same : (t.addedAt i).bytes = (t.addedAt j).bytes) : t.backwards i = t.backwards j := by
  have normal := wf.normal _ (addedAt_mem inside)
  have normal' := wf.normal _ (addedAt_mem inside')
  have len : (t.addedAt i).len = (t.addedAt j).len := by
    rw [← normal.length_bytes, ← normal'.length_bytes, same]
  by_cases two : (t.addedAt i).len = 2
  · obtain ⟨a, b, both⟩ := Symbol.exists_bytes_two normal two
    have extended := (extended_iff wf inside both).trans (extended_iff wf inside' (same.symm.trans both)).symm
    rw [backwards, backwards, len, Bool.eq_iff_iff.mpr extended]
  · rw [forwards_of_len_ne two, forwards_of_len_ne (len ▸ two)]

/-- Places of the same bytes have their new codes in the same order, or in the opposite
    one if they are numbered backwards. -/
theorem place_lt_of_codeOf_lt (same : (t.addedAt i).bytes = (t.addedAt j).bytes) (before : t.codeOf i < t.codeOf j) :
    if t.backwards i then j < i else i < j := by
  have listed := List.idxOf_lt_length_of_mem ((mem_codeOrder wf).mpr inside)
  have listed' := List.idxOf_lt_length_of_mem ((mem_codeOrder wf).mpr inside')
  have precedes := List.pairwise_iff_getElem.mp t.pairwise_codeOrder _ _ listed listed' before
  rw [List.getElem_idxOf listed, List.getElem_idxOf listed'] at precedes
  refine precedes ?_ (backwards_congr wf inside inside' same)
  rw [← (wf.normal _ (addedAt_mem inside)).length_bytes, ← (wf.normal _ (addedAt_mem inside')).length_bytes, same]

end

/-! ### Which of several symbols is found -/

/-- A place that has the highest new code of the places of some bytes. -/
structure Highest (t : Table) (bs : Bytes) (i : Nat) : Prop where
  inside : i < t.added.size
  bytes : (t.addedAt i).bytes = bs
  highest : ∀ j < t.added.size, (t.addedAt j).bytes = bs → t.codeOf j ≤ t.codeOf i

section
variable {t : Table} (wf : t.WellFormed) {bs : Bytes} {i k : Nat} (newest : t.Newest bs i) (highest : t.Highest bs k)
include wf newest highest

omit newest in
theorem codeOf_lt_of_ne {j : Nat} (inside : j < t.added.size) (same : (t.addedAt j).bytes = bs) (other : j ≠ k) :
    t.codeOf j < t.codeOf k := by
  have le := highest.highest j inside same
  have ne : t.codeOf j ≠ t.codeOf k := by
    intro equal
    exact other ((List.idxOf_inj ((mem_codeOrder wf).mpr inside)).mp equal)
  omega

/-- Where the new codes run forwards, the last symbol of some bytes has the highest one. -/
theorem newest_eq_highest (forwards : t.backwards i = false) : i = k := by
  by_contra other
  have before := codeOf_lt_of_ne wf highest newest.inside newest.bytes other
  have later := place_lt_of_codeOf_lt wf newest.inside highest.inside (newest.bytes.trans highest.bytes.symm) before
  have last := newest.newest k highest.inside highest.bytes
  rw [forwards, if_neg Bool.false_ne_true] at later
  omega

/-- Where they run backwards, it does not if there is another symbol of these bytes. -/
theorem newest_ne_highest (turned : t.backwards i = true) {j : Nat} (inside : j < t.added.size)
    (same : (t.addedAt j).bytes = bs) (other : j ≠ i) : i ≠ k := by
  rintro rfl
  have both := same.trans newest.bytes.symm
  have before := codeOf_lt_of_ne wf highest inside same other
  have later := place_lt_of_codeOf_lt wf inside newest.inside both before
  have last := newest.newest j inside same
  rw [backwards_congr wf inside newest.inside both, turned, if_pos rfl] at later
  omega

end

/-- The last symbol of two bytes has the highest code unless the pair is repeated and a
    longer symbol starts with it. -/
theorem newest_eq_highest_iff {t : Table} (wf : t.WellFormed) {a b : UInt8} {i k : Nat} (newest : t.Newest [a, b] i)
    (highest : t.Highest [a, b] k) : i = k ↔ ¬ t.RepeatsExtended a b := by
  have extended := extended_iff wf newest.inside newest.bytes
  have two : (t.addedAt i).len = 2 := by
    rw [← (wf.normal _ (addedAt_mem newest.inside)).length_bytes, newest.bytes]
    rfl
  have turned : t.backwards i = true ↔ t.extended i = true := by simp [backwards, two]
  constructor
  · rintro same ⟨⟨p, q, before, inside, first, second⟩, longer⟩
    have last := newest.newest q inside second
    have within := Nat.lt_trans before inside
    have other : p ≠ i := by omega
    exact newest_ne_highest wf newest highest (turned.mpr (extended.mpr longer)) within first other same
  · intro single
    cases forwards : t.backwards i with
    | false => exact newest_eq_highest wf newest highest forwards
    | true =>
      by_contra other
      have last := newest.newest k highest.inside highest.bytes
      have before : k < i := by omega
      exact single ⟨⟨k, i, before, newest.inside, highest.bytes, newest.bytes⟩, extended.mp (turned.mp forwards)⟩

end Table

namespace Encoder
open Table

/-! ### Entries -/

section
variable {t : Table} (wf : t.WellFormed) {e : Encoder} (run : ofTable t = .ok e)
include wf run

/-- The last of the symbols of some bytes, in the order of the codes, has the highest
    code. -/
theorem last?_ofTable (bs : Bytes) :
    (∃ k, t.Highest bs k ∧ Symbol.last? e.symbols.toList bs = some (t.renumber k)) ∨
      (∀ i < t.added.size, (t.addedAt i).bytes ≠ bs) ∧ Symbol.last? e.symbols.toList bs = none := by
  cases last : Symbol.last? e.symbols.toList bs with
  | none =>
    refine .inr ⟨?_, rfl⟩
    intro i inside
    have member := (mem_symbols_ofTable wf run).mpr ⟨i, inside, rfl⟩
    exact Symbol.of_last?_eq_none last (t.renumber i) (Array.mem_toList_iff.mpr member)
  | some s =>
    obtain ⟨listed, same⟩ := Symbol.of_last?_eq_some last
    obtain ⟨k, inside, rfl⟩ := (mem_symbols_ofTable wf run).mp (Array.mem_toList_iff.mp listed)
    obtain ⟨code, here, behind⟩ := Symbol.place_of_last?_eq_some last
    rw [Array.getElem?_toList] at here
    obtain ⟨within, found⟩ := Array.getElem?_eq_some_iff.mp here
    have code_eq := (wellFormed_ofTable wf run).code_eq code within
    rw [found, code_renumber wf inside] at code_eq
    refine .inl ⟨k, ⟨inside, same, ?_⟩, rfl⟩
    intro j inside' same'
    rw [code_eq]
    refine behind _ (t.renumber j) ?_ same'
    rw [Array.getElem?_toList]
    exact getElem?_symbols_codeOf wf run inside'

/-- Different places have different codes. -/
theorem place_eq_of_code {i k : Nat} (inside : i < t.added.size) (inside' : k < t.added.size)
    (same : UInt8.ofNat (t.renumber i).code = UInt8.ofNat (t.renumber k).code) : i = k := by
  have encoder := wellFormed_ofTable wf run
  have codes := congrArg UInt8.toNat same
  rw [encoder.toNat_code ((mem_symbols_ofTable wf run).mpr ⟨i, inside, rfl⟩),
    encoder.toNat_code ((mem_symbols_ofTable wf run).mpr ⟨k, inside', rfl⟩), code_renumber wf inside,
    code_renumber wf inside'] at codes
  exact (List.idxOf_inj ((mem_codeOrder wf).mpr inside)).mp codes

variable {d : Dictionary} {loaded : Encoder} (reload : ofDictionary d = .ok loaded)
  (symbols : loaded.symbols = e.symbols)
include reload symbols

theorem byteEntry_reloaded (a : UInt8) : loaded.bytes.get a.toFin = e.bytes.get a.toFin := by
  rw [byteEntry_ofDictionary reload, symbols]
  rcases last?_ofTable wf run [a] with ⟨k, highest, last⟩ | ⟨absent, last⟩
  · rcases byteEntry_ofTable wf run a with ⟨i, newest, found⟩ | ⟨absent, _⟩
    · have one : (t.addedAt i).len = 1 := by
        rw [← (wf.normal _ (addedAt_mem newest.inside)).length_bytes, newest.bytes]
        rfl
      rw [last, found, newest_eq_highest wf newest highest (forwards_of_len_ne (by rw [one]; decide))]
      rfl
    · exact absurd highest.bytes (absent k highest.inside)
  · rcases byteEntry_ofTable wf run a with ⟨i, newest, _⟩ | ⟨_, found⟩
    · exact absurd newest.bytes (absent i newest.inside)
    · rw [last, found]
      rfl

/-- Two bytes lead to the symbol that was added last, and after reloading to the one of
    the highest code. -/
theorem pairEntry_reloaded (a b : UInt8) :
    (∃ i k, t.Newest [a, b] i ∧ t.Highest [a, b] k ∧ e.pairs.get (Word.pairOf a b) = (t.renumber i).entry ∧
      loaded.pairs.get (Word.pairOf a b) = (t.renumber k).entry) ∨
    (∀ i < t.added.size, (t.addedAt i).bytes ≠ [a, b]) ∧
      loaded.pairs.get (Word.pairOf a b) = e.pairs.get (Word.pairOf a b) := by
  rw [pairEntry_ofDictionary reload, byteEntry_reloaded wf run reload symbols a, symbols]
  rcases last?_ofTable wf run [a, b] with ⟨k, highest, last⟩ | ⟨absent, last⟩
  · rcases pairEntry_ofTable wf run a b with ⟨i, newest, found⟩ | ⟨absent, _⟩
    · exact .inl ⟨i, k, newest, highest, found, by rw [last]; rfl⟩
    · exact absurd highest.bytes (absent k highest.inside)
  · rcases pairEntry_ofTable wf run a b with ⟨i, newest, _⟩ | ⟨_, found⟩
    · exact absurd newest.bytes (absent i newest.inside)
    · exact .inr ⟨absent, by rw [last, found]; rfl⟩

end

/-! ### Codes -/

namespace WellFormed
variable {e : Encoder} (wf : e.WellFormed)
include wf

theorem long?_of_short {input : Bytes} (short : input.length ≤ 2) : e.long? input = none := by
  cases long : e.long? input with
  | none => rfl
  | some r =>
    obtain ⟨member, longer, starts⟩ := wf.long?_eq_some_iff.mp long
    have fits := starts.length_le
    rw [(wf.normal r member).length_bytes] at fits
    omega

/-- A pair alone has the code that is found under it. -/
theorem head?_lineCodes_pair (free : e.SuffixFree) (strategy : Strategy) {a b : UInt8} {s : Symbol}
    (found : e.pairs.get (Word.pairOf a b) = s.entry) :
    (e.lineCodes strategy [a, b]).head? = some (UInt8.ofNat s.code) := by
  have look : e.find? [a, b] = some (UInt8.ofNat s.code) := by
    rw [wf.find?_eq (List.cons_ne_nil a [b]), wf.long?_of_short (by simp)]
    simp [entry, found, Symbol.entry]
  rw [lineCodes_of_short e strategy (by simp [chunkLength]), wf.codes_eq_greedy fun _ => wf.pairsAlone free, greedy, look]
  rfl

theorem len_symbol_entry {chunk : Bytes} (plain : (e.entry chunk).escaped = false) :
    (e.symbol (e.entry chunk).code).len = (e.entry chunk).len := by
  rcases wf.entry_cases chunk with ⟨s, member, _, _, found⟩ | escape
  · rw [found]
    exact congrArg Symbol.len (wf.symbol_code member)
  · rw [escape] at plain
    cases plain

end WellFormed

/-- Two entries take in as many bytes, and both announce a byte or neither does. -/
def Alike (x y : Entry) : Prop := x.escaped = y.escaped ∧ x.len = y.len

section
variable {e loaded : Encoder} (wf : e.WellFormed) (wf' : loaded.WellFormed) (symbols : loaded.symbols = e.symbols)
include wf wf' symbols

/-- Among the same symbols the same bytes are found. -/
theorem alike_entry (chunk : Bytes) : Alike (e.entry chunk) (loaded.entry chunk) := by
  have alike : ∀ s ∈ e.symbols, ∀ r ∈ e.symbols, s.bytes = r.bytes → Alike s.entry r.entry := by
    intro s member r member' same
    have len : s.len = r.len := by
      rw [← (wf.normal s member).length_bytes, ← (wf.normal r member').length_bytes, same]
    exact ⟨rfl, len⟩
  have single (a : UInt8) : Alike (e.bytes.get a.toFin) (loaded.bytes.get a.toFin) := by
    have look := wf'.bytes a
    rw [symbols] at look
    exact rel_of_looks alike (wf.bytes a) look ⟨rfl, rfl⟩
  match chunk with
  | [] => exact ⟨rfl, rfl⟩
  | [a] => exact single a
  | a :: b :: rest =>
    have look := wf'.pairs a b
    rw [symbols] at look
    exact rel_of_looks alike (wf.pairs a b) look (single a)

theorem len_find? {chunk : Bytes} (nonempty : chunk ≠ []) :
    (loaded.find? chunk).map (fun code => (loaded.symbol code).len) =
      (e.find? chunk).map fun code => (e.symbol code).len := by
  have symbol (code : UInt8) : loaded.symbol code = e.symbol code := by rw [symbol, symbol, symbols]
  have long : loaded.long? chunk = e.long? chunk := by rw [long?, long?, symbols]
  obtain ⟨escaped, len⟩ := alike_entry wf wf' symbols chunk
  rw [wf.find?_eq nonempty, wf'.find?_eq nonempty, long]
  cases e.long? chunk with
  | some s => simp only [Option.map_some, symbol]
  | none =>
    cases plain : (e.entry chunk).escaped with
    | true => simp [← escaped, plain]
    | false =>
      have here := wf.len_symbol_entry plain
      have there := wf'.len_symbol_entry (escaped.symm.trans plain)
      simp [← escaped, plain, here, there, len]

theorem length_greedy_congr (chunk : Bytes) : (loaded.greedy chunk).length = (e.greedy chunk).length := by
  fun_induction greedy e chunk with
  | case1 => simp [greedy]
  | case2 b rest code found ih =>
    have lens := len_find? wf wf' symbols (List.cons_ne_nil b rest)
    rw [found, Option.map_some, Option.map_eq_some_iff] at lens
    obtain ⟨code', found', len⟩ := lens
    rw [greedy, found']
    simp only [List.length_cons, len, ih]
  | case3 b rest none ih =>
    have lens := len_find? wf wf' symbols (List.cons_ne_nil b rest)
    rw [none, Option.map_none, Option.map_eq_none_iff] at lens
    rw [greedy, lens]
    simp only [List.length_cons, ih]

theorem length_lineCodes_congr (free : e.SuffixFree) (free' : loaded.SuffixFree) (strategy other : Strategy)
    (line : Bytes) : (loaded.lineCodes other line).length = (e.lineCodes strategy line).length := by
  rw [wf.lineCodes_eq_greedyLine free, wf'.lineCodes_eq_greedyLine free', greedyLine, greedyLine, List.length_flatMap,
    List.length_flatMap]
  simp only [length_greedy_congr wf wf' symbols]

end

/-! ### Reloading -/

/-- A pair that is repeated, and that a longer symbol starts with, has another code after
    reloading. -/
theorem encode_pair_ne {t : Table} (table : t.WellFormed) {e loaded : Encoder} (run : ofTable t = .ok e)
    {d : Dictionary} (reload : ofDictionary d = .ok loaded) (symbols : loaded.symbols = e.symbols)
    (free : loaded.SuffixFree) {a b : UInt8} (repeats : t.RepeatsExtended a b) (before : Array UInt8) :
    loaded.encode [a, b] before ≠ e.encode [a, b] before := by
  have wf := wellFormed_ofTable table run
  have wf' := wellFormed_ofDictionary reload
  intro same
  rcases pairEntry_reloaded table run reload symbols a b with ⟨i, k, newest, highest, found, found'⟩ | ⟨absent, _⟩
  · rw [wf.encode_eq, wf'.encode_eq] at same
    have written := congrArg Array.toList (Prod.mk.inj (Except.ok.inj same)).1
    have codes : loaded.lineCodes loaded.strategy [a, b] = e.lineCodes e.strategy [a, b] := by simpa using written
    have heads := congrArg List.head? codes
    rw [wf'.head?_lineCodes_pair free _ found', wf.head?_lineCodes_pair (suffixFree_ofTable table run) _ found,
      Option.some.injEq] at heads
    -- The pair alone is one symbol in both encoders, so that equal codes mean one place.
    have places := place_eq_of_code table run newest.inside highest.inside heads.symm
    exact (newest_eq_highest_iff table newest highest).mp places repeats
  · obtain ⟨_, j, _, inside, _, second⟩ := repeats.twice
    exact absent j inside second

/-- Whatever symbols are added to a table, repeated ones included, its dictionary gives an
    encoder of the same symbols. What this encoder writes is as long as what the encoder of
    the table writes, and the decoder of the table reads it. It is the same in all cases
    exactly if the table repeats no pair that a longer symbol starts with. -/
theorem reloads_ofTable {terminator : UInt8} {zeroTerminated : Bool} {symbols : List Symbol} {t : Table}
    (built : (Table.empty terminator zeroTerminated).addAll symbols = .ok t) (few : t.added.size ≤ maxSymbols) :
    ∃ e loaded, ofTable t = .ok e ∧ ofDictionary (.ofEncoder e) = .ok loaded ∧ loaded.symbols = e.symbols ∧
      loaded.Lossless (.ofEncoder e) ∧
      (∀ (data : Bytes) (before : Array UInt8), ∃ codes codes' : Bytes, codes'.length = codes.length ∧
        e.encode data before = .ok (before ++ codes, codes.length) ∧
        loaded.encode data before = .ok (before ++ codes', codes'.length)) ∧
      ((∀ (data : Bytes) (before : Array UInt8), loaded.encode data before = e.encode data before) ↔
        ∀ a b : UInt8, ¬ t.RepeatsExtended a b) := by
  obtain ⟨e, run⟩ := exists_ofTable few
  have table := Table.wellFormed_addAll built
  have wf := wellFormed_ofTable table run
  have free := suffixFree_ofTable table run
  obtain ⟨bytes, pairs, slots, reload⟩ := wf.exists_ofDictionary (laidOut_ofTable table run)
  have wf' := wellFormed_ofDictionary reload
  refine ⟨e, _, run, reload, rfl, wf'.lossless, ?_, ?_, ?_⟩
  · intro data before
    exact ⟨_, _, length_lineCodes_congr wf wf' rfl free free _ _ data, wf.encode_eq data before,
      wf'.encode_eq data before⟩
  · intro same a b repeats
    exact encode_pair_ne table run reload rfl free repeats #[] (same [a, b] #[])
  · intro single data before
    obtain rfl : bytes = e.bytes := ext_bytes (byteEntry_reloaded table run reload rfl)
    obtain rfl : pairs = e.pairs := by
      refine ext_pairs fun a b => ?_
      rcases pairEntry_reloaded table run reload rfl a b with ⟨i, k, newest, highest, found, found'⟩ | ⟨_, found⟩
      · obtain rfl := (newest_eq_highest_iff table newest highest).mpr (single a b)
        exact found'.trans found.symm
      · exact found
    obtain rfl : slots = e.slots := wf.slots_unique wf' rfl
    rfl

/-- A byte twice, a pair twice that no longer symbol starts with, and once one that a
    longer symbol does. -/
theorem reloads_ofTable_repeated : ∃ t e loaded,
    (Table.empty 0 true).addAll [.ofBytes [0], .ofBytes [120], .ofBytes [99, 100], .ofBytes [120], .ofBytes [97, 98],
      .ofBytes [97, 98, 99], .ofBytes [99, 100]] = .ok t ∧ t.added.size = 7 ∧ t.added.size ≤ maxSymbols ∧
    ofTable t = .ok e ∧ ofDictionary (.ofEncoder e) = .ok loaded ∧ loaded.symbols = e.symbols ∧
    loaded.Lossless (.ofEncoder e) ∧
    (∀ (data : Bytes) (before : Array UInt8), ∃ codes codes' : Bytes, codes'.length = codes.length ∧
      e.encode data before = .ok (before ++ codes, codes.length) ∧
      loaded.encode data before = .ok (before ++ codes', codes'.length)) ∧
    ((∀ (data : Bytes) (before : Array UInt8), loaded.encode data before = e.encode data before) ↔
      ∀ a b : UInt8, ¬ t.RepeatsExtended a b) := by
  obtain ⟨t, built, size⟩ : ∃ t, (Table.empty 0 true).addAll [.ofBytes [0], .ofBytes [120], .ofBytes [99, 100],
      .ofBytes [120], .ofBytes [97, 98], .ofBytes [97, 98, 99], .ofBytes [99, 100]] = .ok t ∧ t.added.size = 7 :=
    ⟨_, rfl, rfl⟩
  have few : t.added.size ≤ maxSymbols := by rw [size]; decide
  obtain ⟨e, loaded, run, reload, reloads⟩ := reloads_ofTable built few
  exact ⟨t, e, loaded, built, size, few, run, reload, reloads⟩

/-- A pair twice that a longer symbol starts with is encoded to another code after
    reloading. -/
theorem encode_differs_reloaded : ∃ t e loaded,
    (Table.empty 0 false).addAll [.ofBytes [97, 98], .ofBytes [97, 98], .ofBytes [97, 98, 99]] = .ok t ∧
    t.added.size = 3 ∧ ofTable t = .ok e ∧ ofDictionary (.ofEncoder e) = .ok loaded ∧
    loaded.encode [97, 98] #[] ≠ e.encode [97, 98] #[] := by
  obtain ⟨t, built, size, first, second, longer⟩ : ∃ t,
      (Table.empty 0 false).addAll [.ofBytes [97, 98], .ofBytes [97, 98], .ofBytes [97, 98, 99]] = .ok t ∧
      t.added.size = 3 ∧ (t.addedAt 0).bytes = [97, 98] ∧ (t.addedAt 1).bytes = [97, 98] ∧
      ∃ r ∈ t.added, 2 < r.len ∧ [97, 98] <+: r.bytes :=
    ⟨_, rfl, rfl, rfl, rfl, by decide⟩
  have repeats : t.RepeatsExtended 97 98 := ⟨⟨0, 1, by decide, by omega, first, second⟩, longer⟩
  have few : t.added.size ≤ maxSymbols := by rw [size]; decide
  obtain ⟨e, run⟩ := exists_ofTable few
  have table := Table.wellFormed_addAll built
  have free := suffixFree_ofTable table run
  obtain ⟨bytes, pairs, slots, reload⟩ := (wellFormed_ofTable table run).exists_ofDictionary (laidOut_ofTable table run)
  have differ := encode_pair_ne table run reload rfl free repeats #[]
  exact ⟨t, e, _, built, size, run, reload, differ⟩

end Encoder
end SymbolCodec
