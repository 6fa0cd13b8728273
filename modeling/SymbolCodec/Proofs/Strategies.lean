import SymbolCodec.Proofs.Greedy
import SymbolCodec.Proofs.Loading

/-!
When the strategies agree. One of them takes two bytes as soon as their code is below
the limit of the suffixes, and the others look for a longer symbol first. So they agree
exactly if no longer symbol starts with two bytes that are found there
(`Encoder.WellFormed.strategiesAgree_iff`). The encoder of a table has a limit for which
this holds. That of a dictionary has the limit that is stored, and of it only the
lengths of the symbols before it are known (`Encoder.suffixLimit_ofDictionary`): the
first strategy may then write other codes (`Encoder.strategies_differ_longerSuffix`),
which still stand for the same bytes.
-/
namespace SymbolCodec.Encoder

/-- Each strategy makes the same batch. -/
def StrategiesAgree (e : Encoder) : Prop :=
  ∀ (strategy other : Strategy) (size : Nat) (lines : List Bytes) (lens : Array Nat),
    e.compressInto strategy size lines lens = e.compressInto other size lines lens

/-! ### The first code of a chunk -/

theorem codes_cons (e : Encoder) (strategy : Strategy) (b : UInt8) (rest : Bytes) :
    ∃ later, e.codes strategy (b :: rest) = (e.step strategy (b :: rest ++ [e.terminator])).written ++ later := by
  rw [codes]
  exact ⟨_, rfl⟩

namespace WellFormed
variable {e : Encoder} (wf : e.WellFormed)
include wf

/-- Two bytes below the limit are taken without a look at what is longer. -/
theorem head?_codes_of_below {a b : UInt8} (rest : Bytes)
    (low : e.below (e.pairs.get (Word.pairOf a b)).code e.suffixLimit = true) :
    (e.codes .pairsFirst (a :: b :: rest)).head? = some (e.pairs.get (Word.pairOf a b)).code := by
  obtain ⟨later, codes⟩ := e.codes_cons .pairsFirst a (b :: rest)
  have fast : Strategy.pairsFirst = .pairsFirst ∧ e.below (e.entry (a :: b :: rest)).code e.suffixLimit = true :=
    ⟨rfl, low⟩
  rw [codes, wf.step_pair fast]
  rfl

theorem head?_codes_of_long {strategy : Strategy} (slow : strategy ≠ .pairsFirst) {b : UInt8} {rest : Bytes}
    {s : Symbol} (found : e.long? (b :: rest) = some s) :
    (e.codes strategy (b :: rest)).head? = some (UInt8.ofNat s.code) := by
  obtain ⟨later, codes⟩ := e.codes_cons strategy b rest
  rw [codes, wf.step_long found fun fast => slow fast.1]
  rfl

/-- The bytes of a longer symbol have other codes where two bytes that they start with
    are below the limit. -/
theorem codes_ne_of_below {strategy : Strategy} (slow : strategy ≠ .pairsFirst) {a b : UInt8}
    (low : e.below (e.pairs.get (Word.pairOf a b)).code e.suffixLimit = true) {r : Symbol} (member : r ∈ e.symbols)
    (long : 2 < r.len) (starts : [a, b] <+: r.bytes) : e.codes .pairsFirst r.bytes ≠ e.codes strategy r.bytes := by
  intro same
  obtain ⟨s, inner, two, entry, _, _⟩ := wf.exists_pair_of_below low
  obtain ⟨rest, bytes⟩ := starts
  have found : e.long? r.bytes = some r := wf.long?_eq_some_iff.mpr ⟨member, long, List.prefix_rfl⟩
  have heads := congrArg List.head? same
  rw [← bytes] at heads found
  simp only [List.cons_append, List.nil_append] at heads found
  rw [wf.head?_codes_of_below rest low, wf.head?_codes_of_long slow found, entry, Option.some.injEq] at heads
  -- A code stands for one symbol, and these two differ in length.
  have equal : s = r := by
    rw [← wf.symbol_code inner, ← wf.symbol_code member]
    exact congrArg e.symbol heads
  have short := (wf.normal s inner).length_bytes
  rw [two, equal] at short
  simp only [List.length_cons, List.length_nil] at short
  omega

/-! ### Batches -/

theorem compressInto_ne {strategy other : Strategy} {line : Bytes} (short : line.length ≤ chunkLength)
    (differ : e.codes strategy line ≠ e.codes other line) {size : Nat} (room : bound line.length ≤ size)
    (lens : Array Nat) : e.compressInto strategy size [line] lens ≠ e.compressInto other size [line] lens := by
  intro same
  obtain ⟨batch, run, _, codes, _, whole⟩ := wf.compressInto_eq strategy size [line] lens
  obtain ⟨batch', run', _, codes', _, whole'⟩ := wf.compressInto_eq other size [line] lens
  have fits : ([line].map fun line => bound line.length).sum ≤ size := by simpa using room
  rw [same, run'] at run
  cases run
  rw [whole fits] at codes codes'
  simp only [List.take_length, List.flatMap_singleton, lineCodes_of_short e _ short] at codes codes'
  exact differ (codes.symm.trans codes')

/-- A longer symbol is not found by the first strategy where two bytes that it starts
    with are below the limit. -/
theorem compressInto_ne_of_below {strategy : Strategy} (slow : strategy ≠ .pairsFirst) {a b : UInt8}
    (low : e.below (e.pairs.get (Word.pairOf a b)).code e.suffixLimit = true) {r : Symbol} (member : r ∈ e.symbols)
    (long : 2 < r.len) (starts : [a, b] <+: r.bytes) {size : Nat} (room : bound r.bytes.length ≤ size)
    (lens : Array Nat) :
    e.compressInto .pairsFirst size [r.bytes] lens ≠ e.compressInto strategy size [r.bytes] lens := by
  have normal := wf.normal r member
  have short : r.bytes.length ≤ chunkLength := by
    rw [normal.length_bytes]
    exact Nat.le_trans normal.le (by decide)
  exact wf.compressInto_ne short (wf.codes_ne_of_below slow low member long starts) room lens

/-- The strategies that look for longer symbols first make the same batches, whatever
    the limit of the suffixes. -/
theorem compressInto_eq_of_slow {strategy other : Strategy} (slow : strategy ≠ .pairsFirst)
    (slow' : other ≠ .pairsFirst) (size : Nat) (lines : List Bytes) (lens : Array Nat) :
    e.compressInto strategy size lines lens = e.compressInto other size lines lens := by
  have same : e.codes strategy = e.codes other := by
    funext chunk
    rw [wf.codes_eq_greedy fun fast => absurd fast slow, wf.codes_eq_greedy fun fast => absurd fast slow']
  exact wf.compressInto_congr same size lines lens

/-- All strategies make the same batches exactly if no longer symbol starts with two
    bytes that are found below the limit of the suffixes. -/
theorem strategiesAgree_iff : e.StrategiesAgree ↔ e.PairsAlone := by
  constructor
  · intro agree a b low r member long starts
    have slow : Strategy.codeLimit ≠ .pairsFirst := by decide
    exact wf.compressInto_ne_of_below slow low member long starts (Nat.le_refl _) #[] (agree ..)
  · intro alone strategy other size lines lens
    have same : e.codes strategy = e.codes other := by
      funext chunk
      rw [wf.codes_eq_greedy fun _ => alone, wf.codes_eq_greedy fun _ => alone]
    exact wf.compressInto_congr same size lines lens

end WellFormed

/-! ### Encoders of dictionaries -/

/-- The codes before the limit of the suffixes are those of symbols of two bytes. -/
theorem suffixLimit_ofDictionary {d : Dictionary} {e : Encoder} (run : ofDictionary d = .ok e) (code : Nat)
    (from_ : e.firstLong.toNat ≤ code) (before : code < e.suffixLimit.toNat) :
    ∃ s ∈ e.symbols, s.code = code ∧ s.len = 2 := by
  have wf := wellFormed_ofDictionary run
  have inside : code < e.symbols.size := by
    obtain ⟨head, symbols, pairs, slots, _, _, read, _, high, _, rfl⟩ := (ofDictionary_eq_ok_iff d e).mp run
    have size := (Dictionary.lists_of_symbols read).length_eq
    rw [Dictionary.longLengths_eq, List.length_append, List.length_replicate] at size
    rw [List.size_toArray]
    simp only at before
    omega
  have member := Array.getElem_mem inside
  have same := wf.code_eq code inside
  refine ⟨e.symbols[code], member, same, wf.suffixLimit.2 _ member ?_ ?_⟩
  · rwa [same]
  · rwa [same]

/-- Whatever dictionary is accepted, the codes before the limit of the suffixes are those
    of symbols of two bytes, and the strategies that do not rely on more make the same
    batches. The third one makes them too exactly if no longer symbol starts with two
    bytes that are found before the limit, which the limit promises and no check of a
    dictionary ensures. -/
theorem strategies_ofDictionary {d : Dictionary} {e : Encoder} (run : ofDictionary d = .ok e) :
    (∀ code : Nat, e.firstLong.toNat ≤ code → code < e.suffixLimit.toNat →
      ∃ s ∈ e.symbols, s.code = code ∧ s.len = 2) ∧
    (∀ (size : Nat) (lines : List Bytes) (lens : Array Nat),
      e.compressInto .entryLength size lines lens = e.compressInto .codeLimit size lines lens) ∧
    (e.StrategiesAgree ↔ e.PairsAlone) ∧ (e.SuffixFree → e.StrategiesAgree) := by
  have wf := wellFormed_ofDictionary run
  refine ⟨suffixLimit_ofDictionary run, ?_, wf.strategiesAgree_iff, ?_⟩
  · exact wf.compressInto_eq_of_slow (by decide) (by decide)
  · intro free
    exact wf.strategiesAgree_iff.mpr (wf.pairsAlone free)

/-- The limit of the suffixes takes in a pair that a longer symbol starts with. -/
def longerSuffix : Dictionary where
  head := #v[1, 2, 0, 1, 10, 20, 52, 1]
  zeroTerminated := false
  histogram := #v[0, 1, 1, 0, 0, 0, 0, 0]
  bytes := [97, 98, 97, 98, 99]

theorem strategies_ofDictionary_longerSuffix : ∃ e, ofDictionary longerSuffix = .ok e ∧
    (∀ code : Nat, e.firstLong.toNat ≤ code → code < e.suffixLimit.toNat →
      ∃ s ∈ e.symbols, s.code = code ∧ s.len = 2) ∧
    (∀ (size : Nat) (lines : List Bytes) (lens : Array Nat),
      e.compressInto .entryLength size lines lens = e.compressInto .codeLimit size lines lens) ∧
    (e.StrategiesAgree ↔ e.PairsAlone) ∧ (e.SuffixFree → e.StrategiesAgree) := by
  obtain ⟨e, run⟩ : ∃ e, ofDictionary longerSuffix = .ok e := ⟨_, rfl⟩
  exact ⟨e, run, strategies_ofDictionary run⟩

/-- This dictionary is accepted, and the strategies write different codes for the longer
    symbol. -/
theorem strategies_differ_longerSuffix : ∃ e, ofDictionary longerSuffix = .ok e ∧ ¬ e.SuffixFree ∧
    e.compressInto .pairsFirst 64 [[97, 98, 99]] #[] ≠ e.compressInto .codeLimit 64 [[97, 98, 99]] #[] := by
  obtain ⟨e, run, pair, longer, symbols, limit, zero, code, shorter, bytes, long⟩ :
      ∃ e, ofDictionary longerSuffix = .ok e ∧ ∃ pair longer, e.symbols = #[pair, longer] ∧ e.suffixLimit = 1 ∧
        e.firstLong = 0 ∧ pair.code = 0 ∧ pair.bytes = [97, 98] ∧ longer.bytes = [97, 98, 99] ∧ 2 < longer.len :=
    ⟨_, rfl, _, _, rfl, rfl, rfl, rfl, rfl, rfl, by decide⟩
  have wf := wellFormed_ofDictionary run
  have first : pair ∈ e.symbols := by simp [symbols]
  have member : longer ∈ e.symbols := by simp [symbols]
  have low : e.below (e.pairs.get (Word.pairOf 97 98)).code e.suffixLimit = true := by
    rcases wf.pairs 97 98 with ⟨s, inner, two, found⟩ | ⟨absent, _⟩
    · rw [symbols] at inner
      rcases List.mem_pair.mp (Array.mem_toList_iff.mpr inner) with rfl | rfl
      · simp [found, below, Symbol.entry, limit, zero, code]
      · rw [bytes] at two
        cases two
    · exact absurd shorter (absent pair first)
  have starts : [97, 98] <+: longer.bytes := by
    rw [bytes]
    exact ⟨[99], rfl⟩
  have slow : Strategy.codeLimit ≠ .pairsFirst := by decide
  have room : bound longer.bytes.length ≤ 64 := by
    rw [bytes]
    decide
  have differ := wf.compressInto_ne_of_below slow low member long starts room #[]
  rw [bytes] at differ
  exact ⟨e, run, fun free => wf.pairsAlone free 97 98 low longer member long starts, differ⟩

end SymbolCodec.Encoder
