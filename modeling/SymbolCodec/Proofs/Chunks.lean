import SymbolCodec.Proofs.Encoders

/-!
The codes of a chunk. A step reads no more of the window than the chunk and the
terminator after it (`Encoder.WellFormed.step_stale`), so that the codes of a
chunk depend on the chunk alone (`Encoder.codes`,
`Encoder.WellFormed.chunkCodes_window`). Each of them stands for bytes of the
chunk (`Encoder.Spells`), in every strategy, and they are those of the plain rule where no
longer symbol starts with one that is found below the limit of the suffixes, or the
strategy does not look at it (`Encoder.WellFormed.codes_eq_greedy`).
-/
namespace SymbolCodec.Encoder

/-- The codes of a chunk that only the terminator follows. -/
def codes (e : Encoder) (strategy : Strategy) : Bytes → Bytes
  | [] => []
  | b :: rest =>
    let step := e.step strategy (b :: rest ++ [e.terminator])
    step.written ++ e.codes strategy (rest.drop step.extra)
termination_by chunk => chunk.length
decreasing_by simp only [List.length_drop, List.length_cons]; omega

/-- Codes spell a byte string: one after another, each is that of a symbol or
    announces a byte as it is. -/
inductive Spells (e : Encoder) : Bytes → Bytes → Prop
  | nil : Spells e [] []
  | symbol {s : Symbol} {codes bs : Bytes} : s ∈ e.symbols → Spells e codes bs →
      Spells e (UInt8.ofNat s.code :: codes) (s.bytes ++ bs)
  | escaped {codes bs : Bytes} (b : UInt8) : Spells e codes bs → Spells e (escapeCode :: b :: codes) (b :: bs)

theorem Spells.append {e : Encoder} {codes more bs after : Bytes} (spells : e.Spells codes bs)
    (later : e.Spells more after) : e.Spells (codes ++ more) (bs ++ after) := by
  induction spells with
  | nil => exact later
  | symbol member _ ih =>
    rw [List.cons_append, List.append_assoc]
    exact .symbol member ih
  | escaped b _ ih => exact .escaped b ih

namespace WellFormed
variable {e : Encoder} (wf : e.WellFormed)
include wf

/-- No more than two codes are written for a byte. -/
theorem length_le_of_spells {codes bs : Bytes} (spells : e.Spells codes bs) : codes.length ≤ 2 * bs.length := by
  induction spells with
  | nil => simp
  | @symbol s _ _ member _ ih =>
    have pos := (wf.normal s member).pos
    rw [← (wf.normal s member).length_bytes] at pos
    simp only [List.length_cons, List.length_append]
    omega
  | escaped b _ ih =>
    simp only [List.length_cons]
    omega

/-! ### One step -/

/-- What earlier chunks have left in the window does not matter. -/
theorem step_stale (strategy : Strategy) (b : UInt8) (rest stale : Bytes) :
    e.step strategy (b :: rest ++ e.terminator :: stale) = e.step strategy (b :: rest ++ [e.terminator]) := by
  have nonempty : b :: rest ≠ [] := List.cons_ne_nil b rest
  simp only [step, entryBytes, wf.pairs_window nonempty, wf.find?_window]
  simp only [List.cons_append, Word.toUInt8_load]

theorem step_long {strategy : Strategy} {b : UInt8} {rest : Bytes} {s : Symbol}
    (found : e.long? (b :: rest) = some s)
    (slow : ¬ (strategy = .pairsFirst ∧ e.below (e.entry (b :: rest)).code e.suffixLimit = true)) :
    e.step strategy (b :: rest ++ [e.terminator]) = ⟨[UInt8.ofNat s.code], s.len - 1, 2⟩ := by
  have nonempty : b :: rest ≠ [] := List.cons_ne_nil b rest
  simp only [step, wf.pairs_window nonempty, wf.find?_window, found, if_neg slow]

theorem step_pair {strategy : Strategy} {b : UInt8} {rest : Bytes}
    (fast : strategy = .pairsFirst ∧ e.below (e.entry (b :: rest)).code e.suffixLimit = true) :
    e.step strategy (b :: rest ++ [e.terminator]) = ⟨[(e.entry (b :: rest)).code], 1, 1⟩ := by
  have nonempty : b :: rest ≠ [] := List.cons_ne_nil b rest
  simp only [step, wf.pairs_window nonempty, if_pos fast]

/-- The three strategies go on alike where no long symbol is found. -/
theorem step_short {strategy : Strategy} {b : UInt8} {rest : Bytes} {s : Symbol} (member : s ∈ e.symbols)
    (short : s.len ≤ 2) (found : e.entry (b :: rest) = s.entry) (none : e.long? (b :: rest) = none)
    (slow : ¬ (strategy = .pairsFirst ∧ e.below (e.entry (b :: rest)).code e.suffixLimit = true)) :
    e.step strategy (b :: rest ++ [e.terminator]) = ⟨[UInt8.ofNat s.code], s.len - 1, 2⟩ := by
  have nonempty : b :: rest ≠ [] := List.cons_ne_nil b rest
  have pos := (wf.normal s member).pos
  rw [found] at slow
  simp only [step, wf.pairs_window nonempty, wf.find?_window, none, found, if_neg slow]
  by_cases byLength : strategy = .entryLength
  · simp [byLength, entryBytes, Symbol.entry]
  · by_cases two : 1 < s.len
    · have low := (wf.below_byteLimit member).mpr two
      have len : s.len = 2 := by omega
      simp [byLength, Symbol.entry, low, len]
    · have high : e.below (UInt8.ofNat s.code) e.byteLimit = false := by
        rw [← Bool.not_eq_true, wf.below_byteLimit member]
        exact two
      have len : s.len = 1 := by omega
      simp [byLength, Symbol.entry, high, len, entryBytes]

theorem step_escape {strategy : Strategy} {b : UInt8} {rest : Bytes} (found : e.entry (b :: rest) = .escape)
    (none : e.long? (b :: rest) = none) :
    e.step strategy (b :: rest ++ [e.terminator]) = ⟨[escapeCode, b], 0, 2⟩ := by
  have nonempty : b :: rest ≠ [] := List.cons_ne_nil b rest
  have notPair := not_below_escape wf.suffixLimit.1
  have notSeveral := not_below_escape wf.byteLimit.1
  simp only [step, wf.pairs_window nonempty, wf.find?_window, none, found]
  simp [Entry.escape, notPair, notSeveral, entryBytes, Word.toUInt8_load]

/-- A step writes the code of a symbol that the chunk starts with and goes on
    after it, or escapes the first byte. -/
theorem step_cases (strategy : Strategy) (b : UInt8) (rest : Bytes) :
    ∃ reach ≤ 2, (∃ s ∈ e.symbols, s.bytes <+: b :: rest ∧
        e.step strategy (b :: rest ++ [e.terminator]) = ⟨[UInt8.ofNat s.code], s.len - 1, reach⟩) ∨
      e.step strategy (b :: rest ++ [e.terminator]) = ⟨[escapeCode, b], 0, reach⟩ := by
  by_cases fast : strategy = .pairsFirst ∧ e.below (e.entry (b :: rest)).code e.suffixLimit = true
  · have step := wf.step_pair fast
    rcases wf.entry_cases (b :: rest) with ⟨s, member, _, starts, found⟩ | escape
    · rw [found] at fast step
      have len := wf.len_of_below_suffixLimit member fast.2
      exact ⟨1, by decide, .inl ⟨s, member, starts, by rw [step, len]; rfl⟩⟩
    · rw [escape] at fast
      exact absurd fast.2 (by rw [Entry.escape, not_below_escape wf.suffixLimit.1]; decide)
  · cases long : e.long? (b :: rest) with
    | some s =>
      obtain ⟨member, _, starts⟩ := wf.long?_eq_some_iff.mp long
      exact ⟨2, by decide, .inl ⟨s, member, starts, wf.step_long long fast⟩⟩
    | none =>
      rcases wf.entry_cases (b :: rest) with ⟨s, member, short, starts, found⟩ | escape
      · exact ⟨2, by decide, .inl ⟨s, member, starts, wf.step_short member short found long fast⟩⟩
      · exact ⟨2, by decide, .inr (wf.step_escape escape long)⟩

/-- Nothing longer is found where the entry of a chunk is below the limit of the
    suffixes. -/
theorem long?_eq_none_of_below (alone : e.PairsAlone) {chunk : Bytes}
    (below : e.below (e.entry chunk).code e.suffixLimit = true) : e.long? chunk = none := by
  match chunk with
  | [] => exact absurd below (by simp [entry, Entry.escape, not_below_escape wf.suffixLimit.1])
  | [a] => exact absurd below (wf.not_below_byte a)
  | a :: b :: rest =>
    cases long : e.long? (a :: b :: rest) with
    | none => rfl
    | some r =>
      obtain ⟨member, longer, starts⟩ := wf.long?_eq_some_iff.mp long
      have shorter : [a, b].length ≤ r.bytes.length := by
        rw [(wf.normal r member).length_bytes]
        exact Nat.le_of_lt longer
      have two : [a, b] <+: a :: b :: rest := ⟨rest, rfl⟩
      have pair := List.prefix_of_prefix_length_le two starts shorter
      exact absurd pair (alone a b below r member longer)

/-- A step takes the longest symbol, also where it may take one of two bytes before
    it has looked for a longer one. -/
theorem step_find? {strategy : Strategy} (alone : strategy = .pairsFirst → e.PairsAlone) (b : UInt8) (rest : Bytes) :
    ∃ reach, match e.find? (b :: rest) with
      | some code => e.step strategy (b :: rest ++ [e.terminator]) = ⟨[code], (e.symbol code).len - 1, reach⟩
      | none => e.step strategy (b :: rest ++ [e.terminator]) = ⟨[escapeCode, b], 0, reach⟩ := by
  rw [wf.find?_eq (List.cons_ne_nil b rest)]
  by_cases fast : strategy = .pairsFirst ∧ e.below (e.entry (b :: rest)).code e.suffixLimit = true
  · have step := wf.step_pair fast
    have nothing := wf.long?_eq_none_of_below (alone fast.1) fast.2
    rcases wf.entry_cases (b :: rest) with ⟨s, member, _, _, found⟩ | escape
    · rw [found] at fast step
      have len := wf.len_of_below_suffixLimit member fast.2
      refine ⟨1, ?_⟩
      simp only [nothing, found, Symbol.entry, Bool.false_eq_true, ↓reduceIte, wf.symbol_code member, len]
      exact step
    · rw [escape] at fast
      exact absurd fast.2 (by rw [Entry.escape, not_below_escape wf.suffixLimit.1]; decide)
  · cases long : e.long? (b :: rest) with
    | some s =>
      obtain ⟨member, _, _⟩ := wf.long?_eq_some_iff.mp long
      refine ⟨2, ?_⟩
      simp only [wf.symbol_code member]
      exact wf.step_long long fast
    | none =>
      rcases wf.entry_cases (b :: rest) with ⟨s, member, short, _, found⟩ | escape
      · refine ⟨2, ?_⟩
        simp only [found, Symbol.entry, Bool.false_eq_true, ↓reduceIte, wf.symbol_code member]
        exact wf.step_short member short found long fast
      · refine ⟨2, ?_⟩
        simp only [escape, Entry.escape, ↓reduceIte]
        exact wf.step_escape escape long

/-! ### All steps -/

theorem extra_lt (strategy : Strategy) (b : UInt8) (rest : Bytes) :
    (e.step strategy (b :: rest ++ [e.terminator])).extra ≤ rest.length := by
  obtain ⟨reach, _, ⟨s, member, starts, step⟩ | step⟩ := wf.step_cases strategy b rest
  · have fits := starts.length_le
    rw [(wf.normal s member).length_bytes, List.length_cons] at fits
    rw [step]
    show s.len - 1 ≤ rest.length
    omega
  · rw [step]
    exact Nat.zero_le _

/-- A step writes two codes at most, and touches no more of the output. -/
theorem step_le_two (strategy : Strategy) (b : UInt8) (rest : Bytes) :
    (e.step strategy (b :: rest ++ [e.terminator])).written.length ≤ 2 ∧
      (e.step strategy (b :: rest ++ [e.terminator])).reach ≤ 2 := by
  obtain ⟨reach, small, ⟨s, _, _, taken⟩ | escaped⟩ := wf.step_cases strategy b rest
  · rw [taken]
    exact ⟨Nat.le_succ 1, small⟩
  · rw [escaped]
    exact ⟨Nat.le_refl 2, small⟩

/-- The codes of a chunk spell it. -/
theorem spells_codes (strategy : Strategy) (chunk : Bytes) : e.Spells (e.codes strategy chunk) chunk := by
  fun_induction codes e strategy chunk with
  | case1 => exact .nil
  | case2 b rest step ih =>
    obtain ⟨reach, _, ⟨s, member, starts, taken⟩ | escaped⟩ := wf.step_cases strategy b rest
    · have whole := (wf.normal s member).append_drop starts
      simp only [step, taken] at ih ⊢
      rw [← whole]
      exact .symbol member ih
    · simp only [step, escaped, List.drop_zero] at ih ⊢
      exact .escaped b ih

/-- The codes written for a chunk, whatever is left in the window and however
    much room there is beyond two bytes for each byte of the chunk. -/
theorem chunkCodes_window (strategy : Strategy) (chunk stale : Bytes) : ∀ {room : Nat}, 2 * chunk.length ≤ room →
    e.chunkCodes strategy (chunk ++ e.terminator :: stale) chunk.length room = .ok (e.codes strategy chunk) := by
  fun_induction codes e strategy chunk
  case case1 => simp [chunkCodes]
  case case2 b rest step ih =>
    intro room enough
    have few := wf.extra_lt strategy b rest
    have written : step.written.length ≤ 2 ∧ step.reach ≤ 2 := wf.step_le_two strategy b rest
    have window : (b :: rest ++ e.terminator :: stale).drop (step.extra + 1) =
        rest.drop step.extra ++ e.terminator :: stale := by
      rw [List.cons_append, List.drop_succ_cons, List.drop_append_of_le_length few]
    have left : (b :: rest).length - (step.extra + 1) = (rest.drop step.extra).length := by
      rw [List.length_cons, List.length_drop]
      omega
    rw [List.length_cons] at enough
    have enough' : 2 * (rest.drop step.extra).length ≤ room - step.written.length := by
      rw [List.length_drop]
      omega
    have later := ih enough'
    rw [chunkCodes, if_neg (by simp), wf.step_stale]
    show (if room < step.reach then _ else _) = _
    rw [if_neg (by omega), window, left, later]
    rfl

/-- The codes of a chunk are those of the plain rule, in every strategy that does not
    rely on the limit of the suffixes, and in the one that does where it may. -/
theorem codes_eq_greedy {strategy : Strategy} (alone : strategy = .pairsFirst → e.PairsAlone) (chunk : Bytes) :
    e.codes strategy chunk = e.greedy chunk := by
  fun_induction codes e strategy chunk with
  | case1 => rw [greedy]
  | case2 b rest step ih =>
    obtain ⟨reach, found⟩ := wf.step_find? alone b rest
    rw [greedy]
    cases longest : e.find? (b :: rest) with
    | some code =>
      rw [longest] at found
      simp only [step, found] at ih ⊢
      rw [ih]
      rfl
    | none =>
      rw [longest] at found
      simp only [step, found, List.drop_zero] at ih ⊢
      rw [ih]
      rfl

end WellFormed
end SymbolCodec.Encoder
