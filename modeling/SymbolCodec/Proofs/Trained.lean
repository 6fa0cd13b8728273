import SymbolCodec.Proofs.HalvedTallies
import SymbolCodec.Proofs.Rounds
import SymbolCodec.Proofs.Samples

/-!
Trained encoders. Training always ends (`train_cases`): without bytes to learn from
the encoder has no symbols, and else it is that of a table made of the terminator
and of byte strings that stand in lines of the sample. Such an encoder has distinct
symbols of at most eight bytes, the terminator among them and in no longer one
(`Encoder.Trained`, `exists_train_trained`), and it has no symbol, but for the
terminator, that does not stand in a single line of the input
(`exists_train_stands`).
-/
namespace SymbolCodec
open Table Training

/-! ### From a table to its encoder -/

theorem Table.keepsZero_of_strings {t : Table} (wf : t.WellFormed) (zeroTerminated : t.zeroTerminated = true)
    {more : List Bytes} (strings : t.strings = [0] :: more) : t.keepsZero = true ∧ (t.addedAt 0).bytes = [0] := by
  obtain ⟨s, rest, split, bytes, _⟩ := List.map_eq_cons_iff.mp strings
  have found : t.added[0]? = some s := by rw [← Array.getElem?_toList, split]; rfl
  have inside := (Array.getElem?_eq_some_iff.mp found).1
  have first : (t.addedAt 0).bytes = [0] := by
    rw [addedAt, found]
    exact bytes
  exact ⟨(keepsZero_iff wf).mpr ⟨zeroTerminated, inside, first⟩, first⟩

namespace Encoder
variable {t : Table} (wf : t.WellFormed) {e : Encoder} (run : ofTable t = .ok e)
include wf run

theorem strings_ofTable : (e.symbols.toList.map Symbol.bytes).Perm t.strings := by
  have symbols := congrArg Encoder.symbols (eq_of_ofTable run)
  rw [symbols, strings, toList_added, List.map_map, List.map_map]
  exact (codeOrder_perm wf).map _

theorem size_symbols_ofTable : e.symbols.size = t.added.size := by
  have lengths := (strings_ofTable wf run).length_eq
  rwa [List.length_map, Array.length_toList, length_strings] at lengths

/-- Byte 0, where it ends strings and is the first symbol of the table, has code 0. -/
theorem zero_ofTable (zeroTerminated : t.zeroTerminated = true) {more : List Bytes}
    (strings : t.strings = [0] :: more) :
    e.zeroTerminated = true ∧ ∃ s, e.symbols[0]? = some s ∧ s.code = 0 ∧ s.bytes = [0] := by
  obtain ⟨keeps, bytes⟩ := keepsZero_of_strings wf zeroTerminated strings
  have made := eq_of_ofTable run
  have found : e.symbols[0]? = some (t.renumber 0) := by
    rw [congrArg Encoder.symbols made, codeOrder_eq, kept, if_pos keeps]
    rfl
  obtain ⟨inside, here⟩ := Array.getElem?_eq_some_iff.mp found
  refine ⟨(congrArg Encoder.zeroTerminated made).trans keeps, _, found, ?_, bytes⟩
  rw [← here]
  exact (wellFormed_ofTable wf run).code_eq 0 inside

end Encoder

/-! ### Every training -/

/-- Training ends: without symbols if there are no bytes to learn from, and else with
    the encoder of a table of the terminator and of byte strings that stand in lines
    of the sample. -/
theorem train_cases (lines : List Bytes) (config : Config) : ∃ e log, train lines config = .ok (e, log) ∧
    ((Sample.ofLines lines config).buffer.isEmpty = true ∧ e.symbols = #[] ∨
      (Sample.ofLines lines config).buffer.isEmpty = false ∧ ∃ t, Encoder.ofTable t = .ok e ∧
        Selected ((Sample.ofLines lines config).terminator config.zeroTerminated) config.zeroTerminated
          (Stands (Sample.ofLines lines config)) t) := by
  by_cases none : (Sample.ofLines lines config).buffer.isEmpty = true
  · obtain ⟨e, finished⟩ := Encoder.exists_ofTable (t := Table.empty 0 config.zeroTerminated) (Nat.zero_le _)
    refine ⟨e, [], ?_, .inl ⟨none, ?_⟩⟩
    · simp only [train, none, ↓reduceIte]
      exact bind_eq_ok_iff.mpr ⟨e, finished, rfl⟩
    · exact Array.size_eq_zero_iff.mp (Encoder.size_symbols_ofTable (wellFormed_empty ..) finished)
  · obtain ⟨t, e, log, run, finished, selected⟩ :=
      exists_onSample (Counters.keeps_empty config.layout) (Sample.ofLines lines config) config
    refine ⟨e, log, ?_, .inr ⟨Bool.eq_false_iff.mpr none, t, finished, selected⟩⟩
    simp only [train, none]
    exact run

/-- What an encoder trained on a sample with bytes is like. -/
structure Encoder.Trained (sample : Sample) (zeroTerminated : Bool) (e : Encoder) : Prop where
  pos : 1 ≤ e.symbols.size
  few : e.symbols.size ≤ maxSymbols
  distinct : (e.symbols.toList.map Symbol.bytes).Nodup
  lengths : ∀ s ∈ e.symbols, s.bytes.length = s.len ∧ 1 ≤ s.len ∧ s.len ≤ maxLength
  terminator_mem : ∃ s ∈ e.symbols, s.bytes = [e.terminator]
  terminator_notMem : ∀ s ∈ e.symbols, 1 < s.len → e.terminator ∉ s.bytes
  /-- Where byte 0 ends strings, it is the terminator and has code 0. -/
  zero : zeroTerminated = true → e.terminator = 0 ∧ e.zeroTerminated = true ∧
    ∃ s, e.symbols[0]? = some s ∧ s.code = 0 ∧ s.bytes = [0]
  /-- Elsewhere the terminator is the smallest among the bytes that occur least
      often. -/
  rarest : zeroTerminated = false → e.zeroTerminated = false ∧
    (∀ b, sample.buffer.toList.count e.terminator ≤ sample.buffer.toList.count b) ∧
    ∀ b < e.terminator, sample.buffer.toList.count e.terminator < sample.buffer.toList.count b

theorem Training.Selected.trained {sample : Sample} {zeroTerminated : Bool} {kind : Bytes → Prop} {t : Table}
    (selected : Selected (sample.terminator zeroTerminated) zeroTerminated kind t) {e : Encoder}
    (run : Encoder.ofTable t = .ok e) : e.Trained sample zeroTerminated := by
  obtain ⟨chosen, strings, nodup, kinds⟩ := selected.strings_eq
  have finished := Encoder.wellFormed_ofTable selected.wf run
  have perm := Encoder.strings_ofTable selected.wf run
  have size := Encoder.size_symbols_ofTable selected.wf run
  have terminator : e.terminator = sample.terminator zeroTerminated := by
    rw [congrArg Encoder.terminator (Encoder.eq_of_ofTable run), selected.terminator_eq]
  refine ⟨?_, ?_, ?_, ?_, ?_, finished.terminator, ?_, ?_⟩
  · rw [size, ← length_strings, strings]
    exact Nat.succ_pos _
  · rw [size]
    exact selected.few
  · rw [perm.nodup_iff, strings, List.nodup_cons]
    exact ⟨fun member => (kinds _ member).1 rfl, nodup⟩
  · intro s member
    have normal := finished.normal s member
    exact ⟨normal.length_bytes, normal.pos, normal.le⟩
  · have listed : [e.terminator] ∈ e.symbols.toList.map Symbol.bytes := by
      rw [perm.mem_iff, strings, terminator]
      exact List.mem_cons_self
    obtain ⟨s, member, bytes⟩ := List.mem_map.mp listed
    exact ⟨s, Array.mem_toList_iff.mp member, bytes⟩
  · rintro rfl
    have first : sample.terminator true = 0 := rfl
    rw [first] at strings
    exact ⟨terminator, Encoder.zero_ofTable selected.wf run selected.zeroTerminated_eq strings⟩
  · rintro rfl
    have keeps : t.keepsZero = false := by rw [keepsZero, selected.zeroTerminated_eq, Bool.false_and]
    have zero : e.zeroTerminated = t.keepsZero := congrArg Encoder.zeroTerminated (Encoder.eq_of_ofTable run)
    rw [terminator]
    exact ⟨zero.trans keeps, sample.rarestByte_spec⟩

/-- What training on some lines gives. -/
structure TrainedOn (lines : List Bytes) (config : Config) (e : Encoder) : Prop where
  /-- The sample is complete: it holds the lines, or as many bytes as were asked for. -/
  sample : Sample.SampleOf lines config (Sample.ofLines lines config)
  empty : (Sample.ofLines lines config).buffer.isEmpty = true → e.symbols = #[]
  some : (Sample.ofLines lines config).buffer.isEmpty = false →
    e.Trained (Sample.ofLines lines config) config.zeroTerminated

/-- Training ends without a fault, whatever the lines and the settings, and gives a
    well-formed encoder. -/
theorem exists_train_trained (lines : List Bytes) (settings : List Setting) :
    ∃ e log, train lines (Config.ofSettings settings).1 = .ok (e, log) ∧
      TrainedOn lines (Config.ofSettings settings).1 e := by
  obtain ⟨e, log, run, ⟨none, symbols⟩ | ⟨some, t, finished, selected⟩⟩ :=
    train_cases lines (Config.ofSettings settings).1
  · refine ⟨e, log, run, Sample.ofLines_spec .., fun _ => symbols, fun some => ?_⟩
    rw [none] at some
    cases some
  · refine ⟨e, log, run, Sample.ofLines_spec .., fun none => ?_, fun _ => selected.trained finished⟩
    rw [some] at none
    cases none

/-- Training invents no symbol: but for the terminator, each stands in a single piece
    of the sample, and so in a single line. -/
theorem exists_train_stands (lines : List Bytes) (config : Config) :
    ∃ e log, train lines config = .ok (e, log) ∧ ∀ s ∈ e.symbols, s.bytes = [e.terminator] ∨
      ∃ piece ∈ (Sample.ofLines lines config).lines, s.bytes <:+: piece ∧ ∃ line ∈ lines, piece <:+: line := by
  obtain ⟨e, log, run, ⟨_, symbols⟩ | ⟨_, t, finished, selected⟩⟩ := train_cases lines config
  · refine ⟨e, log, run, fun s member => ?_⟩
    rw [symbols] at member
    simp at member
  · refine ⟨e, log, run, fun s member => ?_⟩
    have listed : s.bytes ∈ t.strings :=
      (Encoder.strings_ofTable selected.wf finished).mem_iff.mp
        (List.mem_map_of_mem (Array.mem_toList_iff.mpr member))
    rcases selected.ready.stands s.bytes listed with terminator | ⟨piece, held, inner⟩
    · left
      rw [terminator, congrArg Encoder.terminator (Encoder.eq_of_ofTable finished), selected.terminator_eq]
    · exact .inr ⟨piece, held, inner, (Sample.ofLines_spec lines config).inner piece held⟩

end SymbolCodec
