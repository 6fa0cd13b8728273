import SymbolCodec.Proofs.Decoding
import SymbolCodec.Proofs.Finishing

/-!
Nothing is lost. What a well-formed encoder writes, whatever the strategy and the
size of the output, its decoder reads back (`Encoder.Lossless`,
`Encoder.WellFormed.lossless`). Every table that symbols were added to makes such
an encoder if it has no more symbols than there are codes
(`Encoder.lossless_ofTable`).
-/
namespace SymbolCodec.Encoder

/-- A decoder reads back what an encoder writes. -/
structure Lossless (e : Encoder) (d : Decoder) : Prop where
  /-- All lines are compressed, and come back with their lengths. -/
  compress : ∀ lines, ∃ codes lens, e.compress lines = .ok (codes, lens) ∧
    d.decompress codes lens = .ok (lines.flatten, lines.map List.length)
  /-- A string is encoded after what is in an output, and comes back. -/
  encode : ∀ (data : Bytes) (before : Array UInt8), ∃ codes : Bytes,
    e.encode data before = .ok (before ++ codes, codes.length) ∧
      ∀ output : Array UInt8, d.decode codes output = (output ++ data, .ok data.length)
  /-- The lines that an output of any size takes in any strategy come back, and
      these are all lines if the output is as long as their bounds say. -/
  batch : ∀ (strategy : Strategy) (size : Nat) (lines : List Bytes),
    ∃ batch, e.compressInto strategy size lines #[] = .ok batch ∧
      d.decompress batch.codes batch.lens.toList =
        .ok ((lines.take batch.done).flatten, (lines.take batch.done).map List.length) ∧
      ((lines.map fun line => bound line.length).sum ≤ size → batch.done = lines.length)

theorem WellFormed.lossless {e : Encoder} (wf : e.WellFormed) : e.Lossless (.ofEncoder e) where
  compress := by
    intro lines
    exact ⟨_, _, wf.compress_eq lines, wf.decompress_spells (wf.spells_lineCodes e.strategy) lines⟩
  encode := by
    intro data before
    exact ⟨_, wf.encode_eq data before, wf.decode_spells (wf.spells_lineCodes e.strategy data)⟩
  batch := by
    intro strategy size lines
    obtain ⟨batch, run, _, codes, lens, enough⟩ := wf.compressInto_eq strategy size lines #[]
    refine ⟨batch, run, ?_, enough⟩
    have read := wf.decompress_spells (wf.spells_lineCodes strategy) (lines.take batch.done)
    rw [codes, lens]
    simpa using read

/-- Whatever symbols are added to a table, refused and repeated ones included, its
    encoder and its decoder lose nothing of any lines. -/
theorem lossless_ofTable {terminator : UInt8} {zeroTerminated : Bool} {symbols : List Symbol} {t : Table}
    (built : (Table.empty terminator zeroTerminated).addAll symbols = .ok t) (few : t.added.size ≤ maxSymbols) :
    ∃ e, ofTable t = .ok e ∧ e.Lossless (.ofEncoder e) := by
  obtain ⟨e, run⟩ := exists_ofTable few
  exact ⟨e, run, (wellFormed_ofTable (Table.wellFormed_addAll built) run).lossless⟩

/-- Byte 0 kept, a pair twice, a slot that is taken and a symbol that holds the
    terminator. -/
theorem lossless_ofTable_repeated : ∃ t e,
    (Table.empty 0 true).addAll [.ofBytes [0], .ofBytes [97, 98], .ofBytes [97, 98, 99, 100],
      .ofBytes [97, 98, 99, 120], .ofBytes [97, 98], .ofBytes [99, 0]] = .ok t ∧
    t.added.size = 4 ∧ t.added.size ≤ maxSymbols ∧ ofTable t = .ok e ∧ e.Lossless (.ofEncoder e) := by
  obtain ⟨t, built, size⟩ : ∃ t, (Table.empty 0 true).addAll [.ofBytes [0], .ofBytes [97, 98],
      .ofBytes [97, 98, 99, 100], .ofBytes [97, 98, 99, 120], .ofBytes [97, 98], .ofBytes [99, 0]] = .ok t ∧
      t.added.size = 4 := ⟨_, rfl, rfl⟩
  have few : t.added.size ≤ maxSymbols := by rw [size]; decide
  obtain ⟨e, run, lossless⟩ := lossless_ofTable built few
  exact ⟨t, e, built, size, few, run, lossless⟩

end SymbolCodec.Encoder
