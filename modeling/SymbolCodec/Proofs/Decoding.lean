import SymbolCodec.Decoder
import SymbolCodec.Proofs.Batches

/-!
Reading codes back. A decoder expands a code that is in use (`Decoder.decodeOnto_code`) and
writes an escaped byte as it is (`Decoder.decodeOnto_escape`), and goes on after them. The
decoder of an encoder expands the code of each symbol to its bytes, so it reads codes back
to what they spell (`Encoder.WellFormed.decodeOnto_spells`), and lines of codes to the lines
(`Encoder.WellFormed.decompress_spells`).
-/
namespace SymbolCodec

namespace Decoder

/-- A code that is in use is expanded. -/
theorem decodeOnto_code {d : Decoder} {code : UInt8} (other : code ≠ escapeCode) (used : d.expansion code ≠ [])
    (output : Array UInt8) (rest : Bytes) :
    d.decodeOnto output (code :: rest) = d.decodeOnto (output ++ d.expansion code) rest := by
  rw [decodeOnto.eq_def]
  simp [other, used]

/-- A byte after the escape code is written as it is. -/
theorem decodeOnto_escape (d : Decoder) (b : UInt8) (output : Array UInt8) (rest : Bytes) :
    d.decodeOnto output (escapeCode :: b :: rest) = d.decodeOnto (output.push b) rest := by
  rw [decodeOnto.eq_def]
  simp

/-- Reading to the end without an error gives the number of bytes that were added. -/
theorem decode_of_decodeOnto {d : Decoder} {codes bytes : Bytes} {output : Array UInt8}
    (whole : d.decodeOnto output codes = (output ++ bytes, none)) :
    d.decode codes output = (output ++ bytes, .ok bytes.length) := by
  simp only [decode, whole, size_append_list, Nat.add_sub_cancel_left]

end Decoder

namespace Encoder.WellFormed
variable {e : Encoder} (wf : e.WellFormed)
include wf

theorem expansion_code {s : Symbol} (member : s ∈ e.symbols) :
    (Decoder.ofEncoder e).expansion (UInt8.ofNat s.code) = s.bytes := by
  obtain ⟨i, inside, rfl⟩ := Array.mem_iff_getElem.mp member
  have code := wf.toNat_code (Array.getElem_mem inside)
  rw [wf.code_eq i inside] at code ⊢
  have small : i % UInt8.size = i := by rwa [UInt8.toNat_ofNat'] at code
  simp [Decoder.expansion, Decoder.ofEncoder, Decoder.ofSymbols, small, inside]

/-- Codes are read back to what they spell, and reading goes on after them. -/
theorem decodeOnto_spells {codes bs : Bytes} (spells : e.Spells codes bs) (output : Array UInt8) (after : Bytes) :
    (Decoder.ofEncoder e).decodeOnto output (codes ++ after) =
      (Decoder.ofEncoder e).decodeOnto (output ++ bs) after := by
  induction spells generalizing output with
  | nil => simp
  | @symbol s codes bs member _ ih =>
    have expansion := wf.expansion_code member
    have used : (Decoder.ofEncoder e).expansion (UInt8.ofNat s.code) ≠ [] := by
      rw [expansion]
      exact (wf.normal s member).bytes_ne_nil
    rw [List.cons_append, Decoder.decodeOnto_code (wf.code_ne_escape member) used, expansion, ih,
      append_list_append]
  | @escaped codes bs b _ ih =>
    have joined : output.push b ++ bs = output ++ (b :: bs) := Array.ext' (by simp)
    rw [List.cons_append, List.cons_append, Decoder.decodeOnto_escape, ih, joined]

theorem decode_spells {codes bs : Bytes} (spells : e.Spells codes bs) (output : Array UInt8) :
    (Decoder.ofEncoder e).decode codes output = (output ++ bs, .ok bs.length) := by
  have whole := wf.decodeOnto_spells spells output []
  rw [List.append_nil] at whole
  exact Decoder.decode_of_decodeOnto whole

private theorem decompressOnto_spells {emit : Bytes → Bytes} (spells : ∀ line, e.Spells (emit line) line) :
    ∀ (lines : List Bytes) (output : Array UInt8) (lens : Array Nat),
      (Decoder.ofEncoder e).decompressOnto output lens (lines.flatMap emit)
          (lines.map fun line => (emit line).length) =
        .ok (output.toList ++ lines.flatten, lens.toList ++ lines.map List.length)
  | [], output, lens => by simp [Decoder.decompressOnto]
  | line :: lines, output, lens => by
    have first : ((line :: lines).flatMap emit).take (emit line).length = emit line := by simp
    have later : ((line :: lines).flatMap emit).drop (emit line).length = lines.flatMap emit := by simp
    rw [List.map_cons, Decoder.decompressOnto, first, later]
    simp only [Nat.lt_irrefl, ↓reduceIte, wf.decode_spells (spells line)]
    rw [decompressOnto_spells spells lines]
    simp

/-- Lines of codes are read back to the lines that they spell, one after another. -/
theorem decompress_spells {emit : Bytes → Bytes} (spells : ∀ line, e.Spells (emit line) line) (lines : List Bytes) :
    (Decoder.ofEncoder e).decompress (lines.flatMap emit) (lines.map fun line => (emit line).length) =
      .ok (lines.flatten, lines.map List.length) := by
  rw [Decoder.decompress, wf.decompressOnto_spells spells]
  rfl

end Encoder.WellFormed

end SymbolCodec
