import SymbolCodec.Proofs.Reloading

/-!
Heads in either byte order. The mark alone does not tell the order, since the
highest byte of the version is one as well, but the bytes of the version do: a
head that is valid in both orders is the same in both
(`Head.reverse_eq_of_valid`). So turning over the head of a valid dictionary
changes nothing of what is read but the order, which matters to an encoder only
(`Dictionary.OrderFree`), and a decoder can be made of what an encoder stores in
either order (`Dictionary.orderFree_and_decodes`).
-/
namespace SymbolCodec

namespace Head

/-- The bytes of a valid word that are fixed: the mark and the version. -/
theorem valid_iff_bytes (w : UInt64) : valid w = true ↔
    Word.byte w 0 = 1 ∧ Word.byte w 4 = 10 ∧ Word.byte w 5 = 20 ∧ Word.byte w 6 = 52 ∧ Word.byte w 7 = 1 := by
  have small := w.toNat_lt
  rw [valid_iff]
  simp only [← UInt8.toNat_inj, Word.toNat_byte w (i := 0) (by decide), Word.toNat_byte w (i := 4) (by decide),
    Word.toNat_byte w (i := 5) (by decide), Word.toNat_byte w (i := 6) (by decide),
    Word.toNat_byte w (i := 7) (by decide), formatVersion, UInt8.reduceToNat]
  omega

theorem valid_pack_iff {bs : Bytes} (eight : bs.length = 8) : valid (Word.pack bs) = true ↔
    ∃ symbols terminator suffixLimit, bs = [1, symbols, terminator, suffixLimit, 10, 20, 52, 1] := by
  match bs, eight with
  | [mark, symbols, terminator, suffixLimit, v₀, v₁, v₂, v₃], _ =>
    rw [valid_iff_bytes]
    simp only [Word.byte_pack _ (i := 0) (by decide), Word.byte_pack _ (i := 4) (by decide),
      Word.byte_pack _ (i := 5) (by decide), Word.byte_pack _ (i := 6) (by decide),
      Word.byte_pack _ (i := 7) (by decide)]
    simp

/-- A head that is valid in both orders reads the same in both. -/
theorem reverse_eq_of_valid {bs : Bytes} (eight : bs.length = 8) (here : valid (Word.pack bs) = true)
    (there : valid (Word.pack bs.reverse) = true) : bs.reverse = bs := by
  obtain ⟨symbols, terminator, suffixLimit, rfl⟩ := (valid_pack_iff eight).mp here
  obtain ⟨symbols', terminator', suffixLimit', turned⟩ := (valid_pack_iff (by simp)).mp there
  simp only [List.reverse_cons, List.reverse_nil, List.nil_append, List.cons_append, List.cons.injEq] at turned
  obtain ⟨_, _, _, _, rfl, rfl, rfl, _⟩ := turned
  rfl

end Head

namespace Dictionary

/-- The dictionary with the bytes of its head the other way round. -/
def turned (d : Dictionary) : Dictionary := { d with head := d.head.reverse }

/-- The head is valid in the order of this machine. -/
def Native (d : Dictionary) : Prop := Head.valid (Word.pack d.head.toList) = true

instance (d : Dictionary) : Decidable d.Native := inferInstanceAs (Decidable (_ = true))

theorem toList_head_turned (d : Dictionary) : d.turned.head.toList = d.head.toList.reverse :=
  Vector.toList_reverse

theorem turned_eq_iff (d : Dictionary) : d.turned = d ↔ d.head.reverse = d.head := by
  constructor
  · intro same
    exact congrArg head same
  · intro same
    rw [turned, same]

/-! ### Reading -/

section
variable {d : Dictionary} (native : d.Native)
include native

theorem readHead_native : d.readHead = .ok (.ofWord (Word.pack d.head.toList) false) := by
  have valid : Head.valid (Word.pack d.head.toList) = true := native
  rw [readHead, if_pos valid]

/-- A head that is turned over says the same, and that it is in the other order,
    unless it is its own reverse. -/
theorem readHead_turned (other : d.head.reverse ≠ d.head) :
    d.turned.readHead = .ok (.ofWord (Word.pack d.head.toList) true) := by
  have valid : Head.valid (Word.pack d.head.toList) = true := native
  have invalid : ¬ Head.valid (Word.pack d.head.toList.reverse) = true := by
    intro there
    have same := Head.reverse_eq_of_valid (by simp) valid there
    rw [← Vector.toList_reverse] at same
    exact other (Vector.toList_inj.mp same)
  simp only [readHead, toList_head_turned, List.reverse_reverse]
  rw [if_neg invalid, if_pos valid]

theorem symbolCount_turned : d.turned.symbolCount = d.symbolCount := by
  by_cases same : d.head.reverse = d.head
  · rw [(turned_eq_iff d).mpr same]
  · rw [symbolCount, symbolCount, readHead_turned native same, readHead_native native]
    rfl

/-- What is read of the symbols depends on the head only through their number. -/
theorem symbols_turned : d.turned.symbols = d.symbols := by
  have lengths : d.turned.storedLengths = d.storedLengths := rfl
  have implied : d.turned.implied = d.implied := rfl
  rw [symbols, symbols, symbolCount_turned native, lengths, implied]
  rfl

end

/-! ### Either order -/

/-- Which way round the head of a dictionary lies matters to an encoder only. -/
structure OrderFree (d : Dictionary) : Prop where
  symbolCount : d.turned.symbolCount = d.symbolCount
  symbols : d.turned.symbols = d.symbols
  decoder : Decoder.ofDictionary d.turned = Decoder.ofDictionary d
  encoder : d.head.reverse ≠ d.head → Encoder.ofDictionary d.turned = .error .foreignOrder
  /-- A head that is its own reverse leaves the dictionary as it is. -/
  same : d.head.reverse = d.head → d.turned = d

theorem Native.orderFree {d : Dictionary} (native : d.Native) : d.OrderFree where
  symbolCount := symbolCount_turned native
  symbols := symbols_turned native
  decoder := by rw [Decoder.ofDictionary, symbols_turned native, Decoder.ofDictionary]
  encoder := by
    intro other
    rw [Encoder.ofDictionary, readHead_turned native other]
    rfl
  same := (turned_eq_iff d).mpr

/-- The decoder of what an encoder stores is that of the encoder. -/
theorem decoder_ofEncoder {e : Encoder} (laid : e.LaidOut) :
    Decoder.ofDictionary (ofEncoder e) = .ok (.ofEncoder e) := by
  rw [Decoder.ofDictionary, symbols_ofEncoder laid]
  rfl

theorem native_ofEncoder {e : Encoder} (few : e.symbols.size ≤ 255) : (ofEncoder e).Native := by
  rw [Native, toList_head_ofEncoder, Word.pack_bytes]
  exact (Head.ofWord_word e.suffixLimit e.terminator few).1

/-- Turning over a valid head changes nothing but whether an encoder accepts it; and
    whatever symbols are added to a table, what its encoder stores gives the decoder
    of this encoder, with the head in either order. -/
theorem orderFree_and_decodes :
    (∀ d : Dictionary, d.Native → d.OrderFree) ∧
      ∀ (terminator : UInt8) (zeroTerminated : Bool) (symbols : List Symbol) (t : Table),
        (Table.empty terminator zeroTerminated).addAll symbols = .ok t → t.added.size ≤ maxSymbols →
        ∃ e, Encoder.ofTable t = .ok e ∧ Decoder.ofDictionary (ofEncoder e) = .ok (.ofEncoder e) ∧
          Decoder.ofDictionary (ofEncoder e).turned = .ok (.ofEncoder e) := by
  refine ⟨fun d native => native.orderFree, ?_⟩
  intro terminator zeroTerminated symbols t built few
  obtain ⟨e, run⟩ := Encoder.exists_ofTable few
  have laid := Encoder.laidOut_ofTable (Table.wellFormed_addAll built) run
  have read := decoder_ofEncoder laid
  refine ⟨e, run, read, ?_⟩
  rw [(native_ofEncoder laid.lists.few).orderFree.decoder, read]

/-- A head before fields that do not fit together, and the dictionary of byte 0 kept,
    a pair twice and a longer symbol. -/
theorem orderFree_and_decodes_damaged : ∃ d : Dictionary, ∃ t e, d.head = #v[1, 2, 3, 4, 10, 20, 52, 1] ∧
    d.Native ∧ d.OrderFree ∧
    (Table.empty 0 true).addAll [.ofBytes [0], .ofBytes [97, 98], .ofBytes [97, 98, 99], .ofBytes [97, 98]] =
      .ok t ∧ t.added.size = 4 ∧ t.added.size ≤ maxSymbols ∧ Encoder.ofTable t = .ok e ∧
    Decoder.ofDictionary (ofEncoder e) = .ok (.ofEncoder e) ∧
    Decoder.ofDictionary (ofEncoder e).turned = .ok (.ofEncoder e) := by
  let d : Dictionary := { blank with head := #v[1, 2, 3, 4, 10, 20, 52, 1] }
  have native : d.Native := by decide
  obtain ⟨t, built, size⟩ : ∃ t, (Table.empty 0 true).addAll [.ofBytes [0], .ofBytes [97, 98],
      .ofBytes [97, 98, 99], .ofBytes [97, 98]] = .ok t ∧ t.added.size = 4 := ⟨_, rfl, rfl⟩
  have few : t.added.size ≤ maxSymbols := by rw [size]; decide
  obtain ⟨e, run, here, there⟩ := orderFree_and_decodes.2 0 true _ t built few
  exact ⟨d, t, e, rfl, native, orderFree_and_decodes.1 d native, built, size, few, run, here, there⟩

end Dictionary
end SymbolCodec
