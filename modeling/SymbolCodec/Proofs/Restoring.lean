import SymbolCodec.Dictionary.Packed
import SymbolCodec.Proofs.Storing

/-!
Storing what was loaded. A word with the version and the mark has no bits but
those of its fields (`Head.word_ofWord`), and the symbols that are read of a
dictionary spell its bytes, the implied byte 0 apart (`Dictionary.flatMap_bytes_drop`).
So the encoder of a dictionary is stored as this dictionary, field by field
(`Dictionary.ofEncoder_ofDictionary`).
-/
namespace SymbolCodec

theorem Head.word_ofWord {w : UInt64} (ok : valid w = true) :
    word (Word.byte w 3) (Word.byte w 2) (Word.byte w 1).toNat = w := by
  have small := w.toNat_lt
  have few : (Word.byte w 1).toNat ≤ 255 := Nat.le_of_lt_succ (Word.byte w 1).toNat_lt
  obtain ⟨version, mark⟩ := (valid_iff w).mp ok
  apply UInt64.toNat_inj.mp
  rw [toNat_word _ _ few, Word.toNat_byte w (by decide), Word.toNat_byte w (by decide), Word.toNat_byte w (by decide)]
  omega

namespace Dictionary
variable {d : Dictionary}

attribute [ext] Dictionary

/-- What a head says that was read in the order of this machine. -/
theorem of_readHead {head : Head} (read : d.readHead = .ok head) (native : head.foreign = false) :
    Head.valid (Word.pack d.head.toList) = true ∧ head = .ofWord (Word.pack d.head.toList) false := by
  simp only [readHead] at read
  split at read
  case isTrue valid =>
    cases read
    exact ⟨valid, rfl⟩
  case isFalse =>
    split at read
    case isTrue =>
      cases read
      cases native
    case isFalse =>
      split at read
      case isTrue => cases read
      case isFalse => cases read

/-- A head is written again as it was read. -/
theorem head_ofEncoder {e : Encoder} (valid : Head.valid (Word.pack d.head.toList) = true)
    (limit : e.suffixLimit = Word.byte (Word.pack d.head.toList) 3)
    (terminator : e.terminator = Word.byte (Word.pack d.head.toList) 2)
    (size : e.symbols.size = (Word.byte (Word.pack d.head.toList) 1).toNat) : (ofEncoder e).head = d.head := by
  apply Vector.toList_inj.mp
  rw [toList_head_ofEncoder, limit, terminator, size, Head.word_ofWord valid]
  apply List.ext_getElem
  · simp [maxLength]
  · intro i place inside
    have low : i < maxLength := by simpa using place
    simp only [Word.bytes, List.getElem_map, List.getElem_range, Word.byte_pack _ low,
      List.getElem?_eq_getElem inside, Option.getD_some]

theorem flatMap_bytes_ofPieces (start : Nat) {pieces : List Bytes} (short : ∀ piece ∈ pieces, piece.length ≤ maxLength) :
    (ofPieces start pieces).flatMap Symbol.bytes = pieces.flatten := by
  have bytes : (ofPieces start pieces).map Symbol.bytes = pieces := by
    apply List.ext_getElem
    · simp [ofPieces]
    · intro i _ inside
      have le := short _ (List.getElem_mem inside)
      rw [List.getElem_map, getElem_ofPieces inside, ← Symbol.len_ofBytes le, Symbol.bytes_setCode,
        Symbol.bytes_ofBytes le]
  rw [List.flatMap_def, bytes]

/-- The symbols of a dictionary spell its bytes after the implied byte 0, and are as
    many as its head says. -/
theorem flatMap_bytes_drop {symbols : List Symbol} (run : d.symbols = .ok symbols) :
    (symbols.drop d.implied).flatMap Symbol.bytes = d.bytes ∧
      ∃ head, d.readHead = .ok head ∧ symbols.length = head.symbols.toNat := by
  obtain ⟨head, pieces, read, sum, enough, lengths, whole, rfl⟩ := (symbols_eq_ok_iff d symbols).mp run
  have short : ∀ piece ∈ pieces, piece.length ≤ maxLength := by
    intro piece member
    have listed : piece.length ∈ d.storedLengths := by
      rw [← lengths]
      exact List.mem_map_of_mem member
    exact (of_mem_storedLengths listed).2
  refine ⟨?_, head, read, ?_⟩
  · rw [List.drop_left' d.length_impliedSymbols, flatMap_bytes_ofPieces _ short, whole]
  · rw [List.length_append, length_impliedSymbols, length_ofPieces, ← sum, sum_histogram enough, ← lengths,
      List.length_map]

/-- The encoder of a dictionary is stored as this dictionary, whatever the dictionary
    was made by, and so has the same packed form. -/
theorem ofEncoder_ofDictionary {e : Encoder} (run : Encoder.ofDictionary d = .ok e) :
    ofEncoder e = d ∧ (ofEncoder e).toBytes = d.toBytes := by
  have same : ofEncoder e = d := by
    obtain ⟨head, symbols, pairs, slots, read, native, listed, _, _, _, rfl⟩ :=
      (Encoder.ofDictionary_eq_ok_iff d e).mp run
    obtain ⟨bytes, head', read', size⟩ := flatMap_bytes_drop listed
    rw [read] at read'
    cases read'
    obtain ⟨valid, rfl⟩ := of_readHead read native
    exact Dictionary.ext (head_ofEncoder valid rfl rfl size) rfl rfl bytes
  exact ⟨same, congrArg toBytes same⟩

/-- Byte 0 is kept and not stored, a pair that a longer symbol starts with is listed
    twice, and no table would have put the limit there. -/
def repeatedPair : Dictionary where
  head := #v[1, 5, 13, 3, 10, 20, 52, 1]
  zeroTerminated := true
  histogram := #v[2, 2, 1, 0, 0, 0, 0, 0]
  bytes := [97, 98, 97, 98, 97, 98, 99, 120]

theorem ofEncoder_ofDictionary_repeatedPair : ∃ e, Encoder.ofDictionary repeatedPair = .ok e ∧
    ofEncoder e = repeatedPair ∧ (ofEncoder e).toBytes = repeatedPair.toBytes := by
  obtain ⟨e, run⟩ : ∃ e, Encoder.ofDictionary repeatedPair = .ok e := ⟨_, rfl⟩
  exact ⟨e, run, ofEncoder_ofDictionary run⟩

end Dictionary
end SymbolCodec
