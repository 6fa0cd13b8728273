import SymbolCodec.Proofs.Joining
import SymbolCodec.Proofs.Adding
import SymbolCodec.Proofs.Ranked

/-!
What symbols of the same bytes can be exchanged in. Equality and hashing go by the bytes
under the mask and the length, and a table cuts a symbol off at its length before it reads
anything else of it, so that these never tell two such symbols apart. Joining and the order
of candidates read the word as it is: bits above the length of a left symbol get into the
bytes of the right one (`Symbol.same_concat_iff`), and candidates with different words are
never equal. Symbols without such bits can be exchanged in these, too
(`Symbol.Interchange`).
-/
namespace SymbolCodec.Symbol
variable {a a' b b' : Symbol}

section
variable (same : a.same a' = true)
include same

theorem hashed_congr : a.hashed = a'.hashed := by
  simp only [Symbol.same, Bool.and_eq_true, beq_iff_eq] at same
  rw [hashed, hashed, same.1, same.2]

theorem len_congr : a.len = a'.len := by
  simp only [Symbol.same, Bool.and_eq_true, beq_iff_eq] at same
  exact same.2

theorem word_congr (normal : a.Normal) (normal' : a'.Normal) : a.word = a'.word := by
  simp only [Symbol.same, normal.word_eq, normal'.word_eq, Bool.and_eq_true, beq_iff_eq] at same
  exact same.1

theorem compare_congr_iff (gain : UInt64) :
    (Candidate.mk a gain).compare (Candidate.mk a' gain) = .eq ↔ a.word = a'.word := by
  rw [Candidate.compare_eq_iff]
  simp only [len_congr same, true_and]

variable (proper : a.Proper) (proper' : a'.Proper) (rightProper : b.Proper) (rightProper' : b'.Proper)
  (rightSame : b.same b' = true)
include proper proper' rightProper rightProper' rightSame

/-- Symbols of the same bytes are joined to symbols of the same bytes just when the bits that
    the left words have above their lengths make no difference to the bytes of the right one. -/
theorem same_concat_iff : (concat a b).same (concat a' b') = true ↔
    ∀ i < b.len, a.len + i < maxLength →
      Word.byte b.word i ||| Word.byte a.word (a.len + i) = Word.byte b.word i ||| Word.byte a'.word (a.len + i) := by
  have len := len_congr same
  have rightLen := len_congr rightSame
  have bytes := (same_iff_bytes proper proper').mp same
  have rightBytes := (same_iff_bytes rightProper rightProper').mp rightSame
  rw [same_iff_bytes (proper_concat proper.pos b) (proper_concat proper'.pos b')]
  constructor
  · -- the byte that is i places behind the left symbol tells
    intro equal i before inside
    have byte := getElem?_bytes_concat proper.pos b (Nat.add_lt_add_left before a.len) inside
    have byte' := getElem?_bytes_concat proper'.pos b' (by omega : a.len + i < a'.len + b'.len) inside
    rw [if_neg (Nat.not_lt.mpr (Nat.le_add_right ..)), Nat.add_sub_cancel_left] at byte
    rw [← len, if_neg (Nat.not_lt.mpr (Nat.le_add_right ..)), Nat.add_sub_cancel_left,
      ← byte_congr rightLen rightBytes before (by omega), ← equal, byte] at byte'
    exact Option.some.inj byte'
  · intro hidden
    apply List.ext_getElem?
    intro i
    by_cases within : i < a.len + b.len ∧ i < maxLength
    · obtain ⟨within, inside⟩ := within
      rw [getElem?_bytes_concat proper.pos b within inside,
        getElem?_bytes_concat proper'.pos b' (by omega : i < a'.len + b'.len) inside, ← len]
      by_cases first : i < a.len
      · rw [if_pos first, if_pos first, byte_congr len bytes first inside]
      · have later : i - a.len < b.len := by omega
        have place : a.len + (i - a.len) = i := by omega
        have byte := hidden (i - a.len) later (by omega)
        rw [place] at byte
        rw [if_neg first, if_neg first, ← byte_congr rightLen rightBytes later (by omega), byte]
    · rw [List.getElem?_eq_none (by rw [Symbol.length_bytes, len_concat]; omega),
        List.getElem?_eq_none (by rw [Symbol.length_bytes, len_concat]; omega)]

end

/-- What comes of exchanging symbols, of which the second two are to the right of the first. -/
structure Interchange (a a' b b' : Symbol) : Prop where
  hashed_eq : a.hashed = a'.hashed
  holds_eq : ∀ x, a.holds x = a'.holds x
  add_eq : ∀ t : Table, t.add a = t.add a'
  /-- Nothing but bits above the length of a left symbol makes a difference. -/
  concat_iff : (concat a b).same (concat a' b') = true ↔
    ∀ i < b.len, a.len + i < maxLength →
      Word.byte b.word i ||| Word.byte a.word (a.len + i) = Word.byte b.word i ||| Word.byte a'.word (a.len + i)
  compare_iff : ∀ gain, (Candidate.mk a gain).compare (Candidate.mk a' gain) = .eq ↔ a.word = a'.word
  /-- Left symbols without such bits can be exchanged in everything. -/
  normal : a.Normal → a'.Normal → (concat a b).same (concat a' b') = true ∧
    ∀ gain, (Candidate.mk a gain).compare (Candidate.mk a' gain) = .eq

/-- Symbols of the same bytes, whatever their codes and the bits above their lengths, can be
    exchanged in hashing, in searching and in adding to a table; in joining and in the order of
    candidates they can if there is no such bit that is read. -/
theorem interchange (proper : a.Proper) (proper' : a'.Proper) (same : a.same a' = true) (rightProper : b.Proper)
    (rightProper' : b'.Proper) (rightSame : b.same b' = true) : Interchange a a' b b' := by
  have bytes := (same_iff_bytes proper proper').mp same
  have concat_iff := same_concat_iff same proper proper' rightProper rightProper' rightSame
  have compare_iff := compare_congr_iff same
  exact {
    hashed_eq := hashed_congr same
    holds_eq := fun x => by rw [holds, holds, bytes]
    add_eq := fun t => t.add_congr (len_congr same) bytes
    concat_iff
    compare_iff
    normal := fun normal normal' => by
      have word := word_congr same normal normal'
      exact ⟨concat_iff.mpr fun i _ _ => by rw [word], fun gain => (compare_iff gain).mpr word⟩ }

/-- Two bytes with a third one above their length, which is the byte that they are joined
    to, so that it makes no difference there. -/
theorem interchange_hidden : ∃ a a' b b' : Symbol, a.Proper ∧ a'.Proper ∧ a.same a' = true ∧ b.Proper ∧ b'.Proper ∧
    b.same b' = true ∧ a.word ≠ a'.word ∧ b.code ≠ b'.code ∧ Interchange a a' b b' ∧
    (concat a b).same (concat a' b') = true := by
  have hidden : Interchange ⟨0x6261, 4095, 2, 48⟩ ⟨0x636261, 7, 2, 48⟩ ⟨0x63, 4095, 1, 56⟩ ⟨0xFF63, 9, 1, 56⟩ :=
    interchange ⟨by decide, by decide, rfl⟩ ⟨by decide, by decide, rfl⟩ (by decide) ⟨by decide, by decide, rfl⟩
      ⟨by decide, by decide, rfl⟩ (by decide)
  exact ⟨⟨0x6261, 4095, 2, 48⟩, ⟨0x636261, 7, 2, 48⟩, ⟨0x63, 4095, 1, 56⟩, ⟨0xFF63, 9, 1, 56⟩,
    ⟨by decide, by decide, rfl⟩, ⟨by decide, by decide, rfl⟩, by decide, ⟨by decide, by decide, rfl⟩,
    ⟨by decide, by decide, rfl⟩, by decide, by decide, by decide, hidden, hidden.concat_iff.mpr (by decide)⟩

/-- A third byte above the length of two gets into what they are joined to, and tells
    candidates apart that are otherwise equal. -/
theorem concat_differs_stray :
    (ofBytes [97, 98]).Proper ∧ (⟨0xFF6261, 4095, 2, 48⟩ : Symbol).Proper ∧ (ofBytes [99]).Proper ∧
      (ofBytes [97, 98]).same ⟨0xFF6261, 4095, 2, 48⟩ = true ∧
      (concat (ofBytes [97, 98]) (ofBytes [99])).same (concat ⟨0xFF6261, 4095, 2, 48⟩ (ofBytes [99])) = false ∧
      (Candidate.mk (ofBytes [97, 98]) 5).compare (Candidate.mk ⟨0xFF6261, 4095, 2, 48⟩ 5) ≠ .eq :=
  ⟨⟨by decide, by decide, rfl⟩, ⟨by decide, by decide, rfl⟩, ⟨by decide, by decide, rfl⟩, by decide, by decide,
    by decide⟩

end SymbolCodec.Symbol
