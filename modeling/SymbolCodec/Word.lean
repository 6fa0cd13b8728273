/-!
Byte strings and the machine words they are held in. A word holds up to eight
bytes, the first in its lowest byte (`Word.pack`, `Word.load`, `Word.bytes`).
One multiplicative mixing function (`Word.hash`) serves both as the key of the
table of long symbols, through the low three bytes (`Word.slot`), and as the
generator that drives sampling.
-/
namespace SymbolCodec

/-- A string of bytes. -/
abbrev Bytes := List UInt8

/-- A byte string cut into pieces of a length, the last one perhaps shorter. A
    length of zero counts as one. -/
def cutEvery (length : Nat) : Bytes → List Bytes
  | [] => []
  | b :: rest => (b :: rest.take (length - 1)) :: cutEvery length (rest.drop (length - 1))
termination_by bs => bs.length
decreasing_by simp only [List.length_drop, List.length_cons]; omega

/-- Cutting loses nothing. -/
theorem flatten_cutEvery (length : Nat) (bs : Bytes) : (cutEvery length bs).flatten = bs := by
  fun_induction cutEvery length bs with
  | case1 => rfl
  | case2 b rest ih => simp [ih, List.take_append_drop]

/-- No piece is longer than asked for. -/
theorem length_le_of_mem_cutEvery {length : Nat} {bs piece : Bytes} (pos : 0 < length)
    (mem : piece ∈ cutEvery length bs) : piece.length ≤ length := by
  fun_induction cutEvery length bs with
  | case1 => simp at mem
  | case2 b rest ih =>
    rcases List.mem_cons.mp mem with rfl | later
    · simp only [List.length_cons, List.length_take]
      omega
    · exact ih later

/-- The most bytes that a symbol holds, which is the width of a word. -/
def maxLength : Nat := 8

/-- The place of a length in counts by length, which begin with length one. -/
def lengthPlace (len : Nat) : Fin 8 := ⟨(len - 1) % 8, Nat.mod_lt _ (by decide)⟩

theorem val_lengthPlace {len : Nat} (pos : 1 ≤ len) (le : len ≤ maxLength) : (lengthPlace len).val + 1 = len := by
  simp only [maxLength] at le
  simp only [lengthPlace]
  omega

theorem lengthPlace_succ (i : Fin 8) : lengthPlace (i.val + 1) = i := by
  apply Fin.ext
  simp only [lengthPlace]
  omega

/-- The number of slots for symbols of three or more bytes. -/
abbrev slotCount : Nat := 1024

namespace Word

/-- The word of a byte string, the first byte lowest; bytes after the eighth
    have no place in it. -/
def pack : Bytes → UInt64
  | [] => 0
  | b :: bs => b.toUInt64 ||| (pack bs <<< 8)

/-- The word of the first eight bytes, with zero bytes where there are fewer. -/
def load (bs : Bytes) : UInt64 := pack (bs.take maxLength)

/-- The byte of a word at a place, counted from the low end. -/
def byte (w : UInt64) (i : Nat) : UInt8 := (w >>> (UInt64.ofNat (8 * i))).toUInt8

/-- The eight bytes of a word, the low one first. -/
def bytes (w : UInt64) : Bytes := (List.range maxLength).map (byte w)

@[simp] theorem length_bytes (w : UInt64) : (bytes w).length = maxLength := by simp [bytes]

/-- The word with every bit set. -/
def allOnes : UInt64 := 0xFFFFFFFFFFFFFFFF

/-- Keeps the low bytes of a word, as many as the length says. -/
def mask (len : Nat) : UInt64 := allOnes >>> (UInt64.ofNat ((maxLength - len) * 8))

/-- The odd number that `Word.hash` multiplies by. -/
def multiplier : UInt64 := 2971215073

/-- Multiplies by an odd number, modulo the word size, and folds the high bits
    down. -/
def hash (w : UInt64) : UInt64 :=
  let h := w * multiplier
  h ^^^ (h >>> 15)

/-- The part of a word that decides its slot: its first three bytes. -/
def slotKey (w : UInt64) : UInt64 := w &&& 0xFFFFFF

/-- The slot of a word. -/
def slot (w : UInt64) : Fin slotCount :=
  ⟨(hash (slotKey w) % 1024).toNat, by
    have h : (1024 : UInt64).toNat = 1024 := rfl
    rw [UInt64.toNat_mod, h]
    exact Nat.mod_lt _ (by decide)⟩

/-- The first byte of a word as an index. -/
def first (w : UInt64) : Fin 256 := w.toUInt8.toFin

/-- The first two bytes of a word as an index. -/
def pair (w : UInt64) : Fin 65536 := w.toUInt16.toFin

/-- The first byte of two. -/
def firstOfPair (p : Fin 65536) : Fin 256 := ⟨p.val % 256, Nat.mod_lt _ (by decide)⟩

end Word
end SymbolCodec
