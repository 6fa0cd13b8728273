import SymbolCodec.Word
import SymbolCodec.Fault

/-!
A symbol is a short byte string held in a word, with a code and a length
(`Symbol`). Two symbols stand for the same string when their lengths and their
words under the mask agree (`Symbol.same`); the code, and bits of the word above
the length, do not count, and do not go into a hash (`Symbol.hashed`). The bytes
of a symbol are a view of it (`Symbol.bytes`), and one symbol after another is
again a symbol, cut to eight bytes (`Symbol.concat`).

Symbols of three or more bytes lie in slots (`Slots`). A symbol lies in the slot
that its first three bytes are hashed to, and a slot holds one symbol at most, so
a look-up inspects a single place (`Slots.find?`).
-/
namespace SymbolCodec

/-- A byte string of at most eight bytes with a code. Fields that a caller has
    set at will need not fit together: the word may have bits above the length,
    and the length may be more than a word holds. -/
structure Symbol where
  /-- The bytes, the first lowest. -/
  word : UInt64
  /-- The code, below `Symbol.codeLimit`. -/
  code : Nat
  /-- The number of bytes. -/
  len : Nat
  /-- How many high bits of a word are not compared. -/
  ignored : Nat
  deriving DecidableEq, Repr, Inhabited

namespace Symbol

/-- Codes take twelve bits. -/
def codeLimit : Nat := 4096

/-- The code of a symbol that has not been given one. -/
def unassigned : Nat := codeLimit - 1

/-- Marks an empty slot: a length that no symbol has, and no code. -/
def free : Symbol := ⟨0, unassigned, 15, 0⟩

/-- The symbol marks an empty slot. -/
def isFree (s : Symbol) : Bool := s.len == 15 && s.code == unassigned

/-- Gives a symbol a code, of which twelve bits are kept, and a length, up to
    which its bytes are compared from then on. -/
def setCode (s : Symbol) (code len : Nat) : Symbol :=
  { s with code := code % codeLimit, len := len, ignored := (maxLength - len) * 8 }

/-- The symbol of a single byte. Bits of the code above the twelfth have no
    place of their own and are set in the length. -/
def ofByte (b : UInt8) (code : Nat) : Symbol :=
  ⟨b.toUInt64, code % codeLimit, 1 ||| (code / codeLimit), 56⟩

/-- The symbol of the first eight bytes, or of all if there are fewer, with no
    code yet. -/
def ofBytes (bs : Bytes) : Symbol :=
  let len := min bs.length maxLength
  setCode ⟨Word.load bs &&& Word.mask len, 0, 0, 0⟩ unassigned len

/-- The code, the length and the ignored bits in one number, the length
    highest. -/
def control (s : Symbol) : Nat := (s.len <<< 28) + (s.code <<< 16) + s.ignored

/-- Keeps the bits of a word that are compared. -/
def mask (s : Symbol) : UInt64 := Word.allOnes >>> (UInt64.ofNat s.ignored)

/-- The first byte. -/
def first (s : Symbol) : UInt8 := s.word.toUInt8

/-- The first two bytes as a number, the first lower. -/
def firstTwo (s : Symbol) : UInt16 := s.word.toUInt16

/-- The bytes of the symbol. -/
def bytes (s : Symbol) : Bytes := (Word.bytes s.word).take s.len

theorem length_bytes (s : Symbol) : s.bytes.length = min s.len maxLength := by simp [bytes]

/-- The word holds as many bytes as the length asks for. -/
def fits (s : Symbol) : Bool := s.len ≤ maxLength

/-- The bytes of a symbol, refused when the length is more than a word holds. -/
def checkedBytes (s : Symbol) : Except Fault Bytes :=
  if s.fits then .ok s.bytes else .error .lengthOutOfRange

/-- One of the bytes of the symbol is the given one. -/
def holds (s : Symbol) (b : UInt8) : Bool := s.bytes.contains b

/-- One of the bytes of the symbol is the given one, refused when the length is
    more than a word holds. -/
def checkedHolds (s : Symbol) (b : UInt8) : Except Fault Bool :=
  return (← s.checkedBytes).contains b

/-- The hash that decides the slot, a function of the first three bytes. -/
def slotHash (s : Symbol) : UInt64 := Word.hash (Word.slotKey s.word)

/-- The slot of a symbol of three or more bytes. -/
def slot (s : Symbol) : Fin slotCount := Word.slot s.word

/-- Two symbols stand for the same byte string. -/
def same (s t : Symbol) : Bool := s.word &&& s.mask == t.word &&& t.mask && s.len == t.len

/-- What a hasher is fed with for a symbol: the hash of its bytes, and its length. -/
def hashed (s : Symbol) : UInt64 × Nat := (Word.hash (s.word &&& s.mask), s.len)

/-- The right symbol after the left one, cut to eight bytes, with no code yet.
    The left word goes in as it is, whatever bits it has above its length. -/
def concat (left right : Symbol) : Symbol :=
  let len := min (left.len + right.len) maxLength
  let word :=
    if left.len ≥ maxLength then left.word
    else (right.word <<< (UInt64.ofNat (8 * left.len))) ||| left.word
  setCode ⟨word &&& Word.mask len, 0, 0, 0⟩ unassigned len

/-- The length is one that symbols in a table have, and the bits above it are
    those that the comparison leaves out. -/
structure Proper (s : Symbol) : Prop where
  pos : 1 ≤ s.len
  le : s.len ≤ maxLength
  ignored_eq : s.ignored = (maxLength - s.len) * 8

end Symbol

/-! ### Slots -/

/-- One symbol at most in each slot. -/
abbrev Slots := Vector (Option Symbol) slotCount

namespace Slots

/-- No slot is taken. -/
def empty : Slots := Vector.replicate slotCount none

/-- Some symbol lies in the slot of the given one. -/
def taken (slots : Slots) (s : Symbol) : Bool := (slots.get s.slot).isSome

/-- Puts a symbol into its slot. -/
def put (slots : Slots) (s : Symbol) : Slots := slots.set s.slot.val (some s) s.slot.isLt

/-- The symbol in the slot of a word, if the word starts with it. -/
def find? (slots : Slots) (word : UInt64) : Option Symbol :=
  (slots.get (Word.slot word)).filter fun s => s.word == word &&& s.mask

/-- The taken slots in order, with their symbols. -/
def occupied (slots : Slots) : List (Nat × Symbol) :=
  slots.toList.zipIdx.filterMap fun (s, i) => s.map (i, ·)

end Slots
end SymbolCodec
