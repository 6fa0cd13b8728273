import SymbolCodec.Dictionary

/-!
The packed form of a dictionary (`Dictionary.toBytes`, `Dictionary.ofBytes`). A
byte string whose bytes are few different numbers is written with several of
them to a byte, in one of six radices, and with the least of them taken off
where that helps (`Packed.write`). Its length, where it is not known beforehand,
comes first. A reader takes as much as the bytes read so far call for
(`Packed.read`).
-/
namespace SymbolCodec

namespace Packed

/-! ### Digits -/

/-- How many values a digit has, and how many digits go to a byte. -/
structure Radix where
  values : Nat
  digits : Nat
  deriving DecidableEq, Repr

/-- The radices, by their number in the packed form. -/
def radices : List Radix := [⟨256, 1⟩, ⟨16, 2⟩, ⟨6, 3⟩, ⟨4, 4⟩, ⟨3, 5⟩, ⟨2, 8⟩]

/-- The number of the smallest radix that has a digit. -/
def radixFor (digit : Nat) : Nat :=
  if digit ≤ 1 then 5 else if digit ≤ 2 then 4 else if digit ≤ 3 then 3
  else if digit ≤ 5 then 2 else if digit ≤ 15 then 1 else 0

/-- The number that digits stand for, the first digit lowest. -/
def ofDigits (values : Nat) : Bytes → Nat
  | [] => 0
  | d :: ds => d.toNat + values * ofDigits values ds

/-- The low digits of a number, as many as asked for, the first lowest. -/
def toDigits (values : Nat) : Nat → Nat → Bytes
  | 0, _ => []
  | count + 1, n => UInt8.ofNat (n % values) :: toDigits values count (n / values)

/-- Digits put together into bytes. -/
def joinDigits (r : Radix) (ds : Bytes) : Bytes :=
  (cutEvery r.digits ds).map fun group => UInt8.ofNat (ofDigits r.values group)

/-- Bytes taken apart into digits. -/
def splitDigits (r : Radix) (bs : Bytes) : Bytes :=
  bs.flatMap fun b => toDigits r.values r.digits b.toNat

/-! ### Byte strings of a known length -/

/-- The greatest byte. -/
def greatest (bs : Bytes) : UInt8 := bs.foldl max 0

/-- The least byte. -/
def least (bs : Bytes) : UInt8 := bs.foldl min 255

/-- A radix by its number. -/
def radix? (number : Nat) : Option Radix := radices[number]?

/-- A byte string packed: as it is if it is very short, else behind a tag that
    says the radix and whether the least byte is taken off and comes first. -/
def write (bs : Bytes) : Bytes :=
  if bs.length ≤ 2 then bs
  else
    let base := least bs
    let plain := radixFor (greatest bs).toNat
    let shifted := radixFor (greatest bs - base).toNat
    if shifted > plain ∧ bs.length > 5 then
      UInt8.ofNat (2 * shifted - 1) :: base
        :: joinDigits (radices[shifted]?.getD ⟨256, 1⟩) (bs.map (· - base))
    else UInt8.ofNat (2 * plain) :: joinDigits (radices[plain]?.getD ⟨256, 1⟩) bs

/-- The first bytes, if there are as many, and the rest. -/
def take? (count : Nat) (bs : Bytes) : Option (Bytes × Bytes) :=
  let front := bs.take count
  if front.length = count then some (front, bs.drop count) else none

/-- The first byte and the rest. -/
def next? : Bytes → Option (UInt8 × Bytes)
  | [] => none
  | b :: bs => some (b, bs)

/-- Reads a packed byte string of a length, and gives what follows it. -/
def read (length : Nat) (bs : Bytes) : Option (Bytes × Bytes) :=
  if length ≤ 2 then take? length bs
  else do
    let (tag, bs) ← next? bs
    let r ← radix? ((tag.toNat + 1) / 2)
    let (base, bs) ← if tag.toNat % 2 = 1 then next? bs else some (0, bs)
    let (front, bs) ← take? ((length + r.digits - 1) / r.digits) bs
    return (((splitDigits r front).take length).map (· + base), bs)

/-! ### Numbers -/

/-- The low bytes of a number, the lowest first. -/
def littleEndian : Nat → Nat → Bytes
  | 0, _ => []
  | count + 1, n => UInt8.ofNat n :: littleEndian count (n / 256)

/-- The number of some bytes, the lowest first. -/
def ofLittleEndian : Bytes → Nat
  | [] => 0
  | b :: bs => b.toNat + 256 * ofLittleEndian bs

/-- A length: one byte, or the mark 255, a tag for the width and as many bytes. -/
def writeLength (n : Nat) : Bytes :=
  if n < 255 then [UInt8.ofNat n]
  else if n < UInt8.size then 255 :: 6 :: littleEndian 1 n
  else if n < UInt16.size then 255 :: 4 :: littleEndian 2 n
  else if n < UInt32.size then 255 :: 2 :: littleEndian 4 n
  else 255 :: 0 :: littleEndian 8 n

/-- The first length that is not read. -/
def lengthLimit : Nat := 0x7FFFFFFFFFFFFFFF / 4096

/-- The width that the tag of a length stands for. -/
def widthOf (tag : Nat) : Option Nat := [8, 4, 2, 1][(tag + 1) / 2]?

/-- Reads the number behind the mark of a longer length. With an odd tag a number
    that is added to it comes first; the sum wraps at eight bytes. -/
def readWide (bs : Bytes) : Option (Nat × Bytes) := do
  let (tag, bs) ← next? bs
  let width ← widthOf tag.toNat
  let (base, bs) ← if tag.toNat % 2 = 1 then take? 8 bs else some ([], bs)
  let (front, bs) ← take? width bs
  return ((ofLittleEndian base + ofLittleEndian front) % UInt64.size, bs)

/-- Reads a length, and gives what follows it. -/
def readLength (bs : Bytes) : Option (Nat × Bytes) := do
  let (b, bs) ← next? bs
  let (n, bs) ← if b = 255 then readWide bs else some (b.toNat, bs)
  if n < lengthLimit then some (n, bs) else none

end Packed

namespace Dictionary

/-- The packed form of a dictionary. -/
def toBytes (d : Dictionary) : Bytes :=
  Packed.write d.head.toList
    ++ [if d.zeroTerminated then 1 else 0]
    ++ Packed.write d.histogram.toList
    ++ Packed.writeLength d.bytes.length
    ++ Packed.write d.bytes

/-- Eight bytes as a vector. -/
def eight? (bs : Bytes) : Option (Vector UInt8 8) :=
  if h : bs.toArray.size = 8 then some ⟨bs.toArray, h⟩ else none

/-- The dictionary of a packed form, which must be all of the bytes. -/
def parse? (bs : Bytes) : Option Dictionary := do
  let (head, bs) ← Packed.read 8 bs
  let (flag, bs) ← Packed.next? bs
  let (histogram, bs) ← Packed.read 8 bs
  let (length, bs) ← Packed.readLength bs
  let (bytes, bs) ← Packed.read length bs
  if bs.isEmpty then some ⟨← eight? head, flag &&& 1 == 1, ← eight? histogram, bytes⟩ else none

/-- Reads the packed form of a dictionary. -/
def ofBytes (bs : Bytes) : Except CodecError Dictionary :=
  match parse? bs with
  | some d => .ok d
  | none => .error .malformed

end Dictionary
end SymbolCodec
