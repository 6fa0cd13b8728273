import SymbolCodec.Symbol

/-!
A finished symbol table (`Encoder`). Its symbols have the codes from 0 on, in the
order of the lengths 2, 3, …, 8, 1, except that byte 0 keeps code 0 where it ends
strings. What is found under one byte or two is an entry that says what to
write and how far to go on (`Entry`); a byte that starts no symbol is escaped.
`Encoder.find?` gives the code of the longest symbol that some bytes start
with.
-/
namespace SymbolCodec

/-- The code that announces a byte as it is. -/
def escapeCode : UInt8 := 255

/-- What to write for what is found under one byte or two, and how many bytes
    that takes in. -/
structure Entry where
  code : UInt8
  /-- The first byte follows the code as it is. -/
  escaped : Bool
  len : Nat
  deriving DecidableEq, Repr, Inhabited

/-- The entry of a byte that starts no symbol. -/
def Entry.escape : Entry := ⟨escapeCode, true, 1⟩

/-- A finished symbol table. -/
structure Encoder where
  /-- The symbols in the order of their codes. -/
  symbols : Array Symbol
  bytes : Vector Entry 256
  /-- What is found under two bytes, the first byte lower. -/
  pairs : Vector Entry 65536
  slots : Slots
  terminator : UInt8
  /-- Code 0 is byte 0, which ends strings. -/
  zeroTerminated : Bool
  /-- The codes before it, after that of byte 0, are symbols of two bytes that
      no longer symbol starts with. -/
  suffixLimit : UInt8
  /-- The codes before it, after that of byte 0, are symbols of several bytes. -/
  byteLimit : UInt8
  /-- The number of symbols of each length. -/
  histogram : Vector UInt8 8

namespace Encoder

/-- The number of codes before those of symbols of several bytes. -/
def firstLong (e : Encoder) : UInt8 := if e.zeroTerminated then 1 else 0

/-- The code of the longest symbol that some bytes start with, if any. -/
def find? (e : Encoder) (input : Bytes) : Option UInt8 :=
  let head := input.take maxLength
  let word := Word.pack head
  match (e.slots.find? word).filter fun s => s.len ≤ head.length with
  | some s => some (UInt8.ofNat s.code)
  | none =>
    let entry := if head.length ≥ 2 then e.pairs.get (Word.pair word) else e.bytes.get (Word.first word)
    if entry.escaped then none else some entry.code

end Encoder
end SymbolCodec
