import SymbolCodec.Tally

/-!
Counts in two halves (`HalvedTally`): a low byte, and a high part that is raised
as soon as the low byte leaves zero, so that a count is zero exactly when its
high part is. The high parts of codes are bytes; those of pairs take four bits,
two to a byte. A walk over the counts reads eight bytes of high parts at a time
and skips the zeros among them (`HalvedTally.nextSingle`,
`HalvedTally.nextPair`).
-/
namespace SymbolCodec

/-- A low byte and a high part for each count. -/
structure HalvedTally where
  codeHighs : Vector UInt8 countedCodes
  codeLows : Vector UInt8 countedCodes
  /-- Two high parts to a byte, the one of the even right code low. -/
  pairHighs : Vector UInt8 (pairCells / 2)
  pairLows : Vector UInt8 pairCells

namespace HalvedTally

/-- All counts are zero. -/
def empty : HalvedTally :=
  ⟨Vector.replicate _ 0, Vector.replicate _ 0, Vector.replicate _ 0, Vector.replicate _ 0⟩

/-! ### One count -/

/-- The count of a high part and a low byte: the high part is one ahead while
    the low byte is not zero. -/
def join (high low : UInt8) : Nat :=
  (high.toNat - if low = 0 then 0 else 1) * 256 + low.toNat

/-- The four bits of a byte that belong to a right code. -/
def nibble (byte : UInt8) (right : Nat) : UInt8 :=
  if right % 2 = 0 then byte &&& 15 else byte >>> 4

/-- One in the four bits of a byte that belong to a right code. -/
def nibbleOne (right : Nat) : UInt8 := if right % 2 = 0 then 1 else 16

/-- The place of the byte that holds the high part of a pair. -/
def highCell (left right : Nat) : Nat := left * (countedCodes / 2) + right / 2

/-- The count of an event. -/
def get (t : HalvedTally) : Event → Nat
  | .single code => join (t.codeHighs[code]?.getD 0) (t.codeLows[code]?.getD 0)
  | .pair left right =>
    join (nibble (t.pairHighs[highCell left right]?.getD 0) right)
      (t.pairLows[pairCell left right]?.getD 0)

/-- Counts a code once more, unless its low byte is zero and its high part full. -/
def recordSingle (t : HalvedTally) (code : Nat) : HalvedTally :=
  let low := t.codeLows[code]?.getD 0
  if low = 0 then
    let high := t.codeHighs[code]?.getD 0
    if high = 255 then t
    else { t with
      codeHighs := t.codeHighs.setIfInBounds code (high + 1)
      codeLows := t.codeLows.setIfInBounds code 1 }
  else { t with codeLows := t.codeLows.setIfInBounds code (low + 1) }

/-- Counts a pair once more, unless its low byte is zero and its high part full. -/
def recordPair (t : HalvedTally) (left right : Nat) : HalvedTally :=
  let cell := pairCell left right
  let low := t.pairLows[cell]?.getD 0
  if low = 0 then
    let highs := t.pairHighs[highCell left right]?.getD 0
    if nibble highs right = 15 then t
    else { t with
      pairHighs := t.pairHighs.setIfInBounds (highCell left right) (highs + nibbleOne right)
      pairLows := t.pairLows.setIfInBounds cell 1 }
  else { t with pairLows := t.pairLows.setIfInBounds cell (low + 1) }

/-- Counts an event once more, up to the cap of its kind. -/
def record (t : HalvedTally) : Event → HalvedTally
  | .single code => t.recordSingle code
  | .pair left right => t.recordPair left right

/-- Sets the count of a code, to the cap if the value is above it. -/
def setSingle (t : HalvedTally) (code value : Nat) : HalvedTally :=
  let value := min value singleCap
  let low := value % 256
  { t with
    codeLows := t.codeLows.setIfInBounds code (UInt8.ofNat low)
    codeHighs := t.codeHighs.setIfInBounds code
      (UInt8.ofNat (value / 256 + if low = 0 then 0 else 1)) }

/-! ### Skipping zeros -/

/-- Eight bytes from a place on, with zeros beyond the end. -/
def window {n : Nat} (cells : Vector UInt8 n) (start : Nat) : List UInt8 :=
  (List.range 8).map fun i => cells[start + i]?.getD 0

/-- The high parts in a byte for pairs, the low one first. -/
def nibbles (byte : UInt8) : List UInt8 := [byte &&& 15, byte >>> 4]

/-- How many zeros to skip at the front of a window: all of them, but never its
    last place. -/
def skipZeros (highs : List UInt8) : Nat :=
  min (highs.takeWhile (· == 0)).length (highs.length - 1)

/-- The count to look at next from a code on, and how many codes of count zero
    lie before it. -/
def nextSingle (t : HalvedTally) (code : Nat) : Nat × Nat :=
  let highs := window t.codeHighs code
  let skipped := skipZeros highs
  let high := highs[skipped]?.getD 0
  let place := code + skipped
  if place ≥ countedCodes ∨ high = 0 then (0, skipped)
  else (join high (t.codeLows[place]?.getD 0), skipped)

/-- The count to look at next from a right code on within the row of a left
    code, and how many codes of count zero lie before it. The window may run on
    into the next row, whose places lie beyond the range of codes. -/
def nextPair (t : HalvedTally) (left right : Nat) : Nat × Nat :=
  let highs := ((window t.pairHighs (highCell left right)).flatMap nibbles).drop (right % 2)
  let skipped := skipZeros highs
  let high := highs[skipped]?.getD 0
  let place := right + skipped
  if place ≥ countedCodes ∨ high = 0 then (0, skipped)
  else (join high (t.pairLows[pairCell left place]?.getD 0), skipped)

instance : Tally HalvedTally where
  get := get
  record := record
  setSingle := setSingle
  nextSingle t code := .ok (t.nextSingle code)
  nextPair t left right := .ok (t.nextPair left right)

end HalvedTally
end SymbolCodec
