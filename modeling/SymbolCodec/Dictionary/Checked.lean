import SymbolCodec.Dictionary.Load

/-!
Loading a dictionary with each operation checked. The counts by length are single
bytes, the symbols are read one after another at a place that moves over the stored
bytes (`Cursor`), and the tables of an encoder are read and written at numbers. Each
difference, each sum of bytes, each shift and each place is checked, and a check that
fails is an overstep (`Overstep`), which is not the same as a dictionary that is refused
(`Halt`). Reading the symbols (`Dictionary.readSymbols`) and building the encoder
(`Dictionary.buildEncoder`) are made of these operations, in the order in which the
program makes them.
-/
namespace SymbolCodec

/-- What loading a dictionary must not do. -/
inductive Overstep where
  /-- Take more from a number than it is. -/
  | below
  /-- Add more to a byte than it has room for. -/
  | above
  /-- Shift a word by all of its bits. -/
  | shift
  /-- Use a place that a table or a word does not have. -/
  | outside
  deriving DecidableEq, Repr

/-- Why loading a dictionary ends early. -/
inductive Halt where
  | refused (what : CodecError)
  | overstep (what : Overstep)
  deriving DecidableEq, Repr

/-! ### Operations -/

namespace Checked

/-- A difference of numbers. -/
def minus (n m : Nat) : Except Halt Nat := if m ≤ n then .ok (n - m) else .error (.overstep .below)

/-- A difference of bytes. -/
def minusByte (a b : UInt8) : Except Halt UInt8 := if b ≤ a then .ok (a - b) else .error (.overstep .below)

/-- A sum of bytes. -/
def plusByte (a b : UInt8) : Except Halt UInt8 :=
  if a.toNat + b.toNat < UInt8.size then .ok (a + b) else .error (.overstep .above)

section
variable {α : Type} {n : Nat}

/-- What a table holds at a place. -/
def readAt (table : Vector α n) (i : Nat) : Except Halt α :=
  match table[i]? with
  | some a => .ok a
  | none => .error (.overstep .outside)

/-- A table with something else at a place. -/
def writeAt (table : Vector α n) (i : Nat) (a : α) : Except Halt (Vector α n) :=
  if i < n then .ok (table.setIfInBounds i a) else .error (.overstep .outside)

end

/-- A symbol with a code and a length. -/
def setCode (s : Symbol) (code len : Nat) : Except Halt Symbol := do
  return { s with code := code % Symbol.codeLimit, len := len, ignored := (← minus maxLength len) * 8 }

/-- Keeps the low bytes of a word, as many as the length says. -/
def mask (len : Nat) : Except Halt UInt64 := do
  let bits := (← minus maxLength len) * 8
  if bits < 64 then return Word.allOnes >>> UInt64.ofNat bits else .error (.overstep .shift)

/-- The symbol of some bytes, with no code yet. -/
def ofBytes (bs : Bytes) : Except Halt Symbol := do
  let len := min bs.length maxLength
  setCode ⟨Word.load bs &&& (← mask len), 0, 0, 0⟩ Symbol.unassigned len

/-- One of the bytes of a symbol is the given one. -/
def holds (s : Symbol) (b : UInt8) : Except Halt Bool := (s.checkedHolds b).mapError fun _ => .overstep .outside

/-- The symbol is of several bytes and one of them is the given one. A single byte is not
    looked at. -/
def longHolds (s : Symbol) (b : UInt8) : Except Halt Bool := if s.len > 1 then holds s b else .ok false

end Checked

/-! ### Symbols -/

/-- The symbols that are read so far, and the place of the bytes to come. -/
structure Cursor where
  symbols : Array Symbol
  pos : Nat
  deriving DecidableEq, Repr

namespace Cursor

/-- Reads the next symbol, of a length, under the next code. -/
def next (c : Cursor) (bytes : Bytes) (len : Nat) : Except Halt Cursor :=
  if c.pos + len ≤ bytes.length then do
    let s ← Checked.ofBytes ((bytes.drop c.pos).take len)
    return ⟨c.symbols.push (← Checked.setCode s c.symbols.size len), c.pos + len⟩
  else .error (.refused (.corrupt .truncatedSymbols))

/-- Reads some symbols of one length. -/
def readMany (c : Cursor) (bytes : Bytes) (len : Nat) : Nat → Except Halt Cursor
  | 0 => .ok c
  | count + 1 => do (← c.next bytes len).readMany bytes len count

/-- Reads the symbols of each of some lengths, as many as a dictionary counts. -/
def readLengths (c : Cursor) (d : Dictionary) : List Nat → Except Halt Cursor
  | [] => .ok c
  | len :: rest => do
    let stored ← Checked.readAt d.histogram (← Checked.minus len 1)
    let count ← Checked.minus stored.toNat (if len = 1 then d.implied else 0)
    (← c.readMany d.bytes len count).readLengths d rest

end Cursor

namespace Dictionary

/-- The lengths in the order in which symbols are stored. -/
def lengthOrder : List Nat := [2, 3, 4, 5, 6, 7, 8, 1]

/-- Reads the symbols of a dictionary. -/
def readSymbols (d : Dictionary) : Except Halt (Array Symbol) := do
  let count ← d.symbolCount.mapError .refused
  if d.histogram.foldl (fun count n => count + n.toNat) 0 ≠ count then
    .error (.refused (.corrupt .lengthHistogram))
  else if (← Checked.readAt d.histogram 0).toNat < d.implied then
    .error (.refused (.corrupt .missingTerminator))
  else
    let c ← Cursor.readLengths ⟨if d.zeroTerminated then #[.ofByte 0 0] else #[], 0⟩ d lengthOrder
    if c.pos ≠ d.bytes.length then .error (.refused (.corrupt .trailingBytes)) else return c.symbols

/-! ### The encoder -/

/-- Puts single bytes into their table, the later over the earlier. -/
def writeBytes (table : Vector Entry 256) : List Symbol → Except Halt (Vector Entry 256)
  | [] => .ok table
  | s :: rest =>
    if s.len = 1 then do
      let table ← Checked.writeAt table s.first.toNat ⟨UInt8.ofNat s.code, false, 1⟩
      writeBytes table rest
    else writeBytes table rest

/-- Puts symbols of several bytes under their first two bytes or into their slots. -/
def writeLong (terminator : UInt8) (pairs : Vector Entry 65536) (slots : Slots) :
    List Symbol → Except Halt (Vector Entry 65536 × Slots)
  | [] => .ok (pairs, slots)
  | s :: rest => do
    if (← Checked.longHolds s terminator) then .error (.refused (.corrupt .symbolHoldsTerminator))
    else if s.len = 1 then writeLong terminator pairs slots rest
    else if s.len = 2 then
      let pairs ← Checked.writeAt pairs s.firstTwo.toNat ⟨UInt8.ofNat s.code, false, 2⟩
      writeLong terminator pairs slots rest
    else
      let place := (s.slotHash &&& 1023).toNat
      if (← Checked.readAt slots place).isSome then .error (.refused (.corrupt .slotClash))
      else
        let slots ← Checked.writeAt slots place (some s)
        writeLong terminator pairs slots rest

/-- Builds the encoder of a dictionary. -/
def buildEncoder (d : Dictionary) : Except Halt Encoder := do
  let head ← d.readHead.mapError .refused
  if head.foreign then .error (.refused .foreignOrder)
  else
    let symbols ← d.readSymbols
    let zero : UInt8 := if d.zeroTerminated then 1 else 0
    let ones ← Checked.minusByte (← Checked.readAt d.histogram 0) zero
    let byteLimit ← Checked.minusByte (UInt8.ofNat symbols.size) ones
    if head.suffixLimit < zero then .error (.refused (.corrupt .suffixLimit))
    else if head.suffixLimit > (← Checked.plusByte zero (← Checked.readAt d.histogram 1)) then
      .error (.refused (.corrupt .suffixLimit))
    else
      let bytes ← writeBytes (Vector.replicate 256 Entry.escape) symbols.toList
      let pairs ← Vector.ofFnM fun p : Fin 65536 => Checked.readAt bytes (p.val % 256)
      let (pairs, slots) ← writeLong head.terminator pairs .empty symbols.toList
      return {
        symbols, bytes, pairs, slots
        terminator := head.terminator
        zeroTerminated := d.zeroTerminated
        suffixLimit := head.suffixLimit
        byteLimit
        histogram := d.histogram }

end Dictionary
end SymbolCodec
