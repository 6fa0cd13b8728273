import SymbolCodec.Table
import SymbolCodec.Encoder

/-!
Finishing a symbol table (`Encoder.ofTable`). The added symbols are put into the
order of their new codes (`Table.codeOrder`); what was found under bytes and in
slots is then found under the new codes, and bytes that start no symbol are
escaped.
-/
namespace SymbolCodec

namespace Table

/-- The first added symbol is byte 0 alone, and byte 0 ends strings. -/
def keepsZero (t : Table) : Bool :=
  t.zeroTerminated && (t.added[0]?.any fun s => s.len == 1 && s.first == 0)

/-- The added symbol at a place. -/
def addedAt (t : Table) (i : Nat) : Symbol := t.added[i]?.getD .free

/-- Some symbol of three or more bytes starts with the two bytes of the symbol at
    a place. -/
def extended (t : Table) (i : Nat) : Bool :=
  t.added.any fun s => s.len > 2 && s.firstTwo == (t.addedAt i).firstTwo

/-- The places of the symbols of a length that are numbered by length, in the
    order in which they were added. -/
def ofLength (t : Table) (len : Nat) : List Nat :=
  (List.range t.added.size).filter fun i => (t.addedAt i).len == len && !(t.keepsZero && i == 0)

/-- The places of the added symbols in the order of their new codes: byte 0 where
    it ends strings, then the symbols of two bytes that are not extended, the
    extended ones backwards, those of three to eight bytes, and those of one. -/
def codeOrder (t : Table) : List Nat :=
  let pairs := t.ofLength 2
  (if t.keepsZero then [0] else [])
    ++ pairs.filter (!t.extended ·)
    ++ (pairs.filter (t.extended ·)).reverse
    ++ [3, 4, 5, 6, 7, 8, 1].flatMap t.ofLength

/-- The symbols in the order of their new codes, under these codes. -/
def renumbered (t : Table) (order : List Nat) : List Symbol :=
  order.zipIdx.map fun (i, code) => (t.addedAt i).setCode code (t.addedAt i).len

end Table

namespace Encoder

/-- The new code of an added symbol, by the place that its old one stands for. -/
def newCode (order : List Nat) (code : Nat) : Nat := order.idxOf (code - firstCode)

/-- The entry of what was found under one byte or two, if that is an added symbol. -/
def newEntry (order : List Nat) (cell : Cell) : Option Entry :=
  if cell.code ≥ firstCode then some ⟨UInt8.ofNat (newCode order cell.code), false, cell.len⟩
  else none

/-- The entries of single bytes. -/
def byteEntries (t : Table) (order : List Nat) : Vector Entry 256 :=
  t.bytes.map fun cell => (newEntry order cell).getD .escape

/-- The entries of two bytes: where no symbol of two bytes is found, that of the
    first byte. -/
def pairEntries (t : Table) (order : List Nat) (bytes : Vector Entry 256) : Vector Entry 65536 :=
  Vector.ofFn fun p => (newEntry order (t.pairs.get p)).getD (bytes.get (Word.firstOfPair p))

/-- The slots with their symbols under the new codes. -/
def newSlots (t : Table) (order : List Nat) : Slots :=
  t.slots.map fun s => s.map fun s => s.setCode (newCode order s.code) s.len

/-- Finishes a table. -/
def ofTable (t : Table) : Except Fault Encoder :=
  if t.added.size > maxSymbols then .error (.tooManySymbols t.added.size)
  else
    let order := t.codeOrder
    let bytes := byteEntries t order
    let kept := if t.keepsZero then 1 else 0
    .ok {
      symbols := (t.renumbered order).toArray
      bytes
      pairs := pairEntries t order bytes
      slots := newSlots t order
      terminator := t.terminator
      zeroTerminated := t.keepsZero
      suffixLimit := UInt8.ofNat (kept + ((t.ofLength 2).filter (!t.extended ·)).length)
      byteLimit := UInt8.ofNat (t.added.size - (t.histogram.get (lengthPlace 1) - kept))
      histogram := t.histogram.map UInt8.ofNat }

end Encoder
end SymbolCodec
