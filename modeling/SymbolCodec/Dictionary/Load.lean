import SymbolCodec.Dictionary

/-!
The encoder of a dictionary (`Encoder.ofDictionary`). The symbols keep the codes
that the dictionary gives them, and the encoder relies on what a finished table
has: the limit of the suffixes lies within the symbols of two bytes, no symbol
of several bytes holds the terminator, and each longer symbol has a slot of its
own. A dictionary without that is damaged.
-/
namespace SymbolCodec

namespace Dictionary

/-- What is found under one byte: the last symbol of that byte, or an escape. -/
def byteEntries (symbols : List Symbol) : Vector Entry 256 :=
  symbols.foldl (fun bytes s =>
    if s.len = 1 then
      bytes.setIfInBounds (Word.first s.word) ⟨UInt8.ofNat s.code, false, 1⟩
    else bytes) (Vector.replicate 256 Entry.escape)

/-- Puts symbols of several bytes under their first two bytes or into their
    slots. -/
def placeLong (terminator : UInt8) (pairs : Vector Entry 65536) (slots : Slots) :
    List Symbol → Except Corruption (Vector Entry 65536 × Slots)
  | [] => .ok (pairs, slots)
  | s :: rest =>
    if s.len > 1 && s.holds terminator then .error .symbolHoldsTerminator
    else if s.len = 1 then placeLong terminator pairs slots rest
    else if s.len = 2 then
      let entry : Entry := ⟨UInt8.ofNat s.code, false, 2⟩
      placeLong terminator (pairs.setIfInBounds (Word.pair s.word) entry) slots rest
    else if slots.taken s then .error .slotClash
    else placeLong terminator pairs (slots.put s) rest

end Dictionary

/-- The encoder of a dictionary that was written in the byte order of this one. -/
def Encoder.ofDictionary (d : Dictionary) : Except CodecError Encoder := do
  let head ← d.readHead
  if head.foreign then .error .foreignOrder
  else
    let symbols ← d.symbols
    if head.suffixLimit.toNat < d.implied
        ∨ head.suffixLimit.toNat > d.implied + (d.histogram.get (lengthPlace 2)).toNat then
      .error (.corrupt .suffixLimit)
    else
      let bytes := Dictionary.byteEntries symbols
      let pairs := Vector.ofFn fun p => bytes.get (Word.firstOfPair p)
      let (pairs, slots) ← Dictionary.damaged (Dictionary.placeLong head.terminator pairs .empty symbols)
      return {
        symbols := symbols.toArray
        bytes, pairs, slots
        terminator := head.terminator
        zeroTerminated := d.zeroTerminated
        suffixLimit := head.suffixLimit
        byteLimit := UInt8.ofNat (symbols.length - ((d.histogram.get (lengthPlace 1)).toNat - d.implied))
        histogram := d.histogram }

end SymbolCodec
