import SymbolCodec.Encoder.Chunk
import SymbolCodec.Decoder

/-!
An encoder as it is stored (`Dictionary`): a head of eight bytes, the number of
symbols by length, and the bytes of the symbols in the order of their codes.
The codes and lengths of the symbols follow from their number by length
(`Dictionary.storedLengths`), so that a dictionary is read by cutting its bytes
(`Dictionary.symbols`). Every field may be damaged, and reading says how.
-/
namespace SymbolCodec

/-- A stored encoder. -/
structure Dictionary where
  /-- A word that holds, from the high end, the version of the form, the limit of
      the suffixes, the terminator, the number of symbols and a mark of one. -/
  head : Vector UInt8 8
  zeroTerminated : Bool
  histogram : Vector UInt8 8
  /-- The symbols one after another; byte 0 under code 0 is left out. -/
  bytes : Bytes
  deriving DecidableEq, Repr

/-- What the head of a dictionary says. -/
structure Head where
  suffixLimit : UInt8
  terminator : UInt8
  symbols : UInt8
  /-- The head was written in the other byte order. -/
  foreign : Bool
  deriving DecidableEq, Repr

namespace Head

/-- The word holds the version of the form and the mark. -/
def valid (w : UInt64) : Bool := w >>> 32 == UInt64.ofNat formatVersion && w &&& 0xFF == 1

/-- What a word with the version and the mark says. -/
def ofWord (w : UInt64) (foreign : Bool) : Head :=
  ⟨Word.byte w 3, Word.byte w 2, Word.byte w 1, foreign⟩

/-- The word of a head. -/
def word (suffixLimit terminator : UInt8) (symbols : Nat) : UInt64 :=
  (UInt64.ofNat formatVersion <<< 32) ||| (suffixLimit.toUInt64 <<< 24)
    ||| (terminator.toUInt64 <<< 16) ||| (UInt64.ofNat symbols <<< 8) ||| 1

end Head

namespace Dictionary

/-- The dictionary with zeros everywhere. -/
def blank : Dictionary := ⟨Vector.replicate 8 0, false, Vector.replicate 8 0, []⟩

/-- The dictionary of an encoder. -/
def ofEncoder (e : Encoder) : Dictionary where
  head :=
    let word := Head.word e.suffixLimit e.terminator e.symbols.size
    Vector.ofFn fun i => Word.byte word i
  zeroTerminated := e.zeroTerminated
  histogram := e.histogram
  bytes := (e.symbols.toList.drop (if e.zeroTerminated then 1 else 0)).flatMap Symbol.bytes

/-- Reads the head, in the order in which it is written here or in the other. -/
def readHead (d : Dictionary) : Except CodecError Head :=
  let native := Word.pack d.head.toList
  let swapped := Word.pack d.head.toList.reverse
  if Head.valid native then .ok (.ofWord native false)
  else if Head.valid swapped then .ok (.ofWord swapped true)
  else if native &&& 0xFF == 1 then .error (.version (native >>> 32).toNat)
  else .error (.corrupt .headMarker)

/-- The number of symbols, as the head says. -/
def symbolCount (d : Dictionary) : Except CodecError Nat := return (← d.readHead).symbols.toNat

/-! ### The symbols -/

/-- The number of symbols of byte 0 that are not stored. -/
def implied (d : Dictionary) : Nat := if d.zeroTerminated then 1 else 0

/-- The lengths of the stored symbols in the order of their codes. -/
def storedLengths (d : Dictionary) : List Nat :=
  (List.finRange 8).tail.flatMap (fun i => List.replicate (d.histogram.get i).toNat (i.val + 1))
    ++ List.replicate ((d.histogram.get (lengthPlace 1)).toNat - d.implied) 1

/-- Cuts a byte string into pieces of the given lengths, which must take all of
    it. -/
def cut : List Nat → Bytes → Except Corruption (List Bytes)
  | [], [] => .ok []
  | [], _ :: _ => .error .trailingBytes
  | len :: lens, bs =>
    if (bs.take len).length < len then .error .truncatedSymbols
    else return bs.take len :: (← cut lens (bs.drop len))

/-- A codec error of damaged data. -/
def damaged {α : Type} : Except Corruption α → Except CodecError α := Except.mapError .corrupt

/-- The symbols in the order of their codes, with their codes. -/
def symbols (d : Dictionary) : Except CodecError (List Symbol) := do
  let count ← d.symbolCount
  if d.histogram.foldl (fun count n => count + n.toNat) 0 ≠ count then .error (.corrupt .lengthHistogram)
  else if (d.histogram.get (lengthPlace 1)).toNat < d.implied then .error (.corrupt .missingTerminator)
  else
    let pieces ← damaged (cut d.storedLengths d.bytes)
    let stored := (pieces.zipIdx d.implied).map fun (bs, code) =>
      (Symbol.ofBytes bs).setCode code bs.length
    return (if d.zeroTerminated then [.ofByte 0 0] else []) ++ stored

end Dictionary

/-- The decoder for what the encoder of a dictionary writes. The byte order does
    not matter for it. -/
def Decoder.ofDictionary (d : Dictionary) : Except CodecError Decoder :=
  return .ofSymbols (← d.symbols)

end SymbolCodec
