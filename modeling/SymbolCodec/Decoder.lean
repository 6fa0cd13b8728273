import SymbolCodec.Encoder

/-!
Turning codes back into bytes (`Decoder`). Each code has an expansion, which is
empty for codes that are not in use; the escape code announces a byte as it is.
Decoding stops at the first thing that cannot be read, and what was written
before it stays (`Decoder.decode`).
-/
namespace SymbolCodec

/-- What each code stands for. -/
structure Decoder where
  /-- The bytes of each code, none for a code that is not in use. -/
  expansions : Vector Bytes 256
  /-- The number of symbols. -/
  symbols : Nat

namespace Decoder

/-- The decoder of symbols in the order of their codes. -/
def ofSymbols (symbols : List Symbol) : Decoder where
  expansions := Vector.ofFn fun code => (symbols[code.val]?.map Symbol.bytes).getD []
  symbols := symbols.length

/-- The decoder for what an encoder writes. -/
def ofEncoder (e : Encoder) : Decoder := ofSymbols e.symbols.toList

/-- What a code stands for. -/
def expansion (d : Decoder) (code : UInt8) : Bytes := d.expansions.get code.toFin

/-- Decodes codes after what is in an output. Gives the output as far as it was
    written and, if there is one, the fault that stopped it. -/
def decodeOnto (d : Decoder) (output : Array UInt8) : Bytes → Array UInt8 × Option Corruption
  | [] => (output, none)
  | code :: rest =>
    if code = escapeCode then
      match rest with
      | [] => (output, some .escapeAtEnd)
      | b :: rest => d.decodeOnto (output.push b) rest
    else
      let bytes := d.expansion code
      if bytes.isEmpty then (output, some .unknownCode)
      else d.decodeOnto (output ++ bytes) rest

/-- Decodes codes after what is in an output, and gives the number of bytes
    written or why the codes cannot be read. -/
def decode (d : Decoder) (codes : Bytes) (output : Array UInt8) :
    Array UInt8 × Except CodecError Nat :=
  let start := output.size
  match d.decodeOnto output codes with
  | (output, none) => (output, .ok (output.size - start))
  | (output, some what) => (output, .error (.corrupt what))

/-- Decodes lines one after another, cutting the codes at the given lengths. -/
def decompressOnto (d : Decoder) (output : Array UInt8) (lens : Array Nat) (codes : Bytes) :
    List Nat → Except CodecError (Bytes × List Nat)
  | [] => .ok (output.toList, lens.toList)
  | len :: rest =>
    let line := codes.take len
    if line.length < len then .error (.corrupt .lineLengths)
    else
      match d.decode line output with
      | (output, .ok n) => d.decompressOnto output (lens.push n) (codes.drop len) rest
      | (_, .error e) => .error e

/-- The decoded lines put together, and the length of each. -/
def decompress (d : Decoder) (codes : Bytes) (lens : List Nat) :
    Except CodecError (Bytes × List Nat) :=
  d.decompressOnto #[] #[] codes lens

end Decoder
end SymbolCodec
