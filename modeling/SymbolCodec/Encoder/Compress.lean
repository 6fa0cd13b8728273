import SymbolCodec.Encoder.Chunk

/-!
Encoding lines into a bounded output. Lines are encoded one after another, chunk
by chunk, until a chunk might not fit (`Encoder.compressInto`); the lines that
are complete then form a batch (`Batch`), and the rest can be encoded into
another output (`Encoder.resume`). An output as long as the bounds of the lines
say takes all of them (`Encoder.compress`).
-/
namespace SymbolCodec

/-- What has been written to an output. -/
structure Batch where
  /-- All that is written, the part of a line that did not fit included. -/
  written : Array UInt8
  /-- How many of the bytes belong to complete lines. -/
  complete : Nat
  /-- The lengths of encoded lines, those of earlier batches before those of this
      one. -/
  lens : Array Nat
  /-- The number of complete lines in this batch. -/
  done : Nat
  deriving Repr, DecidableEq

/-- The codes of the complete lines. -/
def Batch.codes (b : Batch) : Bytes := (b.written.extract 0 b.complete).toList

namespace Encoder

/-- Encodes the chunks of a line one after another after what is written, into an
    output of some size. Stops before a chunk that might not fit, and says
    whether all were written. -/
def writeChunks (e : Encoder) (strategy : Strategy) (size : Nat) (window : Bytes)
    (written : Array UInt8) : List Bytes → Except Fault (Bytes × Array UInt8 × Bool)
  | [] => .ok (window, written, true)
  | chunk :: rest =>
    if 2 * chunk.length + 7 > size - written.size then .ok (window, written, false)
    else do
      let window := e.window window chunk
      let codes ← e.chunkCodes strategy window chunk.length (size - written.size)
      e.writeChunks strategy size window (written ++ codes) rest

/-- Encodes lines one after another into an output of some size, up to one that
    might not fit. -/
def writeLines (e : Encoder) (strategy : Strategy) (size : Nat) (window : Bytes) (batch : Batch) :
    List Bytes → Except Fault Batch
  | [] => .ok batch
  | line :: rest => do
    let (window, written, fits) ← e.writeChunks strategy size window batch.written (chunks line)
    if fits then
      e.writeLines strategy size window
        ⟨written, written.size, batch.lens.push (written.size - batch.complete), batch.done + 1⟩ rest
    else return { batch with written }

/-- Encodes lines into an output of some size, and puts their lengths after those
    given. -/
def compressInto (e : Encoder) (strategy : Strategy) (size : Nat) (lines : List Bytes)
    (lens : Array Nat) : Except Fault Batch :=
  e.writeLines strategy size emptyWindow ⟨#[], 0, lens, 0⟩ lines

/-- All lines encoded, and the length of each. -/
def compress (e : Encoder) (lines : List Bytes) : Except Fault (Bytes × List Nat) := do
  let size := lines.foldl (fun size line => size + bound line.length) 0
  let batch ← e.compressInto e.strategy size lines #[]
  return (batch.codes, batch.lens.toList)

/-- Encodes lines into outputs of the same size, until all are done or one takes
    no line. Gives the number of lines in each, the lengths and the codes. -/
def resume (e : Encoder) (size : Nat) (lens : Array Nat) :
    List Bytes → Except Fault (List Nat × List Nat × Bytes)
  | [] => .ok ([], lens.toList, [])
  | line :: rest => do
    let batch ← e.compressInto e.strategy size (line :: rest) lens
    if 0 < batch.done then
      let (rounds, lens, codes) ← e.resume size batch.lens ((line :: rest).drop batch.done)
      return (batch.done :: rounds, lens, batch.codes ++ codes)
    else return ([batch.done], batch.lens.toList, [])
termination_by lines => lines.length
decreasing_by simp only [List.length_drop, List.length_cons]; omega

/-- Encodes the chunks of a string one after another, without looking whether
    they fit. -/
def encodeChunks (e : Encoder) (size : Nat) (window : Bytes) (written : Array UInt8) :
    List Bytes → Except Fault (Array UInt8)
  | [] => .ok written
  | chunk :: rest => do
    let window := e.window window chunk
    let codes ← e.chunkCodes e.strategy window chunk.length (size - written.size)
    e.encodeChunks size window (written ++ codes) rest

/-- Encodes a string after what is in an output, which is made as long as the
    bound of the string asks for, and gives the number of bytes written. -/
def encode (e : Encoder) (data : Bytes) (output : Array UInt8) : Except Fault (Array UInt8 × Nat) := do
  let start := output.size
  let written ← e.encodeChunks (start + bound data.length) emptyWindow output (chunks data)
  return (written, written.size - start)

end Encoder
end SymbolCodec
