import SymbolCodec.Word
import SymbolCodec.Config

/-!
The sample that a table is trained on (`Sample`): pieces of lines, stored back
to back. Small inputs are taken whole; of larger ones, pieces are drawn by a
generator that the seed of the configuration starts (`Sample.ofLines`). The
sample gives the terminator (`Sample.terminator`), the lines that a round leaves
out (`Sample.roundLines`) and the least count of a candidate
(`Sample.threshold`).
-/
namespace SymbolCodec

/-- Lines stored back to back: line `i` lies between the offsets `i` and `i + 1`. -/
structure Sample where
  buffer : Array UInt8
  offsets : Array Nat

namespace Sample

/-- The sample without lines. -/
def empty : Sample := ⟨#[], #[0]⟩

/-- One more line at the end. -/
def push (s : Sample) (line : Array UInt8) : Sample :=
  let buffer := s.buffer ++ line
  ⟨buffer, s.offsets.push buffer.size⟩

/-- The number of lines. -/
def size (s : Sample) : Nat := s.offsets.size - 1

/-- The lines of the sample. -/
def lines (s : Sample) : List Bytes :=
  (s.offsets.toList.zip s.offsets.toList.tail).map fun (start, stop) =>
    (s.buffer.extract start stop).toList

/-! ### Drawing pieces -/

/-- The first line with any bytes from a place on, after the last line the
    first, looking at no more lines than given. -/
def seek (lines : Array (Array UInt8)) : (looks place : Nat) → Array UInt8
  | 0, _ => #[]
  | looks + 1, place =>
    let line := lines[place]?.getD #[]
    if line.isEmpty then seek lines looks (if place + 1 = lines.size then 0 else place + 1)
    else line

/-- The piece of a line that a random number picks: lines are cut at the
    multiples of the piece's length. -/
def piece (line : Array UInt8) (length : Nat) (random : UInt64) : Array UInt8 :=
  let pieces := 1 + (line.size - 1) / length
  let start := length * (random % UInt64.ofNat pieces).toNat
  line.extract start (min line.size (start + length))

/-- The piece that two steps of the generator draw: the first picks the line, the
    second the piece. -/
def drawn (lines : Array (Array UInt8)) (length : Nat) (random : UInt64) : Array UInt8 :=
  let first := Word.hash random
  let line := seek lines lines.size (first % UInt64.ofNat lines.size).toNat
  piece line length (Word.hash first)

/-- Draws pieces until the sample has the size asked for. -/
def draw (lines : Array (Array UInt8)) (target length : Nat) (s : Sample) (random : UInt64) : Sample :=
  let piece := drawn lines length random
  if s.buffer.size < target ∧ 0 < piece.size then
    draw lines target length (s.push piece) (Word.hash (Word.hash random))
  else s
termination_by target - s.buffer.size
decreasing_by
  simp only [push, Array.size_append]
  change target - (s.buffer.size + piece.size) < target - s.buffer.size
  omega

/-- The sample of lines under a configuration. -/
def ofLines (lines : List Bytes) (config : Config) : Sample :=
  let lines := lines.map List.toArray
  if lines.foldl (fun size line => size + line.size) 0 < config.sampleTarget.toNat then lines.foldl push empty
  else draw lines.toArray config.sampleTarget.toNat config.sampleLine.toNat empty (Word.hash config.seed)

/-! ### What training asks of a sample -/

/-- How often each byte occurs. -/
def byteCounts (s : Sample) : Vector Nat 256 :=
  s.buffer.foldl (fun counts b => counts.setIfInBounds b.toNat (counts.get b.toFin + 1))
    (Vector.replicate 256 0)

/-- The smallest byte among those that occur least often. -/
def rarestByte (s : Sample) : UInt8 :=
  let counts := s.byteCounts
  ((List.finRange 256).foldl (fun best b => if counts.get b < counts.get best then b else best) 0 |>
    UInt8.ofFin)

/-- The byte that no longer symbol may hold: byte 0 where it ends strings, else
    the smallest byte among those that occur least often. -/
def terminator (s : Sample) (zeroTerminated : Bool) : UInt8 :=
  if zeroTerminated then 0 else s.rarestByte

/-- A round at a fraction below the whole leaves a line out when the hash of its
    number lies above the fraction. -/
def skipsLine (line fraction : Nat) : Bool :=
  fraction < fullFraction &&
    1 + (Word.hash ((UInt64.ofNat line + 1) * UInt64.ofNat fraction) &&& 127).toNat > fraction

/-- Rounds leave lines out: a sample with fewer lines than the fraction has parts
    is always counted whole. -/
def skipsLines (s : Sample) : Bool := s.size ≥ fullFraction

/-- The lines that a round at a fraction counts: those that have bytes and are
    not left out. -/
def roundLines (s : Sample) (fraction : Nat) : List Bytes :=
  (s.lines.zipIdx.filter fun (line, i) =>
    !line.isEmpty && !(s.skipsLines && skipsLine i fraction)).map Prod.fst

/-- The least count of a candidate in a round, never more than the number of
    lines, so that what every line has is always a candidate. -/
def threshold (s : Sample) (config : Config) (fraction : Nat) : UInt64 :=
  min (config.leastCountAt fraction) (UInt64.ofNat s.size)

end Sample
end SymbolCodec
