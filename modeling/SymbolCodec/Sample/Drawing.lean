import SymbolCodec.Sample

/-!
Drawing a sample step by step (`Sample.Drawing`). The outer loop asks for pieces until
the sample is large enough; for each it picks a line by the generator and looks for one
with bytes from there on, from the first line again after the last (`Drawing.step`).
What a step takes by a number is checked: the line it looks at, the remainders and
quotients, the bytes of a piece (`Sample.cut`). A check that fails is a misdraw
(`Misdraw`), and a run of any number of steps ends with the first (`Drawing.run`).
Nothing here says that a run comes to an end.
-/
namespace SymbolCodec.Sample

/-- What drawing must not do. -/
inductive Misdraw where
  /-- Pick a line where there is none. -/
  | noLines
  /-- Look at a line that is not there. -/
  | line
  /-- Cut a line that has no bytes. -/
  | noBytes
  /-- Cut pieces of no length. -/
  | noLength
  /-- Take bytes that the line does not have. -/
  | slice
  deriving DecidableEq, Repr

/-- The piece of a line that a random number picks. -/
def cut (line : Array UInt8) (length : Nat) (random : UInt64) : Except Misdraw (Array UInt8) :=
  if line.size = 0 then .error .noBytes
  else if length = 0 then .error .noLength
  else
    let pieces := 1 + (line.size - 1) / length
    let start := length * (random % UInt64.ofNat pieces).toNat
    let stop := min line.size (start + length)
    if start ≤ stop ∧ stop ≤ line.size then .ok (line.extract start stop) else .error .slice

/-- Where drawing is. -/
inductive Drawing where
  /-- Before the outer loop asks whether the sample is large enough. -/
  | more (s : Sample) (random : UInt64)
  /-- In the inner loop, at the line of a place. -/
  | seeking (s : Sample) (random : UInt64) (place : Nat)
  | done (s : Sample)

namespace Drawing

/-- One step of the loops. A drawing that is done stays as it is. -/
def step (lines : Array (Array UInt8)) (target length : Nat) : Drawing → Except Misdraw Drawing
  | more s random =>
    if s.buffer.size < target then
      let random := Word.hash random
      if lines.size = 0 then .error .noLines
      else .ok (seeking s random (random % UInt64.ofNat lines.size).toNat)
    else .ok (done s)
  | seeking s random place =>
    match lines[place]? with
    | none => .error .line
    | some line =>
      if line.isEmpty then .ok (seeking s random (if place + 1 = lines.size then 0 else place + 1))
      else
        let random := Word.hash random
        (cut line length random).map fun piece => more (s.push piece) random
  | done s => .ok (done s)

/-- A number of steps. -/
def run (lines : Array (Array UInt8)) (target length : Nat) : Nat → Drawing → Except Misdraw Drawing
  | 0, d => .ok d
  | steps + 1, d => (step lines target length d).bind (run lines target length steps)

/-- A small input is taken whole before the loops. -/
def start (lines : Array (Array UInt8)) (config : Config) : Drawing :=
  if lines.foldl (fun size line => size + line.size) 0 < config.sampleTarget.toNat then
    done (lines.foldl push empty)
  else more empty (Word.hash config.seed)

/-- What a number of steps makes of an input. -/
def ofLines (input : List Bytes) (config : Config) (steps : Nat) : Except Misdraw Drawing :=
  let lines := (input.map List.toArray).toArray
  run lines config.sampleTarget.toNat config.sampleLine.toNat steps (start lines config)

end Drawing
end SymbolCodec.Sample
