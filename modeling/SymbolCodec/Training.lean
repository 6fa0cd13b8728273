import SymbolCodec.Training.Count
import SymbolCodec.Training.Candidates
import SymbolCodec.Encoder.OfTable

/-!
Training an encoder on lines (`train`). Round after round a growing fraction of
the sample is counted with the last table, and the counts make the next one
(`Training.rounds`). The table with the greatest gain, the latest among equals,
is kept with the counts of its codes, and these make the table that is
finished.
-/
namespace SymbolCodec

namespace Training
variable {κ : Type} [Tally κ]

/-- A round that has been gone through: its table, the gain of it and the counts
    of its codes. -/
structure Round where
  table : Table
  gain : Int
  counts : List Nat

/-- The better of two rounds, the later one if they gain the same. -/
def Round.better (best : Option Round) (r : Round) : Round :=
  match best with
  | some b => if r.gain ≥ b.gain then r else b
  | none => r

/-- Goes through the rounds from a fraction up to the whole sample, and gives the
    best one. -/
def rounds (fresh : κ) (sample : Sample) (config : Config) (fraction : UInt32) (t : Table)
    (best : Option Round) (log : List Notice) : Except Fault (Round × List Notice) := do
  let (counters, gain) := count t sample fraction.toNat fresh
  let gain ← gain
  let log := log ++ [.round fraction gain t.added.size]
  let best := Round.better best ⟨t, gain, Tally.singles counters⟩
  if fraction.toNat < fullFraction then
    let (_, next) := makeTable t counters fraction.toNat (sample.threshold config fraction.toNat) config
    rounds fresh sample config (config.following fraction) (← next) best log
  else return (best, log)
termination_by config.roundsAfter fraction
decreasing_by exact config.roundsAfter_following_lt ‹_›

/-- Trains on a sample that has bytes. -/
def onSample (fresh : κ) (sample : Sample) (config : Config) :
    Except Fault (Encoder × List Notice) := do
  let terminator := sample.terminator config.zeroTerminated
  let start := Table.empty terminator config.zeroTerminated
  let (best, log) ← rounds fresh sample config config.firstFraction start none []
  let (counters, outcome) := Tally.restore fresh best.counts
  outcome
  let (_, table) :=
    makeTable best.table counters fullFraction (sample.threshold config fullFraction) config
  let table ← table
  let encoder ← Encoder.ofTable table
  return (encoder, log ++ [.finished best.gain terminator table.added.size])

end Training

/-- Trains an encoder on lines, and reports how it went. Lines without any byte
    give an encoder without symbols. -/
def train (lines : List Bytes) (config : Config) : Except Fault (Encoder × List Notice) := do
  let sample := Sample.ofLines lines config
  if sample.buffer.isEmpty then
    let encoder ← Encoder.ofTable (Table.empty 0 config.zeroTerminated)
    return (encoder, [])
  else Training.onSample (Counters.empty config.layout) sample config

end SymbolCodec
