import SymbolCodec.Training

/-!
Training whatever the order of the candidates (`trainAnyOrder`). The gains are collected in
entries, one for the symbols of the same bytes (`Training.entries`). In which order the
entries are handed over is left open, and so is which one of equal candidates a heap gives
back first (`Candidate.Pops`); what a run may come to is therefore a set of
outcomes (`Outcomes`).
-/
namespace SymbolCodec

/-! ### Choices -/

/-- What a run that leaves something open may come to. -/
def Outcomes (α : Type) : Type := Except Fault α → Prop

namespace Outcomes

/-- A run that leaves nothing open. -/
def only {α : Type} (run : Except Fault α) : Outcomes α := fun outcome => outcome = run

/-- Anything of a kind. -/
def anyOf {α : Type} (kind : α → Prop) : Outcomes α := fun outcome => ∃ a, kind a ∧ outcome = .ok a

/-- A run goes on from whatever comes first, and ends with a fault that comes first. -/
def andThen {α β : Type} (first : Outcomes α) (next : α → Outcomes β) : Outcomes β := fun outcome =>
  (∃ a, first (.ok a) ∧ next a outcome) ∨ ∃ fault, first (.error fault) ∧ outcome = .error fault

instance : Monad Outcomes where
  pure a := only (.ok a)
  bind := andThen

end Outcomes

/-- The orders in which a heap may give candidates back: each time one that no other is
    greater than. -/
inductive Candidate.Pops : List Candidate → List Candidate → Prop
  | nil : Pops [] []
  | pop {heap rest popped : List Candidate} {c : Candidate} : heap.Perm (c :: rest) →
      (∀ d ∈ rest, c.compare d ≠ .lt) → Pops rest popped → Pops heap (c :: popped)

namespace Training
variable {κ : Type} [Tally κ]

/-! ### Entries -/

/-- A gain more: for the entry of the same symbol, or for a new one. -/
def addGain (s : Symbol) (gain : UInt64) : List Candidate → List Candidate
  | [] => [⟨s, gain⟩]
  | c :: rest => if c.symbol.same s then ⟨c.symbol, c.gain + gain⟩ :: rest else c :: addGain s gain rest

/-- The entries of what is put forward with at least a least count. -/
def entries (found : List (Symbol × UInt64)) (least : UInt64) : List Candidate :=
  (found.filter fun (_, count) => count ≥ least).foldl
    (fun es (s, count) => addGain s (count * UInt64.ofNat s.len) es) []

/-- The entries that go to the heap: all but that of the terminator. -/
def handed (terminator : UInt8) (found : List (Symbol × UInt64)) (least : UInt64) : List Candidate :=
  (entries found least).filter fun c => !c.symbol.same (.ofBytes [terminator])

/-! ### Training -/

/-- The tables that may follow from the counts of a round. -/
def anyTable (t : Table) (counters : κ) (fraction : Nat) (least : UInt64) (config : Config) :
    Outcomes Table := do
  let (counters, outcome) := Tally.setSingle? counters (t.bytes.get t.terminator.toFin).code singleCap
  Outcomes.only outcome
  let found ← Outcomes.only (contributions t counters fraction config)
  let heap ← Outcomes.anyOf (handed t.terminator found least).Perm
  let popped ← Outcomes.anyOf (Candidate.Pops heap)
  let (next, _) ← Outcomes.only ((Table.empty t.terminator t.zeroTerminated).add (.ofBytes [t.terminator]))
  Outcomes.only (fill next popped)

/-- The rounds that may come from a fraction up to the whole sample. -/
def anyRounds (fresh : κ) (sample : Sample) (config : Config) (fraction : UInt32) (t : Table)
    (best : Option Round) (log : List Notice) : Outcomes (Round × List Notice) := do
  let (counters, gain) := count t sample fraction.toNat fresh
  let gain ← Outcomes.only gain
  let log := log ++ [.round fraction gain t.added.size]
  let best := Round.better best ⟨t, gain, Tally.singles counters⟩
  if fraction.toNat < fullFraction then
    let next ← anyTable t counters fraction.toNat (sample.threshold config fraction.toNat) config
    anyRounds fresh sample config (config.following fraction) next best log
  else pure (best, log)
termination_by config.roundsAfter fraction
decreasing_by exact config.roundsAfter_following_lt ‹_›

/-- What training on a sample that has bytes may come to. -/
def anyOnSample (fresh : κ) (sample : Sample) (config : Config) : Outcomes (Encoder × List Notice) := do
  let terminator := sample.terminator config.zeroTerminated
  let start := Table.empty terminator config.zeroTerminated
  let (best, log) ← anyRounds fresh sample config config.firstFraction start none []
  let (counters, outcome) := Tally.restore fresh best.counts
  Outcomes.only outcome
  let table ← anyTable best.table counters fullFraction (sample.threshold config fullFraction) config
  let encoder ← Outcomes.only (Encoder.ofTable table)
  pure (encoder, log ++ [.finished best.gain terminator table.added.size])

end Training

/-- What training on lines may come to, whatever the order of the candidates. -/
def trainAnyOrder (lines : List Bytes) (config : Config) : Outcomes (Encoder × List Notice) := do
  let sample := Sample.ofLines lines config
  if sample.buffer.isEmpty then
    let encoder ← Outcomes.only (Encoder.ofTable (Table.empty 0 config.zeroTerminated))
    pure (encoder, [])
  else Training.anyOnSample (Counters.empty config.layout) sample config

end SymbolCodec
