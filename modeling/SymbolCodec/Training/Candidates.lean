import Std.Data.HashMap
import SymbolCodec.Table
import SymbolCodec.Config

/-!
The next table of a round. Every symbol with a count, and below the whole sample
every symbol after another, is put forward with its count
(`Training.contributions`); the counts that are enough add up, byte string by
byte string, to what each candidate would gain (`Training.candidates`). What is
put forward and what it gains are words of 64 bits, and products and sums of
them wrap around. Candidates have an order, the larger gain first, then the
longer symbol, then the smaller word (`Candidate.compare`). The next table has
the terminator and then the best candidates in this order, as long as there are
codes (`Training.makeTable`).
-/
namespace SymbolCodec

/-! ### The order of candidates -/

/-- A symbol with what it would gain. -/
structure Candidate where
  symbol : Symbol
  gain : UInt64
  deriving DecidableEq, Repr

namespace Candidate

/-- Compares by gain, then by length, then by word, where the smaller word is
    the greater candidate. -/
def compare (a b : Candidate) : Ordering :=
  (Ord.compare a.gain b.gain).then
    ((Ord.compare a.symbol.len b.symbol.len).then (Ord.compare b.symbol.word a.symbol.word))

/-- Neither candidate comes before the other. -/
def equal (a b : Candidate) : Bool := a.compare b == .eq

/-- The candidates from the greatest to the least. -/
def ranked (cs : List Candidate) : List Candidate :=
  cs.mergeSort fun a b => a.compare b != .lt

end Candidate

namespace Training
variable {κ : Type} [Tally κ]

/-! ### Putting symbols forward -/

/-- The symbol may be one of a pair: it is short enough to be made longer, and it
    does not start with the terminator. -/
def joins (t : Table) (s : Symbol) : Bool := s.len < maxLength && s.first != t.terminator

/-- What the pairs of a left code put forward: the left symbol with each right one
    after it. -/
def pairContributions (t : Table) (counters : κ) (left : Nat) : Except Fault (List (Symbol × UInt64)) := do
  let rights ← Tally.scanPairs counters t.codes left
  return (rights.filter fun (right, _) => joins t (t.symbol right)).map fun (right, count) =>
    (Symbol.concat (t.symbol left) (t.symbol right), UInt64.ofNat count)

/-- What the codes with a count put forward, single bytes with more weight, and,
    below the whole sample, their pairs. -/
def contributions (t : Table) (counters : κ) (fraction : Nat) (config : Config) :
    Except Fault (List (Symbol × UInt64)) := do
  let singles ← Tally.scanSingles counters t.codes
  let lists ← singles.mapM fun (code, count) => do
    let s := t.symbol code
    let weight := if s.len = 1 then config.byteWeight else 1
    let pairs ← if fraction < fullFraction ∧ joins t s then pairContributions t counters code else pure []
    return (s, weight * UInt64.ofNat count) :: pairs
  return lists.flatten

/-! ### Gains -/

/-- The sum of the gains of each byte string. -/
def totals (gains : List (Bytes × UInt64)) : Std.HashMap Bytes UInt64 :=
  gains.foldl (fun sums (bs, gain) => sums.insert bs (sums.getD bs 0 + gain)) ∅

/-- The candidates of a round with their gains: what is put forward with at least
    a least count gains its length each time. The terminator is given the
    highest count first, under the code that it has. -/
def candidates (t : Table) (counters : κ) (fraction : Nat) (least : UInt64) (config : Config) :
    κ × Except Fault (Std.HashMap Bytes UInt64) :=
  let (counters, outcome) :=
    Tally.setSingle? counters (t.bytes.get t.terminator.toFin).code singleCap
  (counters, do
    outcome
    let found ← contributions t counters fraction config
    return totals ((found.filter fun (_, count) => count ≥ least).map fun (s, count) =>
      (s.bytes, count * UInt64.ofNat s.len)))

/-! ### The next table -/

/-- The candidates other than the terminator, from the greatest to the least. -/
def ranking (terminator : UInt8) (gains : List (Bytes × UInt64)) : List Candidate :=
  Candidate.ranked ((gains.filter fun (bs, _) => bs != [terminator]).map fun (bs, gain) =>
    ⟨.ofBytes bs, gain⟩)

/-- Adds candidates in order while there are codes; one whose slot is taken is left
    out. -/
def fill (t : Table) : List Candidate → Except Fault Table
  | [] => .ok t
  | c :: rest =>
    if t.added.size < maxSymbols then do
      let (t, _) ← t.add c.symbol
      fill t rest
    else .ok t

/-- The table of the terminator and the best candidates. -/
def select (terminator : UInt8) (zeroTerminated : Bool) (gains : List (Bytes × UInt64)) :
    Except Fault Table := do
  let (t, _) ← (Table.empty terminator zeroTerminated).add (.ofBytes [terminator])
  fill t (ranking terminator gains)

/-- The table that follows from the counts of a round. -/
def makeTable (t : Table) (counters : κ) (fraction : Nat) (least : UInt64) (config : Config) :
    κ × Except Fault Table :=
  let (counters, gains) := candidates t counters fraction least config
  (counters, do select t.terminator t.zeroTerminated (← gains).toList)

end Training
end SymbolCodec
