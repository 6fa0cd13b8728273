import SymbolCodec.Table
import SymbolCodec.Sample

/-!
One pass over the sample (`Training.count`). Each line of the round is cut at the
longest symbols of the table; every match is counted with its first byte, and
below the whole sample so is every match after another. What the matches save
against writing each byte by itself is the gain of the table
(`Training.gain`).
-/
namespace SymbolCodec.Training
variable {κ : Type} [Tally κ]

/-! ### What a line counts -/

/-- A match counts its code and, when it is longer than a byte, its first byte, so
    that the byte stays a candidate too. -/
def matchEvents (m : Table.Match) : List Event :=
  .single m.code :: if m.len ≠ 1 then [.single m.first.toNat] else []

/-- A match after another counts as a pair, and so does its first byte alone when
    it is longer. -/
def pairEvents (m n : Table.Match) : List Event :=
  .pair m.code n.code :: if n.len > 1 then [.pair m.code n.first.toNat] else []

/-- Each match of a line with the one after it. -/
def withNext (ms : List Table.Match) : List (Table.Match × Option Table.Match) :=
  ms.zip (ms.tail.map some ++ [none])

/-- What the matches of a line count, in order, with or without pairs. -/
def events (pairs : Bool) (ms : List Table.Match) : List Event :=
  (withNext ms).flatMap fun (m, next) =>
    matchEvents m ++ if pairs then (next.map (pairEvents m)).getD [] else []

/-! ### What a line saves -/

/-- The bytes that a code takes: bytes that start no symbol are escaped. -/
def cost (code : Nat) : Nat := if code < firstCode then 2 else 1

/-- How many bytes the matches of a line save, less than nothing when escapes
    outweigh the rest. -/
def gain (ms : List Table.Match) : Int := ms.foldl (fun gain m => gain + (m.len - cost m.code)) 0

/-! ### The pass -/

/-- Counts the lines of a round, and gives the gain of the table on them. -/
def count (t : Table) (sample : Sample) (fraction : Nat) (counters : κ) : κ × Except Fault Int :=
  let parses := (sample.roundLines fraction).map t.parse
  let (counters, outcome) :=
    Tally.recordAll counters (parses.flatMap (events (fraction < fullFraction)))
  (counters, outcome.map fun _ => parses.foldl (fun total ms => total + gain ms) 0)

end SymbolCodec.Training
