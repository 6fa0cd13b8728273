import SymbolCodec.Fault

/-!
Counts of codes and of pairs of neighbouring codes, as training gathers them
(`Tally`). What is counted is an event (`Event`); a tally records events up to a
cap and reads them back, and walks over the counts that are not zero by asking
for the next place to look at (`Tally.scan`). Events outside the range of codes
are faults: the checks are made here, once for every layout of the counts.
-/
namespace SymbolCodec

/-- The number of codes with a count: one for each byte, and one for each symbol
    of a table that is not too large. -/
abbrev countedCodes : Nat := 512

/-- The number of pairs with a count. -/
abbrev pairCells : Nat := countedCodes * countedCodes

/-- The most that the count of a code goes up to. -/
def singleCap : Nat := 255 * 256

/-- The most that the count of a pair goes up to. -/
def pairCap : Nat := 15 * 256

/-- The place of a pair, row after row. A right code beyond the row has its place
    in a later row. -/
def pairCell (left right : Nat) : Nat := left * countedCodes + right

/-- What a tally counts. -/
inductive Event where
  /-- A code is used. -/
  | single (code : Nat)
  /-- A code is used right after another. -/
  | pair (left right : Nat)
  deriving DecidableEq, Repr

/-- The event has a count. -/
def Event.inRange : Event → Bool
  | .single code => code < countedCodes
  | .pair left right => pairCell left right < pairCells

/-- A layout of the counts of codes and of pairs. -/
class Tally (κ : Type) where
  /-- The count of an event, zero outside the range. -/
  get : κ → Event → Nat
  /-- Counts an event once more, up to the cap of its kind. -/
  record : κ → Event → κ
  /-- Sets the count of a code, to the cap if the value is above it. -/
  setSingle : κ → Nat → Nat → κ
  /-- The count to look at next from a code on, and how many codes of count zero
      lie before it. -/
  nextSingle : κ → Nat → Except Fault (Nat × Nat)
  /-- The same within the row of a left code. -/
  nextPair : κ → Nat → Nat → Except Fault (Nat × Nat)

namespace Tally
variable {κ : Type} [Tally κ]

/-! ### Checked access -/

/-- The count of an event. -/
def get? (t : κ) (e : Event) : Except Fault Nat :=
  if e.inRange then .ok (get t e) else .error .codeOutOfRange

/-- Records events in order, up to the first one outside the range. -/
def recordAll (t : κ) (es : List Event) : κ × Except Fault Unit :=
  let ok := es.all Event.inRange
  ((es.takeWhile Event.inRange).foldl record t, if ok then .ok () else .error .codeOutOfRange)

/-- Sets the count of a code. -/
def setSingle? (t : κ) (code value : Nat) : κ × Except Fault Unit :=
  if code < countedCodes then (setSingle t code value, .ok ())
  else (t, .error .codeOutOfRange)

/-! ### All counts of codes -/

/-- The counts of all codes. -/
def singles (t : κ) : List Nat := (List.range countedCodes).map fun code => get t (.single code)

/-- Sets the counts of the codes in order from a list; entries beyond the range
    of codes are a fault, found when the others are set. -/
def restore (t : κ) (values : List Nat) : κ × Except Fault Unit :=
  let t := ((values.take countedCodes).zipIdx).foldl (fun t (value, code) => setSingle t code value) t
  (t, if values.length ≤ countedCodes then .ok () else .error .codeOutOfRange)

/-! ### Walking over the counts -/

/-- The places from a start up to a limit whose count is not zero, with the
    counts, as found by a function that may skip places of count zero. -/
def scan (next : Nat → Except Fault (Nat × Nat)) (limit start : Nat) :
    Except Fault (List (Nat × Nat)) :=
  if start < limit then do
    let (count, skipped) ← next start
    let place := start + skipped
    let rest ← scan next limit (place + 1)
    .ok (if count ≠ 0 ∧ place < limit then (place, count) :: rest else rest)
  else .ok []
termination_by limit - start
decreasing_by omega

/-- The codes below a limit with a count, and the counts. -/
def scanSingles (t : κ) (limit : Nat) : Except Fault (List (Nat × Nat)) :=
  scan (nextSingle t) limit 0

/-- The right codes below a limit with a count after a left code, and the
    counts. -/
def scanPairs (t : κ) (limit left : Nat) : Except Fault (List (Nat × Nat)) :=
  scan (nextPair t left) limit 0

end Tally
end SymbolCodec
