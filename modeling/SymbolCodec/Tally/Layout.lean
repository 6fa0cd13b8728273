import SymbolCodec.Tally.Halved

/-!
The layouts of counts. A tally may have a cell of its own for each code and for
each pair (`WholeTally`), where the walk looks at every place and skips none, or
have its counts in two halves. Which layout is used is chosen when a tally is
made (`Counters`).
-/
namespace SymbolCodec

/-- One cell for each count. -/
structure WholeTally where
  codes : Vector Nat countedCodes
  pairs : Vector Nat pairCells

namespace WholeTally

/-- All counts are zero. -/
def empty : WholeTally := ⟨Vector.replicate _ 0, Vector.replicate _ 0⟩

/-- The count of an event. -/
def get (t : WholeTally) : Event → Nat
  | .single code => t.codes[code]?.getD 0
  | .pair left right => t.pairs[pairCell left right]?.getD 0

/-- A cell raised by one below a cap. -/
def raise {n : Nat} (cells : Vector Nat n) (cap i : Nat) : Vector Nat n :=
  let count := cells[i]?.getD 0
  if count < cap then cells.setIfInBounds i (count + 1) else cells

/-- Counts an event once more, up to the cap of its kind. -/
def record (t : WholeTally) : Event → WholeTally
  | .single code => { t with codes := raise t.codes singleCap code }
  | .pair left right => { t with pairs := raise t.pairs pairCap (pairCell left right) }

/-- Sets the count of a code, to the cap if the value is above it. -/
def setSingle (t : WholeTally) (code value : Nat) : WholeTally :=
  { t with codes := t.codes.setIfInBounds code (min value singleCap) }

instance : Tally WholeTally where
  get := get
  record := record
  setSingle := setSingle
  nextSingle t code := return (← if (Event.single code).inRange then .ok (t.get (.single code))
    else .error .codeOutOfRange, 0)
  nextPair t left right := return (← if (Event.pair left right).inRange
    then .ok (t.get (.pair left right)) else .error .codeOutOfRange, 0)

end WholeTally

/-! ### Either layout -/

/-- How counts are laid out. -/
inductive Layout where
  | whole
  | halved
  deriving DecidableEq, Repr

/-- A tally of either layout. -/
inductive Counters where
  | whole (t : WholeTally)
  | halved (t : HalvedTally)

namespace Counters

/-- A tally of the given layout in which all counts are zero. -/
def empty : Layout → Counters
  | .whole => .whole .empty
  | .halved => .halved .empty

instance : Tally Counters where
  get
    | .whole t => Tally.get t
    | .halved t => Tally.get t
  record
    | .whole t, e => .whole (Tally.record t e)
    | .halved t, e => .halved (Tally.record t e)
  setSingle
    | .whole t, code, value => .whole (Tally.setSingle t code value)
    | .halved t, code, value => .halved (Tally.setSingle t code value)
  nextSingle
    | .whole t => Tally.nextSingle t
    | .halved t => Tally.nextSingle t
  nextPair
    | .whole t => Tally.nextPair t
    | .halved t => Tally.nextPair t

end Counters
end SymbolCodec
