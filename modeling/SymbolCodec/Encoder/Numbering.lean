import SymbolCodec.Encoder.OfTable

/-!
Numbering the symbols of a table in one pass (`Table.numbering`). The lengths have their
codes side by side, and each has a cursor that starts at the first of them
(`Table.firstOfLength`) and moves up with each symbol. The pairs share their codes between
two cursors that move towards each other: that of the plain ones up from the first code,
and that of the extended ones down from the last (`Table.Pass.next`). The outcome is the
order that `Table.codeOrder` lists.
-/
namespace SymbolCodec.Table

/-- The number of symbols at code 0 for their own sake: byte 0 where it ends strings. -/
def keptCount (t : Table) : Nat := if t.keepsZero then 1 else 0

/-- The first code of the symbols of a length: those of one byte come last, those of two
    first, and each other length follows the one before it. -/
def firstOfLength (t : Table) : Nat → Nat
  | 0 | 1 => t.added.size - (t.histogram.get (lengthPlace 1) - t.keptCount)
  | 2 => t.keptCount
  | len + 3 => t.firstOfLength (len + 2) + t.histogram.get (lengthPlace (len + 2))

/-- A numbering under way. -/
structure Pass where
  /-- The codes given so far, in the order of the places. -/
  codes : Array Nat
  /-- The symbols under the codes given so far. -/
  symbols : Array Symbol
  /-- The next code of the symbols of each length but two. -/
  lengths : Vector Nat 8
  /-- The next code of a pair that is not extended. -/
  plain : Nat
  /-- One above the next code of an extended pair. -/
  extended : Nat

namespace Pass

/-- Nothing is numbered but byte 0 at code 0. -/
def start (t : Table) : Pass :=
  let fresh := Array.replicate t.added.size Symbol.free
  { codes := if t.keepsZero then #[0] else #[]
    symbols := if t.keepsZero then fresh.setIfInBounds 0 ((t.addedAt 0).setCode 0 1) else fresh
    lengths := Vector.ofFn fun i => t.firstOfLength (i.val + 1)
    plain := t.firstOfLength 2
    extended := t.firstOfLength 3 }

/-- Gives the symbol at a place a code, and puts it there. -/
def give (t : Table) (i code : Nat) (pass : Pass) : Pass :=
  { pass with
    codes := pass.codes.push code
    symbols := pass.symbols.setIfInBounds code ((t.addedAt i).setCode code (t.addedAt i).len) }

/-- Gives the symbol at a place the code of its cursor, and moves the cursor. -/
def next (t : Table) (pass : Pass) (i : Nat) : Pass :=
  let len := (t.addedAt i).len
  if len = 2 then
    if t.extended i then
      { pass with extended := pass.extended - 1 }.give t i (pass.extended - 1)
    else
      { pass with plain := pass.plain + 1 }.give t i pass.plain
  else
    let code := pass.lengths.get (lengthPlace len)
    { pass with lengths := pass.lengths.setIfInBounds (lengthPlace len).val (code + 1) }.give t i code

end Pass

/-- The places that are numbered by length. -/
def places (t : Table) : List Nat := (List.range t.added.size).drop t.keptCount

/-- The symbols numbered one after another in the order in which they were added. -/
def numbering (t : Table) : Pass := t.places.foldl (Pass.next t) (Pass.start t)

end SymbolCodec.Table
