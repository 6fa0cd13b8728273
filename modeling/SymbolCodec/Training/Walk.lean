import SymbolCodec.Training.Count

/-!
Counting as one walk over the bytes (`Training.Walk`). The first match of a line is looked
up before the loop. In the loop a match is counted, and then the next one is looked up and
counted after it as a pair, so that the loop is one match behind the place it has come to
(`Walk.onward`); it ends only where this place is the length of the line. Each access is
checked, and a check that fails is a misstep (`Misstep`). The walk over a sample takes its
lines out of the buffer by their offsets (`Training.walk`), in the order in which the
program does.
-/
namespace SymbolCodec.Training
variable {κ : Type} [Tally κ]

/-- What counting a sample must not do. -/
inductive Misstep where
  /-- Take a line that the buffer does not have. -/
  | line
  /-- Go past the end of a line. -/
  | past
  /-- Stay at a place of a line, so that the line never ends. -/
  | standstill
  /-- Ask for the symbol of a code that the table does not have. -/
  | symbol
  /-- Count what has no count. -/
  | count
  deriving DecidableEq, Repr

/-! ### Accesses -/

/-- The bytes of a buffer between two offsets. -/
def lineBetween (buffer : Array UInt8) (start stop : Nat) : Except Misstep Bytes :=
  if start ≤ stop ∧ stop ≤ buffer.size then .ok (buffer.extract start stop).toList else .error .line

/-- The byte at a place of a line. -/
def byteAt (bs : Bytes) (place : Nat) : Except Misstep UInt8 :=
  match bs[place]? with
  | some b => .ok b
  | none => .error .past

/-- The code of the longest symbol at a place of a line. -/
def codeAt (t : Table) (line : Bytes) (place : Nat) : Except Misstep Nat :=
  if place < line.length then .ok (t.longest (line.drop place)) else .error .past

/-- The length of the symbol of a code. -/
def lengthOf (t : Table) (code : Nat) : Except Misstep Nat :=
  if code < t.codes then .ok (t.symbol code).len else .error .symbol

/-- Counts an event that has a count. -/
def increment (counters : κ) (e : Event) : Except Misstep κ :=
  if e.inRange then .ok (Tally.record counters e) else .error .count

/-! ### One line -/

/-- How far a line has been gone through. -/
structure Walk (κ : Type) where
  counters : κ
  gain : Int
  /-- Where the last match starts. -/
  start : Nat
  /-- The code of the last match, which has not been counted alone. -/
  code : Nat
  /-- The place after the last match. -/
  cur : Nat

/-- Looks up the first match of a line. -/
def Walk.begin (t : Table) (line : Bytes) (counters : κ) (gain : Int) : Except Misstep (Walk κ) := do
  let code ← codeAt t line 0
  let len ← lengthOf t code
  return ⟨counters, gain + (len - cost code), 0, code, len⟩

/-- Counts the last match, and its first byte when it is longer than a byte. -/
def Walk.countLast (w : Walk κ) (t : Table) (line : Bytes) : Except Misstep κ := do
  let counters ← increment w.counters (.single w.code)
  if (← lengthOf t w.code) ≠ 1 then increment counters (.single (← byteAt line w.start).toNat)
  else return counters

/-- Counts a code after the last match, and its first byte when it is longer than a byte. -/
def Walk.countPair (w : Walk κ) (line : Bytes) (counters : κ) (code len : Nat) : Except Misstep κ := do
  let counters ← increment counters (.pair w.code code)
  if len > 1 then increment counters (.pair w.code (← byteAt line w.cur).toNat) else return counters

/-- Looks up the next match, and counts it after the last one below the whole sample. -/
def Walk.onward (w : Walk κ) (t : Table) (line : Bytes) (fraction : Nat) (counters : κ) :
    Except Misstep (Walk κ) := do
  let code ← codeAt t line w.cur
  let len ← lengthOf t code
  let counters ← if fraction < fullFraction then w.countPair line counters code len else .ok counters
  return ⟨counters, w.gain + (len - cost code), w.cur, code, w.cur + len⟩

/-- Counts the matches from the last one on, up to the end of the line. -/
def Walk.run (t : Table) (line : Bytes) (fraction : Nat) (w : Walk κ) : Except Misstep (κ × Int) := do
  let counters ← w.countLast t line
  if w.cur = line.length then return (counters, w.gain)
  else if line.length < w.cur then .error .past
  else
    let next ← w.onward t line fraction counters
    if w.cur < next.cur then Walk.run t line fraction next else .error .standstill
termination_by line.length - w.cur
decreasing_by omega

/-! ### The sample -/

/-- Counts a line that has bytes and is not left out. -/
def walkLine (t : Table) (sample : Sample) (fraction : Nat) (state : κ × Int) (line : Bytes) (i : Nat) :
    Except Misstep (κ × Int) := do
  if line.isEmpty ∨ (sample.skipsLines ∧ Sample.skipsLine i fraction) then return state
  else (← Walk.begin t line state.1 state.2).run t line fraction

/-- Counts the lines between some offsets one after another, the first of them under a
    number. -/
def walkLines (t : Table) (sample : Sample) (fraction : Nat) (state : κ × Int) (i : Nat) :
    List (Nat × Nat) → Except Misstep (κ × Int)
  | [] => .ok state
  | (start, stop) :: rest => do
    let line ← lineBetween sample.buffer start stop
    walkLines t sample fraction (← walkLine t sample fraction state line i) (i + 1) rest

/-- Counts the lines of a sample. -/
def walk (t : Table) (sample : Sample) (fraction : Nat) (counters : κ) : Except Misstep (κ × Int) :=
  walkLines t sample fraction (counters, 0) 0 (sample.offsets.toList.zip sample.offsets.toList.tail)

end SymbolCodec.Training
