import SymbolCodec.Encoder

/-!
Writing the codes of one chunk. A chunk is at most 511 bytes of a line; it is
read through a window that holds the terminator after it, and after that
whatever earlier chunks have left there (`Encoder.window`). At each place one
step decides what to write and how far to go (`Encoder.step`), in one of three
ways that write the same codes (`Strategy`). Most steps write the first byte
ahead before they know whether it is needed, and for that the output must have
room (`Step.reach`).

Apart from windows, limits and strategies there is the plain rule: a chunk is cut
from the left at the longest symbols that its rest starts with
(`Encoder.greedy`), and a line is encoded chunk by chunk (`Encoder.greedyLine`).
-/
namespace SymbolCodec

/-- The most bytes of a line that are encoded at a time. -/
abbrev chunkLength : Nat := 511

/-- The length of the window: a chunk, the terminator and a word after it. -/
def windowLength : Nat := chunkLength + 1 + maxLength

/-- The most bytes that lines of a length are encoded to, with the room that
    writing ahead takes. -/
def bound (len : Nat) : Nat := 2 * len + 7 * ((len + chunkLength - 1) / chunkLength)

/-- The ways to decide a step. -/
inductive Strategy where
  /-- Look under two bytes first, and take a symbol there that no longer one
      starts with. -/
  | pairsFirst
  /-- Look for a longer symbol first, and then go as far as the entry says. -/
  | entryLength
  /-- Look for a longer symbol first, and then tell symbols of two bytes from
      those of one by their codes. -/
  | codeLimit
  deriving DecidableEq, Repr

/-- What one step writes and how far it goes. -/
structure Step where
  written : Bytes
  /-- How many bytes of the input are taken in after the first. -/
  extra : Nat
  /-- How many free bytes of the output the step touches. -/
  reach : Nat
  deriving DecidableEq, Repr

namespace Encoder

/-- The strategy that suits an encoder by the lengths of its symbols. -/
def strategy (e : Encoder) : Strategy :=
  let h (len : Fin 8) : Nat := (e.histogram.get len).toNat
  if 100 * h 1 > 65 * e.symbols.size ∧ 100 * e.suffixLimit.toNat > 95 * h 1 then .pairsFirst
  else if h 0 > 24 ∧ h 0 < 92 ∧ (h 0 < 43 ∨ h 6 + h 7 < 29) ∧ (h 0 < 72 ∨ h 2 < 72) then
    .entryLength
  else .codeLimit

/-- The code lies between those before the symbols of several bytes and a limit. -/
def below (e : Encoder) (code limit : UInt8) : Bool := code - e.firstLong < limit - e.firstLong

/-- The code of an entry, and the first byte where the entry says so. -/
def entryBytes (entry : Entry) (word : UInt64) : Bytes :=
  if entry.escaped then [entry.code, word.toUInt8] else [entry.code]

/-- One step at the start of some bytes. -/
def step (e : Encoder) (strategy : Strategy) (input : Bytes) : Step :=
  let word := Word.load input
  let entry := e.pairs.get (Word.pair word)
  if strategy = .pairsFirst ∧ e.below entry.code e.suffixLimit then ⟨[entry.code], 1, 1⟩
  else
    match e.slots.find? word with
    | some s => ⟨[UInt8.ofNat s.code], s.len - 1, 2⟩
    | none =>
      if strategy = .entryLength then ⟨entryBytes entry word, entry.len - 1, 2⟩
      else if e.below entry.code e.byteLimit then ⟨[entry.code], 1, 2⟩
      else ⟨entryBytes entry word, 0, 2⟩

/-- The codes of the first bytes of a window, as many as are left of the chunk,
    for an output with some room. -/
def chunkCodes (e : Encoder) (strategy : Strategy) (window : Bytes) (left room : Nat) :
    Except Fault Bytes :=
  if left = 0 then .ok []
  else
    let step := e.step strategy window
    if room < step.reach then .error .bufferOverrun
    else do
      let rest ← e.chunkCodes strategy (window.drop (step.extra + 1)) (left - (step.extra + 1))
        (room - step.written.length)
      return step.written ++ rest
termination_by left
decreasing_by omega

/-- The window with a chunk at its start, the terminator after it, and the rest
    as it was. -/
def window (e : Encoder) (before chunk : Bytes) : Bytes :=
  chunk ++ e.terminator :: before.drop (chunk.length + 1)

end Encoder

/-- The window before any chunk. -/
def emptyWindow : Bytes := List.replicate windowLength 0

/-- The chunks of a line, each but the last as long as a chunk may be. -/
def chunks (line : Bytes) : List Bytes := cutEvery chunkLength line

/-! ### The plain rule -/

namespace Encoder

/-- The symbol of a code. -/
def symbol (e : Encoder) (code : UInt8) : Symbol := e.symbols[code.toNat]?.getD .free

/-- The codes of a chunk: that of the longest symbol, or the escape code and the
    byte where no symbol starts. -/
def greedy (e : Encoder) : Bytes → Bytes
  | [] => []
  | b :: rest =>
    match e.find? (b :: rest) with
    | some code => code :: e.greedy (rest.drop ((e.symbol code).len - 1))
    | none => escapeCode :: b :: e.greedy rest
termination_by chunk => chunk.length
decreasing_by all_goals simp only [List.length_drop, List.length_cons]; omega

/-- The codes of a line. -/
def greedyLine (e : Encoder) (line : Bytes) : Bytes := (chunks line).flatMap e.greedy

@[simp] theorem greedyLine_nil (e : Encoder) : e.greedyLine [] = [] := by
  simp [greedyLine, chunks, cutEvery]

end Encoder
end SymbolCodec
