import SymbolCodec.Table
import SymbolCodec.Encoder

/-!
What is shown to a reader. A symbol is its bytes, with those outside printable
ASCII escaped, and then its fields (`Symbol.text`); a table under construction
(`Table.text`) and a finished one (`Encoder.text`) are their symbols, one on a
line, between the numbers that describe them.
-/
namespace SymbolCodec

/-! ### Symbols -/

namespace Escape

/-- A hexadecimal digit, in lower case. -/
def hexDigit (n : Nat) : Char := if n < 10 then Char.ofNat (48 + n) else Char.ofNat (87 + n)

/-- The character that opens an escape. -/
def backslash : Char := Char.ofNat 92

/-- A byte as shown: tab, line feed and carriage return have a letter, quotes
    and the backslash stand for themselves behind a backslash, other printable
    ASCII stands for itself, and the rest are written with two hexadecimal
    digits. -/
def byte (b : UInt8) : List Char :=
  let n := b.toNat
  if n = 9 then [backslash, 't']
  else if n = 10 then [backslash, 'n']
  else if n = 13 then [backslash, 'r']
  else if n = 34 ∨ n = 39 ∨ n = 92 then [backslash, Char.ofNat n]
  else if 32 ≤ n ∧ n < 127 then [Char.ofNat n]
  else [backslash, 'x', hexDigit (n / 16), hexDigit (n % 16)]

/-- A byte string as shown. -/
def bytes (bs : Bytes) : String := String.ofList (bs.flatMap byte)

end Escape

/-- The text of a symbol. -/
def Symbol.text (s : Symbol) : Except Fault String :=
  if s.isFree then .ok "<free>"
  else do
    let bs ← s.checkedBytes
    .ok s!"{Escape.bytes bs}\tignored: {s.ignored}, code: {s.code}, len: {s.len}"

/-! ### Tables -/

/-- Numbers in brackets with commas between them. -/
def bracketed (ns : List Nat) : String := "[" ++ ", ".intercalate (ns.map toString) ++ "]"

/-- One line for each symbol, numbered from a code on. -/
def symbolLines (symbols : List Symbol) (start : Nat) : Except Fault String := do
  let texts ← symbols.mapM Symbol.text
  return String.join (texts.zipIdx.map fun (text, i) => s!"symbols[{start + i}]: {text}\n")

/-- The text of a table: its terminator, its symbols and their number by length. -/
def Table.text (t : Table) : Except Fault String := do
  let symbols ← symbolLines t.added.toList firstCode
  return s!"Table (building), terminator {t.terminator.toNat}:\nn_symbols: {t.added.size}\n"
    ++ symbols ++ s!"len_histo: {bracketed t.histogram.toList}\n"

/-- The text of an encoder: its terminator, its symbols, its limits and the number
    of symbols by length. -/
def Encoder.text (e : Encoder) : Except Fault String := do
  let symbols ← symbolLines e.symbols.toList 0
  return s!"Encode, terminator {e.terminator.toNat}:\nn_symbols: {e.symbols.size}\n"
    ++ symbols
    ++ s!"suffix_lim: {e.suffixLimit.toNat}, byte_lim: {e.byteLimit.toNat}\n"
    ++ s!"len_histo: {bracketed (e.histogram.toList.map UInt8.toNat)}\n"

end SymbolCodec
