import SymbolCodec.Symbol

/-!
A symbol table under construction (`Table`). The codes below 256 stand for the
bytes themselves, and added symbols take the codes from there on
(`Table.add`). Symbols of one and of two bytes are found by their bytes, where a
later symbol hides an earlier one; longer symbols are found by their slot, where
an earlier symbol keeps a later one out. No symbol of several bytes holds the
terminator. The longest symbol that some bytes start with is found in at most
three looks (`Table.longest`), and cutting a line at longest symbols gives its
parse (`Table.parse`).
-/
namespace SymbolCodec

/-- The code of the first added symbol: one above the last byte. -/
abbrev firstCode : Nat := 256

/-- The most symbols that one-byte codes can number, the escape left out. -/
abbrev maxSymbols : Nat := 255

/-- What is found under one byte or two: a code and the length of its symbol. -/
structure Cell where
  code : Nat
  len : Nat
  deriving DecidableEq, Repr, Inhabited

/-- The code and the length in one number, the length higher. -/
def Cell.packed (c : Cell) : Nat := c.code + c.len * 4096

/-- One more symbol of a length in the counts of symbols by length, shortest
    first. -/
def countLength (histogram : Vector Nat 8) (len : Nat) : Vector Nat 8 :=
  Vector.ofFn fun i => if i.val + 1 = len then histogram.get i + 1 else histogram.get i

/-- A symbol table under construction. -/
structure Table where
  /-- The added symbols in order. -/
  added : Array Symbol
  /-- What is found under one byte. -/
  bytes : Vector Cell 256
  /-- What is found under two bytes, the first byte lower. -/
  pairs : Vector Cell 65536
  slots : Slots
  /-- The number of added symbols of each length. -/
  histogram : Vector Nat 8
  terminator : UInt8
  zeroTerminated : Bool

namespace Table

/-- The table without symbols. -/
def empty (terminator : UInt8) (zeroTerminated : Bool) : Table :=
  let bytes : Vector Cell 256 := Vector.ofFn fun b => ⟨b, 1⟩
  { added := #[]
    bytes
    pairs := Vector.ofFn fun p => bytes.get (Word.firstOfPair p)
    slots := .empty
    histogram := Vector.replicate 8 0
    terminator
    zeroTerminated }

/-- The number of codes in use. -/
def codes (t : Table) : Nat := firstCode + t.added.size

/-- The symbol of a code. -/
def symbol (t : Table) (code : Nat) : Symbol :=
  if code < firstCode then .ofByte (UInt8.ofNat code) code
  else t.added[code - firstCode]?.getD .free

/-! ### Adding symbols -/

/-- The symbol under the next code, without bits above its length. -/
def numbered (t : Table) (s : Symbol) : Symbol :=
  let s := s.setCode t.codes s.len
  { s with word := s.word &&& s.mask }

/-- A symbol of several bytes does not hold the terminator, and one of three or
    more finds its slot free. -/
def accepts (t : Table) (s : Symbol) : Bool :=
  !(s.len > 1 && s.holds t.terminator) && !(s.len > 2 && t.slots.taken s)

/-- Puts a symbol under its first byte or two, or into its slot. -/
def place (t : Table) (s : Symbol) : Table :=
  let cell : Cell := ⟨s.code, s.len⟩
  { t with
    added := t.added.push s
    bytes := if s.len = 1 then t.bytes.setIfInBounds (Word.first s.word) cell else t.bytes
    pairs := if s.len = 2 then t.pairs.setIfInBounds (Word.pair s.word) cell else t.pairs
    slots := if s.len > 2 then t.slots.put s else t.slots
    histogram := countLength t.histogram s.len }

/-- Adds a symbol under the next code, or leaves the table as it is when the
    symbol is not accepted. -/
def add (t : Table) (s : Symbol) : Except Fault (Table × Bool) :=
  if t.codes ≥ Symbol.codeLimit then .error (.tableFull t.added.size)
  else if s.len = 0 ∨ ¬ s.fits then .error .lengthOutOfRange
  else
    let s := t.numbered s
    if t.accepts s then .ok (t.place s, true) else .ok (t, false)

/-- Adds symbols in order. -/
def addAll (t : Table) (symbols : List Symbol) : Except Fault Table :=
  symbols.foldlM (fun t s => return (← t.add s).1) t

/-! ### Finding symbols -/

/-- The code of the longest symbol that some bytes start with, which is that of
    the first byte itself if there is no other. -/
def longest (t : Table) (input : Bytes) : Nat :=
  let head := input.take maxLength
  let word := Word.pack head
  match (t.slots.find? word).filter fun s => s.len ≤ head.length with
  | some s => s.code
  | none =>
    let pair := (t.pairs.get (Word.pair word)).code
    if head.length ≥ 2 ∧ pair ≥ firstCode then pair else (t.bytes.get (Word.first word)).code

/-- A symbol found in a line. -/
structure Match where
  code : Nat
  len : Nat
  /-- The first byte of what was found. -/
  first : UInt8
  deriving DecidableEq, Repr

/-- The matches of a line, after those given. -/
def parseOnto (t : Table) (found : Array Match) : Bytes → Array Match
  | [] => found
  | b :: rest =>
    let code := t.longest (b :: rest)
    let len := (t.symbol code).len
    t.parseOnto (found.push ⟨code, len, b⟩) (rest.drop (len - 1))
termination_by line => line.length
decreasing_by simp only [List.length_drop, List.length_cons]; omega

/-- A line cut from the left at longest symbols. -/
def parse (t : Table) (line : Bytes) : List Match := (t.parseOnto #[] line).toList

theorem toList_parseOnto (t : Table) (found : Array Match) (line : Bytes) :
    (t.parseOnto found line).toList = found.toList ++ t.parse line := by
  match line with
  | [] => simp [parse, parseOnto]
  | b :: rest =>
    rw [parse, parseOnto, toList_parseOnto, parseOnto, toList_parseOnto t (#[].push _)]
    simp
termination_by line.length
decreasing_by all_goals simp only [List.length_drop, List.length_cons]; omega

@[simp] theorem parse_nil (t : Table) : t.parse [] = [] := by simp [parse, parseOnto]

/-- A line is cut after the longest symbol that it starts with. -/
theorem parse_cons (t : Table) (b : UInt8) (rest : Bytes) :
    t.parse (b :: rest) =
      ⟨t.longest (b :: rest), (t.symbol (t.longest (b :: rest))).len, b⟩
        :: t.parse (rest.drop ((t.symbol (t.longest (b :: rest))).len - 1)) := by
  rw [parse, parseOnto, toList_parseOnto]
  simp

end Table
end SymbolCodec
