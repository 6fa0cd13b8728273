import SymbolCodec.Encoder.Compress

/-!
Encoding in memory. A chunk is copied into a scratch buffer and read from it in words,
and the codes go to an output byte by byte (`Buffers`). Each access to either is
checked, and a check that fails is a breach (`Breach`). Filling an output with lines
(`Encoder.fillOutput`), compressing lines (`Encoder.compressInMemory`) and encoding one
string (`Encoder.encodeInMemory`) are made of these accesses, in the order in which the
program makes them.
-/
namespace SymbolCodec

/-- What encoding in memory must not do. -/
inductive Breach where
  /-- Go past the end of the scratch buffer. -/
  | scratch
  /-- Write past the end of the output. -/
  | output
  /-- Be behind the end of the output, with less than no room left. -/
  | room
  /-- Take in no byte in a step, so that the chunk never ends. -/
  | standstill
  /-- Leave a line over where the output has room for all. -/
  | lineLeft
  deriving DecidableEq, Repr

/-- The memory that encoding works on. -/
structure Buffers where
  /-- The chunk, the terminator after it, and what earlier chunks have left. -/
  scratch : Array UInt8
  output : Array UInt8
  /-- Where the next code goes. -/
  pos : Nat
  deriving DecidableEq, Repr

/-- The number of bytes that are written for an entry. -/
def Entry.width (entry : Entry) : Nat := if entry.escaped then 2 else 1

namespace Buffers

/-- A scratch buffer of zeros, and an output that is written from a place on. -/
def start (output : Array UInt8) (pos : Nat) : Buffers := ⟨Array.replicate windowLength 0, output, pos⟩

/-! ### Accesses -/

/-- How much of the output is free. -/
def room (b : Buffers) : Except Breach Nat :=
  if b.pos ≤ b.output.size then .ok (b.output.size - b.pos) else .error .room

/-- Writes a byte to the output, some places ahead of the next code. -/
def write (b : Buffers) (ahead : Nat) (byte : UInt8) : Except Breach Buffers :=
  if b.pos + ahead < b.output.size then .ok { b with output := b.output.setIfInBounds (b.pos + ahead) byte }
  else .error .output

/-- Keeps some of the bytes that are written, and goes on after them. -/
def advance (b : Buffers) (count : Nat) : Buffers := { b with pos := b.pos + count }

/-- Copies bytes to the scratch buffer from a place on. -/
def copy (b : Buffers) (i : Nat) : Bytes → Except Breach Buffers
  | [] => .ok b
  | byte :: rest =>
    if i < b.scratch.size then { b with scratch := b.scratch.setIfInBounds i byte }.copy (i + 1) rest
    else .error .scratch

/-- The word at a place of the scratch buffer. -/
def word (b : Buffers) (i : Nat) : Except Breach UInt64 :=
  if i + maxLength ≤ b.scratch.size then .ok (Word.load (b.scratch.extract i (i + maxLength)).toList)
  else .error .scratch

/-! ### Chunks -/

/-- One step at a place of the scratch buffer, and the place to go on at. The first byte
    is written after the next code before it is known whether it is needed. -/
def encodeStep (b : Buffers) (e : Encoder) (strategy : Strategy) (cur : Nat) : Except Breach (Buffers × Nat) := do
  let word ← b.word cur
  let entry := e.pairs.get (Word.pair word)
  if strategy = .pairsFirst ∧ e.below entry.code e.suffixLimit then
    return ((← b.write 0 entry.code).advance 1, cur + 2)
  else
    let b ← b.write 1 word.toUInt8
    match e.slots.find? word with
    | some s => return ((← b.write 0 (UInt8.ofNat s.code)).advance 1, cur + s.len)
    | none =>
      let b ← b.write 0 entry.code
      if strategy = .entryLength then return (b.advance entry.width, cur + entry.len)
      else if e.below entry.code e.byteLimit then return (b.advance 1, cur + 2)
      else return (b.advance entry.width, cur + 1)

/-- Steps from a place on, up to the end of a chunk of some length. -/
def encodeSteps (b : Buffers) (e : Encoder) (strategy : Strategy) (length cur : Nat) : Except Breach Buffers :=
  if cur < length then do
    let (b, next) ← b.encodeStep e strategy cur
    if cur < next then b.encodeSteps e strategy length next else .error .standstill
  else .ok b
termination_by length - cur
decreasing_by omega

/-- Encodes a chunk from the scratch buffer, where the terminator keeps a symbol from
    being found that runs on after the chunk. -/
def encodeChunk (b : Buffers) (e : Encoder) (strategy : Strategy) (chunk : Bytes) : Except Breach Buffers := do
  let b ← b.copy 0 (chunk ++ [e.terminator])
  b.encodeSteps e strategy chunk.length 0

/-! ### Lines -/

/-- Encodes the chunks of a line, up to one that might not fit, and says whether all
    were encoded. -/
def encodeLine (b : Buffers) (e : Encoder) (strategy : Strategy) : List Bytes → Except Breach (Buffers × Bool)
  | [] => .ok (b, true)
  | chunk :: rest => do
    if 2 * chunk.length + 7 > (← b.room) then return (b, false)
    else
      let b ← b.encodeChunk e strategy chunk
      b.encodeLine e strategy rest

/-- Encodes the chunks of a string, without looking whether they fit. -/
def encodeString (b : Buffers) (e : Encoder) (strategy : Strategy) : List Bytes → Except Breach Buffers
  | [] => .ok b
  | chunk :: rest => do
    let b ← b.encodeChunk e strategy chunk
    b.encodeString e strategy rest

end Buffers

/-- An output that lines have been written to. -/
structure Filled where
  buffers : Buffers
  /-- The lengths of encoded lines, after those that were there before. -/
  lens : Array Nat
  /-- The number of complete lines. -/
  done : Nat
  deriving DecidableEq, Repr

/-- Encodes lines one after another, up to one that might not fit. -/
def Filled.encodeLines (f : Filled) (e : Encoder) (strategy : Strategy) : List Bytes → Except Breach Filled
  | [] => .ok f
  | line :: rest => do
    let (b, fits) ← f.buffers.encodeLine e strategy (chunks line)
    if fits then
      Filled.encodeLines ⟨b, f.lens.push (b.pos - f.buffers.pos), f.done + 1⟩ e strategy rest
    else return { f with buffers := b }

namespace Encoder

/-- Encodes lines into an output from its start on, and puts their lengths after those
    given. -/
def fillOutput (e : Encoder) (strategy : Strategy) (output : Array UInt8) (lines : List Bytes) (lens : Array Nat) :
    Except Breach Filled :=
  Filled.encodeLines ⟨.start output 0, lens, 0⟩ e strategy lines

/-- All lines encoded into an output as long as their bounds say, which is then cut after
    the codes, and the length of each. -/
def compressInMemory (e : Encoder) (lines : List Bytes) : Except Breach (Bytes × List Nat) := do
  let size := lines.foldl (fun size line => size + bound line.length) 0
  let f ← e.fillOutput e.strategy (Array.replicate size 0) lines #[]
  if f.done = lines.length then
    return ((f.buffers.output.extract 0 (f.lens.foldl (· + ·) 0)).toList, f.lens.toList)
  else .error .lineLeft

/-- Encodes a string after what is in an output, which is made longer by the bound of
    the string and then cut after the codes. Gives the number of bytes written. -/
def encodeInMemory (e : Encoder) (data : Bytes) (output : Array UInt8) : Except Breach (Array UInt8 × Nat) := do
  let longer := output ++ Array.replicate (bound data.length) 0
  let b ← (Buffers.start longer output.size).encodeString e e.strategy (chunks data)
  return (b.output.extract 0 b.pos, b.pos - output.size)

end Encoder
end SymbolCodec
