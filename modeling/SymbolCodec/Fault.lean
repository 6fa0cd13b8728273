/-!
What can go wrong. A fault is a request outside the limits that the tables and
the counters are built for (`Fault`); a codec error is a code string or a
stored dictionary that cannot be read (`CodecError`). Each cause has its text
in one function.
-/
namespace SymbolCodec

/-- A request outside the limits of a table, a counter or a buffer. -/
inductive Fault where
  /-- The table has no code left for another symbol. -/
  | tableFull (symbols : Nat)
  /-- The table has more symbols than one-byte codes can tell apart. -/
  | tooManySymbols (symbols : Nat)
  /-- A counter was asked for a code, or a pair of codes, outside its range. -/
  | codeOutOfRange
  /-- The bytes of a symbol were asked for whose length field no word can hold. -/
  | lengthOutOfRange
  /-- A code was to be written past the end of the output. -/
  | bufferOverrun
  deriving DecidableEq, Repr

/-- The text of a fault, for those that are reported with one. -/
def Fault.message? : Fault → Option String
  | .tableFull n => some s!"symbol table full at {n} symbols"
  | .tooManySymbols n => some s!"finalize: {n} symbols, at most 255"
  | .codeOutOfRange | .lengthOutOfRange | .bufferOverrun => none

/-- The version of the stored form that is written and read here. -/
def formatVersion : Nat := 20190218

/-- Why data are found to be damaged. -/
inductive Corruption where
  | escapeAtEnd
  | unknownCode
  | lineLengths
  | headMarker
  | lengthHistogram
  | missingTerminator
  | truncatedSymbols
  | trailingBytes
  | suffixLimit
  | symbolHoldsTerminator
  | slotClash
  deriving DecidableEq, Repr

/-- The text of each kind of damage. -/
def Corruption.reason : Corruption → String
  | .escapeAtEnd => "escape at end of input"
  | .unknownCode => "unknown code"
  | .lineLengths => "line lengths exceed input"
  | .headMarker => "dict head marker"
  | .lengthHistogram => "dict length histogram"
  | .missingTerminator => "dict missing zero terminator"
  | .truncatedSymbols => "dict symbols truncated"
  | .trailingBytes => "dict trailing bytes"
  | .suffixLimit => "dict suffix limit"
  | .symbolHoldsTerminator => "dict symbol holds terminator"
  | .slotClash => "dict hash slot clash"

/-- Why a code string or a stored dictionary cannot be read. -/
inductive CodecError where
  /-- The dictionary was written in another version of the form. -/
  | version (found : Nat)
  /-- The dictionary was written in the other byte order, which an encoder does
      not accept. -/
  | foreignOrder
  | corrupt (what : Corruption)
  /-- The packed form of a dictionary does not parse. -/
  | malformed
  deriving DecidableEq, Repr

/-- The text of a codec error, for those that are reported with one. -/
def CodecError.message? : CodecError → Option String
  | .version found => some s!"dict version mismatch: expect {formatVersion}, got {found}"
  | .foreignOrder => some "dict written on a machine of different endianness"
  | .corrupt what => some s!"corrupt data: {what.reason}"
  | .malformed => none

end SymbolCodec
