import SymbolCodec.Proofs.Loading

/-!
What a decoder reads. A code string is made of items (`Decoder.Item`): the code of a symbol,
or a byte as it is after the escape code. Every string is a list of items and a rest that
starts with none (`Decoder.exists_items`), and the decoder writes the bytes of the items
and stops at the rest (`Decoder.decodeOnto_items`, `Decoder.Stuck.decodeOnto_eq`). So it
accepts exactly the lists of items, one string after another as both together, and lines
exactly if each lies inside the codes and is one (`Decoder.ReadsItems`,
`Decoder.readsItems_of_made`).
-/
namespace SymbolCodec.Decoder

/-! ### Items -/

/-- What code strings are made of. -/
inductive Item where
  | symbol (code : UInt8)
  /-- A byte as it is, announced by the escape code. -/
  | literal (b : UInt8)
  deriving DecidableEq, Repr

namespace Item

def codes : Item → Bytes
  | symbol code => [code]
  | literal b => [escapeCode, b]

/-- The code is that of one of so many symbols. -/
def Valid (n : Nat) : Item → Prop
  | symbol code => code.toNat < n
  | literal _ => True

def bytes (symbols : List Symbol) : Item → Bytes
  | symbol code => (symbols[code.toNat]?.map Symbol.bytes).getD []
  | literal b => [b]

end Item

/-- Codes that start with no item, and what is wrong with them. -/
inductive Stuck (n : Nat) : Bytes → Corruption → Prop
  | escapeAtEnd : Stuck n [escapeCode] .escapeAtEnd
  | unknownCode {code : UInt8} (rest : Bytes) : n ≤ code.toNat → code ≠ escapeCode → Stuck n (code :: rest) .unknownCode

theorem Stuck.reason_eq {n : Nat} {rest : Bytes} {what : Corruption} (stuck : Stuck n rest what) :
    what.reason = if rest = [escapeCode] then "escape at end of input" else "unknown code" := by
  cases stuck with
  | escapeAtEnd => rfl
  | unknownCode rest high other => simp [Corruption.reason, other]

theorem ne_escapeCode_of_lt {n : Nat} (few : n ≤ 255) {code : UInt8} (low : code.toNat < n) : code ≠ escapeCode := by
  rintro rfl
  have value : escapeCode.toNat = 255 := rfl
  omega

/-- Codes are a list of items, up to a rest that starts with none. -/
theorem exists_items (n : Nat) : ∀ codes : Bytes, ∃ items : List Item, (∀ item ∈ items, item.Valid n) ∧
    (codes = items.flatMap Item.codes ∨ ∃ rest what, Stuck n rest what ∧ codes = items.flatMap Item.codes ++ rest)
  | [] => ⟨[], by simp, .inl rfl⟩
  | code :: rest => by
    by_cases escape : code = escapeCode
    · cases rest with
      | nil => exact ⟨[], by simp, .inr ⟨[code], .escapeAtEnd, by rw [escape]; exact .escapeAtEnd, rfl⟩⟩
      | cons b rest =>
        obtain ⟨items, valid, split⟩ := exists_items n rest
        refine ⟨.literal b :: items, by simpa [Item.Valid] using valid, ?_⟩
        simpa [Item.codes, escape] using split
    · by_cases low : code.toNat < n
      · obtain ⟨items, valid, split⟩ := exists_items n rest
        refine ⟨.symbol code :: items, by simpa [Item.Valid, low] using valid, ?_⟩
        simpa [Item.codes] using split
      · exact ⟨[], by simp, .inr ⟨code :: rest, .unknownCode, .unknownCode rest (Nat.le_of_not_lt low) escape, rfl⟩⟩

/-- Codes are a list of items in one way at most: a byte after the escape code is no item of
    its own, whatever it is. -/
theorem items_unique {n : Nat} (few : n ≤ 255) : ∀ {items others : List Item}, (∀ item ∈ items, item.Valid n) →
    (∀ item ∈ others, item.Valid n) → items.flatMap Item.codes = others.flatMap Item.codes → items = others
  | [], [], _, _, _ => rfl
  | [], other :: others, _, _, same => by cases other <;> simp [Item.codes] at same
  | item :: items, [], _, _, same => by cases item <;> simp [Item.codes] at same
  | item :: items, other :: others, valid, valid', same => by
    have later : items.flatMap Item.codes = others.flatMap Item.codes → items = others :=
      items_unique few (fun item member => valid item (by simp [member])) fun item member => valid' item (by simp [member])
    have here := valid item (by simp)
    have here' := valid' other (by simp)
    simp only [List.flatMap_cons] at same
    cases item with
    | symbol code =>
      cases other with
      | symbol code' =>
        obtain ⟨rfl, rest⟩ := List.cons.inj same
        rw [later rest]
      | literal b => exact absurd (List.cons.inj same).1 (ne_escapeCode_of_lt few here)
    | literal b =>
      cases other with
      | symbol code' => exact absurd (List.cons.inj same).1.symm (ne_escapeCode_of_lt few here')
      | literal b' =>
        obtain ⟨rfl, rest⟩ := List.cons.inj (List.cons.inj same).2
        rw [later rest]

/-! ### Reading -/

/-- Codes are read as some bytes, which are written after whatever is in the output. -/
def Reads (d : Decoder) (codes bytes : Bytes) : Prop :=
  ∀ output : Array UInt8, d.decode codes output = (output ++ bytes, .ok bytes.length)

theorem expansion_ofSymbols (symbols : List Symbol) (code : UInt8) :
    (ofSymbols symbols).expansion code = (symbols[code.toNat]?.map Symbol.bytes).getD [] := by
  simp [expansion, ofSymbols]

section
variable {symbols : List Symbol}

theorem Stuck.decodeOnto_eq {rest : Bytes} {what : Corruption} (stuck : Stuck symbols.length rest what)
    (output : Array UInt8) : (ofSymbols symbols).decodeOnto output rest = (output, some what) := by
  cases stuck with
  | escapeAtEnd => simp [decodeOnto]
  | @unknownCode code rest high other =>
    have unused : (ofSymbols symbols).expansion code = [] := by
      rw [expansion_ofSymbols, List.getElem?_eq_none high]
      rfl
    rw [decodeOnto.eq_def]
    simp [other, unused]

variable (normal : ∀ s ∈ symbols, s.Normal) (few : symbols.length ≤ 255)
include normal few

/-- An item is read to its bytes, and reading goes on after it. -/
theorem decodeOnto_item {item : Item} (valid : item.Valid symbols.length) (output : Array UInt8) (rest : Bytes) :
    (ofSymbols symbols).decodeOnto output (item.codes ++ rest) =
      (ofSymbols symbols).decodeOnto (output ++ item.bytes symbols) rest := by
  cases item with
  | literal b =>
    rw [Item.codes, List.cons_append, List.cons_append, List.nil_append, decodeOnto_escape]
    simp [Item.bytes]
  | symbol code =>
    have low : code.toNat < symbols.length := valid
    have expansion := expansion_ofSymbols symbols code
    have used : (ofSymbols symbols).expansion code ≠ [] := by
      rw [expansion, List.getElem?_eq_getElem low]
      exact (normal _ (List.getElem_mem low)).bytes_ne_nil
    rw [Item.codes, List.singleton_append, decodeOnto_code (ne_escapeCode_of_lt few low) used, expansion]
    rfl

/-- Items are read to their bytes one after another. -/
theorem decodeOnto_items : ∀ {items : List Item}, (∀ item ∈ items, item.Valid symbols.length) →
    ∀ (output : Array UInt8) (rest : Bytes),
      (ofSymbols symbols).decodeOnto output (items.flatMap Item.codes ++ rest) =
        (ofSymbols symbols).decodeOnto (output ++ items.flatMap (Item.bytes symbols)) rest
  | [], _, output, rest => by simp
  | item :: items, valid, output, rest => by
    rw [List.flatMap_cons, List.append_assoc, decodeOnto_item normal few (valid item (by simp)),
      decodeOnto_items fun other member => valid other (by simp [member]), append_list_append, List.flatMap_cons]

theorem reads_items {items : List Item} (valid : ∀ item ∈ items, item.Valid symbols.length) :
    (ofSymbols symbols).Reads (items.flatMap Item.codes) (items.flatMap (Item.bytes symbols)) := by
  intro output
  have whole := decodeOnto_items normal few valid output []
  rw [List.append_nil] at whole
  exact decode_of_decodeOnto whole

theorem decode_stuck {items : List Item} (valid : ∀ item ∈ items, item.Valid symbols.length) {rest : Bytes}
    {what : Corruption} (stuck : Stuck symbols.length rest what) (output : Array UInt8) :
    (ofSymbols symbols).decode (items.flatMap Item.codes ++ rest) output =
      (output ++ items.flatMap (Item.bytes symbols), .error (.corrupt what)) := by
  simp only [decode, decodeOnto_items normal few valid, stuck.decodeOnto_eq]

/-- Codes that are read without an error are a list of items. -/
theorem exists_items_of_decode {codes : Bytes} {output : Array UInt8} {count : Nat}
    (run : ((ofSymbols symbols).decode codes output).2 = .ok count) :
    ∃ items : List Item, (∀ item ∈ items, item.Valid symbols.length) ∧ codes = items.flatMap Item.codes := by
  obtain ⟨items, valid, split | ⟨rest, what, stuck, split⟩⟩ := exists_items symbols.length codes
  · exact ⟨items, valid, split⟩
  · rw [split, decode_stuck normal few valid stuck] at run
    cases run

/-- What is read after some codes that are a list of items is written after what these
    are read as. -/
theorem decode_append {a : Bytes} {output : Array UInt8} {count : Nat}
    (run : ((ofSymbols symbols).decode a output).2 = .ok count) (b : Bytes) :
    (ofSymbols symbols).decode (a ++ b) output =
      (((ofSymbols symbols).decode b ((ofSymbols symbols).decode a output).1).1,
        ((ofSymbols symbols).decode b ((ofSymbols symbols).decode a output).1).2.map (count + ·)) := by
  obtain ⟨items, valid, rfl⟩ := exists_items_of_decode normal few run
  rw [reads_items normal few valid output] at run ⊢
  obtain rfl := Except.ok.inj run
  have both {more : List Item} (valid' : ∀ item ∈ more, item.Valid symbols.length) :
      ∀ item ∈ items ++ more, item.Valid symbols.length := by
    intro item member
    rcases List.mem_append.mp member with first | second
    · exact valid item first
    · exact valid' item second
  have joined (more : List Item) : output ++ (items ++ more).flatMap (Item.bytes symbols) =
      output ++ items.flatMap (Item.bytes symbols) ++ more.flatMap (Item.bytes symbols) := by
    rw [List.flatMap_append, append_list_append]
  obtain ⟨more, valid', rfl | ⟨rest, what, stuck, rfl⟩⟩ := exists_items symbols.length b
  · have whole := reads_items normal few (both valid') output
    rw [joined, List.flatMap_append, List.flatMap_append, List.length_append] at whole
    rw [whole, reads_items normal few valid']
    rfl
  · have whole := decode_stuck normal few (both valid') stuck output
    rw [joined, List.flatMap_append, List.append_assoc] at whole
    rw [whole, decode_stuck normal few valid' stuck]
    rfl

theorem reads_or_error (codes : Bytes) : (∃ bytes, (ofSymbols symbols).Reads codes bytes) ∨
    ∃ what, ∀ output, ((ofSymbols symbols).decode codes output).2 = .error (.corrupt what) := by
  obtain ⟨items, valid, rfl | ⟨rest, what, stuck, rfl⟩⟩ := exists_items symbols.length codes
  · exact .inl ⟨_, reads_items normal few valid⟩
  · exact .inr ⟨what, fun output => by rw [decode_stuck normal few valid stuck]⟩

end

/-! ### Lines -/

theorem Reads.unique {d : Decoder} {codes bytes other : Bytes} (reads : d.Reads codes bytes)
    (reads' : d.Reads codes other) : bytes = other := by
  have same := congrArg (fun run => run.1.toList) ((reads #[]).symm.trans (reads' #[]))
  simpa using same

/-- Codes cut at lengths, one piece after another. -/
def slices (codes : Bytes) : List Nat → List Bytes
  | [] => []
  | len :: lens => codes.take len :: slices (codes.drop len) lens

/-- Lines are read exactly if the lengths do not exceed the codes and each slice is read. -/
theorem decompressOnto_eq_ok_iff {symbols : List Symbol} (normal : ∀ s ∈ symbols, s.Normal)
    (few : symbols.length ≤ 255) (bytes : Bytes) (sizes : List Nat) : ∀ (lens : List Nat) (codes : Bytes)
    (output : Array UInt8) (done : Array Nat),
    (ofSymbols symbols).decompressOnto output done codes lens = .ok (bytes, sizes) ↔
      lens.sum ≤ codes.length ∧ ∃ lines, List.Forall₂ (ofSymbols symbols).Reads (slices codes lens) lines ∧
        bytes = output.toList ++ lines.flatten ∧ sizes = done.toList ++ lines.map List.length
  | [], codes, output, done => by
    simp only [decompressOnto, slices, List.forall₂_nil_left_iff, Except.ok.injEq, Prod.mk.injEq]
    constructor
    · rintro ⟨rfl, rfl⟩
      exact ⟨by simp, [], rfl, by simp, by simp⟩
    · rintro ⟨_, _, rfl, rfl, rfl⟩
      simp
  | len :: lens, codes, output, done => by
    rw [decompressOnto, List.sum_cons, slices]
    simp only [List.forall₂_cons_left_iff]
    by_cases short : (codes.take len).length < len
    · rw [if_pos short]
      constructor
      · intro run
        cases run
      · rintro ⟨fits, _⟩
        rw [List.length_take] at short
        omega
    · rw [if_neg short]
      have inside : len + lens.sum ≤ codes.length ↔ lens.sum ≤ (codes.drop len).length := by
        rw [List.length_take] at short
        rw [List.length_drop]
        omega
      rcases reads_or_error normal few (codes.take len) with ⟨line, reads⟩ | ⟨what, error⟩
      · have later := decompressOnto_eq_ok_iff normal few bytes sizes lens (codes.drop len) (output ++ line)
          (done.push line.length)
        simp only [reads output, later, inside]
        constructor
        · rintro ⟨fits, lines, others, rfl, rfl⟩
          exact ⟨fits, line :: lines, ⟨line, lines, reads, others, rfl⟩, by simp, by simp⟩
        · rintro ⟨fits, _, ⟨other, lines, reads', others, rfl⟩, rfl, rfl⟩
          rw [reads'.unique reads]
          exact ⟨fits, lines, others, by simp, by simp⟩
      · constructor
        · intro run
          have failed := error output
          cases found : (ofSymbols symbols).decode (codes.take len) output with
          | mk after result =>
            rw [found] at failed run
            simp only at failed
            rw [failed] at run
            cases run
        · rintro ⟨_, _, ⟨line, _, reads, _⟩, _⟩
          have failed := error #[]
          rw [reads #[]] at failed
          cases failed

/-! ### What is promised -/

/-- A decoder of symbols reads lists of items, and nothing else. -/
structure ReadsItems (d : Decoder) (symbols : List Symbol) : Prop where
  count_eq : d.symbols = symbols.length
  few : symbols.length ≤ 255
  lengths : ∀ s ∈ symbols, 1 ≤ s.bytes.length ∧ s.bytes.length ≤ 8
  /-- Every code string is a list of items, and a rest that starts with none unless it is
      empty. -/
  splits : ∀ codes : Bytes, ∃ items : List Item, (∀ item ∈ items, item.Valid symbols.length) ∧
    (codes = items.flatMap Item.codes ∨
      ∃ rest what, Stuck symbols.length rest what ∧ codes = items.flatMap Item.codes ++ rest)
  /-- No code string is a list of items in two ways. -/
  unique : ∀ items others : List Item, (∀ item ∈ items, item.Valid symbols.length) →
    (∀ item ∈ others, item.Valid symbols.length) → items.flatMap Item.codes = others.flatMap Item.codes →
      items = others
  /-- The bytes of items are written one after another, and their number is given. -/
  items : ∀ items : List Item, (∀ item ∈ items, item.Valid symbols.length) →
    d.Reads (items.flatMap Item.codes) (items.flatMap (Item.bytes symbols))
  /-- What cannot be read is reported by its cause, and the items before it are written. -/
  stuck : ∀ (items : List Item) (rest : Bytes) (what : Corruption), (∀ item ∈ items, item.Valid symbols.length) →
    Stuck symbols.length rest what →
      what.reason = (if rest = [escapeCode] then "escape at end of input" else "unknown code") ∧
        ∀ output : Array UInt8, d.decode (items.flatMap Item.codes ++ rest) output =
          (output ++ items.flatMap (Item.bytes symbols), .error (.corrupt what))
  accepts_iff : ∀ (codes : Bytes) (output : Array UInt8), (∃ count, (d.decode codes output).2 = .ok count) ↔
    ∃ items : List Item, (∀ item ∈ items, item.Valid symbols.length) ∧ codes = items.flatMap Item.codes
  /-- One string after another is read as both together. -/
  append : ∀ (a b : Bytes) (output : Array UInt8) (count : Nat), (d.decode a output).2 = .ok count →
    d.decode (a ++ b) output =
      ((d.decode b (d.decode a output).1).1, (d.decode b (d.decode a output).1).2.map (count + ·))
  /-- Lines are read exactly if their slices lie inside the codes and are read each. -/
  decompress_iff : ∀ (codes : Bytes) (lens : List Nat) (bytes : Bytes) (sizes : List Nat),
    d.decompress codes lens = .ok (bytes, sizes) ↔
      lens.sum ≤ codes.length ∧ ∃ lines, List.Forall₂ d.Reads (slices codes lens) lines ∧
        bytes = lines.flatten ∧ sizes = lines.map List.length

theorem readsItems {symbols : List Symbol} (normal : ∀ s ∈ symbols, s.Normal) (few : symbols.length ≤ 255) :
    (ofSymbols symbols).ReadsItems symbols where
  count_eq := rfl
  few := few
  lengths := by
    intro s member
    rw [(normal s member).length_bytes]
    exact ⟨(normal s member).pos, (normal s member).le⟩
  splits := exists_items symbols.length
  unique := fun _ _ valid valid' same => items_unique few valid valid' same
  items := fun _ valid => reads_items normal few valid
  stuck := fun _ _ _ valid stuck => ⟨stuck.reason_eq, decode_stuck normal few valid stuck⟩
  accepts_iff := by
    intro codes output
    constructor
    · rintro ⟨count, run⟩
      exact exists_items_of_decode normal few run
    · rintro ⟨items, valid, rfl⟩
      exact ⟨_, congrArg Prod.snd (reads_items normal few valid output)⟩
  append := fun _ b _ _ run => decode_append normal few run b
  decompress_iff := by
    intro codes lens bytes sizes
    rw [decompress, decompressOnto_eq_ok_iff normal few]
    simp

/-- The decoder of every encoder that can be made, and that of every dictionary whose
    symbols can be read, reads lists of items and nothing else. -/
theorem readsItems_of_made :
    (∀ e : Encoder, e.Made → (ofEncoder e).ReadsItems e.symbols.toList) ∧
      ∀ (d : Dictionary) (symbols : List Symbol), d.symbols = .ok symbols →
        ∃ decoder, ofDictionary d = .ok decoder ∧ decoder.ReadsItems symbols := by
  constructor
  · intro e made
    have wf := made.wellFormed
    exact readsItems (fun s member => wf.normal s (by simpa using member)) wf.few
  · intro d symbols read
    have lists := Dictionary.lists_of_symbols read
    refine ⟨.ofSymbols symbols, ?_, readsItems lists.normal lists.few⟩
    rw [ofDictionary, read]
    rfl

/-- The decoder of a table of one pair, and that of a dictionary of six symbols, which reads
    the first of them and a byte as it is. -/
theorem readsItems_of_made_pair : ∃ t e symbols decoder,
    (Table.empty 0 false).addAll [.ofBytes [97, 98]] = .ok t ∧ Encoder.ofTable t = .ok e ∧ e.Made ∧
    (ofEncoder e).ReadsItems e.symbols.toList ∧ Encoder.editedDictionary.symbols = .ok symbols ∧
    symbols.length = 6 ∧ ofDictionary Encoder.editedDictionary = .ok decoder ∧ decoder.ReadsItems symbols ∧
    decoder.Reads [0, 255, 0] [97, 98, 0] := by
  obtain ⟨t, built, few⟩ : ∃ t, (Table.empty 0 false).addAll [.ofBytes [97, 98]] = .ok t ∧
      t.added.size ≤ maxSymbols := ⟨_, rfl, by decide⟩
  obtain ⟨e, run⟩ := Encoder.exists_ofTable few
  obtain ⟨symbols, read, six, bytes⟩ : ∃ symbols, Encoder.editedDictionary.symbols = .ok symbols ∧
      symbols.length = 6 ∧ [Item.symbol 0, .literal 0].flatMap (Item.bytes symbols) = [97, 98, 0] :=
    ⟨_, rfl, rfl, rfl⟩
  have made : e.Made := .ofTable built run
  obtain ⟨decoder, load, reads⟩ := readsItems_of_made.2 Encoder.editedDictionary symbols read
  have valid : ∀ item ∈ [Item.symbol 0, .literal 0], item.Valid symbols.length := by simp [Item.Valid, six]
  have pair := reads.items _ valid
  rw [bytes] at pair
  exact ⟨t, e, symbols, decoder, built, run, made, readsItems_of_made.1 e made, read, six, load, reads, pair⟩

end SymbolCodec.Decoder
