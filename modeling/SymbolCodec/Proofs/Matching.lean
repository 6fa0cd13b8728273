import SymbolCodec.Proofs.Tables

/-!
Finding symbols in a table. A look-up finds the longest symbol that some bytes
start with, the last added one of its bytes (`Table.Longest`), and the first
byte itself exactly where no added symbol starts them (`Table.finds_longest`,
`Table.findsLongest_longest`).
The matches of a line are found by look-ups (`Table.Match.Found`), and their
symbols put together are the line (`Table.flatMap_parse`).
-/
namespace SymbolCodec.Table

/-! ### The symbols of codes -/

theorem symbol_of_lt {t : Table} {code : Nat} (byte : code < firstCode) :
    t.symbol code = { Symbol.ofByte (UInt8.ofNat code) 0 with code } := by
  have small : code < Symbol.codeLimit := Nat.lt_trans byte (by decide)
  simp only [symbol, byte, ↓reduceIte, Symbol.ofByte, Nat.mod_eq_of_lt small, Nat.div_eq_of_lt small]
  rfl

theorem bytes_symbol_of_lt {t : Table} {code : Nat} (byte : code < firstCode) :
    (t.symbol code).bytes = [UInt8.ofNat code] := by
  rw [symbol_of_lt byte]
  exact Symbol.bytes_ofByte _

theorem symbol_add (t : Table) {i : Nat} (inside : i < t.added.size) : t.symbol (firstCode + i) = t.added[i] := by
  simp [symbol, inside]

section
variable {t : Table} (wf : t.WellFormed)
include wf

theorem firstCode_le_code {s : Symbol} (member : s ∈ t.added) : firstCode ≤ s.code := by
  obtain ⟨i, inside, rfl⟩ := Array.mem_iff_getElem.mp member
  rw [wf.code_eq i inside]
  exact Nat.le_add_right ..

theorem code_lt_codes {s : Symbol} (member : s ∈ t.added) : s.code < t.codes := by
  obtain ⟨i, inside, rfl⟩ := Array.mem_iff_getElem.mp member
  rw [wf.code_eq i inside, codes]
  exact Nat.add_lt_add_left inside _

theorem symbol_code {s : Symbol} (member : s ∈ t.added) : t.symbol s.code = s := by
  obtain ⟨i, inside, rfl⟩ := Array.mem_iff_getElem.mp member
  rw [wf.code_eq i inside, symbol_add t inside]

theorem normal_symbol {code : Nat} (used : code < t.codes) : (t.symbol code).Normal := by
  by_cases byte : code < firstCode
  · rw [symbol_of_lt byte]
    have normal := Symbol.normal_ofByte (UInt8.ofNat code)
    exact ⟨⟨normal.pos, normal.le, normal.ignored_eq⟩, normal.word_eq⟩
  · obtain ⟨i, rfl⟩ := Nat.exists_eq_add_of_le (Nat.le_of_not_lt byte)
    have inside : i < t.added.size := Nat.lt_of_add_lt_add_left used
    rw [symbol_add t inside]
    exact wf.normal _ (Array.getElem_mem inside)

end

/-! ### One look-up -/

/-- The symbol is the longest that some bytes start with, and the last added one
    of its bytes. -/
structure Longest (t : Table) (input : Bytes) (s : Symbol) : Prop where
  mem : s ∈ t.added
  starts : s.bytes <+: input
  le : ∀ r ∈ t.added, r.bytes <+: input → r.len ≤ s.len
  last : t.latest s.bytes = some s

section
variable {t : Table} (wf : t.WellFormed)
include wf

theorem Longest.unique {input : Bytes} {r s : Symbol} (one : t.Longest input r) (other : t.Longest input s) :
    r = s := by
  have len := Nat.le_antisymm (other.le r one.mem one.starts) (one.le s other.mem other.starts)
  have bytes : r.bytes = s.bytes := by
    refine (List.prefix_of_prefix_length_le one.starts other.starts ?_).eq_of_length ?_
    · rw [(wf.normal r one.mem).length_bytes, (wf.normal s other.mem).length_bytes, len]
    · rw [(wf.normal r one.mem).length_bytes, (wf.normal s other.mem).length_bytes, len]
  have last := one.last
  rw [bytes, other.last] at last
  exact (Option.some.inj last).symm

/-- The longest symbol is the last one of its bytes where no longer symbol starts
    the input. -/
theorem longest_of_latest {input bs : Bytes} {s : Symbol} (found : t.latest bs = some s) (starts : bs <+: input)
    (none : ∀ r ∈ t.added, r.bytes <+: input → r.len ≤ bs.length) : t.Longest input s := by
  obtain ⟨listed, same⟩ := Symbol.of_last?_eq_some found
  have member := Array.mem_toList_iff.mp listed
  have len := (wf.normal s member).length_bytes
  refine ⟨member, by rwa [same], fun r inner outer => ?_, by rw [same, found]⟩
  rw [← len, same]
  exact none r inner outer

omit wf in
theorem bytes_ne_of_latest {bs : Bytes} (none : t.latest bs = none) {s : Symbol} (member : s ∈ t.added) :
    s.bytes ≠ bs :=
  Symbol.of_last?_eq_none none s (Array.mem_toList_iff.mpr member)

/-- The symbol of three or more bytes that some bytes start with, as a look-up finds
    it. -/
def long? (t : Table) (input : Bytes) : Option Symbol :=
  (t.slots.find? (Word.load input)).filter fun s => s.len ≤ (input.take maxLength).length

theorem long?_eq_some_iff {input : Bytes} {s : Symbol} :
    t.long? input = some s ↔ s ∈ t.added ∧ 2 < s.len ∧ s.bytes <+: input :=
  Slots.Hold.find?_fitting_eq_some_iff wf.slots wf.normal

theorem longest_of_long {input : Bytes} {s : Symbol} (found : t.long? input = some s) : t.Longest input s := by
  obtain ⟨member, long, starts⟩ := (long?_eq_some_iff wf).mp found
  have only {r : Symbol} (inner : r ∈ t.added) (longer : 2 < r.len) (outer : r.bytes <+: input) : r = s := by
    have found' := (long?_eq_some_iff wf).mpr ⟨inner, longer, outer⟩
    rw [found] at found'
    exact (Option.some.inj found').symm
  refine ⟨member, starts, fun r inner outer => ?_, ?_⟩
  · by_cases longer : 2 < r.len
    · rw [only inner longer outer]
    · omega
  · cases last : t.latest s.bytes with
    | none => exact absurd rfl (bytes_ne_of_latest last member)
    | some r =>
      obtain ⟨listed, same⟩ := Symbol.of_last?_eq_some last
      have inner := Array.mem_toList_iff.mp listed
      have len : r.len = s.len := by
        rw [← (wf.normal r inner).length_bytes, same, (wf.normal s member).length_bytes]
      rw [only inner (by omega) (by rwa [same])]

theorem len_le_two_of_long {input : Bytes} (none : t.long? input = none) {r : Symbol} (member : r ∈ t.added)
    (starts : r.bytes <+: input) : r.len ≤ 2 := by
  by_cases long : 2 < r.len
  · have found := (long?_eq_some_iff wf).mpr ⟨member, long, starts⟩
    rw [none] at found
    cases found
  · omega

/-! ### The code that is found -/

omit wf in
theorem longest_eq_of_long {input : Bytes} {s : Symbol} (found : t.long? input = some s) :
    t.longest input = s.code := by
  have word : Word.pack (input.take maxLength) = Word.load input := rfl
  rw [long?] at found
  simp only [longest, word, found]

omit wf in
theorem longest_eq_single {a : UInt8} (none : t.long? [a] = none) : t.longest [a] = (t.bytes.get a.toFin).code := by
  have word : Word.pack ([a].take maxLength) = Word.load [a] := rfl
  rw [long?] at none
  simp only [longest, word, none, Word.first_load]
  rfl

omit wf in
theorem longest_eq_pair {a b : UInt8} {rest : Bytes} (none : t.long? (a :: b :: rest) = none) :
    t.longest (a :: b :: rest) =
      if (t.pairs.get (Word.pairOf a b)).code ≥ firstCode then (t.pairs.get (Word.pairOf a b)).code
      else (t.bytes.get a.toFin).code := by
  have word : Word.pack ((a :: b :: rest).take maxLength) = Word.load (a :: b :: rest) := rfl
  have several : ((a :: b :: rest).take maxLength).length ≥ 2 := by simp [maxLength]
  rw [long?] at none
  simp only [longest, word, none, several, true_and, Word.first_load, Word.pair_load]

/-- What is found for some bytes: a symbol if any starts them, else the first
    byte. -/
inductive Finds (t : Table) (input : Bytes) : Nat → Prop
  | symbol {s : Symbol} : t.Longest input s → Finds t input s.code
  | byte {b : UInt8} {rest : Bytes} : input = b :: rest → (∀ s ∈ t.added, ¬ s.bytes <+: input) →
      Finds t input b.toNat

theorem finds_byte {a : UInt8} {rest : Bytes} (short : ∀ r ∈ t.added, r.bytes <+: a :: rest → r.len ≤ 1) :
    t.Finds (a :: rest) (t.bytes.get a.toFin).code := by
  rw [wf.bytes a]
  cases latest : t.latest [a] with
  | some s => exact .symbol (longest_of_latest wf latest (by simp) short)
  | none =>
    refine .byte rfl fun s member starts => bytes_ne_of_latest latest member ?_
    have len : s.len = 1 := Nat.le_antisymm (short s member starts) (wf.normal s member).pos
    rw [List.prefix_iff_eq_take, (wf.normal s member).length_bytes, len] at starts
    exact starts

/-- A look-up finds the longest symbol that some bytes start with, and the first
    byte itself if there is none. -/
theorem finds_longest (a : UInt8) (rest : Bytes) : t.Finds (a :: rest) (t.longest (a :: rest)) := by
  cases long : t.long? (a :: rest) with
  | some s =>
    rw [longest_eq_of_long long]
    exact .symbol (longest_of_long wf long)
  | none =>
    have two {r : Symbol} := len_le_two_of_long (r := r) wf long
    cases rest with
    | nil =>
      rw [longest_eq_single long]
      refine finds_byte wf fun r member starts => ?_
      have fits := starts.length_le
      rwa [(wf.normal r member).length_bytes] at fits
    | cons b rest =>
      rw [longest_eq_pair long, wf.pairs a b]
      cases latest : t.latest [a, b] with
      | some s =>
        have member := Array.mem_toList_iff.mp (Symbol.of_last?_eq_some latest).1
        have added : s.code ≥ firstCode := firstCode_le_code wf member
        simp only [Option.map_some, Option.getD_some, added, ↓reduceIte]
        exact .symbol (longest_of_latest wf latest (by simp) fun r inner starts => two inner starts)
      | none =>
        have byte : ¬ a.toNat ≥ firstCode := Nat.not_le_of_lt a.toNat_lt
        simp only [Option.map_none, Option.getD_none, byte, ↓reduceIte]
        refine finds_byte wf fun r member starts => ?_
        have pair : r.len ≠ 2 := by
          intro len
          rw [List.prefix_iff_eq_take, (wf.normal r member).length_bytes, len] at starts
          exact bytes_ne_of_latest latest member starts
        have le := two member starts
        omega

theorem Finds.starts {input : Bytes} {code : Nat} (found : t.Finds input code) :
    code < t.codes ∧ (t.symbol code).bytes <+: input := by
  cases found with
  | symbol longest =>
    rw [symbol_code wf longest.mem]
    exact ⟨code_lt_codes wf longest.mem, longest.starts⟩
  | @byte b rest split _ =>
    have small : b.toNat < firstCode := b.toNat_lt
    rw [bytes_symbol_of_lt small, split]
    exact ⟨Nat.lt_of_lt_of_le small (Nat.le_add_right ..), by simp⟩

end

/-- The last added symbol of some bytes has the code. -/
structure LastOf (t : Table) (bs : Bytes) (code : Nat) : Prop where
  added : firstCode ≤ code
  used : code < t.codes
  bytes : (t.symbol code).bytes = bs
  last : ∀ other, firstCode ≤ other → other < t.codes → (t.symbol other).bytes = bs → other ≤ code

/-- The code is that of the longest symbol that some bytes start with, and of the first
    byte itself if no added symbol starts them. -/
structure FindsLongest (t : Table) (input : Bytes) (code : Nat) : Prop where
  used : code < t.codes
  starts : (t.symbol code).bytes <+: input
  fits : (t.symbol code).len ≤ input.length
  longest : ∀ s ∈ t.added, s.bytes <+: input → s.len ≤ (t.symbol code).len
  /-- Of several symbols with these bytes it is the one added last. -/
  last : firstCode ≤ code → t.LastOf (t.symbol code).bytes code
  byte_iff : code < firstCode ↔ ∀ s ∈ t.added, ¬ s.bytes <+: input
  byte : code < firstCode → input.head?.map UInt8.toNat = some code

section
variable {t : Table} (wf : t.WellFormed)
include wf

theorem lastOf_of_latest {bs : Bytes} {s : Symbol} (latest : t.latest bs = some s) : t.LastOf bs s.code := by
  obtain ⟨listed, same⟩ := Symbol.of_last?_eq_some latest
  have member := Array.mem_toList_iff.mp listed
  refine ⟨firstCode_le_code wf member, code_lt_codes wf member, by rw [symbol_code wf member, same], ?_⟩
  obtain ⟨i, here, behind⟩ := Symbol.place_of_last?_eq_some latest
  rw [Array.getElem?_toList] at here
  obtain ⟨inside, rfl⟩ := Array.getElem?_eq_some_iff.mp here
  intro other added used bytes
  obtain ⟨j, rfl⟩ := Nat.exists_eq_add_of_le added
  have within : j < t.added.size := Nat.lt_of_add_lt_add_left used
  rw [symbol_add t within] at bytes
  rw [wf.code_eq i inside]
  exact Nat.add_le_add_left (behind j t.added[j] (by simp [within]) bytes) _

theorem Finds.findsLongest {input : Bytes} {code : Nat} (found : t.Finds input code) : t.FindsLongest input code := by
  obtain ⟨used, starts⟩ := found.starts wf
  have fits := starts.length_le
  rw [(normal_symbol wf used).length_bytes] at fits
  cases found with
  | @symbol s longest =>
    have same := symbol_code wf longest.mem
    have added : ¬ s.code < firstCode := Nat.not_lt_of_le (firstCode_le_code wf longest.mem)
    refine ⟨used, starts, fits, ?_, ?_, ?_, fun byte => absurd byte added⟩
    · rw [same]
      exact longest.le
    · intro _
      rw [same]
      exact lastOf_of_latest wf longest.last
    · exact ⟨fun byte => absurd byte added, fun none => absurd longest.starts (none s longest.mem)⟩
  | @byte b rest split none =>
    have byte : b.toNat < firstCode := b.toNat_lt
    refine ⟨used, starts, fits, ?_, fun added => absurd byte (Nat.not_lt_of_le added), ?_, fun _ => by rw [split]; rfl⟩
    · intro s member outer
      exact absurd outer (none s member)
    · exact ⟨fun _ => none, fun _ => byte⟩

omit wf in
/-- Whatever symbols are added to a table, refused and repeated ones included, a look-up
    finds the longest of them that the input starts with. -/
theorem findsLongest_longest {terminator : UInt8} {zeroTerminated : Bool} {symbols : List Symbol} {t : Table}
    (built : (Table.empty terminator zeroTerminated).addAll symbols = .ok t) {input : Bytes} (some : input ≠ []) :
    t.FindsLongest input (t.longest input) := by
  have wf := wellFormed_addAll built
  obtain ⟨a, rest, rfl⟩ := List.exists_cons_of_ne_nil some
  exact (finds_longest wf a rest).findsLongest wf

omit wf in
/-- Symbols that end in byte 0, and one that is refused because its slot is taken: where the
    input ends early, the zeros that fill up its word are not taken for bytes of it. -/
theorem findsLongest_longest_padded : ∃ t,
    (Table.empty 255 false).addAll [.ofBytes [97, 0], .ofBytes [97, 98, 99, 0], .ofBytes [97, 98, 99, 100]] = .ok t ∧
    t.added.size = 2 ∧ ([97, 98, 99, 0] : Bytes) ≠ [] ∧ t.longest [97, 98, 99, 0] = 257 ∧
    t.FindsLongest [97, 98, 99, 0] (t.longest [97, 98, 99, 0]) ∧
    ([97, 98, 99] : Bytes) ≠ [] ∧ t.longest [97, 98, 99] = 97 ∧ t.FindsLongest [97, 98, 99] (t.longest [97, 98, 99]) := by
  obtain ⟨t, built, size, long, none⟩ : ∃ t, (Table.empty 255 false).addAll [.ofBytes [97, 0],
      .ofBytes [97, 98, 99, 0], .ofBytes [97, 98, 99, 100]] = .ok t ∧ t.added.size = 2 ∧
      t.longest [97, 98, 99, 0] = 257 ∧ ∀ s ∈ t.added, ¬ s.bytes <+: [97, 98, 99] :=
    ⟨_, rfl, rfl, by decide +kernel, by decide +kernel⟩
  have finds := findsLongest_longest built (List.cons_ne_nil 97 [98, 99])
  have byte := finds.byte (finds.byte_iff.mpr none)
  exact ⟨t, built, size, List.cons_ne_nil _ _, long, findsLongest_longest built (List.cons_ne_nil _ _),
    List.cons_ne_nil _ _, (Option.some.inj byte).symm, finds⟩

/-! ### The matches of a line -/

/-- The match is that of a code in use, with the length and the first byte of its
    symbol. -/
structure Match.Found (t : Table) (m : Match) : Prop where
  code_lt : m.code < t.codes
  len_eq : m.len = (t.symbol m.code).len
  head : (t.symbol m.code).bytes.head? = some m.first

theorem append_rest (b : UInt8) (rest : Bytes) :
    (t.symbol (t.longest (b :: rest))).bytes ++ rest.drop ((t.symbol (t.longest (b :: rest))).len - 1) =
      b :: rest := by
  obtain ⟨used, starts⟩ := (finds_longest wf b rest).starts wf
  exact (normal_symbol wf used).append_drop starts

omit wf in
/-- What holds of no bytes, and of a line if it does of the rest after the longest
    symbol, holds of every line. -/
theorem parse_induction {P : Bytes → Prop} (nil : P [])
    (cons : ∀ b rest, P (rest.drop ((t.symbol (t.longest (b :: rest))).len - 1)) → P (b :: rest)) :
    ∀ line, P line
  | [] => nil
  | b :: rest => cons b rest (parse_induction nil cons _)
termination_by line => line.length
decreasing_by simp only [List.length_drop, List.length_cons]; omega

theorem flatMap_parse (line : Bytes) : (t.parse line).flatMap (fun m => (t.symbol m.code).bytes) = line := by
  induction line using parse_induction (t := t) with
  | nil => simp
  | cons b rest ih => rw [parse_cons, List.flatMap_cons, ih, append_rest wf]

theorem found_of_mem_parse {line : Bytes} {m : Match} (member : m ∈ t.parse line) : m.Found t := by
  induction line using parse_induction (t := t) with
  | nil => simp at member
  | cons b rest ih =>
    rw [parse_cons] at member
    rcases List.mem_cons.mp member with rfl | later
    · obtain ⟨used, starts⟩ := (finds_longest wf b rest).starts wf
      refine ⟨used, rfl, ?_⟩
      have whole := congrArg List.head? (append_rest wf b rest)
      rw [List.head?_append_of_ne_nil _ (normal_symbol wf used).bytes_ne_nil] at whole
      exact whole
    · exact ih later

end

end SymbolCodec.Table
