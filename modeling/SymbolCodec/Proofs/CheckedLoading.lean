import SymbolCodec.Dictionary.Checked
import SymbolCodec.Proofs.StoredSymbols

/-!
Loading oversteps nothing. What is checked about the bytes and the counts of a
dictionary comes before what relies on it: the counts add up to what a byte holds, and
byte 0 is counted where it is implied, so that no difference and no sum of bytes leaves
its range; and a symbol is read only where enough bytes are left. The cursor then reads
what cutting the bytes gives (`Cursor.foldlM_next`), so that reading the symbols and
building the encoder with each operation checked do what they do without
(`Dictionary.readSymbols_eq`, `Dictionary.buildEncoder_eq`), whatever the fields of the
dictionary.
-/
namespace SymbolCodec

/-! ### Operations -/

namespace Checked

theorem minus_eq {n m : Nat} (le : m ≤ n) : minus n m = .ok (n - m) := if_pos le

theorem minusByte_eq {a b : UInt8} (le : b ≤ a) : minusByte a b = .ok (a - b) := if_pos le

theorem plusByte_eq {a b : UInt8} (small : a.toNat + b.toNat < UInt8.size) : plusByte a b = .ok (a + b) := if_pos small

section
variable {α : Type} {n : Nat}

theorem readAt_eq (table : Vector α n) (i : Fin n) : readAt table i.val = .ok (table.get i) := by
  rw [readAt, Vector.getElem?_eq_getElem i.isLt, Vector.get_eq_getElem]

theorem writeAt_eq (table : Vector α n) (i : Fin n) (a : α) :
    writeAt table i.val a = .ok (table.setIfInBounds i.val a) := if_pos i.isLt

end

theorem setCode_eq (s : Symbol) (code : Nat) {len : Nat} (le : len ≤ maxLength) :
    setCode s code len = .ok (s.setCode code len) := by
  rw [setCode, minus_eq le]
  rfl

theorem mask_eq {len : Nat} (pos : 1 ≤ len) (le : len ≤ maxLength) : mask len = .ok (Word.mask len) := by
  have narrow : (maxLength - len) * 8 < 64 := by
    simp only [maxLength] at le ⊢
    omega
  rw [mask, minus_eq le, ok_bind]
  exact if_pos narrow

theorem ofBytes_eq {bs : Bytes} (pos : 1 ≤ bs.length) : ofBytes bs = .ok (.ofBytes bs) := by
  have le : min bs.length maxLength ≤ maxLength := Nat.min_le_right ..
  have one : 1 ≤ min bs.length maxLength := Nat.le_min.mpr ⟨pos, by decide⟩
  simp only [ofBytes, mask_eq one le, ok_bind]
  rw [setCode_eq _ _ le]
  rfl

theorem holds_eq {s : Symbol} (fits : s.len ≤ maxLength) (b : UInt8) : holds s b = .ok (s.holds b) := by
  have ok : s.fits = true := decide_eq_true fits
  rw [holds, Symbol.checkedHolds, Symbol.checkedBytes, if_pos ok]
  rfl

theorem longHolds_eq {s : Symbol} (fits : s.len ≤ maxLength) (b : UInt8) :
    longHolds s b = .ok (s.len > 1 && s.holds b) := by
  rw [longHolds, holds_eq fits]
  by_cases several : s.len > 1 <;> simp [several]

end Checked

/-! ### The cursor -/

namespace Cursor
variable {bytes : Bytes} {len : Nat}

theorem next_eq (c : Cursor) (pos : 1 ≤ len) (le : len ≤ maxLength) (inside : c.pos + len ≤ bytes.length) :
    c.next bytes len = .ok ⟨c.symbols.push
      ((Symbol.ofBytes ((bytes.drop c.pos).take len)).setCode c.symbols.size len), c.pos + len⟩ := by
  have length : ((bytes.drop c.pos).take len).length = len := by
    rw [List.length_take, List.length_drop]
    omega
  rw [next, if_pos inside, Checked.ofBytes_eq (by omega), ok_bind, Checked.setCode_eq _ _ le]
  rfl

theorem readMany_eq (count : Nat) (c : Cursor) :
    c.readMany bytes len count = (List.replicate count len).foldlM (fun c len => c.next bytes len) c := by
  induction count generalizing c with
  | zero => rfl
  | succ count ih =>
    rw [readMany, List.replicate_succ, List.foldlM_cons]
    simp only [ih]

/-- The lengths that a dictionary counts are read one after another. -/
theorem readLengths_eq {d : Dictionary} (enough : d.implied ≤ (d.histogram.get (lengthPlace 1)).toNat) :
    ∀ (lens : List Nat) (c : Cursor), (∀ len ∈ lens, 1 ≤ len ∧ len ≤ maxLength) →
    c.readLengths d lens = (lens.flatMap fun len =>
      List.replicate ((d.histogram.get (lengthPlace len)).toNat - if len = 1 then d.implied else 0) len).foldlM
        (fun c len => c.next d.bytes len) c
  | [], _, _ => rfl
  | len :: rest, c, short => by
    obtain ⟨pos, le⟩ := short len (List.mem_cons_self ..)
    have later := fun c => readLengths_eq enough rest c fun len member => short len (List.mem_cons_of_mem _ member)
    have place : len - 1 = (lengthPlace len).val := by
      have := val_lengthPlace pos le
      omega
    have counted : (if len = 1 then d.implied else 0) ≤ (d.histogram.get (lengthPlace len)).toNat := by
      split
      case isTrue one => rw [one]; exact enough
      case isFalse => exact Nat.zero_le _
    rw [readLengths, Checked.minus_eq pos, ok_bind, place, Checked.readAt_eq, ok_bind, Checked.minus_eq counted,
      ok_bind, readMany_eq, List.flatMap_cons, List.foldlM_append]
    simp only [later]

/-- Reading lengths from a place on, up to the end of the bytes, is cutting what is left
    of them. -/
theorem foldlM_next (bytes : Bytes) : ∀ (lens : List Nat) (c : Cursor), c.pos ≤ bytes.length →
    (∀ len ∈ lens, 1 ≤ len ∧ len ≤ maxLength) →
    (do
      let c ← lens.foldlM (fun c len => c.next bytes len) c
      if c.pos ≠ bytes.length then .error (.refused (.corrupt .trailingBytes)) else return c.symbols) =
    ((Dictionary.cut lens (bytes.drop c.pos)).map fun pieces =>
      c.symbols ++ Dictionary.ofPieces c.symbols.size pieces).mapError fun what => .refused (.corrupt what)
  | [], c, inside, _ => by
    have run : ([] : List Nat).foldlM (fun c len => Cursor.next c bytes len) c = .ok c := rfl
    rw [run, ok_bind]
    by_cases done : c.pos = bytes.length
    · rw [if_neg (not_not.mpr done), done, List.drop_length]
      simp [Dictionary.cut, Dictionary.ofPieces, Except.map, Except.mapError, pure, Except.pure]
    · obtain ⟨b, rest, left⟩ := List.exists_cons_of_ne_nil
        (show bytes.drop c.pos ≠ [] by rw [ne_eq, List.drop_eq_nil_iff]; omega)
      rw [if_pos done, left]
      rfl
  | len :: rest, c, inside, short => by
    obtain ⟨pos, le⟩ := short len (List.mem_cons_self ..)
    rw [List.foldlM_cons, Dictionary.cut]
    by_cases enough : c.pos + len ≤ bytes.length
    · have length : ((bytes.drop c.pos).take len).length = len := by
        rw [List.length_take, List.length_drop]
        omega
      have later := foldlM_next bytes rest ⟨c.symbols.push
        ((Symbol.ofBytes ((bytes.drop c.pos).take len)).setCode c.symbols.size len), c.pos + len⟩ enough
        fun len member => short len (List.mem_cons_of_mem _ member)
      rw [next_eq c pos le enough, ok_bind, later, if_neg (by omega), List.drop_drop]
      cases Dictionary.cut rest (bytes.drop (c.pos + len)) with
      | error what => rfl
      | ok pieces =>
        simp [Except.map, Except.mapError, bind, Except.bind, pure, Except.pure, Dictionary.ofPieces,
          List.zipIdx_cons, length]
    · have short : ((bytes.drop c.pos).take len).length < len := by
        rw [List.length_take, List.length_drop]
        omega
      rw [next, if_neg enough, if_pos short]
      rfl

end Cursor

namespace Dictionary

/-! ### The symbols -/

theorem lengthOrder_eq : lengthOrder = (List.finRange 8).tail.map (fun i => i.val + 1) ++ [1] := rfl

/-- The lengths that are read are those that the dictionary counts. -/
theorem flatMap_lengthOrder (d : Dictionary) : (lengthOrder.flatMap fun len =>
    List.replicate ((d.histogram.get (lengthPlace len)).toNat - if len = 1 then d.implied else 0) len) =
      d.storedLengths := by
  rw [lengthOrder_eq, List.flatMap_append, List.flatMap_map, storedLengths, List.flatMap_singleton]
  rfl

/-- Reading the symbols with each operation checked refuses what reading refuses, and
    oversteps nothing. -/
theorem readSymbols_eq (d : Dictionary) : d.readSymbols = (d.symbols.map List.toArray).mapError .refused := by
  rw [readSymbols, symbols]
  cases d.symbolCount with
  | error what => rfl
  | ok count =>
    simp only [Except.mapError, ok_bind]
    split
    case isTrue => rfl
    case isFalse =>
      have ones : Checked.readAt d.histogram 0 = .ok (d.histogram.get (lengthPlace 1)) :=
        Checked.readAt_eq d.histogram (lengthPlace 1)
      rw [ones, ok_bind]
      split
      case isTrue => rfl
      case isFalse enough =>
        have start : (if d.zeroTerminated then #[Symbol.ofByte 0 0] else #[]) = d.impliedSymbols.toArray := by
          unfold impliedSymbols
          split <;> rfl
        have size : d.impliedSymbols.toArray.size = d.implied := d.length_impliedSymbols
        have read := Cursor.foldlM_next d.bytes d.storedLengths ⟨d.impliedSymbols.toArray, 0⟩ (Nat.zero_le _)
          fun len member => of_mem_storedLengths member
        rw [Cursor.readLengths_eq (Nat.le_of_not_lt enough) lengthOrder _ (by decide), flatMap_lengthOrder, start, read,
          size, List.drop_zero]
        cases cut d.storedLengths d.bytes with
        | error what => rfl
        | ok pieces =>
          show Except.ok (d.impliedSymbols.toArray ++ ofPieces d.implied pieces) =
            Except.ok (d.impliedSymbols ++ ofPieces d.implied pieces).toArray
          simp

/-! ### The encoder -/

theorem writeBytes_eq : ∀ (symbols : List Symbol) (table : Vector Entry 256),
    writeBytes table symbols = .ok (symbols.foldl (fun bytes s =>
      if s.len = 1 then bytes.setIfInBounds (Word.first s.word) ⟨UInt8.ofNat s.code, false, 1⟩ else bytes) table)
  | [], _ => rfl
  | s :: rest, table => by
    rw [writeBytes, List.foldl_cons]
    by_cases one : s.len = 1
    · have place : s.first.toNat = (Word.first s.word).val := rfl
      rw [if_pos one, if_pos one, place, Checked.writeAt_eq, ok_bind, writeBytes_eq rest]
    · rw [if_neg one, if_neg one, writeBytes_eq rest]

theorem writeBytes_empty (symbols : List Symbol) :
    writeBytes (Vector.replicate 256 Entry.escape) symbols = .ok (byteEntries symbols) := writeBytes_eq symbols _

theorem ofFnM_readAt {α : Type} (bytes : Vector α 256) :
    (Vector.ofFnM fun p : Fin 65536 => Checked.readAt bytes (p.val % 256)) =
      .ok (Vector.ofFn fun p => bytes.get (Word.firstOfPair p)) := by
  have reads (p : Fin 65536) : Checked.readAt bytes (p.val % 256) = pure (bytes.get (Word.firstOfPair p)) :=
    Checked.readAt_eq bytes (Word.firstOfPair p)
  simp only [reads]
  exact Vector.ofFnM_pure

/-- The low ten bits of the hash of a symbol are its slot. -/
theorem toNat_slotHash (s : Symbol) : (s.slotHash &&& 1023).toNat = s.slot.val := by
  show (s.slotHash &&& 1023).toNat = (s.slotHash % 1024).toNat
  rw [UInt64.toNat_and, UInt64.toNat_mod]
  exact Nat.and_two_pow_sub_one_eq_mod _ 10

theorem writeLong_eq (terminator : UInt8) : ∀ (symbols : List Symbol) (pairs : Vector Entry 65536) (slots : Slots),
    (∀ s ∈ symbols, s.len ≤ maxLength) →
    writeLong terminator pairs slots symbols =
      (placeLong terminator pairs slots symbols).mapError fun what => .refused (.corrupt what)
  | [], _, _, _ => rfl
  | s :: rest, pairs, slots, fit => by
    have later := fun pairs slots =>
      writeLong_eq terminator rest pairs slots fun r member => fit r (List.mem_cons_of_mem _ member)
    have pair : s.firstTwo.toNat = (Word.pair s.word).val := rfl
    have put : slots.setIfInBounds s.slot.val (some s) = slots.put s := by
      apply Vector.ext
      intro i inside
      rw [Slots.put, Vector.getElem_setIfInBounds, Vector.getElem_set]
    rw [writeLong, placeLong, Checked.longHolds_eq (fit s (List.mem_cons_self ..)), ok_bind, apply_ite (Except.mapError _),
      apply_ite (Except.mapError _), apply_ite (Except.mapError _), apply_ite (Except.mapError _)]
    simp only [pair, toNat_slotHash, Checked.writeAt_eq, Checked.readAt_eq, ok_bind, put, later, Slots.taken]
    rfl

/-- What symbols are read of leaves the sums and differences of bytes in their range. -/
structure Narrow (d : Dictionary) (symbols : List Symbol) (zero : UInt8) : Prop where
  zero_eq : zero.toNat = d.implied
  zero_le : zero ≤ d.histogram.get (lengthPlace 1)
  ones_le : d.histogram.get (lengthPlace 1) - zero ≤ UInt8.ofNat symbols.length
  pairs_small : zero.toNat + (d.histogram.get (lengthPlace 2)).toNat < UInt8.size
  byteLimit_eq : UInt8.ofNat symbols.length - (d.histogram.get (lengthPlace 1) - zero) =
    UInt8.ofNat (symbols.length - ((d.histogram.get (lengthPlace 1)).toNat - d.implied))

theorem narrow_of_symbols {d : Dictionary} {symbols : List Symbol} (run : d.symbols = .ok symbols) :
    d.Narrow symbols (if d.zeroTerminated then 1 else 0) := by
  have lists := lists_of_symbols run
  have few := lists.few
  have counted := lists.counted
  have size := lists.length_eq
  have pairs : (d.histogram.get (lengthPlace 2)).toNat ≤ d.longLengths.length := by
    rw [longLengths_eq, List.length_append, List.length_replicate]
    exact Nat.le_add_right ..
  have zero : (if d.zeroTerminated then (1 : UInt8) else 0).toNat = d.implied := by
    unfold implied
    split <;> rfl
  have zero_le : (if d.zeroTerminated then (1 : UInt8) else 0) ≤ d.histogram.get (lengthPlace 1) := by
    rw [UInt8.le_iff_toNat_le, zero]
    exact counted
  have ones : (d.histogram.get (lengthPlace 1) - if d.zeroTerminated then (1 : UInt8) else 0).toNat =
      (d.histogram.get (lengthPlace 1)).toNat - d.implied := by
    rw [UInt8.toNat_sub_of_le _ _ zero_le, zero]
  have length : (UInt8.ofNat symbols.length).toNat = symbols.length := by
    rw [UInt8.toNat_ofNat', Nat.mod_eq_of_lt (Nat.lt_succ_of_le few)]
  have ones_le : d.histogram.get (lengthPlace 1) - (if d.zeroTerminated then (1 : UInt8) else 0) ≤
      UInt8.ofNat symbols.length := by
    rw [UInt8.le_iff_toNat_le, ones, length]
    omega
  refine ⟨zero, zero_le, ones_le, ?_, ?_⟩
  · have size : UInt8.size = 256 := rfl
    omega
  · apply UInt8.toNat_inj.mp
    rw [UInt8.toNat_sub_of_le _ _ ones_le, ones, length, UInt8.toNat_ofNat', Nat.mod_eq_of_lt (by omega)]

/-- Building the encoder with each operation checked refuses what loading refuses, gives
    what loading gives, and oversteps nothing. -/
theorem buildEncoder_eq (d : Dictionary) : d.buildEncoder = (Encoder.ofDictionary d).mapError .refused := by
  rw [buildEncoder, Encoder.ofDictionary, readSymbols_eq]
  cases d.readHead with
  | error what => rfl
  | ok head =>
    have read : (Except.ok head : Except CodecError Head).mapError Halt.refused = .ok head := rfl
    rw [read, ok_bind, ok_bind, apply_ite (Except.mapError _)]
    congr 1
    cases run : d.symbols with
    | error what => rfl
    | ok symbols =>
      have listed : ((Except.ok symbols : Except CodecError (List Symbol)).map List.toArray).mapError Halt.refused =
          .ok symbols.toArray := rfl
      have one : Checked.readAt d.histogram 0 = .ok (d.histogram.get (lengthPlace 1)) :=
        Checked.readAt_eq d.histogram (lengthPlace 1)
      have two : Checked.readAt d.histogram 1 = .ok (d.histogram.get (lengthPlace 2)) :=
        Checked.readAt_eq d.histogram (lengthPlace 2)
      have narrow := narrow_of_symbols run
      rw [listed, ok_bind, ok_bind]
      generalize (if d.zeroTerminated then (1 : UInt8) else 0) = zero at narrow ⊢
      have low : head.suffixLimit < zero ↔ head.suffixLimit.toNat < d.implied := by
        rw [UInt8.lt_iff_toNat_lt, narrow.zero_eq]
      have high : head.suffixLimit > zero + d.histogram.get (lengthPlace 2) ↔
          head.suffixLimit.toNat > d.implied + (d.histogram.get (lengthPlace 2)).toNat := by
        rw [gt_iff_lt, UInt8.lt_iff_toNat_lt, UInt8.toNat_add, Nat.mod_eq_of_lt narrow.pairs_small, narrow.zero_eq]
      simp only [one, two, ok_bind, Checked.minusByte_eq narrow.zero_le, List.size_toArray,
        Checked.minusByte_eq narrow.ones_le, Checked.plusByte_eq narrow.pairs_small, narrow.byteLimit_eq,
        writeBytes_empty, ofFnM_readAt, low, high, ite_or, apply_ite (Except.mapError Halt.refused),
        writeLong_eq head.terminator symbols _ _ fun s member => ((lists_of_symbols run).normal s member).le]
      congr 2
      cases placeLong head.terminator (Vector.ofFn fun p => (byteEntries symbols).get (Word.firstOfPair p)) .empty
        symbols <;> rfl

end Dictionary
end SymbolCodec
