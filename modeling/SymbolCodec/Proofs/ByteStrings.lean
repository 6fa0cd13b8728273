import SymbolCodec.Proofs.Joining

/-!
Packed symbols behave as byte strings of at most eight bytes. A symbol that is made of
some bytes has the first eight of them and nothing above (`Symbol.bytes_ofBytes_take`,
`Symbol.Normal.word_lt`); so it is told apart by these, and a zero byte at the end counts
through the length. Symbols without bits above their lengths are joined as strings cut to
eight bytes are, in whatever order (`Symbol.concat_assoc`), and the slot of one is a
function of its first three bytes (`Symbol.Normal.slotHash_eq`). All of it together is
`Symbol.StringLaws`.
-/
namespace SymbolCodec

/-! ### Strings cut to a length -/

section
variable {α : Type} (n : Nat) (l m : List α)

theorem take_take_append : (l.take n ++ m).take n = (l ++ m).take n := by
  rw [List.take_append, List.take_append, List.take_take, Nat.min_self, List.length_take]
  congr 2
  omega

theorem take_append_take : (l ++ m.take n).take n = (l ++ m).take n := by
  rw [List.take_append, List.take_append, List.take_take, Nat.min_eq_left (Nat.sub_le ..)]

end

namespace Symbol
variable {s : Symbol}

/-! ### Made of bytes -/

/-- Bytes after the eighth do not count. -/
theorem ofBytes_take (bs : Bytes) : ofBytes (bs.take maxLength) = ofBytes bs := by
  have length : min (bs.take maxLength).length maxLength = min bs.length maxLength := by
    rw [List.length_take, Nat.min_comm maxLength, Nat.min_assoc, Nat.min_self]
  have load : Word.load (bs.take maxLength) = Word.load bs := by
    rw [Word.load, List.take_take, Nat.min_self, Word.load]
  simp only [ofBytes, length, load]

theorem bytes_ofBytes_take (bs : Bytes) : (ofBytes bs).bytes = bs.take maxLength := by
  rw [← ofBytes_take, bytes_ofBytes (List.length_take_le ..)]

theorem normal_ofBytes_take {bs : Bytes} (some : bs ≠ []) : (ofBytes bs).Normal := by
  have pos := List.length_pos_of_ne_nil some
  rw [← ofBytes_take]
  exact normal_ofBytes (by rw [List.length_take]; exact Nat.lt_min.mpr ⟨by decide, pos⟩) (List.length_take_le ..)

/-! ### The word -/

theorem Normal.word_lt (normal : s.Normal) : s.word.toNat < 256 ^ s.len := by
  rw [← normal.word_eq, mask_eq normal.toProper, Word.toNat_and_mask _ normal.pos normal.le]
  exact Nat.mod_lt _ (Nat.pow_pos (by decide))

/-- What decides the slot is the word of the first three bytes, with zeros where there are
    fewer. -/
theorem Normal.slotKey_word (normal : s.Normal) : Word.slotKey s.word = Word.load (s.bytes.take 3) := by
  have three : Word.slotKey s.word = s.word &&& Word.mask 3 := rfl
  apply Word.ext_bytes
  intro i inside
  rw [three, Word.byte_mask _ (by decide) (by decide) inside, Word.byte_load _ inside, normal.byte_word inside]
  by_cases first : i < 3
  · rw [if_pos first, List.getElem?_take_of_lt first]
  · rw [if_neg first, List.getElem?_eq_none (by rw [List.length_take]; omega)]
    rfl

theorem Normal.slotHash_eq (normal : s.Normal) : s.slotHash = Word.hash (Word.load (s.bytes.take 3)) := by
  rw [slotHash, normal.slotKey_word]

/-! ### Joined -/

theorem ofBytes_concat {left right : Symbol} (normal : left.Normal) (normal' : right.Normal) :
    concat left right = ofBytes (left.bytes ++ right.bytes) := by
  have some : left.bytes ++ right.bytes ≠ [] := List.append_ne_nil_of_left_ne_nil normal.bytes_ne_nil _
  refine ext_of_bytes (normal_concat normal.pos right) (normal_ofBytes_take some) rfl ?_
  rw [bytes_concat normal normal', bytes_ofBytes_take]

theorem concat_assoc {a b c : Symbol} (normal : a.Normal) (normal' : b.Normal) (normal'' : c.Normal) :
    concat (concat a b) c = concat a (concat b c) := by
  have joined : (concat a b).Normal := normal_concat normal.pos b
  have joined' : (concat b c).Normal := normal_concat normal'.pos c
  refine ext_of_bytes (normal_concat joined.pos c) (normal_concat normal.pos _) rfl ?_
  rw [bytes_concat joined normal'', bytes_concat normal joined', bytes_concat normal normal',
    bytes_concat normal' normal'', take_take_append, take_append_take, List.append_assoc]

/-- Symbols that are made of byte strings behave as the first eight bytes of these. -/
structure StringLaws (a b c : Bytes) : Prop where
  bytes_eq : (ofBytes a).bytes = a.take maxLength
  holds_iff : ∀ x, (ofBytes a).holds x = true ↔ x ∈ a.take maxLength
  same_iff : (ofBytes a).same (ofBytes b) = true ↔ a.take maxLength = b.take maxLength
  concat_eq : concat (ofBytes a) (ofBytes b) = ofBytes (a.take maxLength ++ b.take maxLength)
  assoc : concat (concat (ofBytes a) (ofBytes b)) (ofBytes c) = concat (ofBytes a) (concat (ofBytes b) (ofBytes c))
  /-- What is joined has no bits above its length. -/
  word_lt : (concat (ofBytes a) (ofBytes b)).word.toNat < 256 ^ (concat (ofBytes a) (ofBytes b)).len
  /-- The slot of what is joined is a function of its first three bytes. -/
  slotHash_eq : (concat (ofBytes a) (ofBytes b)).slotHash =
    Word.hash (Word.load ((concat (ofBytes a) (ofBytes b)).bytes.take 3))
  slot_eq : (concat (ofBytes a) (ofBytes b)).slot.val =
    ((concat (ofBytes a) (ofBytes b)).slotHash % UInt64.ofNat slotCount).toNat

/-- Symbols of byte strings obey the laws of strings cut to eight bytes. -/
theorem stringLaws {a b c : Bytes} (some : a ≠ []) (some' : b ≠ []) (some'' : c ≠ []) : StringLaws a b c := by
  have normal := normal_ofBytes_take some
  have normal' := normal_ofBytes_take some'
  have joined := normal_concat normal.pos (ofBytes b)
  exact {
    bytes_eq := bytes_ofBytes_take a
    holds_iff := fun x => by rw [holds, bytes_ofBytes_take, List.contains_iff_mem]
    same_iff := by rw [same_iff_bytes normal.toProper normal'.toProper, bytes_ofBytes_take, bytes_ofBytes_take]
    concat_eq := by rw [ofBytes_concat normal normal', bytes_ofBytes_take, bytes_ofBytes_take]
    assoc := concat_assoc normal normal' (normal_ofBytes_take some'')
    word_lt := joined.word_lt
    slotHash_eq := joined.slotHash_eq
    slot_eq := rfl }

/-- A zero byte at the end, a string of more than eight bytes, and one that is cut where it
    is joined. -/
theorem stringLaws_cut : [97, 0] ≠ ([] : Bytes) ∧ [97, 0, 0, 0, 0, 0, 0, 98, 99] ≠ ([] : Bytes) ∧ [97] ≠ ([] : Bytes) ∧
    StringLaws [97, 0] [97, 0, 0, 0, 0, 0, 0, 98, 99] [97] :=
  ⟨by decide, by decide, by decide, stringLaws (by decide) (by decide) (by decide)⟩

end Symbol
end SymbolCodec
