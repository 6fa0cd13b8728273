import SymbolCodec.Proofs.Packing

/-!
Where a packed form ends. A reader takes some first bytes, and these alone decide
what it gives (`Packed.Delimited`): so it is with each part of a packed dictionary,
although tags and lengths that are read early say how much comes after them
(`Packed.delimited_read`, `Packed.delimited_readLength`). Hence of two byte strings
that are both accepted none starts with the other (`Dictionary.prefixFree_parse?`),
and what was written is refused when bytes are missing or follow
(`Dictionary.ofBytes_cut_or_extended`).
-/
namespace SymbolCodec

namespace Packed

/-! ### Readers -/

section
variable {α β γ : Type}

/-- What a reader gives is decided by the bytes that it takes, whatever follows them. -/
def Delimited (reader : Bytes → Option (α × Bytes)) : Prop :=
  ∀ bs a rest, reader bs = some (a, rest) →
    ∃ front, bs = front ++ rest ∧ ∀ other, reader (front ++ other) = some (a, other)

theorem delimited_none : Delimited fun _ => (none : Option (α × Bytes)) := by
  intro bs a rest read
  cases read

theorem delimited_some (a : α) : Delimited fun bs => some (a, bs) := by
  intro bs a' rest read
  cases read
  exact ⟨[], rfl, fun other => rfl⟩

/-- A reader that goes on with what another has left. -/
theorem Delimited.bind {reader : Bytes → Option (α × Bytes)} {next : α × Bytes → Option (β × Bytes)}
    (first : Delimited reader) (later : ∀ a, Delimited fun bs => next (a, bs)) :
    Delimited fun bs => reader bs >>= next := by
  intro bs b rest read
  obtain ⟨⟨a, middle⟩, front, back⟩ := Option.bind_eq_some_iff.mp read
  obtain ⟨taken, rfl, again⟩ := first bs a middle front
  obtain ⟨more, rfl, again'⟩ := later a middle b rest back
  refine ⟨taken ++ more, by rw [List.append_assoc], ?_⟩
  intro other
  show reader (taken ++ more ++ other) >>= next = _
  rw [List.append_assoc, again]
  exact again' other

/-- A reader that depends on a value there may be. -/
theorem Delimited.lookup {next : γ → Bytes → Option (α × Bytes)} (later : ∀ c, Delimited (next c)) (o : Option γ) :
    Delimited fun bs => o >>= fun c => next c bs := by
  cases o with
  | none => exact delimited_none
  | some c => exact later c

theorem Delimited.ite {one other : Bytes → Option (α × Bytes)} (first : Delimited one) (second : Delimited other)
    (condition : Prop) [Decidable condition] : Delimited fun bs => if condition then one bs else other bs := by
  by_cases holds : condition
  · simpa only [if_pos holds] using first
  · simpa only [if_neg holds] using second

/-- Of two byte strings that are accepted neither goes on after the other. -/
def PrefixFree (parser : Bytes → Option α) : Prop :=
  ∀ bs more a b, parser bs = some a → parser (bs ++ more) = some b → more = []

/-- A parser that goes on with what a reader has left. -/
theorem Delimited.prefixFree {reader : Bytes → Option (α × Bytes)} {next : α × Bytes → Option β}
    (first : Delimited reader) (later : ∀ a, PrefixFree fun bs => next (a, bs)) :
    PrefixFree fun bs => reader bs >>= next := by
  intro bs more b b' short long
  obtain ⟨⟨a, rest⟩, front, back⟩ := Option.bind_eq_some_iff.mp short
  obtain ⟨taken, rfl, again⟩ := first bs a rest front
  rw [List.append_assoc] at long
  obtain ⟨⟨a', rest'⟩, front', back'⟩ := Option.bind_eq_some_iff.mp long
  rw [again, Option.some.injEq, Prod.mk.injEq] at front'
  obtain ⟨rfl, rfl⟩ := front'
  exact later a rest more b b' back back'

/-- A parser that accepts nothing but the end. -/
theorem prefixFree_end (o : Option α) : PrefixFree fun bs => if bs.isEmpty then o else none := by
  intro bs more a b short long
  cases more with
  | nil => rfl
  | cons c more => simp at long

end

theorem delimited_next? : Delimited next? := by
  intro bs b rest read
  cases bs with
  | nil => cases read
  | cons c bs =>
    cases read
    exact ⟨[b], rfl, fun other => rfl⟩

theorem delimited_take? (count : Nat) : Delimited (take? count) := by
  intro bs front rest read
  by_cases enough : (bs.take count).length = count
  · rw [take?, if_pos enough, Option.some.injEq, Prod.mk.injEq] at read
    obtain ⟨rfl, rfl⟩ := read
    exact ⟨bs.take count, (List.take_append_drop count bs).symm, take?_append enough⟩
  · rw [take?, if_neg enough] at read
    cases read

/-! ### The parts of a dictionary -/

/-- How much is read for a byte string of known length is decided by its tag. -/
theorem delimited_read (length : Nat) : Delimited (read length) := by
  refine Delimited.ite (delimited_take? length) ?_ (length ≤ 2)
  refine Delimited.bind delimited_next? fun tag => Delimited.lookup (fun r => ?_) _
  have digits (base : UInt8) : Delimited fun bs => take? ((length + r.digits - 1) / r.digits) bs >>= fun found =>
      some (((splitDigits r found.1).take length).map (· + base), found.2) :=
    Delimited.bind (delimited_take? _) fun front => delimited_some (((splitDigits r front).take length).map (· + base))
  exact Delimited.ite (Delimited.bind delimited_next? digits) (digits 0) _

theorem delimited_readWide : Delimited readWide := by
  refine Delimited.bind delimited_next? fun tag => Delimited.lookup (fun width => ?_) _
  have number (base : Bytes) : Delimited fun bs => take? width bs >>= fun found =>
      some ((ofLittleEndian base + ofLittleEndian found.1) % UInt64.size, found.2) :=
    Delimited.bind (delimited_take? width) fun front =>
      delimited_some ((ofLittleEndian base + ofLittleEndian front) % UInt64.size)
  exact Delimited.ite (Delimited.bind (delimited_take? 8) number) (number []) _

theorem delimited_readLength : Delimited readLength := by
  refine Delimited.bind delimited_next? fun b => ?_
  have small (n : Nat) : Delimited fun bs : Bytes => if n < lengthLimit then some (n, bs) else none :=
    Delimited.ite (delimited_some n) delimited_none _
  exact Delimited.ite (Delimited.bind delimited_readWide small) (small b.toNat) _

end Packed

namespace Dictionary

/-- Of two packed forms neither goes on after the other, whoever wrote them. -/
theorem prefixFree_parse? : Packed.PrefixFree parse? := by
  refine Packed.Delimited.prefixFree (Packed.delimited_read 8) fun head => ?_
  refine Packed.Delimited.prefixFree Packed.delimited_next? fun flag => ?_
  refine Packed.Delimited.prefixFree (Packed.delimited_read 8) fun histogram => ?_
  refine Packed.Delimited.prefixFree Packed.delimited_readLength fun length => ?_
  refine Packed.Delimited.prefixFree (Packed.delimited_read length) fun bytes => ?_
  exact Packed.prefixFree_end _

theorem ofBytes_eq_ok_iff {bs : Bytes} {d : Dictionary} : ofBytes bs = .ok d ↔ parse? bs = some d := by
  rw [ofBytes]
  cases parse? bs with
  | none => simp
  | some d => simp

theorem ofBytes_eq_malformed_iff {bs : Bytes} : ofBytes bs = .error .malformed ↔ parse? bs = none := by
  rw [ofBytes]
  cases parse? bs with
  | none => simp
  | some d => simp

/-- A dictionary comes back from its packed form. -/
theorem ofBytes_toBytes {d : Dictionary} (small : d.bytes.length < Packed.lengthLimit) : ofBytes d.toBytes = .ok d :=
  ofBytes_eq_ok_iff.mpr (parse?_toBytes small)

/-- A length of three bytes, a radix with the least byte taken off, and a last group
    that is not full. -/
theorem ofBytes_toBytes_shifted : ∃ d : Dictionary, d.bytes = List.replicate 300 97 ∧
    d.bytes.length < Packed.lengthLimit ∧ ofBytes d.toBytes = .ok d := by
  have small : (List.replicate 300 (97 : UInt8)).length < Packed.lengthLimit := by
    rw [List.length_replicate]
    decide
  exact ⟨{ blank with bytes := List.replicate 300 97 }, rfl, small, ofBytes_toBytes small⟩

/-- A packed form is refused when bytes are missing at its end, and when any follow. -/
theorem ofBytes_cut_or_extended {d : Dictionary} (small : d.bytes.length < Packed.lengthLimit) :
    (∀ front, front <+: d.toBytes → front ≠ d.toBytes → ofBytes front = .error .malformed) ∧
      ∀ more, more ≠ [] → ofBytes (d.toBytes ++ more) = .error .malformed := by
  have read := parse?_toBytes small
  constructor
  · rintro front ⟨more, whole⟩ strict
    rw [ofBytes_eq_malformed_iff]
    cases short : parse? front with
    | none => rfl
    | some d' =>
      rw [← whole] at read
      obtain rfl := prefixFree_parse? front more d' d short read
      rw [List.append_nil] at whole
      exact absurd whole strict
  · intro more some
    rw [ofBytes_eq_malformed_iff]
    cases long : parse? (d.toBytes ++ more) with
    | none => rfl
    | some d' => exact absurd (prefixFree_parse? d.toBytes more d d' read long) some

/-- Without its last byte, and with one more. -/
theorem ofBytes_cut_or_extended_byte : ∃ d : Dictionary, d.bytes = [97, 98, 99, 97, 98, 99, 100] ∧
    d.bytes.length < Packed.lengthLimit ∧ ofBytes d.toBytes.dropLast = .error .malformed ∧
    ofBytes (d.toBytes ++ [0]) = .error .malformed := by
  let d : Dictionary := { blank with bytes := [97, 98, 99, 97, 98, 99, 100] }
  have small : d.bytes.length < Packed.lengthLimit := by decide
  have some : d.toBytes ≠ [] := by simp [toBytes]
  obtain ⟨cut, extended⟩ := ofBytes_cut_or_extended small
  refine ⟨d, rfl, small, cut _ (List.dropLast_prefix _) ?_, extended [0] (List.cons_ne_nil 0 [])⟩
  intro same
  have shorter := congrArg List.length same
  rw [List.length_dropLast] at shorter
  have pos := List.length_pos_iff.mpr some
  omega

end Dictionary
end SymbolCodec
