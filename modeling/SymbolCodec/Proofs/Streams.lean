import SymbolCodec.Proofs.Drawing
import SymbolCodec.Proofs.Runs
import Mathlib

/-!
The numbers that drawing takes from its generator. Mixing loses nothing: the multiplier has
an inverse modulo the word size, and folding the high bits down is undone by folding on by
twice as many places until nothing is left to fold (`Word.unfoldDown_foldDown`). So
`Word.hash` is a bijection (`Word.hash_bijective`), and the stream of numbers that it makes
of a seed comes back to the seed from wherever it has got to (`Word.exists_iterate_hash_eq`).
Drawing goes along the stream of the seed of its configuration: each piece of a sample is
drawn by the numbers of its place (`Sample.ofLines_eq_drawnAlong`), and so is every state
that the loops come to (`Sample.Drawing.eq_iterate_of_given?`). Streams of different seeds
therefore never merge (`Sample.StreamsApart`), and none but that of zero comes to zero
(`Sample.NeverZero`).
-/
namespace SymbolCodec

namespace Word

/-! ### Folding undone -/

/-- A word with its bits folded down by a number of places. -/
def foldDown (places : Nat) (w : UInt64) : UInt64 := w ^^^ UInt64.ofBitVec (w.toBitVec >>> places)

/-- Undoes `Word.foldDown`, by folding on by twice and by four times as many places. -/
def unfoldDown (places : Nat) (w : UInt64) : UInt64 :=
  foldDown (4 * places) (foldDown (2 * places) (foldDown places w))

theorem toBitVec_foldDown (places : Nat) (w : UInt64) :
    (foldDown places w).toBitVec = w.toBitVec ^^^ (w.toBitVec >>> places) := rfl

/-- Folded twice, a word meets itself in the middle, and what is left is folded by twice as
    many places. -/
theorem foldDown_foldDown (places : Nat) (w : UInt64) :
    foldDown places (foldDown places w) = foldDown (2 * places) w := by
  apply UInt64.toBitVec_inj.mp
  rw [toBitVec_foldDown, toBitVec_foldDown, toBitVec_foldDown, BitVec.ushiftRight_xor_distrib,
    ← BitVec.shiftRight_add, ← Nat.two_mul, BitVec.xor_assoc, ← BitVec.xor_assoc (w.toBitVec >>> places),
    BitVec.xor_self, BitVec.zero_xor]

theorem foldDown_comm (places places' : Nat) (w : UInt64) :
    foldDown places (foldDown places' w) = foldDown places' (foldDown places w) := by
  apply UInt64.toBitVec_inj.mp
  simp only [toBitVec_foldDown, BitVec.ushiftRight_xor_distrib, ← BitVec.shiftRight_add, Nat.add_comm places places']
  ac_rfl

/-- Past the width of a word there is nothing to fold. -/
theorem foldDown_of_le {places : Nat} (wide : 64 ≤ places) (w : UInt64) : foldDown places w = w := by
  apply UInt64.toBitVec_inj.mp
  rw [toBitVec_foldDown, BitVec.ushiftRight_eq_zero wide, BitVec.xor_zero]

section
variable {places : Nat} (wide : 64 ≤ 8 * places) (w : UInt64)
include wide

theorem unfoldDown_foldDown : unfoldDown places (foldDown places w) = w := by
  rw [unfoldDown, foldDown_foldDown, foldDown_foldDown, ← Nat.mul_assoc, foldDown_foldDown, ← Nat.mul_assoc,
    foldDown_of_le wide]

theorem foldDown_unfoldDown : foldDown places (unfoldDown places w) = w := by
  rw [unfoldDown, foldDown_comm places, foldDown_comm places]
  exact unfoldDown_foldDown wide w

end

/-! ### Mixing undone -/

theorem hash_eq (w : UInt64) : hash w = foldDown 15 (w * multiplier) := rfl

/-- The inverse of the multiplier, modulo the word size. -/
def multiplierInverse : UInt64 := 16574762156229861153

/-- Undoes `Word.hash`. -/
def unhash (h : UInt64) : UInt64 := unfoldDown 15 h * multiplierInverse

theorem unhash_hash (w : UInt64) : unhash (hash w) = w := by
  have undone : multiplier * multiplierInverse = 1 := by decide
  rw [unhash, hash_eq, unfoldDown_foldDown (by decide), UInt64.mul_assoc, undone, UInt64.mul_one]

theorem hash_unhash (h : UInt64) : hash (unhash h) = h := by
  have undone : multiplierInverse * multiplier = 1 := by decide
  rw [hash_eq, unhash, UInt64.mul_assoc, undone, UInt64.mul_one, foldDown_unfoldDown (by decide)]

theorem hash_bijective : Function.Bijective hash :=
  Function.bijective_iff_has_inverse.mpr ⟨unhash, unhash_hash, hash_unhash⟩

/-! ### Streams -/

theorem hash_zero : hash 0 = 0 := rfl

theorem hash_iterate (seed : UInt64) (n : Nat) : hash (hash^[n] seed) = hash^[n + 1] seed :=
  (Function.iterate_succ_apply' hash n seed).symm

theorem iterate_hash_inj {seed seed' : UInt64} (n : Nat) : hash^[n] seed = hash^[n] seed' ↔ seed = seed' :=
  (hash_bijective.injective.iterate n).eq_iff

theorem iterate_hash_eq_zero_iff {seed : UInt64} (n : Nat) : hash^[n] seed = 0 ↔ seed = 0 := by
  have zero : hash^[n] 0 = 0 := Function.iterate_fixed hash_zero n
  constructor
  · intro ended
    exact (iterate_hash_inj n).mp (ended.trans zero.symm)
  · rintro rfl
    exact zero

/-- The stream of a seed comes back to it from wherever it has got to. -/
theorem exists_iterate_hash_eq (seed : UInt64) (n : Nat) : ∃ k, hash^[k] (hash^[n] seed) = seed := by
  obtain ⟨rounds, pos, back⟩ := (hash_bijective.injective.iterate n).mem_periodicPts seed
  -- one of the rounds of n steps has been made already
  obtain ⟨later, rfl⟩ := Nat.exists_eq_succ_of_ne_zero (Nat.ne_of_gt pos)
  refine ⟨n * later, ?_⟩
  rw [Function.iterate_mul, ← Function.iterate_succ_apply]
  exact back

/-- Streams with a number in common have all numbers in common: each seed is a number of
    the other's stream. -/
theorem exists_iterate_hash_of_shared {seed seed' : UInt64} {m n : Nat} (shared : hash^[m] seed = hash^[n] seed') :
    ∃ k, hash^[k] seed = seed' := by
  obtain ⟨k, back⟩ := exists_iterate_hash_eq seed' n
  exact ⟨k + m, by rw [Function.iterate_add_apply, shared, back]⟩

end Word

namespace Sample

/-! ### Drawing along a stream -/

/-- The sample of as many pieces as given, drawn along the stream of a seed. The first
    number of the stream draws nothing, and each piece takes two. -/
def drawnAlong (lines : Array (Array UInt8)) (length : Nat) (seed : UInt64) : Nat → Sample
  | 0 => empty
  | count + 1 =>
    (drawnAlong lines length seed count).push (drawn lines length (Word.hash^[2 * count + 1] seed))

section
variable (lines : Array (Array UInt8)) (target length : Nat) (seed : UInt64)

theorem backToBack_drawnAlong (count : Nat) : (drawnAlong lines length seed count).BackToBack := by
  induction count with
  | zero => exact backToBack_empty
  | succ count ih => exact ih.push _

theorem size_drawnAlong (count : Nat) : (drawnAlong lines length seed count).size = count := by
  induction count with
  | zero => rfl
  | succ count ih => rw [drawnAlong, (backToBack_drawnAlong lines length seed count).size_push, ih]

/-- Drawing goes on along the stream from the pieces that there are. -/
theorem exists_draw_eq_drawnAlong (s : Sample) (random : UInt64) : ∀ count,
    s = drawnAlong lines length seed count → random = Word.hash^[2 * count + 1] seed →
      ∃ n, draw lines target length s random = drawnAlong lines length seed n := by
  fun_induction draw lines target length s random with
  | case1 s random piece short ih =>
    -- a piece more, and two numbers further along the stream
    intro count sample number
    refine ih (count + 1) ?_ ?_
    · rw [drawnAlong, ← sample, ← number]
    · rw [number, Word.hash_iterate, Word.hash_iterate]
      rfl
  | case2 => exact fun count sample _ => ⟨count, sample⟩

end

/-- The pieces of a sample are those that the stream of the seed draws, in order. -/
theorem ofLines_eq_drawnAlong {input : List Bytes} {config : Config}
    (large : config.sampleTarget.toNat ≤ (input.map List.length).sum) :
    ofLines input config = drawnAlong (input.map List.toArray).toArray config.sampleLine.toNat config.seed
      (ofLines input config).size := by
  have drew : ofLines input config = draw (input.map List.toArray).toArray config.sampleTarget.toNat
      config.sampleLine.toNat empty (Word.hash config.seed) := by
    simp only [ofLines, foldl_add_eq_sum, map_size_map_toArray]
    exact if_neg (Nat.not_lt.mpr large)
  obtain ⟨n, along⟩ := exists_draw_eq_drawnAlong (input.map List.toArray).toArray config.sampleTarget.toNat
    config.sampleLine.toNat config.seed empty (Word.hash config.seed) 0 rfl rfl
  rw [drew, along, size_drawnAlong]

namespace Drawing
variable {lines : Array (Array UInt8)} {target length : Nat} {seed : UInt64}

/-- How many numbers the generator of a drawing under way has given, and the last of them:
    one before the first piece and two for each, the first of them before its line is looked
    for. -/
def given? : Drawing → Option (Nat × UInt64)
  | more s random => some (2 * s.size + 1, random)
  | seeking s random _ => some (2 * s.size + 2, random)
  | done _ => none

/-- A drawing goes along the stream of a seed. -/
def Along (seed : UInt64) : Drawing → Prop
  | more s random => s.BackToBack ∧ random = Word.hash^[2 * s.size + 1] seed
  | seeking s random _ => s.BackToBack ∧ random = Word.hash^[2 * s.size + 2] seed
  | done _ => True

theorem along_start (lines : Array (Array UInt8)) (config : Config) : (start lines config).Along config.seed := by
  unfold start
  split
  case isTrue => trivial
  case isFalse => exact ⟨backToBack_empty, rfl⟩

/-- Each step that mixes takes the next number of the stream, and the pieces count on with it. -/
theorem Along.step {d d' : Drawing} (along : d.Along seed) (stepped : step lines target length d = .ok d') :
    d'.Along seed := by
  cases d with
  | more s random =>
    obtain ⟨back, number⟩ := along
    by_cases short : s.buffer.size < target
    · rw [Drawing.step, if_pos short] at stepped
      obtain ⟨_, stepped⟩ := check_eq_ok_iff.mp stepped
      cases stepped
      exact ⟨back, by rw [number, Word.hash_iterate]⟩
    · rw [Drawing.step, if_neg short] at stepped
      cases stepped
      trivial
  | seeking s random place =>
    obtain ⟨back, number⟩ := along
    cases found : lines[place]? with
    | none =>
      rw [Drawing.step, found] at stepped
      cases stepped
    | some line =>
      rw [Drawing.step, found] at stepped
      by_cases none : line.isEmpty = true
      · -- the loop looks at the next line with the number that it has
        cases (if_pos none).symm.trans stepped
        exact ⟨back, number⟩
      · obtain ⟨piece, _, pushed⟩ := map_eq_ok_iff.mp ((if_neg none).symm.trans stepped)
        subst pushed
        refine ⟨back.push piece, ?_⟩
        rw [back.size_push, number, Word.hash_iterate]
        rfl
  | done s =>
    cases stepped
    trivial

theorem Along.run {steps : Nat} {d d' : Drawing} (along : d.Along seed)
    (ran : run lines target length steps d = .ok d') : d'.Along seed := by
  induction steps generalizing d with
  | zero =>
    cases ran
    exact along
  | succ steps ih =>
    obtain ⟨next, stepped, rest⟩ := bind_eq_ok_iff.mp ran
    exact ih (along.step stepped) rest

theorem Along.eq_of_given? {d : Drawing} (along : d.Along seed) {n : Nat} {w : UInt64} (given : d.given? = some (n, w)) :
    w = Word.hash^[n] seed := by
  cases d with
  | more s random =>
    cases given
    exact along.2
  | seeking s random place =>
    cases given
    exact along.2
  | done s => cases given

/-- What the generator of a drawing has given last is the number of the stream at that place. -/
theorem eq_iterate_of_given? {input : List Bytes} {config : Config} {steps : Nat} {d : Drawing}
    (ran : ofLines input config steps = .ok d) {n : Nat} {w : UInt64} (given : d.given? = some (n, w)) :
    w = Word.hash^[n] config.seed :=
  ((along_start _ config).run ran).eq_of_given? given

end Drawing

/-! ### Two seeds -/

/-- How the streams of two seeds stand to each other, and the drawings along them. -/
structure StreamsApart (seed seed' : UInt64) : Prop where
  /-- After as many steps they have come to different numbers. -/
  iterate_ne : ∀ n, Word.hash^[n] seed ≠ Word.hash^[n] seed'
  /-- They have a number in common only where they have been in one cycle from the start. -/
  meet : ∀ m n, Word.hash^[m] seed = Word.hash^[n] seed' →
    (∃ k, Word.hash^[k] seed = seed') ∧ ∃ k, Word.hash^[k] seed' = seed
  /-- Drawings, of whatever inputs, that have taken as many numbers hold different ones. -/
  given_ne : ∀ (input input' : List Bytes) (config config' : Config), config.seed = seed → config'.seed = seed' →
    ∀ (steps steps' : Nat) (d d' : Drawing), Drawing.ofLines input config steps = .ok d →
      Drawing.ofLines input' config' steps' = .ok d' →
        ∀ n w w', d.given? = some (n, w) → d'.given? = some (n, w') → w ≠ w'

/-- The stream of a seed never comes to zero, and neither does a drawing along it. -/
structure NeverZero (seed : UInt64) : Prop where
  iterate_ne : ∀ n, Word.hash^[n] seed ≠ 0
  given_ne : ∀ (input : List Bytes) (config : Config), config.seed = seed → ∀ (steps : Nat) (d : Drawing),
    Drawing.ofLines input config steps = .ok d → ∀ n w, d.given? = some (n, w) → w ≠ 0

theorem StreamsApart.of_ne {seed seed' : UInt64} (differ : seed ≠ seed') : StreamsApart seed seed' where
  iterate_ne n := (Word.iterate_hash_inj n).not.mpr differ
  meet m n shared := ⟨Word.exists_iterate_hash_of_shared shared, Word.exists_iterate_hash_of_shared shared.symm⟩
  given_ne := by
    intro input input' config config' seeded seeded' steps steps' d d' ran ran' n w w' given given'
    subst seeded seeded'
    rw [Drawing.eq_iterate_of_given? ran given, Drawing.eq_iterate_of_given? ran' given']
    exact (Word.iterate_hash_inj n).not.mpr differ

theorem NeverZero.of_ne_zero {seed : UInt64} (nonzero : seed ≠ 0) : NeverZero seed where
  iterate_ne n := (Word.iterate_hash_eq_zero_iff n).not.mpr nonzero
  given_ne := by
    intro input config seeded steps d ran n w given
    subst seeded
    rw [Drawing.eq_iterate_of_given? ran given]
    exact (Word.iterate_hash_eq_zero_iff n).not.mpr nonzero

/-- Mixing is a bijection of the words that keeps zero. So the streams of different seeds
    never merge, and that of a seed other than zero never comes to zero; and it is along the
    stream of its seed that a sample is drawn. -/
theorem streamsApart : Function.Bijective Word.hash ∧ Word.hash 0 = 0 ∧
    (∀ seed seed', seed ≠ seed' → StreamsApart seed seed') ∧ (∀ seed, seed ≠ 0 → NeverZero seed) ∧
    ∀ (input : List Bytes) (config : Config), config.sampleTarget.toNat ≤ (input.map List.length).sum →
      ofLines input config = drawnAlong (input.map List.toArray).toArray config.sampleLine.toNat config.seed
        (ofLines input config).size :=
  ⟨Word.hash_bijective, Word.hash_zero, fun _ _ => StreamsApart.of_ne, fun _ => NeverZero.of_ne_zero,
    fun _ _ => ofLines_eq_drawnAlong⟩

/-- Two bytes are to be drawn one by one, by the seed that stands where none is set. -/
def byteByByte : Config := (Config.ofSettings [.sampleTarget 2, .sampleLine 1]).1

/-- The same by the number that comes after that seed. -/
def byteByByteNext : Config :=
  (Config.ofSettings [.sampleTarget 2, .sampleLine 1, .seed (Word.hash byteByByte.seed)]).1

/-- A seed and the number after it: their streams have all numbers in common, but drawings
    along them that have taken as many hold different ones. -/
theorem streamsApart_next : byteByByte.seed ≠ byteByByteNext.seed ∧ byteByByte.seed ≠ 0 ∧
    StreamsApart byteByByte.seed byteByByteNext.seed ∧ NeverZero byteByByte.seed ∧
    (∃ d d' w w', Drawing.ofLines [[97, 98]] byteByByte 2 = .ok d ∧
      Drawing.ofLines [[97, 98]] byteByByteNext 2 = .ok d' ∧ d.given? = some (3, w) ∧ d'.given? = some (3, w') ∧
      w ≠ w' ∧ w ≠ 0) ∧
    ofLines [[97, 98]] byteByByte = drawnAlong #[#[97, 98]] 1 byteByByte.seed (ofLines [[97, 98]] byteByByte).size := by
  have differ : byteByByte.seed ≠ byteByByteNext.seed := by decide
  have nonzero : byteByByte.seed ≠ 0 := by decide
  obtain ⟨_, _, streams, numbers, samples⟩ := streamsApart
  have apart := streams _ _ differ
  have never := numbers _ nonzero
  refine ⟨differ, nonzero, apart, never, ⟨_, _, _, _, rfl, rfl, rfl, rfl, ?_, ?_⟩, samples _ _ (by decide)⟩
  · exact apart.given_ne [[97, 98]] [[97, 98]] byteByByte byteByByteNext rfl rfl 2 2 _ _ rfl rfl 3 _ _ rfl rfl
  · exact never.given_ne [[97, 98]] byteByByte rfl 2 _ rfl 3 _ rfl

end Sample
end SymbolCodec
