import SymbolCodec.Sample
import SymbolCodec.Proofs.Runs
import Mathlib.Data.List.Infix

/-!
What a sample holds. Lines are stored back to back without loss (`Sample.Holds`).
A small input is held whole; of a larger one there is always a line with bytes to
be found (`Sample.seek_spec`) and a piece of it to be cut (`Sample.isPiece_piece`), so
that pieces are drawn until the sample is large enough, and each is a piece of one
line (`Sample.sound_ofLines`, `Sample.ofLines_spec`). The terminator is found as the smallest among the
bytes that occur least often (`Sample.rarestByte_spec`).
-/
namespace SymbolCodec.Sample

/-! ### Lines back to back -/

/-- The sample holds some lines, and its offsets end where its bytes do. -/
structure Holds (s : Sample) (ls : List Bytes) : Prop where
  last : s.offsets.toList.getLast? = some s.buffer.size
  inside : ∀ offset ∈ s.offsets.toList, offset ≤ s.buffer.size
  lines_eq : s.lines = ls
  buffer_eq : s.buffer.toList = ls.flatten

theorem holds_empty : Holds empty [] where
  last := rfl
  inside := by simp [empty]
  lines_eq := rfl
  buffer_eq := rfl

theorem zip_tail_concat {α : Type} {x last : α} : ∀ {xs : List α}, xs.getLast? = some last →
    (xs ++ [x]).zip (xs ++ [x]).tail = xs.zip xs.tail ++ [(last, x)]
  | [], found => by simp at found
  | [a], found => by
    obtain rfl : a = last := by simpa using found
    rfl
  | a :: b :: rest, found => by
    have later : (b :: rest).getLast? = some last := by rwa [List.getLast?_cons_cons] at found
    have ih := zip_tail_concat (x := x) later
    simpa using ih

theorem Holds.push {s : Sample} {ls : List Bytes} (holds : s.Holds ls) (line : Array UInt8) :
    (s.push line).Holds (ls ++ [line.toList]) where
  last := by simp [Sample.push]
  inside := by
    intro offset member
    simp only [Sample.push, Array.toList_push, List.mem_append, List.mem_singleton, Array.size_append] at member ⊢
    rcases member with old | rfl
    · exact Nat.le_add_right_of_le (holds.inside offset old)
    · exact Nat.le_refl _
  lines_eq := by
    have old : ∀ entry ∈ s.offsets.toList.zip s.offsets.toList.tail,
        ((s.buffer ++ line).extract entry.1 entry.2).toList = (s.buffer.extract entry.1 entry.2).toList := by
      intro entry member
      have stop := holds.inside _ (List.mem_of_mem_tail (List.of_mem_zip member).2)
      rw [Array.extract_append, Nat.sub_eq_zero_of_le stop, Array.extract_zero, Array.append_empty]
    have new : (s.buffer ++ line).extract s.buffer.size (s.buffer ++ line).size = line := by
      rw [Array.size_append, Array.extract_append_right, Array.extract_size]
    have before : s.lines = _ := holds.lines_eq
    rw [lines] at before
    simp only [lines, Sample.push, Array.toList_push, zip_tail_concat holds.last, List.map_append, List.map_cons,
      List.map_nil, List.map_congr_left old, before, new]
  buffer_eq := by
    simp only [Sample.push, Array.toList_append, holds.buffer_eq, List.flatten_append, List.flatten_singleton]

theorem Holds.foldl_push : ∀ (more : List (Array UInt8)) {s : Sample} {ls : List Bytes}, s.Holds ls →
    (more.foldl Sample.push s).Holds (ls ++ more.map Array.toList)
  | [], s, ls, holds => by simpa using holds
  | line :: more, s, ls, holds => by
    have later := Holds.foldl_push more (holds.push line)
    rwa [List.append_assoc] at later

/-- The offsets of a sample begin with 0, never decrease, and end where its bytes do. -/
structure BackToBack (s : Sample) : Prop where
  first : s.offsets.toList.head? = some 0
  sorted : s.offsets.toList.Pairwise (· ≤ ·)
  last : s.offsets.toList.getLast? = some s.buffer.size

theorem BackToBack.le_size {s : Sample} (back : s.BackToBack) {offset : Nat} (member : offset ∈ s.offsets.toList) :
    offset ≤ s.buffer.size := by
  have greatest := back.sorted.rel_getLast member
  rwa [List.getLast_of_mem_getLast? back.last] at greatest

theorem backToBack_empty : empty.BackToBack := ⟨rfl, List.pairwise_singleton _ _, rfl⟩

theorem BackToBack.push {s : Sample} (back : s.BackToBack) (line : Array UInt8) : (s.push line).BackToBack where
  first := by simp [Sample.push, List.head?_append, back.first]
  sorted := by
    simp only [Sample.push, Array.toList_push, List.pairwise_append, List.pairwise_singleton, List.mem_singleton,
      true_and]
    refine ⟨back.sorted, fun offset member _ same => ?_⟩
    rw [same, Array.size_append]
    exact Nat.le_add_right_of_le (back.le_size member)
  last := by simp [Sample.push]

/-- Each line that is stored counts. -/
theorem BackToBack.size_push {s : Sample} (back : s.BackToBack) (line : Array UInt8) :
    (s.push line).size = s.size + 1 := by
  have some : 0 < s.offsets.size := by
    have := List.length_pos_of_ne_nil (List.ne_nil_of_mem (List.mem_of_mem_head? back.first))
    rwa [Array.length_toList] at this
  have more : (s.push line).offsets.size = s.offsets.size + 1 := Array.size_push ..
  rw [Sample.size, Sample.size, more]
  omega

/-! ### A line with bytes -/

theorem toNat_mod_ofNat_lt (x : UInt64) {n : Nat} (pos : 0 < n) : (x % UInt64.ofNat n).toNat < n := by
  have small := x.toNat_lt
  rw [UInt64.toNat_mod, UInt64.toNat_ofNat']
  by_cases zero : n % 2 ^ 64 = 0
  · rw [zero, Nat.mod_zero]
    have large : 2 ^ 64 ≤ n := Nat.le_of_dvd pos (Nat.dvd_of_mod_eq_zero zero)
    omega
  · exact Nat.lt_of_lt_of_le (Nat.mod_lt _ (Nat.pos_of_ne_zero zero)) (Nat.mod_le ..)

/-- How many lines lie before one, from a place on and after the last line from the
    first. -/
def distance (size place i : Nat) : Nat := if place ≤ i then i - place else size - place + i

/-- A line with bytes is found if there is one among those that are looked at. -/
theorem seek_spec {lines : Array (Array UInt8)} {i : Nat} (within : i < lines.size) (some : lines[i].isEmpty = false) :
    ∀ (looks place : Nat), place < lines.size → distance lines.size place i < looks →
      (seek lines looks place).isEmpty = false ∧ seek lines looks place ∈ lines
  | 0, _, _, near => by simp at near
  | looks + 1, place, inside, near => by
    have line : lines[place]?.getD #[] = lines[place] := by simp [inside]
    simp only [seek, line]
    by_cases none : lines[place].isEmpty = true
    · -- the line looked at has no bytes, so the one that has some is a look nearer
      rw [if_pos none]
      have apart : place ≠ i := by
        rintro rfl
        rw [none] at some
        cases some
      refine seek_spec within some looks _ ?_ ?_
      · split <;> omega
      · unfold distance at near ⊢
        split at near <;> split <;> split <;> omega
    · rw [if_neg none]
      exact ⟨Bool.eq_false_iff.mpr none, Array.getElem_mem inside⟩

/-! ### Pieces of lines -/

/-- A piece is what a line has from a multiple of the length up to the next one, or up
    to its end. -/
def IsPiece (length : Nat) (line piece : Bytes) : Prop :=
  ∃ i, i * length < line.length ∧ piece = (line.drop (i * length)).take length

namespace IsPiece
variable {length : Nat} {line piece : Bytes} (is : IsPiece length line piece)
include is

theorem ne_nil (pos : 0 < length) : piece ≠ [] := by
  obtain ⟨i, inside, rfl⟩ := is
  apply List.ne_nil_of_length_pos
  rw [List.length_take, List.length_drop]
  omega

theorem length_le : piece.length ≤ length := by
  obtain ⟨i, _, rfl⟩ := is
  exact List.length_take_le ..

theorem isInfix : piece <:+: line := by
  obtain ⟨i, _, rfl⟩ := is
  exact (List.take_prefix _ _).isInfix.trans (List.drop_suffix _ _).isInfix

end IsPiece

theorem start_lt {size : Nat} (bytes : 0 < size) (length : Nat) (random : UInt64) :
    length * (random % UInt64.ofNat (1 + (size - 1) / length)).toNat < size := by
  have index := toNat_mod_ofNat_lt random (n := 1 + (size - 1) / length) (Nat.add_pos_left Nat.one_pos _)
  have start : length * (random % UInt64.ofNat (1 + (size - 1) / length)).toNat ≤ size - 1 :=
    calc length * (random % UInt64.ofNat (1 + (size - 1) / length)).toNat
      _ ≤ length * ((size - 1) / length) := Nat.mul_le_mul_left _ (by omega)
      _ ≤ size - 1 := Nat.mul_div_le ..
  omega

theorem size_pos {line : Array UInt8} (some : line.isEmpty = false) : 0 < line.size :=
  Nat.pos_of_ne_zero fun none => by
    rw [Array.isEmpty_iff_size_eq_zero.mpr none] at some
    cases some

theorem isPiece_piece {line : Array UInt8} (some : line.isEmpty = false) (length : Nat) (random : UInt64) :
    IsPiece length line.toList (piece line length random).toList := by
  have start := start_lt (size_pos some) length random
  refine ⟨(random % UInt64.ofNat (1 + (line.size - 1) / length)).toNat, ?_, ?_⟩
  · rwa [Nat.mul_comm, Array.length_toList]
  · rw [piece, Array.toList_extract, List.extract_eq_take_drop, Nat.mul_comm _ length, List.take_eq_take_iff,
      List.length_drop, Array.length_toList]
    omega

section
variable {lines : Array (Array UInt8)} (some : ∃ line ∈ lines, line.isEmpty = false)
include some

/-- Wherever the search starts, it finds a line with bytes. -/
theorem exists_distance_lt {place : Nat} (inside : place < lines.size) :
    ∃ i, ∃ within : i < lines.size, lines[i].isEmpty = false ∧ distance lines.size place i < lines.size := by
  obtain ⟨_, member, bytes⟩ := some
  obtain ⟨i, within, rfl⟩ := Array.mem_iff_getElem.mp member
  refine ⟨i, within, bytes, ?_⟩
  unfold distance
  split <;> omega

theorem drawn_spec (length : Nat) (random : UInt64) :
    ∃ line ∈ lines, IsPiece length line.toList (drawn lines length random).toList := by
  have pos : 0 < lines.size := Array.size_pos_of_mem some.choose_spec.1
  have inside := toNat_mod_ofNat_lt (Word.hash random) pos
  obtain ⟨i, within, bytes, near⟩ := exists_distance_lt some inside
  obtain ⟨bytes', member⟩ := seek_spec within bytes lines.size _ inside near
  exact ⟨_, member, isPiece_piece bytes' length _⟩

theorem drawn_size_pos {length : Nat} (pos : 0 < length) (random : UInt64) : 0 < (drawn lines length random).size := by
  obtain ⟨_, _, is⟩ := drawn_spec some length random
  simpa using List.length_pos_of_ne_nil (is.ne_nil pos)

/-- Pieces are drawn until the sample has the size asked for, and the last is not longer
    than a piece may be. -/
theorem exists_draw {length : Nat} (pos : 0 < length) (target : Nat) (s : Sample) (random : UInt64) {ls : List Bytes}
    (holds : s.Holds ls) (below : s.buffer.size < target + length) :
    ∃ pieces, (draw lines target length s random).Holds (ls ++ pieces) ∧
      target ≤ (draw lines target length s random).buffer.size ∧
      (draw lines target length s random).buffer.size < target + length ∧
      ∀ piece ∈ pieces, ∃ line ∈ lines, IsPiece length line.toList piece := by
  obtain ⟨line, member, is⟩ := drawn_spec some length random
  have size := drawn_size_pos some pos random
  rw [draw]
  by_cases short : s.buffer.size < target
  · have below' : (s.push (drawn lines length random)).buffer.size < target + length := by
      have := is.length_le
      rw [Array.length_toList] at this
      rw [Sample.push, Array.size_append]
      omega
    simp only [short, size, and_self, ↓reduceIte]
    obtain ⟨pieces, held, large, bound, kinds⟩ := exists_draw pos target (s.push (drawn lines length random))
      (Word.hash (Word.hash random)) (holds.push _) below'
    refine ⟨(drawn lines length random).toList :: pieces, by simpa using held, large, bound, fun piece listed => ?_⟩
    rcases List.mem_cons.mp listed with rfl | later
    · exact ⟨line, member, is⟩
    · exact kinds piece later
  · simp only [short, false_and, ↓reduceIte]
    exact ⟨[], by simpa using holds, Nat.le_of_not_lt short, below, by simp⟩
termination_by target - s.buffer.size
decreasing_by
  simp only [Sample.push, Array.size_append]
  omega

end

theorem backToBack_foldl_push (more : List (Array UInt8)) {s : Sample} (back : s.BackToBack) :
    (more.foldl Sample.push s).BackToBack := by
  induction more generalizing s with
  | nil => exact back
  | cons line more ih => exact ih (back.push line)

theorem backToBack_draw (lines : Array (Array UInt8)) (target length : Nat) (s : Sample) (random : UInt64)
    (back : s.BackToBack) : (draw lines target length s random).BackToBack := by
  fun_induction draw lines target length s random with
  | case1 s random piece short ih => exact ih (back.push piece)
  | case2 => exact back

/-- The lines of every sample that is made of an input lie back to back. -/
theorem backToBack_ofLines (input : List Bytes) (config : Config) : (ofLines input config).BackToBack := by
  simp only [ofLines]
  split
  case isTrue => exact backToBack_foldl_push _ backToBack_empty
  case isFalse => exact backToBack_draw _ _ _ _ _ backToBack_empty

/-! ### The sample of an input -/

/-- What pieces drawn of an input are like. -/
structure Pieces (input : List Bytes) (config : Config) (s : Sample) : Prop where
  large : config.sampleTarget.toNat ≤ s.buffer.size
  /-- No more is drawn than the last piece needs. -/
  bound : s.buffer.size < config.sampleTarget.toNat + config.sampleLine.toNat
  kinds : ∀ piece ∈ s.lines, piece ≠ [] ∧ piece.length ≤ config.sampleLine.toNat ∧
    ∃ line ∈ input, IsPiece config.sampleLine.toNat line piece

/-- A sound sample holds a small input whole and pieces of a larger one, and its lines lie
    back to back. -/
structure Sound (input : List Bytes) (config : Config) (s : Sample) : Prop where
  whole : (input.map List.length).sum < config.sampleTarget.toNat → s.lines = input
  drawn : config.sampleTarget.toNat ≤ (input.map List.length).sum → Pieces input config s
  back : s.BackToBack
  flatten_lines : s.lines.flatten = s.buffer.toList

theorem map_size_map_toArray (input : List Bytes) :
    (input.map List.toArray).map Array.size = input.map List.length := by
  simp [Function.comp_def]

theorem exists_nonempty_of_pos {input : List Bytes} (pos : 0 < (input.map List.length).sum) :
    ∃ line ∈ (input.map List.toArray).toArray, line.isEmpty = false := by
  obtain ⟨_, listed, bytes⟩ := List.sum_pos_iff_exists_pos_nat.mp pos
  obtain ⟨line, member, rfl⟩ := List.mem_map.mp listed
  refine ⟨line.toArray, List.mem_toArray.mpr (List.mem_map_of_mem member), ?_⟩
  simpa [Array.isEmpty_iff_size_eq_zero] using Nat.ne_of_gt bytes

/-- Every input has a sound sample, whatever the configuration. -/
theorem sound_ofLines (input : List Bytes) (config : Config) : Sound input config (ofLines input config) := by
  have back := backToBack_ofLines input config
  revert back
  unfold ofLines
  simp only [foldl_add_eq_sum, map_size_map_toArray]
  by_cases small : (input.map List.length).sum < config.sampleTarget.toNat
  · simp only [small, ↓reduceIte]
    intro back
    have holds := Holds.foldl_push (input.map List.toArray) holds_empty
    rw [List.map_map, List.nil_append] at holds
    have lines_eq : (List.foldl push empty (input.map List.toArray)).lines = input := by
      simpa [Function.comp_def] using holds.lines_eq
    exact ⟨fun _ => lines_eq, fun large => absurd small (Nat.not_lt.mpr large), back,
      by rw [holds.lines_eq, holds.buffer_eq]⟩
  · simp only [small, ↓reduceIte]
    intro back
    have target : 0 < config.sampleTarget.toNat := config.sampleTarget_pos
    have length : 0 < config.sampleLine.toNat := config.sampleLine_pos
    have some : ∃ line ∈ (input.map List.toArray).toArray, line.isEmpty = false :=
      exists_nonempty_of_pos (by omega)
    obtain ⟨pieces, holds, large, bound, kinds⟩ :=
      exists_draw some length config.sampleTarget.toNat empty (Word.hash config.seed) holds_empty
        (Nat.lt_of_lt_of_le target (Nat.le_add_right ..))
    refine ⟨fun small' => absurd small' small, fun _ => ⟨large, bound, fun piece member => ?_⟩, back,
      by rw [holds.lines_eq, holds.buffer_eq]⟩
    rw [holds.lines_eq] at member
    obtain ⟨_, listed, is⟩ := kinds piece member
    obtain ⟨line, listed', rfl⟩ := List.mem_map.mp (List.mem_toArray.mp listed)
    exact ⟨is.ne_nil length, is.length_le, line, listed', is⟩

/-- What a sample of some lines is like. -/
structure SampleOf (input : List Bytes) (config : Config) (s : Sample) : Prop where
  buffer_eq : s.buffer.toList = s.lines.flatten
  /-- It is the whole input or as large as it was asked for. -/
  enough : s.lines = input ∨ config.sampleTarget.toNat ≤ s.buffer.size
  inner : ∀ piece ∈ s.lines, ∃ line ∈ input, piece <:+: line

/-- Every input has a sample, whatever the configuration. -/
theorem ofLines_spec (input : List Bytes) (config : Config) : SampleOf input config (ofLines input config) := by
  have sound := sound_ofLines input config
  by_cases small : (input.map List.length).sum < config.sampleTarget.toNat
  · have lines_eq := sound.whole small
    exact ⟨sound.flatten_lines.symm, .inl lines_eq, fun piece member =>
      ⟨piece, by rwa [lines_eq] at member, List.infix_refl _⟩⟩
  · have pieces := sound.drawn (Nat.le_of_not_lt small)
    refine ⟨sound.flatten_lines.symm, .inr pieces.large, fun piece member => ?_⟩
    obtain ⟨_, _, line, listed, is⟩ := pieces.kinds piece member
    exact ⟨line, listed, is.isInfix⟩

/-! ### The terminator -/

theorem get_foldl_count (bs : Bytes) (a : UInt8) : ∀ counts : Vector Nat 256,
    (bs.foldl (fun counts b => counts.setIfInBounds b.toNat (counts.get b.toFin + 1)) counts).get a.toFin =
      counts.get a.toFin + bs.count a := by
  induction bs with
  | nil => simp
  | cons b bs ih =>
    intro counts
    have cell : (counts.setIfInBounds b.toNat (counts.get b.toFin + 1)).get a.toFin =
        if b.toFin = a.toFin then counts.get b.toFin + 1 else counts.get a.toFin :=
      get_setIfInBounds counts b.toFin a.toFin _
    rw [List.foldl_cons, ih, cell]
    by_cases same : b = a
    · subst same
      rw [if_pos rfl, List.count_cons_self, Nat.add_right_comm, Nat.add_assoc]
    · rw [if_neg fun equal => same (UInt8.toFin_inj.mp equal), List.count_cons_of_ne same]

theorem byteCounts_eq (s : Sample) (a : UInt8) : s.byteCounts.get a.toFin = s.buffer.toList.count a := by
  rw [byteCounts, ← Array.foldl_toList, get_foldl_count, Vector.get_replicate, Nat.zero_add]

/-- The first of the smallest entries of a list in order. -/
structure Least (key : Fin 256 → Nat) (bs : List (Fin 256)) (r : Fin 256) : Prop where
  mem : r ∈ bs
  le : ∀ b ∈ bs, key r ≤ key b
  lt : ∀ b ∈ bs, b < r → key r < key b

def lower (key : Fin 256 → Nat) (best b : Fin 256) : Fin 256 := if key b < key best then b else best

theorem Least.cons {key : Fin 256 → Nat} {best b r : Fin 256} {bs : List (Fin 256)} (least : Least key (b :: bs) r)
    (better : key b < key best) : Least key (best :: b :: bs) r where
  mem := List.mem_cons_of_mem _ least.mem
  le x member := by
    rcases List.mem_cons.mp member with rfl | later
    · exact Nat.le_trans (least.le b List.mem_cons_self) (Nat.le_of_lt better)
    · exact least.le x later
  lt x member earlier := by
    rcases List.mem_cons.mp member with rfl | later
    · exact Nat.lt_of_le_of_lt (least.le b List.mem_cons_self) better
    · exact least.lt x later earlier

theorem Least.insert {key : Fin 256 → Nat} {best b r : Fin 256} {bs : List (Fin 256)}
    (least : Least key (best :: bs) r) (before : best ≤ b) (kept : key best ≤ key b) :
    Least key (best :: b :: bs) r where
  mem := by
    rcases List.mem_cons.mp least.mem with rfl | later
    · exact List.mem_cons_self
    · exact List.mem_cons_of_mem _ (List.mem_cons_of_mem _ later)
  le x member := by
    rcases List.mem_cons.mp member with rfl | rest
    · exact least.le x List.mem_cons_self
    rcases List.mem_cons.mp rest with rfl | later
    · exact Nat.le_trans (least.le best List.mem_cons_self) kept
    · exact least.le x (List.mem_cons_of_mem _ later)
  lt x member earlier := by
    rcases List.mem_cons.mp member with rfl | rest
    · exact least.lt x List.mem_cons_self earlier
    rcases List.mem_cons.mp rest with rfl | later
    · -- the kept entry comes no later than this one, so the least lies beyond both
      exact Nat.lt_of_lt_of_le (least.lt best List.mem_cons_self (Fin.lt_of_le_of_lt before earlier)) kept
    · exact least.lt x (List.mem_cons_of_mem _ later) earlier

theorem least_foldl (key : Fin 256 → Nat) : ∀ (bs : List (Fin 256)) (best : Fin 256), (best :: bs).Pairwise (· ≤ ·) →
    Least key (best :: bs) (bs.foldl (lower key) best)
  | [], best, _ => ⟨by simp, by simp, by simp⟩
  | b :: bs, best, sorted => by
    obtain ⟨before, sorted'⟩ := List.pairwise_cons.mp sorted
    rw [List.foldl_cons]
    by_cases better : key b < key best
    · rw [lower, if_pos better]
      exact (least_foldl key bs b sorted').cons better
    · rw [lower, if_neg better]
      have kept : (best :: bs).Pairwise (· ≤ ·) :=
        List.pairwise_cons.mpr ⟨fun x member => before x (List.mem_cons_of_mem _ member), sorted'.of_cons⟩
      exact (least_foldl key bs best kept).insert (before b List.mem_cons_self) (Nat.le_of_not_lt better)

/-- The terminator is the smallest among the bytes that occur least often. -/
theorem rarestByte_spec (s : Sample) :
    (∀ b, s.buffer.toList.count s.rarestByte ≤ s.buffer.toList.count b) ∧
      ∀ b < s.rarestByte, s.buffer.toList.count s.rarestByte < s.buffer.toList.count b := by
  have sorted : ((0 : Fin 256) :: List.finRange 256).Pairwise (· ≤ ·) :=
    List.pairwise_cons.mpr ⟨fun b _ => Fin.zero_le b, (List.pairwise_lt_finRange 256).imp Fin.le_of_lt⟩
  have least := least_foldl s.byteCounts.get (List.finRange 256) 0 sorted
  have result : s.rarestByte = UInt8.ofFin ((List.finRange 256).foldl (lower s.byteCounts.get) 0) := rfl
  generalize (List.finRange 256).foldl (lower s.byteCounts.get) 0 = r at least result
  have same : r = s.rarestByte.toFin := by rw [result]; rfl
  subst same
  have listed (b : UInt8) : b.toFin ∈ (0 : Fin 256) :: List.finRange 256 :=
    List.mem_cons_of_mem _ (List.mem_finRange b.toFin)
  simp only [← byteCounts_eq]
  exact ⟨fun b => least.le b.toFin (listed b), fun b before => least.lt b.toFin (listed b) before⟩

end SymbolCodec.Sample
