import SymbolCodec.Sample.Drawing
import SymbolCodec.Proofs.Samples

/-!
Drawing always ends, and with a sound sample. Where some line has bytes, the inner loop
comes to one before it has looked at every line, wherever the generator starts it
(`Sample.Drawing.exists_run_seeking`), and cuts from it a piece that has bytes, so that the
outer loop comes nearer to its end by each piece (`Sample.Drawing.exists_run_more`). The
numbers that the generator gives do not matter for this: whatever the seed, no check of a
step fails, and the drawing comes to the sample that is made at once
(`Sample.Drawing.exists_run_ofLines`).
-/
namespace SymbolCodec.Sample

theorem cut_eq_piece {line : Array UInt8} (some : line.isEmpty = false) {length : Nat} (pos : 0 < length)
    (random : UInt64) : cut line length random = .ok (piece line length random) := by
  have bytes := size_pos some
  have start := start_lt bytes length random
  rw [cut, if_neg (Nat.ne_of_gt bytes), if_neg (Nat.ne_of_gt pos)]
  exact if_pos ⟨by omega, Nat.min_le_left ..⟩

namespace Drawing
variable {lines : Array (Array UInt8)} {target length : Nat}

theorem run_succ {d d' : Drawing} (stepped : step lines target length d = .ok d') (steps : Nat) :
    run lines target length (steps + 1) d = run lines target length steps d' := by
  rw [run, stepped]
  rfl

theorem run_add {d d' : Drawing} {m : Nat} (first : run lines target length m d = .ok d') (n : Nat) :
    run lines target length (m + n) d = run lines target length n d' := by
  induction m generalizing d with
  | zero =>
    cases first
    rw [Nat.zero_add]
  | succ m ih =>
    rw [Nat.add_right_comm, run]
    rw [run] at first
    cases stepped : step lines target length d with
    | error e => rw [stepped] at first; cases first
    | ok d'' => rw [stepped] at first; exact ih first

/-! ### The loops -/

/-- The inner loop comes to the line that a search finds, and a piece of it is taken. -/
theorem exists_run_seeking (target : Nat) (pos : 0 < length) (s : Sample) (random : UInt64) : ∀ (looks place : Nat),
    place < lines.size → (seek lines looks place).isEmpty = false →
      ∃ steps ≤ looks, run lines target length steps (seeking s random place) =
        .ok (more (s.push (piece (seek lines looks place) length (Word.hash random))) (Word.hash random))
  | 0, _, _, found => by simp [seek] at found
  | looks + 1, place, inside, found => by
    have line : lines[place]? = some lines[place] := Array.getElem?_eq_getElem inside
    rw [seek, line, Option.getD_some] at found ⊢
    by_cases none : lines[place].isEmpty = true
    · -- the search goes on from the next place, and so does the loop, a step later
      rw [if_pos none] at found ⊢
      have inside' : (if place + 1 = lines.size then 0 else place + 1) < lines.size := by split <;> omega
      obtain ⟨steps, le, ran⟩ := exists_run_seeking target pos s random looks _ inside' found
      refine ⟨steps + 1, Nat.succ_le_succ le, ?_⟩
      rw [run_succ (by rw [step, line]; exact if_pos none), ran]
    · rw [if_neg none]
      refine ⟨1, Nat.succ_le_succ (Nat.zero_le _), run_succ ?_ 0⟩
      rw [step, line]
      simp only [if_neg none, cut_eq_piece (Bool.eq_false_iff.mpr none) pos, Except.map]

section
variable (some : ∃ line ∈ lines, line.isEmpty = false) (pos : 0 < length)
include some pos

/-- Each round of the outer loop adds the piece that is drawn, and takes no more than one
    step and a look at each line. -/
theorem exists_run_round {s : Sample} (short : s.buffer.size < target) (random : UInt64) :
    ∃ steps ≤ lines.size + 1, run lines target length steps (more s random) =
      .ok (more (s.push (drawn lines length random)) (Word.hash (Word.hash random))) := by
  have size : 0 < lines.size := Array.size_pos_of_mem some.choose_spec.1
  have inside := toNat_mod_ofNat_lt (Word.hash random) size
  obtain ⟨i, within, bytes, near⟩ := exists_distance_lt some inside
  have found := (seek_spec within bytes lines.size _ inside near).1
  obtain ⟨steps, le, ran⟩ := exists_run_seeking target pos s (Word.hash random) lines.size _ inside found
  refine ⟨steps + 1, Nat.succ_le_succ le, ?_⟩
  rw [run_succ (by rw [step, if_pos short]; exact if_neg (Nat.ne_of_gt size)), ran]
  rfl

/-- The outer loop ends, after no more rounds than the sample lacks bytes. -/
theorem exists_run_more (target : Nat) (s : Sample) (random : UInt64) :
    ∃ steps ≤ (target - s.buffer.size) * (lines.size + 1) + 1,
      run lines target length steps (more s random) = .ok (done (draw lines target length s random)) := by
  fun_induction draw lines target length s random with
  | case1 s random piece short ih =>
    obtain ⟨round, round_le, drew⟩ := exists_run_round some pos short.1 random
    obtain ⟨rest, rest_le, ended⟩ := ih
    refine ⟨round + rest, ?_, (run_add drew rest).trans ended⟩
    -- a piece has bytes, so the sample lacks one less at least, which pays for the round
    have nearer : target - (s.push piece).buffer.size + 1 ≤ target - s.buffer.size := by
      rw [Sample.push, Array.size_append]
      omega
    calc round + rest
      _ ≤ (lines.size + 1) + ((target - (s.push piece).buffer.size) * (lines.size + 1) + 1) :=
        Nat.add_le_add round_le rest_le
      _ = (target - (s.push piece).buffer.size + 1) * (lines.size + 1) + 1 := by rw [Nat.succ_mul]; omega
      _ ≤ (target - s.buffer.size) * (lines.size + 1) + 1 := Nat.succ_le_succ (Nat.mul_le_mul_right _ nearer)
  | case2 s random piece enough =>
    have size := drawn_size_pos some pos random
    have large : ¬s.buffer.size < target := fun short => enough ⟨short, size⟩
    exact ⟨1, Nat.le_add_left .., run_succ (by rw [step, if_neg large]) 0⟩

end

/-- Whatever the lines and the configuration, drawing ends in the sample of the lines. -/
theorem exists_run_ofLines (input : List Bytes) (config : Config) :
    ∃ steps ≤ config.sampleTarget.toNat * (input.length + 1) + 1,
      ofLines input config steps = .ok (done (Sample.ofLines input config)) := by
  unfold ofLines start Sample.ofLines
  simp only [List.foldl_toArray, foldl_add_eq_sum, map_size_map_toArray]
  by_cases small : (input.map List.length).sum < config.sampleTarget.toNat
  · exact ⟨0, Nat.zero_le _, by simp only [if_pos small, run]⟩
  · have target : 0 < config.sampleTarget.toNat := config.sampleTarget_pos
    have some : ∃ line ∈ (input.map List.toArray).toArray, line.isEmpty = false :=
      exists_nonempty_of_pos (by omega)
    simp only [if_neg small]
    have ended := exists_run_more some config.sampleLine_pos config.sampleTarget.toNat empty (Word.hash config.seed)
    have size : (input.map List.toArray).toArray.size = input.length := by simp
    rw [size] at ended
    exact ended

end Drawing

/-- For every list of lines and every configuration that is read from settings, the loops
    of drawing end, and what they end with is a sound sample. -/
theorem exists_run_sound (input : List Bytes) (settings : List Setting) :
    (∃ steps ≤ (Config.ofSettings settings).1.sampleTarget.toNat * (input.length + 1) + 1,
      Drawing.ofLines input (Config.ofSettings settings).1 steps =
        .ok (.done (ofLines input (Config.ofSettings settings).1))) ∧
      Sound input (Config.ofSettings settings).1 (ofLines input (Config.ofSettings settings).1) :=
  ⟨Drawing.exists_run_ofLines input _, sound_ofLines input _⟩

end SymbolCodec.Sample
