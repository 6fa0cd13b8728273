import SymbolCodec.Tally.Layout

/-!
How training is set up. A list of settings is read in order into a
configuration (`Config.ofSettings`); a setting with a value that training cannot
work with leaves the configuration as it is and gives a notice. The
configuration carries the bounds that training relies on. Sizes and counts are
words of 64 bits and fractions have 32, and what is computed from them wraps
around (`Config.leastCountAt`, `Config.following`); whatever the step, the rounds
come to the whole sample (`Config.roundsAfter_following_lt`).
-/
namespace SymbolCodec

/-- The fraction, in parts of 128, that stands for the whole sample. -/
abbrev fullFraction : Nat := 128

/-- One choice of a caller. -/
inductive Setting where
  /-- The size of the sample in bytes; smaller inputs are used whole. -/
  | sampleTarget (bytes : UInt64)
  /-- The longest piece of one line in the sample. -/
  | sampleLine (bytes : UInt64)
  /-- The fraction of the first round. -/
  | firstFraction (fraction : UInt32)
  /-- What the fraction grows by in each round. -/
  | fractionStep (fraction : UInt32)
  /-- How many times the count of a single byte counts. -/
  | byteWeight (times : UInt64)
  /-- The least count of a candidate at the whole sample. -/
  | leastCount (count : UInt64)
  /-- The start of the generator that drives sampling. -/
  | seed (value : UInt64)
  /-- Byte 0 ends strings and has code 0. -/
  | zeroTerminated (on : Bool)
  | layout (layout : Layout)
  deriving DecidableEq, Repr

/-- The configuration of training. -/
structure Config where
  sampleTarget : UInt64 := 16384
  sampleLine : UInt64 := 512
  firstFraction : UInt32 := 8
  fractionStep : UInt32 := 30
  byteWeight : UInt64 := 8
  leastCount : UInt64 := 5
  seed : UInt64 := 4637947
  zeroTerminated : Bool := false
  layout : Layout := .halved
  sampleTarget_pos : 0 < sampleTarget := by decide
  sampleLine_pos : 0 < sampleLine := by decide
  firstFraction_pos : 0 < firstFraction := by decide
  firstFraction_le : firstFraction.toNat ≤ fullFraction := by decide
  fractionStep_pos : 0 < fractionStep := by decide
  byteWeight_pos : 0 < byteWeight := by decide

/-- The settings that a zero makes no sense for. -/
inductive Amount where
  | sampleTarget
  | sampleLine
  | fractionStep
  deriving DecidableEq, Repr

/-- The name of a setting as callers know it. -/
def Amount.name : Amount → String
  | .sampleTarget => "SampleTarget"
  | .sampleLine => "SampleLine"
  | .fractionStep => "FracStep"

/-- What is reported while settings are read and while training runs. -/
inductive Notice where
  /-- A zero was given where a size or a step is needed. -/
  | zeroIgnored (amount : Amount)
  /-- The first fraction is not between 1 and the whole. -/
  | fractionOutOfRange (fraction : UInt32)
  /-- A round at a fraction was gone through with a table of some symbols. -/
  | round (fraction : UInt32) (gain : Int) (symbols : Nat)
  /-- Training has ended. -/
  | finished (gain : Int) (terminator : UInt8) (symbols : Nat)
  deriving DecidableEq, Repr

/-- The text of a notice, after its level. -/
def Notice.text : Notice → String
  | .zeroIgnored amount => s!"WARN: {amount.name} 0 ignored"
  | .fractionOutOfRange fraction => s!"WARN: FracStart {fraction} out of range (1-{fullFraction})"
  | .round fraction gain symbols => s!"DEBUG: frac {fraction}: gain {gain}, {symbols} symbols"
  | .finished gain terminator symbols =>
    s!"DEBUG: best gain {gain}, terminator {terminator}, {symbols} symbols"

namespace Config

/-- The configuration without any setting. -/
def standard : Config := {}

theorem pos_max_one (v : UInt64) : 0 < max v 1 := by
  show 0 < if v ≤ 1 then 1 else v
  split
  case isTrue => decide
  case isFalse large =>
    rw [UInt64.not_le] at large
    exact UInt64.lt_trans (by decide) large

/-- The configuration after one more setting, and the notice it gives. -/
def apply (c : Config) : Setting → Config × Option Notice
  | .sampleTarget v =>
    if h : 0 < v then ({ c with sampleTarget := v, sampleTarget_pos := h }, none)
    else (c, some (.zeroIgnored .sampleTarget))
  | .sampleLine v =>
    if h : 0 < v then ({ c with sampleLine := v, sampleLine_pos := h }, none)
    else (c, some (.zeroIgnored .sampleLine))
  | .firstFraction v =>
    if h : 0 < v ∧ v.toNat ≤ fullFraction then
      ({ c with firstFraction := v, firstFraction_pos := h.1, firstFraction_le := h.2 }, none)
    else (c, some (.fractionOutOfRange v))
  | .fractionStep v =>
    if h : 0 < v then ({ c with fractionStep := v, fractionStep_pos := h }, none)
    else (c, some (.zeroIgnored .fractionStep))
  | .byteWeight v => ({ c with byteWeight := max v 1, byteWeight_pos := pos_max_one v }, none)
  | .leastCount v => ({ c with leastCount := v }, none)
  | .seed v => ({ c with seed := v }, none)
  | .zeroTerminated v => ({ c with zeroTerminated := v }, none)
  | .layout v => ({ c with layout := v }, none)

/-- The configuration after a list of settings, the later ones over the earlier,
    and the notices they give in order. -/
def ofSettings (settings : List Setting) : Config × List Notice :=
  settings.foldl (fun (c, notices) s =>
    let (c, notice) := c.apply s
    (c, notices ++ notice.toList)) (standard, [])

/-- The least count of a candidate at a fraction of the sample. The product has 64 bits, and
    loses what is above them. -/
def leastCountAt (c : Config) (fraction : Nat) : UInt64 :=
  c.leastCount * UInt64.ofNat fraction / UInt64.ofNat fullFraction

/-! ### From round to round -/

/-- The fraction of the next round, the whole at most. The sum has 32 bits, and loses what is
    above them, so that a step which is large enough leads to a smaller fraction. -/
def following (c : Config) (fraction : UInt32) : UInt32 :=
  min (fraction + c.fractionStep) (UInt32.ofNat fullFraction)

/-- A bound of the rounds after one at a fraction. A step in the lower half of the 32-bit numbers
    leads up to the whole; a larger one leads down, or to the whole at once. -/
def roundsAfter (c : Config) (fraction : UInt32) : Nat :=
  if c.fractionStep.toNat < 2147483648 then fullFraction - fraction.toNat
  else if fraction.toNat < fullFraction then fraction.toNat + 1
  else 0

theorem toNat_following (c : Config) (fraction : UInt32) : (c.following fraction).toNat =
    min ((fraction.toNat + c.fractionStep.toNat) % 4294967296) fullFraction := by
  show (if fraction + c.fractionStep ≤ 128 then fraction + c.fractionStep else 128).toNat = _
  have sum := UInt32.toNat_add fraction c.fractionStep
  split
  case isTrue small =>
    rw [UInt32.le_iff_toNat_le, sum] at small
    exact sum.trans (Nat.min_eq_left small).symm
  case isFalse large =>
    rw [UInt32.le_iff_toNat_le, sum] at large
    exact (Nat.min_eq_right (Nat.le_of_not_le large)).symm

/-- The greatest step leads down by one. -/
example : (ofSettings [.fractionStep 4294967295]).1.following 8 = 7 := by decide

theorem roundsAfter_following_lt (c : Config) {fraction : UInt32} (below : fraction.toNat < fullFraction) :
    c.roundsAfter (c.following fraction) < c.roundsAfter fraction := by
  have pos : 0 < c.fractionStep.toNat := c.fractionStep_pos
  have width := c.fractionStep.toNat_lt
  have next := c.toNat_following fraction
  simp only [roundsAfter, fullFraction] at below next ⊢
  split
  · omega
  · split
    · omega
    · omega

end Config
end SymbolCodec
