/-
Module: PatternSampler.Proofs.Support
Purpose: The values of a distribution. Drawing, the bounds and the mass describe the same support
  each on its own. Here drawing is told in numbers without a limit: what is drawn as a word
  is that number, or the greatest word if the number is beyond it, which only the sum of an
  offset and failures can be. So whatever the draws of doubles turn out to be, a value is
  between the bounds, and outside of them there is no mass.
Main exports: Distribution.Made, Distribution.Supports, Distribution.sampleNat,
  Distribution.toNat_sample, Distribution.sampleNat_within, Distribution.mass_eq_zero,
  Distribution.sample_within_support
-/
import PatternSampler.Distribution.Mass
import PatternSampler.Proofs.Resolution
import PatternSampler.Random.Engine

namespace PatternSampler.Distribution

/-! ### Distributions that are made -/

/-- The distributions that the checking functions make. The weights of a categorical one are a list
in memory, so a word can count them. -/
inductive Made : Distribution → Prop
  | constant (value : UInt64) : Made (.constant value)
  | bernoulli {p : Binary64} {d : Distribution} (made : mkBernoulli p = .ok d) : Made d
  | binomial {trials : UInt64} {p : Binary64} {d : Distribution}
      (made : mkBinomial trials p = .ok d) : Made d
  | categorical {ws : List Binary64} {d : Distribution} (counted : ws.length < 2 ^ 64)
      (made : mkCategorical ws = .ok d) : Made d
  | geometric {p : Binary64} {offset : UInt64} {d : Distribution}
      (made : mkGeometric p offset = .ok d) : Made d
  | zipf {exponent : Binary64} {ranks : UInt64} {d : Distribution}
      (made : mkZipf exponent ranks = .ok d) : Made d

/-- A word can count the weights of a distribution. -/
def Counted : Distribution → Prop
  | categorical weights => weights.length < 2 ^ 64
  | _ => True

theorem Made.valid {d : Distribution} (made : d.Made) : d.Valid := by
  cases made with
  | constant => trivial
  | bernoulli made => exact valid_of_mkBernoulli made
  | binomial made => exact valid_of_mkBinomial made
  | categorical _ made => exact valid_of_mkCategorical made
  | geometric made => exact valid_of_mkGeometric made
  | zipf made => exact valid_of_mkZipf made

theorem Made.counted {d : Distribution} (made : d.Made) : d.Counted := by
  cases made with
  | constant => trivial
  | bernoulli made =>
    rw [eq_of_mkBernoulli made]
    trivial
  | binomial made =>
    rw [eq_of_mkBinomial made]
    trivial
  | categorical counted made =>
    rw [eq_of_mkCategorical made]
    exact Nat.lt_of_le_of_lt (Nat.le_of_eq (List.length_map _)) counted
  | geometric made =>
    rw [eq_of_mkGeometric made]
    trivial
  | zipf made =>
    rw [eq_of_mkZipf made]
    trivial

/-- A value is between the bounds of a distribution. -/
def Supports (d : Distribution) (x : UInt64) : Prop :=
  d.least ≤ x ∧ ∀ greatest ∈ d.greatest?, x ≤ greatest

/-! ### Successes -/

/-- Counting one more is exact as long as there is room for it. -/
theorem toNat_add_one {w : UInt64} (room : w.toNat + 1 < 2 ^ 64) :
    (w + 1).toNat = w.toNat + 1 :=
  (UInt64.toNat_add w 1).trans (Nat.mod_eq_of_lt room)

section Draws

variable {σ : Type} [WordSource σ]

/-- The number of successes among some trials. -/
def successes (probability : Float) : Nat → Draw σ Nat
  | 0 => return 0
  | trials + 1 => do
    let success ← Draw.chance probability
    return (if success then 1 else 0) + (← successes probability trials)

theorem run_successes_succ (probability : Float) (trials : Nat) (s : σ) :
    successes probability (trials + 1) s =
      match Draw.chance probability s with
      | (success, s') => ((if success then 1 else 0) + (successes probability trials s').1,
          (successes probability trials s').2) := rfl

theorem run_countSuccesses_succ (probability : Float) (trials : Nat) (count : UInt64) (s : σ) :
    countSuccesses probability (trials + 1) count s =
      match Draw.chance probability s with
      | (success, s') =>
        countSuccesses probability trials (if success then count + 1 else count) s' := rfl

theorem successes_le (probability : Float) (trials : Nat) (s : σ) :
    (successes probability trials s).1 ≤ trials := by
  induction trials generalizing s with
  | zero => exact Nat.le_refl 0
  | succ trials inductionHypothesis =>
    rw [run_successes_succ]
    rcases Draw.chance probability s with ⟨success, s'⟩
    have others := inductionHypothesis s'
    dsimp only
    split
    next => omega
    next => omega

/-- Counting in words is counting in numbers as long as there is room for all trials. -/
theorem countSuccesses_eq (probability : Float) {trials : Nat} {count : UInt64}
    (room : count.toNat + trials < 2 ^ 64) (s : σ) :
    (countSuccesses probability trials count s).1.toNat =
        count.toNat + (successes probability trials s).1 ∧
      (countSuccesses probability trials count s).2 = (successes probability trials s).2 := by
  induction trials generalizing count s with
  | zero => exact ⟨rfl, rfl⟩
  | succ trials inductionHypothesis =>
    rw [run_countSuccesses_succ, run_successes_succ]
    rcases Draw.chance probability s with ⟨success, s'⟩
    cases success with
    | false =>
      obtain ⟨valueEq, sourceEq⟩ := @inductionHypothesis count (by omega) s'
      refine ⟨?_, sourceEq⟩
      simpa using valueEq
    | true =>
      have next := toNat_add_one (w := count) (by omega)
      obtain ⟨valueEq, sourceEq⟩ := @inductionHypothesis (count + 1) (by omega) s'
      refine ⟨?_, sourceEq⟩
      rw [next, Nat.add_assoc] at valueEq
      simpa using valueEq

end Draws

/-! ### Shares -/

/-- The position whose share of the total weight a target falls into. -/
def positionByWeight (target : Float) :
    List Float → (position : Nat) → (cumulative : Float) → (latest : Nat) → Nat
  | [], _, _, latest => latest
  | w :: ws, position, cumulative, latest =>
    if w ≤ 0.0 then positionByWeight target ws (position + 1) cumulative latest
    else if target < cumulative + w then position
    else positionByWeight target ws (position + 1) (cumulative + w) position

/-- Indexing in words is indexing in numbers as long as there is room for all weights. -/
theorem toNat_indexByWeight (target : Float) {weights : List Float} {index : UInt64}
    (room : index.toNat + weights.length < 2 ^ 64) (cumulative : Float) (latest : UInt64) :
    (indexByWeight target weights index cumulative latest).toNat =
      positionByWeight target weights index.toNat cumulative latest.toNat := by
  induction weights generalizing index cumulative latest with
  | nil => rfl
  | cons w ws inductionHypothesis =>
    rw [List.length_cons] at room
    have next := toNat_add_one (w := index) (by omega)
    have others := @inductionHypothesis (index + 1) (by omega)
    rw [next] at others
    rw [indexByWeight, positionByWeight]
    split
    next => exact others cumulative latest
    next =>
      split
      next => rfl
      next => exact others (cumulative + w) index

/-- The position found is that of a weight that is not zero or less. If there is none, it is the
latest one before. -/
theorem positionByWeight_spec (target : Float) (weights : List Float) (position : Nat)
    (cumulative : Float) (latest : Nat) :
    (∃ behind w, positionByWeight target weights position cumulative latest = position + behind ∧
      weights[behind]? = some w ∧ ¬ w ≤ 0.0) ∨
    (positionByWeight target weights position cumulative latest = latest ∧
      ∀ w ∈ weights, w ≤ 0.0) := by
  induction weights generalizing position cumulative latest with
  | nil => exact .inr ⟨rfl, fun w member => absurd member List.not_mem_nil⟩
  | cons w ws inductionHypothesis =>
    rw [positionByWeight]
    split
    next zero =>
      rcases inductionHypothesis (position + 1) cumulative latest with
        ⟨behind, w', found, at', positive⟩ | ⟨found, zeros⟩
      · exact .inl ⟨behind + 1, w', by omega, at', positive⟩
      · exact .inr ⟨found, List.forall_mem_cons.2 ⟨zero, zeros⟩⟩
    next weighs =>
      split
      next => exact .inl ⟨0, w, rfl, rfl, weighs⟩
      next =>
        rcases inductionHypothesis (position + 1) (cumulative + w) position with
          ⟨behind, w', found, at', positive⟩ | ⟨found, -⟩
        · exact .inl ⟨behind + 1, w', by omega, at', positive⟩
        · exact .inl ⟨0, w, found, rfl, weighs⟩

/-- The position of a share is one of the weights. -/
theorem positionByWeight_lt (target : Float) {weights : List Float} (nonempty : weights ≠ []) :
    positionByWeight target weights 0 0.0 0 < weights.length := by
  rcases positionByWeight_spec target weights 0 0.0 0 with ⟨behind, w, found, at', -⟩ | ⟨found, -⟩
  · rw [found, Nat.zero_add]
    exact (List.getElem?_eq_some_iff.1 at').1
  · rw [found]
    exact List.length_pos_iff.2 nonempty

/-! ### Ranks -/

theorem size_zipfSums (exponent : Float) (ranks : Nat) :
    (zipfSums exponent ranks).size = ranks := by
  unfold zipfSums
  induction ranks with
  | zero => rfl
  | succ ranks inductionHypothesis =>
    rw [Nat.fold_succ]
    dsimp only
    rw [Array.size_push, inductionHypothesis]

/-- A law keeps one cumulative probability for each rank. -/
theorem size_cumulative (law : ZipfLaw) : law.cumulative.size = law.ranks.toNat := by
  rw [law.cumulative_eq, zipfCumulative, Array.size_mapIdx, size_zipfSums]

/-- The least rank whose cumulative probability is above a target, as a number. -/
def rankNat (law : ZipfLaw) (target : Float) : Nat :=
  match law.cumulative.findIdx? (target < ·) with
  | some index => index + 1
  | none => law.ranks.toNat

theorem rankNat_le (law : ZipfLaw) (target : Float) : rankNat law target ≤ law.ranks.toNat := by
  unfold rankNat
  split
  next index found =>
    rw [← size_cumulative]
    exact (Array.findIdx?_eq_some_iff_getElem.1 found).1
  next => exact Nat.le_refl _

theorem one_le_rankNat {law : ZipfLaw} (ranked : 1 ≤ law.ranks) (target : Float) :
    1 ≤ rankNat law target := by
  unfold rankNat
  split
  next => exact Nat.le_add_left 1 _
  next => exact UInt64.le_iff_toNat_le.1 ranked

theorem toNat_rankOf (law : ZipfLaw) (target : Float) :
    (rankOf law target).toNat = rankNat law target := by
  have within := Nat.lt_of_le_of_lt (rankNat_le law target) law.ranks.toNat_lt
  unfold rankOf
  unfold rankNat at within ⊢
  cases found : law.cumulative.findIdx? (target < ·) with
  | none => rfl
  | some index =>
    rw [found] at within
    exact UInt64.toNat_ofNat_of_lt' within

/-! ### Samples -/

/-- A number of failures is at most nine quintillions, whatever the quotient of logarithms is: it
may be infinite or no number at all. -/
theorem toNat_failures_le (logComplement uniform : Float) :
    (failures logComplement uniform).toNat ≤ 9 * 10 ^ 18 := by
  unfold failures
  dsimp only
  split
  next below => exact Binary64.toNat_toUInt64_le below
  next => decide +kernel

/-- The sum of two words is the sum of their numbers up to the greatest word. -/
theorem toNat_addSaturating (a b : UInt64) :
    (addSaturating a b).toNat = min (a.toNat + b.toNat) maxWord.toNat := by
  have aLe := toNat_le_maxWord a
  have bLe := toNat_le_maxWord b
  have roomEq : (maxWord - b).toNat = maxWord.toNat - b.toNat :=
    UInt64.toNat_sub_of_le _ _ (UInt64.le_iff_toNat_le.2 bLe)
  unfold addSaturating
  split
  next tooSmall =>
    rw [UInt64.lt_iff_toNat_lt, roomEq] at tooSmall
    exact (Nat.min_eq_right (by omega)).symm
  next fits =>
    rw [UInt64.lt_iff_toNat_lt, roomEq] at fits
    have small : a.toNat + b.toNat ≤ maxWord.toNat := by omega
    rw [UInt64.toNat_add, Nat.min_eq_left small]
    rw [toNat_maxWord] at small
    exact Nat.mod_eq_of_lt (by omega)

section Draws

variable {σ : Type} [WordSource σ]

/-- A value drawn from a distribution, counted and added in numbers, which have no limit. -/
def sampleNat : Distribution → Draw σ Nat
  | constant value => return value.toNat
  | bernoulli probability => do
    return if ← Draw.chance probability then 1 else 0
  | binomial trials probability => successes probability trials.toNat
  | categorical weights => do
    return positionByWeight ((← Draw.uniformFraction) * weightSum weights) weights 0 0.0 0
  | geometric probability offset => do
    return offset.toNat
      + (failures (logComplement probability) (← Draw.uniformFraction)).toNat
  | zipf law => do return rankNat law (← Draw.uniformFraction)

/-- The index drawn by weight is the position that the same fraction of the total falls into. -/
theorem toNat_sample_categorical {weights : List Float} (counted : weights.length < 2 ^ 64)
    (s : σ) :
    ((categorical weights).sample s).1.toNat =
      positionByWeight ((Draw.uniformFraction s).1 * weightSum weights) weights 0 0.0 0 := by
  have room : (0 : UInt64).toNat + weights.length < 2 ^ 64 := by
    rw [UInt64.toNat_zero, Nat.zero_add]
    exact counted
  exact toNat_indexByWeight ((Draw.uniformFraction s).1 * weightSum weights) room 0.0 0

theorem run_sampleNat_geometric (p : Float) (offset : UInt64) (s : σ) :
    (geometric p offset).sampleNat s =
      (offset.toNat + (failures (logComplement p) (Draw.uniformFraction s).1).toNat,
        (Draw.uniformFraction s).2) := rfl

/-- Drawing a word is drawing a number, up to the greatest word. Both take the same words from the
source. -/
theorem toNat_sample {d : Distribution} (counted : d.Counted) (s : σ) :
    (d.sample s).1.toNat = min (d.sampleNat s).1 maxWord.toNat ∧
      (d.sample s).2 = (d.sampleNat s).2 := by
  -- All sums but that of an offset and failures are words, and so the limit is not met.
  have notLimited : (d.sample s).1.toNat = (d.sampleNat s).1 →
      (d.sample s).1.toNat = min (d.sampleNat s).1 maxWord.toNat := by
    intro equal
    rw [← equal]
    exact (Nat.min_eq_left (toNat_le_maxWord _)).symm
  cases d with
  | constant value => exact ⟨notLimited rfl, rfl⟩
  | bernoulli p =>
    refine ⟨notLimited ?_, rfl⟩
    change (if (Draw.chance p s).1 then (1 : UInt64) else 0).toNat =
      if (Draw.chance p s).1 then 1 else 0
    split
    next => rfl
    next => rfl
  | binomial trials p =>
    have room : (0 : UInt64).toNat + trials.toNat < 2 ^ 64 := by
      rw [UInt64.toNat_zero, Nat.zero_add]
      exact trials.toNat_lt
    obtain ⟨valueEq, sourceEq⟩ := countSuccesses_eq p room s
    rw [UInt64.toNat_zero, Nat.zero_add] at valueEq
    exact ⟨notLimited valueEq, sourceEq⟩
  | categorical weights =>
    exact ⟨notLimited (toNat_sample_categorical counted s), rfl⟩
  | geometric p offset =>
    have drawn : (geometric p offset).sample s =
        (addSaturating offset (failures (logComplement p) (Draw.uniformFraction s).1),
          (Draw.uniformFraction s).2) := rfl
    rw [drawn, run_sampleNat_geometric]
    exact ⟨toNat_addSaturating offset _, rfl⟩
  | zipf law => exact ⟨notLimited (toNat_rankOf law (Draw.uniformFraction s).1), rfl⟩

/-- The last position of a list of weights is its length less one. -/
theorem toNat_last {weights : List Float} (nonempty : weights ≠ [])
    (counted : weights.length < 2 ^ 64) :
    (UInt64.ofNat weights.length - 1).toNat = weights.length - 1 := by
  have lengthEq := UInt64.toNat_ofNat_of_lt' counted
  have positive : 1 ≤ UInt64.ofNat weights.length := by
    rw [UInt64.le_iff_toNat_le, lengthEq]
    exact List.length_pos_iff.2 nonempty
  rw [UInt64.toNat_sub_of_le _ _ positive, lengthEq]
  rfl

/-- A number that is drawn is between the bounds. -/
theorem sampleNat_within {d : Distribution} (valid : d.Valid) (counted : d.Counted) (s : σ) :
    d.least.toNat ≤ (d.sampleNat s).1 ∧
      ∀ greatest ∈ d.greatest?, (d.sampleNat s).1 ≤ greatest.toNat := by
  cases d with
  | constant value =>
    refine ⟨Nat.le_refl _, ?_⟩
    rintro - ⟨⟩
    exact Nat.le_refl _
  | bernoulli p =>
    refine ⟨Nat.zero_le _, ?_⟩
    rintro - ⟨⟩
    change (if (Draw.chance p s).1 then 1 else 0) ≤ 1
    split
    next => exact Nat.le_refl 1
    next => exact Nat.zero_le 1
  | binomial trials p =>
    refine ⟨Nat.zero_le _, ?_⟩
    rintro - ⟨⟩
    exact successes_le p trials.toNat s
  | categorical weights =>
    refine ⟨Nat.zero_le _, ?_⟩
    rintro - ⟨⟩
    rw [toNat_last valid.1 counted]
    exact Nat.le_sub_one_of_lt (positionByWeight_lt _ valid.1)
  | geometric p offset => exact ⟨Nat.le_add_right _ _, nofun⟩
  | zipf law =>
    refine ⟨one_le_rankNat valid.2.1 _, ?_⟩
    rintro - ⟨⟩
    exact rankNat_le law _

/-- A word that is drawn is between the bounds. -/
theorem supports_sample {d : Distribution} (valid : d.Valid) (counted : d.Counted) (s : σ) :
    d.Supports (d.sample s).1 := by
  obtain ⟨valueEq, -⟩ := toNat_sample counted s
  obtain ⟨atLeast, atMost⟩ := sampleNat_within valid counted s
  constructor
  · rw [UInt64.le_iff_toNat_le, valueEq]
    exact Nat.le_min.2 ⟨atLeast, toNat_le_maxWord _⟩
  · intro greatest present
    rw [UInt64.le_iff_toNat_le, valueEq]
    exact Nat.le_trans (Nat.min_le_left _ _) (atMost greatest present)

end Draws

/-! ### Mass -/

/-- Outside the bounds the mass is zero. -/
theorem mass_eq_zero {d : Distribution} (valid : d.Valid) (counted : d.Counted) {x : UInt64}
    (outside : x < d.least ∨ ∃ greatest ∈ d.greatest?, greatest < x) : d.mass x = 0.0 := by
  have above : ∀ {greatest : UInt64}, d.least = 0 → d.greatest? = some greatest → greatest < x := by
    intro greatest leastEq greatestEq
    rw [leastEq, greatestEq] at outside
    rcases outside with below | ⟨_, ⟨⟩, above⟩
    · exact absurd below UInt64.not_lt_zero
    · exact above
  cases d with
  | constant value =>
    apply if_neg
    intro equal
    rcases outside with below | ⟨_, ⟨⟩, above⟩
    · exact UInt64.lt_irrefl value (equal ▸ below)
    · exact UInt64.lt_irrefl value (equal ▸ above)
  | bernoulli p =>
    have above := above rfl rfl
    rw [mass, if_neg (by rintro rfl; exact UInt64.not_lt_zero above),
      if_neg (by rintro rfl; exact UInt64.lt_irrefl 1 above)]
  | binomial trials p => exact if_pos (above rfl rfl)
  | categorical weights =>
    have above := UInt64.lt_iff_toNat_lt.1 (above rfl rfl)
    rw [toNat_last valid.1 counted] at above
    rw [mass, List.getElem?_eq_none (by omega)]
  | geometric p offset =>
    rcases outside with below | ⟨_, ⟨⟩, _⟩
    exact if_pos below
  | zipf law =>
    rcases outside with below | ⟨_, ⟨⟩, above⟩
    · exact if_pos (.inl below)
    · exact if_pos (.inr above)

/-! ### Agreement -/

/-- A distribution that was made gives values between its bounds only, whatever words the source
delivers, and outside of them there is no mass. A value is the number that is drawn without a
limit, or the greatest word if that is beyond it, as the sum of an offset and failures may be;
where there is a greatest value, it is not. What is drawn as a rank is not zero, so that one
less is a word again. -/
theorem sample_within_support {σ : Type} [WordSource σ] {d : Distribution} (made : d.Made) :
    (∀ s : σ,
      d.Supports (d.sample s).1 ∧
      (d.sample s).1.toNat = min (d.sampleNat s).1 maxWord.toNat ∧
      (∀ greatest ∈ d.greatest?, (d.sampleNat s).1 ≤ greatest.toNat) ∧
      (∀ p offset, d = .geometric p offset → ∃ failed ≤ 9 * 10 ^ 18,
        (d.sample s).1.toNat = min (offset.toNat + failed) maxWord.toNat) ∧
      (∀ law, d = .zipf law → ((d.sample s).1 - 1).toNat + 1 = (d.sample s).1.toNat)) ∧
    ∀ x, x < d.least ∨ (∃ greatest ∈ d.greatest?, greatest < x) → d.mass x = 0.0 := by
  have valid := made.valid
  have counted := made.counted
  constructor
  · intro s
    have within := supports_sample valid counted s
    have limited := (toNat_sample counted s).1
    refine ⟨within, limited, (sampleNat_within valid counted s).2, ?_, ?_⟩
    · rintro p offset rfl
      rw [run_sampleNat_geometric] at limited
      exact ⟨_, toNat_failures_le _ _, limited⟩
    · rintro law rfl
      have positive : 1 ≤ ((zipf law).sample s).1 := within.1
      rw [UInt64.toNat_sub_of_le _ _ positive]
      exact Nat.sub_add_cancel (UInt64.le_iff_toNat_le.1 positive)
  · exact fun x => mass_eq_zero valid counted

theorem sample_within_support_zipf :
    ∃ d, mkZipf ⟨0x3FF0000000000000⟩ 3 = .ok d ∧
      d.Supports (d.sample (SeededSource.ofSeed 7)).1 ∧ d.mass 4 = 0.0 := by
  have made : mkZipf ⟨0x3FF0000000000000⟩ 3 =
      .ok (zipf { exponent := Binary64.toFloat ⟨0x3FF0000000000000⟩, ranks := 3 }) := by
    unfold mkZipf
    rw [if_neg (by decide +kernel), if_pos (by decide)]
  obtain ⟨draws, massless⟩ := sample_within_support (σ := SeededSource) (.zipf made)
  exact ⟨_, made, (draws (SeededSource.ofSeed 7)).1, massless 4 (.inr ⟨3, rfl, by decide⟩)⟩

end PatternSampler.Distribution
