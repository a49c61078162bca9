/-
Module: PatternSampler.Distribution.Sample
Purpose: Drawing from a distribution. Each kind takes a fixed number of words whatever it
  returns: none for a constant, one per trial in doubt for the binomial kinds, and one for
  each of the others.
Main exports: Distribution.sample
-/
import PatternSampler.Distribution
import PatternSampler.Distribution.Logarithm
import PatternSampler.Random.Draw

namespace PatternSampler.Distribution

variable {σ : Type} [WordSource σ]

/-- The number of successes among some trials, added to those counted before. -/
def countSuccesses (probability : Float) : Nat → UInt64 → Draw σ UInt64
  | 0, count => return count
  | trials + 1, count => do
    let success ← Draw.chance probability
    countSuccesses probability trials (if success then count + 1 else count)

/-- The index whose share of the total weight a target falls into. Weights that are not
positive have no share. A target beyond all shares, which rounding can give, belongs to the
last positive weight. -/
def indexByWeight (target : Float) :
    List Float → (index : UInt64) → (cumulative : Float) → (latest : UInt64) → UInt64
  | [], _, _, latest => latest
  | w :: ws, index, cumulative, latest =>
    if w ≤ 0.0 then indexByWeight target ws (index + 1) cumulative latest
    else if target < cumulative + w then index
    else indexByWeight target ws (index + 1) (cumulative + w) index

/-- Numbers of failures are cut off here, far below the greatest word. -/
def maxFailures : Float := 9.0e18

/-- The number of failures that a uniform number gives by inversion; it is not above
`maxFailures`. -/
def failures (logComplement uniform : Float) : UInt64 :=
  let count := (Float.log (1.0 - uniform) / logComplement).floor
  (if count < maxFailures then count else maxFailures).toUInt64

/-- The sum of two words, or the greatest word if that is too small. -/
def addSaturating (a b : UInt64) : UInt64 :=
  if maxWord - b < a then maxWord else a + b

/-- The least rank whose cumulative probability is above a target. -/
def rankOf (law : ZipfLaw) (target : Float) : UInt64 :=
  match law.cumulative.findIdx? (target < ·) with
  | some index => UInt64.ofNat (index + 1)
  | none => law.ranks

/-- A value drawn from a distribution. -/
def sample : Distribution → Draw σ UInt64
  | constant value => return value
  | bernoulli probability => do
    return if ← Draw.chance probability then 1 else 0
  | binomial trials probability => countSuccesses probability trials.toNat 0
  | categorical weights => do
    return indexByWeight ((← Draw.uniformFraction) * weightSum weights) weights 0 0.0 0
  | geometric probability offset => do
    return addSaturating offset (failures (logComplement probability) (← Draw.uniformFraction))
  | zipf law => do return rankOf law (← Draw.uniformFraction)

end PatternSampler.Distribution
