/-
Module: PatternSampler.Distribution.Mass
Purpose: The probability mass of single values. Outside the bounds of a distribution the mass
  is zero.
Main exports: Distribution.mass
-/
import PatternSampler.Distribution.Sample

namespace PatternSampler.Distribution

/-! ### Binomial coefficients

The binomial mass is computed through logarithms, because its factors leave the range of
doubles long before the product does. -/

/-- The mass of `successes` among `trials`, for a probability that leaves doubt. -/
def binomialMass (trials : UInt64) (probability : Float) (successes : UInt64) : Float :=
  let failures := trials - successes
  let logBinomial := logFactorial trials - logFactorial successes - logFactorial failures
  Float.exp (logBinomial + successes.toFloat * Float.log probability
    + failures.toFloat * logComplement probability)

/-! ### Mass -/

/-- The probability of a value. -/
def mass (d : Distribution) (x : UInt64) : Float :=
  match d with
  | constant value => if x = value then 1.0 else 0.0
  | bernoulli p => if x = 0 then 1.0 - p else if x = 1 then p else 0.0
  | binomial trials p =>
    if trials < x then 0.0
    else if p ≤ 0.0 then if x = 0 then 1.0 else 0.0
    else if 1.0 ≤ p then if x = trials then 1.0 else 0.0
    else binomialMass trials p x
  | categorical weights =>
    match weights[x.toNat]? with
    | some w => w / weightSum weights
    | none => 0.0
  | geometric p offset =>
    if x < offset then 0.0 else p * Float.pow (1.0 - p) (x - offset).toFloat
  | zipf law =>
    if x < 1 ∨ law.ranks < x then 0.0
    else
      let before := if x = 1 then 0.0 else law.cumulative[x.toNat - 2]?.getD 0.0
      law.cumulative[x.toNat - 1]?.getD 0.0 - before

end PatternSampler.Distribution
