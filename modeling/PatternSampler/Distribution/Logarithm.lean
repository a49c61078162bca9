/-
Module: PatternSampler.Distribution.Logarithm
Purpose: The two logarithms that distributions are computed through, each to about one unit in
  the last place: that of the complement of a probability, where taking the logarithm of
  `1 - p` would lose what the subtraction rounds off, and that of a factorial, which itself
  leaves the range of doubles.
Main exports: logComplement, logFactorial
-/

namespace PatternSampler

/-! ### The logarithm of a complement

The complement is written as `2 ^ k * (1 + f)` with `1 + f` near one. With `s = f / (2 + f)`
the logarithm of `1 + f` is `f - f ^ 2 / 2 + s * (f ^ 2 / 2 + R)`, where `R` is what
`(log (1 + s) - log (1 - s)) / s - 2` comes to, an even function of `s`. -/

/-- The upper part of the logarithm of two; its products with small integers are exact. -/
def logTwoUpper : Float := 6.93147180369123816490e-01

/-- The lower part of the logarithm of two. -/
def logTwoLower : Float := 1.90821492927058770002e-10

/-- `R` as a polynomial in `z = s ^ 2`, fitted for `f` between the square roots of a half and
of two, less one. -/
def logRemainder (z : Float) : Float :=
  let z2 := z * z
  let z4 := z2 * z2
  let z6 := z4 * z2
  z * 6.666666666666735130e-01
    + z2 * (3.999999999940941908e-01 + z * 2.857142874366239149e-01)
    + z4 * (2.222219843214978396e-01 + z * 1.818357216161805012e-01)
    + z6 * (1.531383769920937332e-01 + z * 1.479819860511658591e-01)

/-- The product `s * (f ^ 2 / 2 + R)`. -/
def logProduct (f : Float) : Float :=
  let s := f / (2.0 + f)
  s * (0.5 * f * f + logRemainder (s * s))

/-- The logarithm of `1 + f`. -/
def logNear (f : Float) : Float := f - (0.5 * f * f - logProduct f)

/-- The logarithm of `2 ^ k * (1 + f)` with a small correction. Close to `f = 0` the power
series up to the cube is enough. -/
def logScaled (k f correction : Float) : Float :=
  let low := k * logTwoLower + correction
  let square := 0.5 * f * f
  let bend :=
    if -0.000001430511474609375 ≤ f ∧ f < 9.5367431640625e-7 then
      square * (1.0 - 0.66666666666666666 * f) - low
    else square - (logProduct f + low)
  k * logTwoUpper - (bend - f)

/-- The logarithm of a complement that is not close to one, with a correction for what the
subtraction from one has rounded off. Without a power of two none is needed. -/
def logReduced (complement correction : Float) : Float :=
  let (half, exponent) := complement.frExp
  if 2.0 * half < 1.4142131805419921875 then
    logScaled (Float.ofInt (exponent - 1)) (2.0 * half - 1.0) correction
  else if exponent = 0 then logNear (half - 1.0)
  else logScaled (Float.ofInt exponent) (half - 1.0) correction

/-- The logarithm of `1 - p` for a probability `p` between zero and one, neither included. For
small `p` the first terms of the power series are enough. -/
def logComplement (p : Float) : Float :=
  if p < 5.5511151231257827e-17 then -p
  else if p < 1.862645149230957e-09 then -p - p * p * 0.5
  else if p < 0.29289340972900390625 then logNear (-p)
  else
    let complement := 1.0 - p
    logReduced complement ((-p - (complement - 1.0)) / complement)

/-! ### The logarithm of a factorial -/

/-- What Stirling's formula leaves out, as a polynomial in `1 / x`, fitted for `x` from eight
on. Its constant is one half of the logarithm of two pi less one half. -/
def stirlingRemainder (x : Float) : Float :=
  let z := 1.0 / x
  let y := z * z
  4.18938533204672725052e-01 + z * (8.33333333333329678849e-02
    + y * (-2.77777777728775536470e-03 + y * (7.93650558643019558500e-04
    + y * (-5.95187557450339963135e-04 + y * (8.36339918996282139126e-04
    + y * -1.63092934096575273989e-03)))))

/-- The logarithm of the factorial of `n`: taken directly as long as `n` is small, by Stirling's
formula for `x = n + 1` from seven on. -/
def logFactorial (n : UInt64) : Float :=
  if n < 7 then
    Float.log (Float.ofNat ((List.range n.toNat).foldl (fun product i => product * (i + 1)) 1))
  else
    let x := n.toFloat + 1.0
    (x - 0.5) * (Float.log x - 1.0) + stirlingRemainder x

end PatternSampler
