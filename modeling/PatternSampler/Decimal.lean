/-
Module: PatternSampler.Decimal
Purpose: Decimal numbers with a power of ten, and the texts of doubles. A double is written
  with the fewest digits, from one to seventeen, for which the decimal nearest to it reads
  back as the same double. Small exponents are written positionally, the others with an
  exponent of at least two digits, and zeros at the end of the fraction are left out.
Main exports: Decimal, Decimal.nearest, Decimal.round, Decimal.text, general, numberText
-/
import PatternSampler.Text
import PatternSampler.Binary64

namespace PatternSampler

/-- The number `digits * 10 ^ exponent`. -/
structure Decimal where
  digits : Nat
  exponent : Int
deriving DecidableEq, Repr

namespace Decimal

/-! ### The nearest double -/

/-- The magnitude of the double nearest to a decimal. Decimals that lie far outside the
range of doubles are decided by their exponent alone: the others never need powers of ten
beyond what their own digits call for. -/
def nearest (d : Decimal) : Nat :=
  if d.digits = 0 then 0
  else if 400 < d.exponent then Binary64.infinity
  else if d.exponent + (d.digits.log2 + 1) < -400 then 0
  else
    match d.exponent with
    | .ofNat e => Binary64.nearest (d.digits * 10 ^ e) 1
    | .negSucc e => Binary64.nearest d.digits (10 ^ (e + 1))

/-! ### Rounding to a number of digits -/

/-- The number of digits of a natural number. -/
def length (n : Nat) : Nat := (Nat.toDigits 10 n).length

/-- The exponent of the leading digit of a positive quotient: the `e` with
`10 ^ e ≤ num / den < 10 ^ (e + 1)`. -/
def leadingExponent (num den : Nat) : Int :=
  if den ≤ num then (length (num / den) : Int) - 1
  else -(length ((den + num - 1) / num - 1) : Int)

/-- The quotient `num * 10 ^ places / den` rounded to the nearest natural number. -/
def scaledRound (num den : Nat) (places : Int) : Nat :=
  match places with
  | .ofNat p => Binary64.roundDiv (num * 10 ^ p) den
  | .negSucc p => Binary64.roundDiv num (den * 10 ^ (p + 1))

/-- A positive quotient rounded to `precision` significant digits, a tie going to the even
last digit. -/
def round (precision num den : Nat) : Decimal :=
  let lowest := leadingExponent num den + 1 - precision
  let digits := scaledRound num den (-lowest)
  if digits = 10 ^ precision then ⟨10 ^ (precision - 1), lowest + 1⟩ else ⟨digits, lowest⟩

/-! ### Texts of decimals -/

/-- A sequence of digits without the zeros at its end. -/
def dropTrailingZeros (digits : Text) : Text :=
  (digits.reverse.dropWhile (· = 0x30)).reverse

/-- A fraction with its point; nothing at all if no digit is left. -/
def fractionText (digits : Text) : Text :=
  match dropTrailingZeros digits with
  | [] => []
  | kept => 0x2E :: kept

/-- The exponent part: a sign and at least two digits. -/
def exponentText (exponent : Int) : Text :=
  let digits := Text.decimal exponent.natAbs
  0x65 :: (if exponent < 0 then 0x2D else 0x2B) ::
    (List.replicate (2 - digits.length) 0x30 ++ digits)

/-- A decimal of `precision` digits in general notation: positional if the exponent of its
leading digit is at least minus four and below the precision, otherwise one digit, the
fraction and the exponent. -/
def text (precision : Nat) (d : Decimal) : Text :=
  let digits := Text.decimal d.digits
  let leading := d.exponent + precision - 1
  if -4 ≤ leading ∧ leading < precision then
    match leading with
    | .ofNat e => digits.take (e + 1) ++ fractionText (digits.drop (e + 1))
    | .negSucc e => 0x30 :: fractionText (List.replicate e 0x30 ++ digits)
  else digits.take 1 ++ fractionText (digits.drop 1) ++ exponentText leading

end Decimal

/-! ### Texts of doubles -/

open Binary64

/-- The sign in front of a double's text. -/
def signText (x : Binary64) : Text :=
  if x.isNegative then [0x2D] else []

/-- The double rounded to `precision` significant digits; for finite doubles other than
zero. -/
def roundedTo (precision : Nat) (x : Binary64) : Decimal :=
  Decimal.round precision (units x.magnitude) unitsPerOne

/-- The text of a double in general notation with at most `precision` significant digits. The
sign bit is written in any case, also in front of what is no number. -/
def general (precision : Nat) (x : Binary64) : Text :=
  if ¬ x.IsNumber then signText x ++ ascii "nan"
  else if x.magnitude = infinity then signText x ++ ascii "inf"
  else if x.magnitude = 0 then signText x ++ [0x30]
  else signText x ++ (roundedTo precision x).text precision

/-- Whether the nearest decimal of `precision` digits reads back as the double itself. -/
def ReadsBack (precision : Nat) (x : Binary64) : Prop :=
  x.magnitude = 0 ∨ (roundedTo precision x).nearest = x.magnitude

instance (precision : Nat) (x : Binary64) : Decidable (ReadsBack precision x) :=
  inferInstanceAs (Decidable (_ ∨ _))

/-- The fewest significant digits, at most seventeen, with which a double reads back. -/
def sufficientPrecision (x : Binary64) : Nat :=
  (((List.range 16).map (· + 1)).find? fun p => ReadsBack p x).getD 17

/-- The text of a double with the fewest digits whose nearest decimal reads back. -/
def numberText (x : Binary64) : Text :=
  general (sufficientPrecision x) x

end PatternSampler
