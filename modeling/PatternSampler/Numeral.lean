/-
Module: PatternSampler.Numeral
Purpose: Numerals as they are written in annotations: an optional minus sign, digits with an
  optional point, and an optional exponent. A numeral remembers its spelling, because
  messages repeat it and because only a numeral without point and exponent may stand for
  a count.
Main exports: Numeral, Numeral.text, Numeral.WellFormed, Numeral.value
-/
import PatternSampler.Decimal

namespace PatternSampler

/-- The exponent of a numeral: the letter, the optional sign and the digits. -/
structure Exponent where
  letter : UInt8
  sign : Text
  digits : Text
deriving DecidableEq, Repr

/-- A numeral by its parts, each as written. -/
structure Numeral where
  negative : Bool
  whole : Text
  fraction : Option Text
  exponent : Option Exponent
deriving DecidableEq, Repr

namespace Exponent

/-- The spelling of an exponent. -/
def text (e : Exponent) : Text := e.letter :: (e.sign ++ e.digits)

/-- The number an exponent stands for. -/
def value (e : Exponent) : Int :=
  if e.sign = [0x2D] then -(Text.decimalValue e.digits : Int) else Text.decimalValue e.digits

end Exponent

namespace Numeral

/-- The spelling of a sign. -/
def signText (negative : Bool) : Text := if negative then [0x2D] else []

/-- The spelling of a point with the digits behind it, if there is one. -/
def fractionText : Option Text → Text
  | some digits => 0x2E :: digits
  | none => []

/-- The spelling of an exponent, if there is one. -/
def exponentText : Option Exponent → Text
  | some e => e.text
  | none => []

/-- The spelling of a numeral. -/
def text (n : Numeral) : Text :=
  signText n.negative ++ n.whole ++ fractionText n.fraction ++ exponentText n.exponent

/-- Whether there is a digit before or after the point. -/
def hasDigits (n : Numeral) : Bool :=
  n.whole ≠ [] ∨ n.fraction.getD [] ≠ []

/-- A numeral needs a digit before or after the point, and a digit in its exponent. -/
def WellFormed (n : Numeral) : Prop :=
  n.hasDigits ∧ ∀ e ∈ n.exponent, e.digits ≠ []

instance (n : Numeral) : Decidable n.WellFormed := inferInstanceAs (Decidable (_ ∧ _))

/-- A numeral without a point and without an exponent is integral. -/
def integral (n : Numeral) : Bool :=
  n.fraction.isNone && n.exponent.isNone

/-- The absolute value of a numeral as a decimal. -/
def decimal (n : Numeral) : Decimal where
  digits := Text.decimalValue (n.whole ++ n.fraction.getD [])
  exponent := (n.exponent.map Exponent.value).getD 0 - (n.fraction.getD []).length

/-- A numeral is in range if the double nearest to it is finite. -/
def InRange (n : Numeral) : Prop := n.decimal.nearest < Binary64.infinity

instance (n : Numeral) : Decidable n.InRange := inferInstanceAs (Decidable (_ < _))

/-- The double nearest to a numeral. -/
def value (n : Numeral) : Binary64 :=
  .ofMagnitude n.negative n.decimal.nearest

end Numeral

end PatternSampler
