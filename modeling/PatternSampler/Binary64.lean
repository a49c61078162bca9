/-
Module: PatternSampler.Binary64
Purpose: Doubles as bit patterns and as exact numbers. A finite double is a whole number of
  units of two to the minus 1074th power, and its bit pattern without the sign numbers the
  doubles in increasing order. This module reads the exact value off a bit pattern and
  finds the bit pattern nearest to a quotient of natural numbers, in integer arithmetic
  throughout.
Main exports: Binary64, significand, shift, units, roundDiv, nearest, magnitude, ofMagnitude
-/
import PatternSampler.Text

namespace PatternSampler

/-- A double by its bit pattern. The patterns that stand for no number are all alike in
arithmetic; as patterns they differ, and so do their texts. -/
structure Binary64 where
  bits : UInt64
deriving DecidableEq, Repr

namespace Binary64

/-! ### From bits to values

A *magnitude* is the bit pattern of a double with the sign bit cleared, as a natural
number. -/

/-- The magnitude of infinity, the least one that is not finite. -/
def infinity : Nat := 2047 * 2 ^ 52

/-- The significand of a finite magnitude, with the leading bit of a normal number made
explicit. -/
def significand (bits : Nat) : Nat :=
  if bits < 2 ^ 52 then bits else 2 ^ 52 + bits % 2 ^ 52

/-- How many binary places the significand is shifted up from the smallest unit. -/
def shift (bits : Nat) : Nat := bits / 2 ^ 52 - 1

/-- The value of a finite magnitude, counted in units of `2 ^ (-1074)`. -/
def units (bits : Nat) : Nat := significand bits * 2 ^ shift bits

/-- How many units make one. -/
def unitsPerOne : Nat := 2 ^ 1074

/-- A magnitude is put together from its shift and its significand; a significand that
reaches `2 ^ 53` moves on to the next shift by itself. -/
theorem shift_mul_add_significand (bits : Nat) :
    shift bits * 2 ^ 52 + significand bits = bits := by
  unfold shift significand
  split <;> omega

theorem significand_lt (bits : Nat) : significand bits < 2 ^ 53 := by
  unfold significand
  split <;> omega

/-! ### From quotients to bits -/

/-- The quotient `num / den` rounded to the nearest natural number, a half to the even
neighbour. -/
def roundDiv (num den : Nat) : Nat :=
  let quotient := num / den
  let remainder := num % den
  if 2 * remainder < den then quotient
  else if den < 2 * remainder then quotient + 1
  else quotient + quotient % 2

/-- The magnitude of the double nearest to `num / den`, a tie going to the even
significand. Quotients beyond the largest double give infinity. -/
def nearest (num den : Nat) : Nat :=
  let scaled := num * unitsPerOne
  let places := (scaled / den).log2 - 52
  min (places * 2 ^ 52 + roundDiv scaled (den * 2 ^ places)) infinity

theorem roundDiv_mul_right (num den k : Nat) (hk : 0 < k) :
    roundDiv (num * k) (den * k) = roundDiv num den := by
  have hdiv : num * k / (den * k) = num / den := Nat.mul_div_mul_right _ _ hk
  have hmod : num * k % (den * k) = num % den * k := Nat.mul_mod_mul_right ..
  have hlt : 2 * (num % den * k) < den * k ↔ 2 * (num % den) < den := by
    rw [← Nat.mul_assoc]; exact Nat.mul_lt_mul_right hk
  have hgt : den * k < 2 * (num % den * k) ↔ den < 2 * (num % den) := by
    rw [← Nat.mul_assoc]; exact Nat.mul_lt_mul_right hk
  simp only [roundDiv, hdiv, hmod, hlt, hgt]

/-- The nearest double depends on the quotient only, not on how it is written. -/
theorem nearest_mul_right (num den k : Nat) (hk : 0 < k) :
    nearest (num * k) (den * k) = nearest num den := by
  have hscaled : num * k * unitsPerOne = num * unitsPerOne * k := by
    rw [Nat.mul_assoc, Nat.mul_comm k, ← Nat.mul_assoc]
  have hdiv : num * unitsPerOne * k / (den * k) = num * unitsPerOne / den :=
    Nat.mul_div_mul_right _ _ hk
  simp only [nearest, hscaled, hdiv]
  rw [Nat.mul_right_comm den k, roundDiv_mul_right _ _ k hk]

/-! ### Sign and magnitude -/

/-- The magnitude of a double. -/
def magnitude (x : Binary64) : Nat := x.bits.toNat % 2 ^ 63

/-- Whether the sign bit is set; so it is for negative zero. -/
def isNegative (x : Binary64) : Bool := 2 ^ 63 ≤ x.bits.toNat

/-- The double with a sign and a magnitude. -/
def ofMagnitude (negative : Bool) (bits : Nat) : Binary64 :=
  ⟨UInt64.ofNat (bits + if negative then 2 ^ 63 else 0)⟩

/-- The pattern stands for a number, infinities included. -/
def IsNumber (x : Binary64) : Prop := x.magnitude ≤ infinity

instance (x : Binary64) : Decidable x.IsNumber := inferInstanceAs (Decidable (_ ≤ _))

/-! ### Arithmetic -/

/-- The bit pattern of a double. -/
def ofFloat (x : Float) : Binary64 := ⟨x.toBits⟩

/-- The double with a bit pattern. -/
def toFloat (x : Binary64) : Float := Float.ofBits x.bits

/-- One of several equal parts of a double. What is no number stays as it is. -/
def share (x : Binary64) (parts : Nat) : Binary64 :=
  if x.IsNumber then ofFloat (x.toFloat / Float.ofNat parts) else x

end Binary64

end PatternSampler
