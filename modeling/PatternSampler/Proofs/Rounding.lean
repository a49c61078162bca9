/-
Module: PatternSampler.Proofs.Rounding
Purpose: How far rounding to decimals goes. A quotient rounded to some digits keeps its leading
  digit's place and differs by at most half a unit of the last one, so with seventeen digits it
  always stays in the interval of its double. A double is written with the least number of
  digits that is enough.
Main exports: Decimal.leadingExponent_spec, Decimal.Rounds, Decimal.rounds_round,
  Decimal.nearest_congr, Decimal.nearest_of_captures, Decimal.captures_of_nearest,
  Decimal.nearest_pos, readsBack_seventeen, readsBack_sufficientPrecision,
  not_readsBack_of_lt
-/
import PatternSampler.Decimal
import PatternSampler.Proofs.Rounding.Interval

namespace PatternSampler

namespace Decimal

/-! ### Exact values -/

/-- The exact value of a decimal. -/
def toRat (d : Decimal) : ℚ := d.digits * 10 ^ d.exponent

/-- Zeros at the end of the digits can be moved into the exponent. -/
theorem toRat_append_zeros (digits count : Nat) (exponent : ℤ) :
    (⟨digits * 10 ^ count, exponent⟩ : Decimal).toRat =
      (⟨digits, count + exponent⟩ : Decimal).toRat := by
  unfold toRat
  rw [zpow_add₀ (by norm_num), zpow_natCast]
  push_cast
  ring

/-- The exponent of a decimal alone does not decide which double is the nearest. -/
structure Moderate (d : Decimal) : Prop where
  lower : -400 ≤ d.exponent
  upper : d.exponent ≤ 400

/-- A decimal that does not lie far outside the range of doubles is a quotient of natural numbers,
and its nearest double is that of the quotient. -/
theorem exists_quotient {d : Decimal} (upper : d.exponent ≤ 400)
    (lower : -400 ≤ d.exponent + (d.digits.log2 + 1)) :
    ∃ num den : Nat, 0 < den ∧ (num : ℚ) / den = d.toRat ∧
      d.nearest = Binary64.nearest num den := by
  obtain ⟨digits, exponent⟩ := d
  dsimp only at lower upper
  unfold nearest
  dsimp only
  rw [if_neg (not_lt.2 upper), if_neg (not_lt.2 lower)]
  cases exponent with
  | ofNat e =>
    refine ⟨digits * 10 ^ e, 1, Nat.one_pos, ?_, ?_⟩
    · simp [toRat]
    · split
      next zero => rw [zero, Nat.zero_mul, Binary64.nearest_zero]
      next => rfl
  | negSucc e =>
    refine ⟨digits, 10 ^ (e + 1), Nat.pow_pos (by omega), ?_, ?_⟩
    · rw [toRat, zpow_negSucc, div_eq_mul_inv]
      push_cast
      rfl
    · split
      next zero => rw [zero, Binary64.nearest_zero]
      next => rfl

theorem Moderate.exists_quotient {d : Decimal} (moderate : d.Moderate) :
    ∃ num den : Nat, 0 < den ∧ (num : ℚ) / den = d.toRat ∧
      d.nearest = Binary64.nearest num den := by
  obtain ⟨lower, upper⟩ := moderate
  exact Decimal.exists_quotient upper (by omega)

/-- Decimals with the same value have the same nearest double. -/
theorem nearest_congr {d d' : Decimal} (moderate : d.Moderate) (moderate' : d'.Moderate)
    (equal : d.toRat = d'.toRat) : d.nearest = d'.nearest := by
  obtain ⟨num, den, positive, value, nearestEq⟩ := moderate.exists_quotient
  obtain ⟨num', den', positive', value', nearestEq'⟩ := moderate'.exists_quotient
  rw [nearestEq, nearestEq']
  apply Binary64.nearest_congr positive positive'
  rw [value, value', equal]

theorem inUnits_eq {num den : Nat} {q : ℚ} (value : (num : ℚ) / den = q) :
    Binary64.inUnits num den = q * Binary64.unitsPerOne := by
  rw [← value, Binary64.inUnits, Nat.cast_mul, mul_div_right_comm]

/-- A decimal close enough to a double has it as its nearest. -/
theorem nearest_eq_of_near {d : Decimal} {bits : Nat} (moderate : d.Moderate)
    (finite : bits < Binary64.infinity)
    (near : |d.toRat * Binary64.unitsPerOne - Binary64.units bits| * (2 * 10 ^ 16) ≤
      Binary64.units bits) : d.nearest = bits := by
  obtain ⟨num, den, positive, value, nearestEq⟩ := moderate.exists_quotient
  rw [nearestEq]
  apply Binary64.nearest_eq_of_near positive finite
  rw [inUnits_eq value]
  exact near

/-- A decimal in the interval of a double has it as its nearest. -/
theorem nearest_of_captures {d : Decimal} {bits : Nat} (moderate : d.Moderate)
    (finite : bits < Binary64.infinity)
    (captures : Binary64.Captures bits (d.toRat * Binary64.unitsPerOne)) : d.nearest = bits := by
  obtain ⟨num, den, positive, value, nearestEq⟩ := moderate.exists_quotient
  rw [nearestEq, Binary64.nearest_eq_iff_captures positive finite, inUnits_eq value]
  exact captures

/-- A decimal lies in the interval of its nearest double. -/
theorem captures_of_nearest {d : Decimal} {bits : Nat} (positive : 0 < bits)
    (finite : bits < Binary64.infinity) (nearestEq : d.nearest = bits) :
    Binary64.Captures bits (d.toRat * Binary64.unitsPerOne) := by
  -- Decimals far outside the range of doubles are read as zero or as infinity.
  have inRange : d.exponent ≤ 400 ∧ -400 ≤ d.exponent + (d.digits.log2 + 1) := by
    unfold nearest at nearestEq
    split at nearestEq
    next => omega
    next =>
      split at nearestEq
      next => omega
      next notAbove =>
        split at nearestEq
        next => omega
        next notBelow => exact ⟨not_lt.1 notAbove, not_lt.1 notBelow⟩
  obtain ⟨num, den, denPositive, value, quotientEq⟩ := exists_quotient inRange.1 inRange.2
  rwa [quotientEq, Binary64.nearest_eq_iff_captures denPositive finite, inUnits_eq value]
    at nearestEq

theorem nearest_le_infinity (d : Decimal) : d.nearest ≤ Binary64.infinity := by
  unfold nearest
  split
  next => exact Nat.zero_le _
  next =>
    split
    next => exact Nat.le_refl _
    next =>
      split
      next => exact Nat.zero_le _
      next =>
        split
        next => exact Nat.min_le_right _ _
        next => exact Nat.min_le_right _ _

/-! ### The leading digit -/

/-- A positive number lies between the powers of ten that its number of digits gives. -/
theorem length_spec {n : Nat} (positive : 0 < n) :
    0 < length n ∧ 10 ^ (length n - 1) ≤ n ∧ n < 10 ^ length n := by
  have some : 0 < length n := Nat.length_toDigits_pos
  refine ⟨some, ?_, (Nat.length_toDigits_le_iff (by omega) some).1 (Nat.le_refl _)⟩
  by_cases single : length n = 1
  · rw [single]
    exact positive
  · apply Nat.le_of_not_lt
    intro below
    have shorter : length n ≤ length n - 1 :=
      (Nat.length_toDigits_le_iff (by omega) (by omega)).2 below
    omega

/-- The leading exponent is that of the power of ten just below the quotient. -/
theorem leadingExponent_spec {num den : Nat} (numPositive : 0 < num) (denPositive : 0 < den) :
    (10 : ℚ) ^ leadingExponent num den ≤ num / den ∧
      (num : ℚ) / den < 10 ^ (leadingExponent num den + 1) := by
  have denPositive' : (0 : ℚ) < den := by exact_mod_cast denPositive
  have numPositive' : (0 : ℚ) < num := by exact_mod_cast numPositive
  unfold leadingExponent
  split
  next atLeastOne =>
    obtain ⟨some, lower, upper⟩ := length_spec (Nat.div_pos atLeastOne denPositive)
    have exponentEq : (length (num / den) : ℤ) - 1 = (length (num / den) - 1 : Nat) := by omega
    rw [sub_add_cancel, exponentEq, zpow_natCast, zpow_natCast, le_div_iff₀ denPositive',
      div_lt_iff₀ denPositive']
    constructor
    · exact_mod_cast (Nat.le_div_iff_mul_le denPositive).1 lower
    · exact_mod_cast (Nat.div_lt_iff_lt_mul denPositive).1 upper
  next belowOne =>
    have quotientEq : (den + num - 1) / num - 1 = (den - 1) / num := by
      have shifted : den + num - 1 = den - 1 + num := by omega
      rw [shifted, Nat.add_div_right _ numPositive, Nat.add_sub_cancel]
    rw [quotientEq]
    obtain ⟨some, lower, upper⟩ :=
      length_spec (Nat.div_pos (show num ≤ den - 1 by omega) numPositive)
    generalize length ((den - 1) / num) = k at *
    have exponentEq : -(k : ℤ) + 1 = -((k - 1 : Nat) : ℤ) := by omega
    rw [Nat.le_div_iff_mul_le numPositive] at lower
    rw [Nat.div_lt_iff_lt_mul numPositive] at upper
    rw [exponentEq, zpow_neg, zpow_neg, zpow_natCast, zpow_natCast, le_div_iff₀ denPositive',
      div_lt_iff₀ denPositive', inv_mul_le_iff₀ (by positivity), lt_inv_mul_iff₀ (by positivity)]
    have upper' : den ≤ 10 ^ k * num := by omega
    have lower' : 10 ^ (k - 1) * num < den := by omega
    constructor
    · exact_mod_cast upper'
    · exact_mod_cast lower'

/-! ### Rounding to a number of digits -/

/-- A scaled quotient is rounded by at most a half. -/
theorem abs_scaledRound_sub_le (num : Nat) {den : Nat} (positive : 0 < den) (places : ℤ) :
    |(scaledRound num den places : ℚ) - num / den * 10 ^ places| ≤ 1 / 2 := by
  cases places with
  | ofNat p =>
    have rounded := Binary64.abs_roundDiv_sub_le (num * 10 ^ p) positive
    rw [Nat.cast_mul, mul_div_right_comm] at rounded
    push_cast at rounded
    exact rounded
  | negSucc p =>
    have rounded := Binary64.abs_roundDiv_sub_le num
      (show 0 < den * 10 ^ (p + 1) from Nat.mul_pos positive (Nat.pow_pos (by omega)))
    rw [Nat.cast_mul, ← div_div] at rounded
    rw [zpow_negSucc, ← div_eq_mul_inv]
    push_cast at rounded
    exact rounded

/-- A decimal has a number of digits, and a value that differs by at most half a unit of the last
digit. -/
structure Rounds (precision : Nat) (value : ℚ) (d : Decimal) : Prop where
  lower : 10 ^ (precision - 1) ≤ d.digits
  upper : d.digits < 10 ^ precision
  near : |d.toRat - value| * (2 * 10 ^ (precision - 1)) ≤ value

/-- A number with some digits before the point keeps them, or carries, when it is rounded. -/
theorem digits_bounds {p digits : Nat} {w : ℚ} (lower : (10 : ℚ) ^ p ≤ w)
    (upper : w < (10 : ℚ) ^ (p + 1)) (close : |(digits : ℚ) - w| ≤ 1 / 2) :
    10 ^ p ≤ digits ∧ digits ≤ 10 ^ (p + 1) := by
  rw [abs_le] at close
  have above : (10 : ℚ) ^ p < digits + 1 := by linarith
  have below : (digits : ℚ) < 10 ^ (p + 1) + 1 := by linarith
  have above' : 10 ^ p < digits + 1 := by exact_mod_cast above
  have below' : digits < 10 ^ (p + 1) + 1 := by exact_mod_cast below
  omega

/-- The exponent of the last digit of a quotient that is rounded to some digits. -/
def lastPlace (precision num den : Nat) : Int := leadingExponent num den + 1 - precision

/-- A rounded quotient is a whole number of units in its last place, also where it carries. -/
theorem toRat_round {precision : Nat} (num den : Nat) (some : 0 < precision) :
    (round precision num den).toRat =
      scaledRound num den (-lastPlace precision num den) * 10 ^ lastPlace precision num den := by
  obtain ⟨p, rfl⟩ : ∃ p, precision = p + 1 := ⟨precision - 1, by omega⟩
  unfold round
  dsimp only
  rw [← lastPlace]
  split
  next carried =>
    have moved := toRat_append_zeros (10 ^ p) 1 (lastPlace (p + 1) num den)
    rw [← Nat.pow_add, ← carried, Nat.cast_one, Int.add_comm 1] at moved
    exact moved.symm
  next => rw [toRat]

/-- Rounding moves a quotient by at most half a unit in the last place. -/
theorem abs_scaledRound_lastPlace_sub_le (precision num : Nat) {den : Nat} (positive : 0 < den) :
    |(scaledRound num den (-lastPlace precision num den) : ℚ) -
      num / den / 10 ^ lastPlace precision num den| ≤ 1 / 2 := by
  rw [div_eq_mul_inv _ ((10 : ℚ) ^ _), ← zpow_neg]
  exact abs_scaledRound_sub_le num positive _

theorem abs_toRat_round_sub_le {precision : Nat} (num : Nat) {den : Nat} (some : 0 < precision)
    (positive : 0 < den) :
    |(round precision num den).toRat - num / den| ≤ 10 ^ lastPlace precision num den / 2 := by
  have unit : (0 : ℚ) < 10 ^ lastPlace precision num den := by positivity
  have close := mul_le_mul_of_nonneg_right
    (abs_scaledRound_lastPlace_sub_le precision num positive) unit.le
  rw [← abs_of_pos unit, ← abs_mul, sub_mul, abs_of_pos unit, div_mul_cancel₀ _ unit.ne',
    ← toRat_round num den some] at close
  linarith

/-- Rounding a quotient to some digits rounds it. -/
theorem rounds_round {precision num den : Nat} (some : 0 < precision) (numPositive : 0 < num)
    (denPositive : 0 < den) : Rounds precision (num / den) (round precision num den) := by
  obtain ⟨p, rfl⟩ : ∃ p, precision = p + 1 := ⟨precision - 1, by omega⟩
  obtain ⟨leadingLower, leadingUpper⟩ := leadingExponent_spec numPositive denPositive
  have moved := abs_toRat_round_sub_le num some denPositive
  have close := abs_scaledRound_lastPlace_sub_le (p + 1) num denPositive
  have leadingEq : leadingExponent num den = p + lastPlace (p + 1) num den := by
    unfold lastPlace
    omega
  have unit : (0 : ℚ) < 10 ^ lastPlace (p + 1) num den := by positivity
  rw [leadingEq, zpow_add₀ (by norm_num), zpow_natCast] at leadingLower
  rw [leadingEq, add_right_comm, zpow_add₀ (by norm_num)] at leadingUpper
  have lower := (le_div_iff₀ unit).2 leadingLower
  have upper := (div_lt_iff₀ unit).2 leadingUpper
  obtain ⟨digitsLower, digitsUpper⟩ := digits_bounds lower (by exact_mod_cast upper) close
  have near : |(round (p + 1) num den).toRat - num / den| * (2 * 10 ^ p) ≤ num / den := by
    calc |(round (p + 1) num den).toRat - num / den| * (2 * 10 ^ p)
        ≤ 10 ^ lastPlace (p + 1) num den / 2 * (2 * 10 ^ p) :=
          mul_le_mul_of_nonneg_right moved (by positivity)
      _ = 10 ^ p * 10 ^ lastPlace (p + 1) num den := by ring
      _ ≤ num / den := leadingLower
  refine ⟨?_, ?_, near⟩
  · unfold round
    dsimp only
    rw [← lastPlace]
    split
    next => exact Nat.le_refl _
    next => exact digitsLower
  · unfold round
    dsimp only
    rw [← lastPlace]
    split
    next => exact Nat.pow_lt_pow_right (by omega) (Nat.lt_succ_self p)
    next fits => exact Nat.lt_of_le_of_ne digitsUpper fits

/-- Rounding at most halves or doubles a number. -/
theorem Rounds.within {precision : Nat} {value : ℚ} {d : Decimal}
    (rounds : Rounds precision value d) : value / 2 ≤ d.toRat ∧ d.toRat ≤ 2 * value := by
  have atLeastOne : (1 : ℚ) ≤ 10 ^ (precision - 1) := one_le_pow₀ (by norm_num)
  have half : |d.toRat - value| * 2 ≤ value := by
    apply le_trans _ rounds.near
    apply mul_le_mul_of_nonneg_left _ (abs_nonneg _)
    linarith
  have near : |d.toRat - value| ≤ value / 2 := by linarith
  rw [abs_le] at near
  constructor <;> linarith

/-- A decimal that rounds a number of no extreme size has no extreme exponent. -/
theorem Rounds.exponent_bounds {precision : Nat} {value : ℚ} {d : Decimal}
    (rounds : Rounds precision value d) (some : 0 < precision)
    (atLeast : (10 : ℚ) ^ (-360 : ℤ) ≤ value) (below : value < 10 ^ (360 : ℤ)) :
    -361 < d.exponent + precision ∧ d.exponent + precision ≤ 361 := by
  obtain ⟨p, rfl⟩ : ∃ p, precision = p + 1 := ⟨precision - 1, by omega⟩
  obtain ⟨halfBelow, doubleAbove⟩ := rounds.within
  have unit : (0 : ℚ) < 10 ^ d.exponent := by positivity
  have positive : (0 : ℚ) < value := lt_of_lt_of_le (by positivity) atLeast
  have lower : (10 : ℚ) ^ p ≤ d.digits := by exact_mod_cast rounds.lower
  have upper : (d.digits : ℚ) < 10 ^ (p + 1) := by exact_mod_cast rounds.upper
  have above : (10 : ℚ) ^ (p + d.exponent) < 10 ^ (361 : ℤ) := by
    calc (10 : ℚ) ^ (p + d.exponent) = 10 ^ p * 10 ^ d.exponent := by
          rw [zpow_add₀ (by norm_num), zpow_natCast]
      _ ≤ d.toRat := mul_le_mul_of_nonneg_right lower unit.le
      _ ≤ 2 * value := doubleAbove
      _ ≤ 10 * value := mul_le_mul_of_nonneg_right (by norm_num) positive.le
      _ < 10 * 10 ^ (360 : ℤ) := mul_lt_mul_of_pos_left below (by norm_num)
      _ = 10 ^ (361 : ℤ) := (zpow_one_add₀ (by norm_num) 360).symm
  have beneath : (10 : ℚ) ^ (-361 : ℤ) < 10 ^ ((p + 1 : Nat) + d.exponent) := by
    calc (10 : ℚ) ^ (-361 : ℤ) = 10 ^ (-360 : ℤ) / 10 := zpow_sub_one₀ (by norm_num) (-360)
      _ ≤ value / 10 := div_le_div_of_nonneg_right atLeast (by norm_num)
      _ ≤ value / 2 := div_le_div_of_nonneg_left positive.le (by norm_num) (by norm_num)
      _ ≤ d.toRat := halfBelow
      _ < 10 ^ (p + 1) * 10 ^ d.exponent := mul_lt_mul_of_pos_right upper unit
      _ = 10 ^ ((p + 1 : Nat) + d.exponent) := by rw [zpow_add₀ (by norm_num), zpow_natCast]
  have exponentUpper := (zpow_lt_zpow_iff_right₀ (by norm_num : (1 : ℚ) < 10)).1 above
  have exponentLower := (zpow_lt_zpow_iff_right₀ (by norm_num : (1 : ℚ) < 10)).1 beneath
  omega

end Decimal

/-! ### Doubles -/

namespace Binary64

theorem two_pow_le_ten_pow {m n : Nat} (enough : m ≤ 3 * n) : (2 : ℚ) ^ m ≤ 10 ^ n := by
  calc (2 : ℚ) ^ m ≤ 2 ^ (3 * n) := pow_le_pow_right₀ (by norm_num) enough
    _ = (2 ^ 3) ^ n := pow_mul 2 3 n
    _ ≤ 10 ^ n := pow_le_pow_left₀ (by norm_num) (by norm_num) n

theorem div_two_pow_lt {n k m e : Nat} (below : n < 2 ^ (k + m)) (enough : k ≤ 3 * e) :
    (n : ℚ) / 2 ^ m < 10 ^ e := by
  have below' : (n : ℚ) < 2 ^ k * 2 ^ m := by
    rw [← pow_add]
    exact_mod_cast below
  rw [div_lt_iff₀ (by positivity)]
  apply lt_of_lt_of_le below'
  exact mul_le_mul_of_nonneg_right (two_pow_le_ten_pow enough) (by positivity)

theorem inv_le_div_two_pow {n m e : Nat} (positive : 1 ≤ n) (enough : m ≤ 3 * e) :
    ((10 : ℚ) ^ e)⁻¹ ≤ n / 2 ^ m := by
  have positive' : (1 : ℚ) ≤ n := by exact_mod_cast positive
  calc ((10 : ℚ) ^ e)⁻¹ ≤ (2 ^ m)⁻¹ := inv_anti₀ (by positivity) (two_pow_le_ten_pow enough)
    _ = 1 / 2 ^ m := (one_div _).symm
    _ ≤ n / 2 ^ m := div_le_div_of_nonneg_right positive' (by positivity)

theorem unitsPerOne_pos : 0 < unitsPerOne := by
  unfold unitsPerOne
  positivity

theorem units_pos {bits : Nat} (nonzero : bits ≠ 0) : 0 < units bits := by
  have composed := shift_mul_add_significand bits
  have significandPositive : 0 < significand bits := by
    rcases shift_eq_zero_or_le_significand bits with subnormal | normal
    · rw [subnormal] at composed
      omega
    · exact Nat.lt_of_lt_of_le (Nat.two_pow_pos 52) normal
  exact Nat.mul_pos significandPositive (Nat.two_pow_pos _)

theorem units_lt {bits n : Nat} (enough : 53 + shift bits ≤ n) : units bits < 2 ^ n := by
  have below : units bits < 2 ^ (53 + shift bits) := by
    rw [Nat.pow_add]
    exact Nat.mul_lt_mul_of_pos_right (significand_lt bits) (Nat.two_pow_pos _)
  exact Nat.lt_of_lt_of_le below (Nat.pow_le_pow_right (by omega) enough)

theorem shift_le {bits : Nat} (finite : bits < infinity) : shift bits ≤ 2045 := by
  unfold shift
  unfold infinity at finite
  omega

/-- A double is neither extremely small nor extremely large. -/
theorem value_bounds {bits : Nat} (nonzero : bits ≠ 0) (finite : bits < infinity) :
    (10 : ℚ) ^ (-360 : ℤ) ≤ units bits / unitsPerOne ∧
      (units bits : ℚ) / unitsPerOne < 10 ^ (360 : ℤ) := by
  have perOne : ((unitsPerOne : Nat) : ℚ) = 2 ^ 1074 := by
    rw [unitsPerOne, Nat.cast_pow, Nat.cast_ofNat]
  rw [perOne, zpow_neg, zpow_ofNat]
  have shiftLe := shift_le finite
  exact ⟨inv_le_div_two_pow (units_pos nonzero) (by omega),
    @div_two_pow_lt _ 1024 _ _ (units_lt (by omega)) (by omega)⟩

theorem roundDiv_le (num den : Nat) : roundDiv num den ≤ num / den + 1 := by
  unfold roundDiv
  dsimp only
  split
  next => omega
  next =>
    split
    next => omega
    next => omega

/-- The number of binary digits of a quotient bounds the nearest double. -/
theorem nearest_le {num den k : Nat} (small : num * unitsPerOne / den < 2 ^ (53 + k)) :
    nearest num den ≤ k * 2 ^ 52 + 2 ^ 53 := by
  unfold nearest
  dsimp only
  generalize num * unitsPerOne = scaled at *
  obtain ⟨places, placesEq⟩ : ∃ places, places = (scaled / den).log2 - 52 := ⟨_, rfl⟩
  rw [← placesEq]
  have fewPlaces : places ≤ k := by
    by_cases zero : scaled / den = 0
    · rw [zero, Nat.log2_zero] at placesEq
      omega
    · have := (Nat.log2_lt zero).2 small
      omega
  have quotientLt : scaled / (den * 2 ^ places) < 2 ^ 53 := by
    rw [← Nat.div_div_eq_div_mul, Nat.div_lt_iff_lt_mul (Nat.two_pow_pos places), ← Nat.pow_add]
    apply Nat.lt_of_lt_of_le Nat.lt_log2_self
    exact Nat.pow_le_pow_right (by omega) (by omega)
  have rounded := roundDiv_le scaled (den * 2 ^ places)
  have placesLe := Nat.mul_le_mul_right (2 ^ 52) fewPlaces
  omega

end Binary64

/-- The double nearest to a word is finite. -/
theorem Decimal.nearest_word_lt (v : UInt64) :
    (⟨v.toNat, 0⟩ : Decimal).nearest < Binary64.infinity := by
  have small : ∀ m, v.toNat * 10 ^ 0 * 2 ^ m / 1 < 2 ^ (53 + (11 + m)) := by
    intro m
    rw [Nat.pow_zero, Nat.mul_one, Nat.div_one, ← Nat.add_assoc, Nat.pow_add]
    exact Nat.mul_lt_mul_of_pos_right v.toNat_lt (Nat.two_pow_pos m)
  have limited := @Binary64.nearest_le (v.toNat * 10 ^ 0) 1 (11 + 1074) (small 1074)
  unfold nearest
  dsimp only
  split
  next => decide
  next =>
    split
    next above => exact absurd above (by decide)
    next =>
      split
      next below => omega
      next =>
        apply Nat.lt_of_le_of_lt limited
        decide

/-- The double nearest to a whole number above zero is above zero. -/
theorem Decimal.nearest_pos {n : Nat} (positive : 0 < n) : 0 < (⟨n, 0⟩ : Decimal).nearest := by
  -- Behind one the unit in the last place is above the least double, so the quotient is shifted.
  have scaledLarge : 2 ^ 1074 ≤ n * 10 ^ 0 * Binary64.unitsPerOne / 1 := by
    rw [Nat.pow_zero, Nat.mul_one, Nat.div_one]
    exact Nat.le_mul_of_pos_left _ positive
  have shifted : 0 < (n * 10 ^ 0 * Binary64.unitsPerOne / 1).log2 - 52 := by
    have := (Nat.le_log2 (by omega)).2 scaledLarge
    omega
  have rounded : 0 < Binary64.nearest (n * 10 ^ 0) 1 :=
    Nat.lt_min.2 ⟨Nat.add_pos_left (Nat.mul_pos shifted (by decide)) _, by decide⟩
  unfold nearest
  dsimp only
  split
  next zero => omega
  next =>
    split
    next above => exact absurd above (by decide)
    next =>
      split
      next below => omega
      next => exact rounded

open Binary64

variable {x : Binary64} {precision : Nat}

/-- A finite double is rounded to a decimal of the precision. -/
theorem rounds_roundedTo (some : 0 < precision) (nonzero : x.magnitude ≠ 0)
    (finite : x.magnitude < infinity) :
    Decimal.Rounds precision (units x.magnitude / unitsPerOne) (roundedTo precision x) ∧
      -361 < (roundedTo precision x).exponent + precision ∧
      (roundedTo precision x).exponent + precision ≤ 361 := by
  obtain ⟨atLeast, below⟩ := value_bounds nonzero finite
  have rounds := Decimal.rounds_round some (units_pos nonzero) unitsPerOne_pos
  exact ⟨rounds, rounds.exponent_bounds some atLeast below⟩

/-- Seventeen digits always read back. -/
theorem readsBack_seventeen (finite : x.magnitude < infinity) : ReadsBack 17 x := by
  by_cases zero : x.magnitude = 0
  · exact .inl zero
  · right
    obtain ⟨rounds, lower, upper⟩ := rounds_roundedTo (show 0 < 17 by omega) zero finite
    have perOne : (0 : ℚ) < unitsPerOne := by exact_mod_cast unitsPerOne_pos
    refine Decimal.nearest_eq_of_near ⟨by omega, by omega⟩ finite ?_
    have near := mul_le_mul_of_nonneg_right rounds.near perOne.le
    rw [div_mul_cancel₀ _ perOne.ne', mul_right_comm, ← abs_of_pos perOne, ← abs_mul, sub_mul,
      abs_of_pos perOne, div_mul_cancel₀ _ perOne.ne'] at near
    exact near

/-- The precision that doubles are written with is enough. -/
theorem readsBack_sufficientPrecision (finite : x.magnitude < infinity) :
    ReadsBack (sufficientPrecision x) x ∧ 0 < sufficientPrecision x ∧
      sufficientPrecision x ≤ 17 := by
  unfold sufficientPrecision
  cases found : ((List.range 16).map (· + 1)).find? fun p => ReadsBack p x with
  | none => exact ⟨readsBack_seventeen finite, by decide, by decide⟩
  | some p =>
    have tried := List.mem_of_find?_eq_some found
    have enough := List.find?_some found
    obtain ⟨q, small, rfl⟩ := List.mem_map.1 tried
    have small' := List.mem_range.1 small
    refine ⟨of_decide_eq_true enough, Nat.succ_pos q, ?_⟩
    rw [Option.getD_some]
    omega

/-- With fewer digits a double does not read back. -/
theorem not_readsBack_of_lt (some : 0 < precision) (fewer : precision < sufficientPrecision x) :
    ¬ ReadsBack precision x := by
  intro readsBack
  obtain ⟨q, rfl⟩ : ∃ q, precision = q + 1 := ⟨precision - 1, by omega⟩
  unfold sufficientPrecision at fewer
  rw [List.find?_map] at fewer
  cases found : (List.range 16).find? ((fun p => decide (ReadsBack p x)) ∘ (· + 1)) with
  | none =>
    rw [found] at fewer
    have small : q < 16 := Nat.lt_of_succ_lt_succ fewer
    exact List.find?_eq_none.1 found q (List.mem_range.2 small) (decide_eq_true readsBack)
  | some p =>
    rw [found] at fewer
    obtain ⟨-, -, earlier⟩ := List.find?_range_eq_some.1 found
    have untried := earlier q (Nat.lt_of_succ_lt_succ fewer)
    rw [Function.comp_apply, decide_eq_true readsBack] at untried
    cases untried

end PatternSampler
