/-
Module: PatternSampler.Proofs.NumberText.Shortest
Purpose: How short the texts of doubles are. No decimal with some digits is nearer to a double than
  the double rounded to these digits, so what is read as a double has at least as many digits
  as the text of the double. The interval of a power of two is the exception: it reaches
  further up than down, and a decimal above the power may lie in it although the rounded one,
  which is nearer, lies below it and outside. Then the text has one digit more.
Main exports: Text.significantDigits, Decimal.significantDigits, Decimal.abs_round_sub_le,
  length_significantDigits_numberText_le, MissedAbove, MissedAbove.readsBack_succ,
  sufficientPrecision_le, numberText_shortest
-/
import PatternSampler.Proofs.NumberText

namespace PatternSampler

/-! ### Significant digits -/

/-- The digits that a number is written with, from the first one on that is not zero. -/
def Text.significantDigits (t : Text) : Text :=
  ((t.takeWhile (· ≠ 0x65)).filter fun b => IsDigit b).dropWhile (· = 0x30)

/-- How many digits a decimal has that are not zeros at its end. -/
def Decimal.significantDigits (d : Decimal) : Nat :=
  (dropTrailingZeros (Text.decimal d.digits)).length

namespace Text

theorem decimalValue_dropWhile_zero (t : Text) :
    decimalValue (t.dropWhile (· = 0x30)) = decimalValue t := by
  induction t with
  | nil => rfl
  | cons b t inductionHypothesis =>
    by_cases zero : b = 0x30
    · subst zero
      exact inductionHypothesis.trans (decimalValue_zeros_append 1 t).symm
    · rw [List.dropWhile_cons_of_neg (by simp [zero])]

/-- A number below a power of ten has no more digits than that, apart from zeros in front. -/
theorem length_dropWhile_zero_le {t : Text} {count : Nat} (isDigit : ∀ b ∈ t, IsDigit b)
    (below : decimalValue t < 10 ^ count) : (t.dropWhile (· = 0x30)).length ≤ count := by
  rw [← decimalValue_dropWhile_zero] at below
  cases dropped : t.dropWhile (· = 0x30) with
  | nil => exact Nat.zero_le _
  | cons b u =>
    have member : b ∈ t.dropWhile (· = 0x30) := dropped ▸ List.mem_cons_self
    have nonzero : ¬ b = 0x30 := by
      have front := List.head?_dropWhile_not (· = (0x30 : UInt8)) t
      rw [dropped] at front
      exact of_decide_eq_false front
    have atLeast := pow_le_decimalValue (isDigit b ((List.dropWhile_sublist _).subset member))
      nonzero u
    rw [dropped] at below
    exact (Nat.pow_lt_pow_iff_right (by omega)).1 (Nat.lt_of_le_of_lt atLeast below)

end Text

namespace Numeral

variable {n : Numeral}

theorem Spelled.isDigit (spelled : n.Spelled) : ∀ b ∈ n.whole ++ n.fraction.getD [], IsDigit b := by
  intro b member
  rcases List.mem_append.1 member with front | behind
  · exact spelled.whole b front
  · cases fractionEq : n.fraction with
    | none =>
      rw [fractionEq] at behind
      cases behind
    | some digits =>
      rw [fractionEq] at behind
      exact spelled.fraction digits fractionEq b behind

/-- The letter of the exponent does not stand in front of the exponent. -/
theorem Spelled.ne_letter (spelled : n.Spelled) :
    ∀ b ∈ signText n.negative ++ n.whole ++ fractionText n.fraction, b ≠ 0x65 := by
  rintro _ member rfl
  have noDigit : ¬ IsDigit 0x65 := by decide
  rcases List.mem_append.1 member with front | behind
  · rcases List.mem_append.1 front with sign | digit
    · unfold signText at sign
      split at sign
      next => exact absurd (List.mem_singleton.1 sign) (by decide)
      next => cases sign
    · exact noDigit (spelled.whole _ digit)
  · cases fractionEq : n.fraction with
    | none =>
      rw [fractionEq] at behind
      cases behind
    | some digits =>
      rw [fractionEq] at behind
      rcases List.mem_cons.1 behind with point | digit
      · exact absurd point (by decide)
      · exact noDigit (spelled.fraction digits fractionEq _ digit)

theorem takeWhile_exponentText {exponent : Option Exponent} (spelled : ∀ e ∈ exponent, e.Spelled) :
    (exponentText exponent).takeWhile (· ≠ 0x65) = [] := by
  cases exponent with
  | none => rfl
  | some e =>
    have letterEq := (spelled e rfl).letter
    rw [exponentText, Exponent.text, letterEq]
    rfl

/-- The significant digits of the text of a numeral are those of its whole part and its fraction. -/
theorem Spelled.significantDigits_text (spelled : n.Spelled) :
    n.text.significantDigits = (n.whole ++ n.fraction.getD []).dropWhile (· = 0x30) := by
  have signDropped : (signText n.negative).filter (fun b => IsDigit b) = [] := by
    cases n.negative <;> rfl
  have digitsKept : (n.whole ++ n.fraction.getD []).filter (fun b => IsDigit b) =
      n.whole ++ n.fraction.getD [] :=
    List.filter_eq_self.2 fun b member => decide_eq_true (spelled.isDigit b member)
  have pointDropped : (fractionText n.fraction).filter (fun b => IsDigit b) =
      (n.fraction.getD []).filter (fun b => IsDigit b) := by
    cases n.fraction <;> rfl
  have mantissa : ∀ b ∈ signText n.negative ++ n.whole ++ fractionText n.fraction,
      decide (b ≠ 0x65) = true := fun b member => decide_eq_true (spelled.ne_letter b member)
  rw [Text.significantDigits, text, List.takeWhile_append_of_pos mantissa,
    takeWhile_exponentText spelled.exponent, List.append_nil, List.filter_append,
    List.filter_append, signDropped, pointDropped, List.nil_append, ← List.filter_append,
    digitsKept]

end Numeral

namespace Decimal

/-- A decimal is a number of as many digits as are significant, and a power of ten. -/
theorem exists_significant (d : Decimal) :
    ∃ (m : Nat) (e : ℤ), d.toRat = m * 10 ^ e ∧ m < 10 ^ d.significantDigits := by
  obtain ⟨count, digitsEq⟩ := Numeral.exists_zeros (Text.decimal d.digits)
  have kept : ∀ b ∈ dropTrailingZeros (Text.decimal d.digits), IsDigit b := by
    intro b member
    apply Text.isDigit_of_mem_decimal d.digits
    rw [digitsEq]
    exact List.mem_append_left _ member
  refine ⟨Text.decimalValue (dropTrailingZeros (Text.decimal d.digits)), count + d.exponent, ?_,
    Text.decimalValue_lt_pow kept⟩
  have value := Text.decimalValue_decimal d.digits
  have moved := toRat_append_zeros
    (Text.decimalValue (dropTrailingZeros (Text.decimal d.digits))) count d.exponent
  rw [digitsEq, Text.decimalValue_append_zeros] at value
  rw [value] at moved
  exact moved

/-- A decimal that is not read as zero has a significant digit. -/
theorem significantDigits_pos {d : Decimal} (nonzero : d.nearest ≠ 0) :
    0 < d.significantDigits := by
  apply Nat.pos_of_ne_zero
  intro none
  obtain ⟨m, e, value, below⟩ := d.exists_significant
  rw [none, Nat.pow_zero, Nat.lt_one_iff] at below
  rw [below, Nat.cast_zero, zero_mul, toRat] at value
  have digits : d.digits = 0 := by
    exact_mod_cast (mul_eq_zero.1 value).resolve_right (by positivity)
  exact nonzero (if_pos digits)

/-! ### Rounding to a grid -/

/-- A whole number within a half is a nearest one. -/
theorem abs_sub_le_of_half {w : ℚ} {n : ℤ} (near : |n - w| ≤ 1 / 2) (m : ℤ) :
    |n - w| ≤ |m - w| := by
  rcases eq_or_ne m n with rfl | differ
  · exact le_rfl
  · have apart : (1 : ℚ) ≤ |(m : ℚ) - n| := by exact_mod_cast Int.one_le_abs (sub_ne_zero.2 differ)
    have triangle := abs_sub_le (m : ℚ) w n
    rw [abs_sub_comm w] at triangle
    linarith

variable {num den precision : Nat}

/-- No multiple of the unit in the last place is nearer to a quotient than the rounded one. -/
theorem abs_round_sub_le_of_multiple (num : Nat) (some : 0 < precision) (positive : 0 < den)
    (m : ℤ) :
    |(round precision num den).toRat - num / den| ≤
      |(m : ℚ) * 10 ^ lastPlace precision num den - num / den| := by
  have unit : (0 : ℚ) < 10 ^ lastPlace precision num den := by positivity
  have near := abs_scaledRound_lastPlace_sub_le precision num positive
  have least := mul_le_mul_of_nonneg_right
    (@abs_sub_le_of_half _ (scaledRound num den _) (by exact_mod_cast near) m) unit.le
  rw [← abs_of_pos unit, ← abs_mul, ← abs_mul, abs_of_pos unit, sub_mul, sub_mul,
    div_mul_cancel₀ _ unit.ne', Int.cast_natCast, ← toRat_round num den some] at least
  exact least

/-- A decimal with few digits is a multiple of the unit in the last place of the rounded quotient
unless it is so small that it has another leading digit. -/
theorem onGrid_or_lt {d : Decimal} (num den : Nat) (few : d.significantDigits ≤ precision) :
    (∃ m : ℤ, d.toRat = m * 10 ^ lastPlace precision num den) ∨
      d.toRat < 10 ^ leadingExponent num den := by
  obtain ⟨m, e, valueEq, below⟩ := d.exists_significant
  obtain ⟨last, lastEq⟩ : ∃ last, last = lastPlace precision num den := ⟨_, rfl⟩
  rw [valueEq, ← lastEq]
  rcases le_or_gt last e with coarse | fine
  · left
    obtain ⟨k, rfl⟩ : ∃ k : Nat, e = k + last := ⟨(e - last).toNat, by omega⟩
    refine ⟨(m * 10 ^ k : Nat), ?_⟩
    rw [Int.cast_natCast]
    exact (toRat_append_zeros m k last).symm
  · right
    have below' : (m : ℚ) < 10 ^ precision := by
      exact_mod_cast Nat.lt_of_lt_of_le below (Nat.pow_le_pow_right (by omega) few)
    have leadingEq : leadingExponent num den = precision + (last - 1) := by
      rw [lastEq, lastPlace]
      omega
    calc (m : ℚ) * 10 ^ e < 10 ^ precision * 10 ^ e :=
          mul_lt_mul_of_pos_right below' (by positivity)
      _ ≤ 10 ^ precision * 10 ^ (last - 1) := by
        apply mul_le_mul_of_nonneg_left _ (by positivity)
        exact zpow_le_zpow_right₀ (by norm_num) (by omega)
      _ = 10 ^ leadingExponent num den := by
        rw [leadingEq, zpow_add₀ (by norm_num), zpow_natCast]

/-- No decimal with so many digits is nearer to a quotient than the quotient rounded to them. -/
theorem abs_round_sub_le {d : Decimal} (some : 0 < precision) (numPositive : 0 < num)
    (denPositive : 0 < den) (few : d.significantDigits ≤ precision) :
    |(round precision num den).toRat - num / den| ≤ |d.toRat - num / den| := by
  rcases onGrid_or_lt num den few with ⟨m, multiple⟩ | below
  · rw [multiple]
    exact abs_round_sub_le_of_multiple num some denPositive m
  · -- The least number with the leading digit of the quotient is nearer, and is a multiple.
    obtain ⟨leadingLower, -⟩ := leadingExponent_spec numPositive denPositive
    obtain ⟨p, rfl⟩ : ∃ p, precision = p + 1 := ⟨precision - 1, by omega⟩
    have least := abs_round_sub_le_of_multiple num some denPositive (10 ^ p)
    have leadingEq : leadingExponent num den = p + lastPlace (p + 1) num den := by
      unfold lastPlace
      omega
    rw [leadingEq, zpow_add₀ (by norm_num), zpow_natCast] at leadingLower below
    push_cast at least
    calc |(round (p + 1) num den).toRat - num / den|
        ≤ |10 ^ p * 10 ^ lastPlace (p + 1) num den - (num : ℚ) / den| := least
      _ = (num : ℚ) / den - 10 ^ p * 10 ^ lastPlace (p + 1) num den := by
        rw [abs_of_nonpos (by linarith), neg_sub]
      _ ≤ (num : ℚ) / den - d.toRat := by linarith
      _ ≤ |d.toRat - num / den| := by
        rw [abs_sub_comm]
        exact le_abs_self _

end Decimal

open Binary64

variable {x : Binary64} {precision : Nat} {d : Decimal}

/-- The text of a finite double has no more digits than are enough for it. -/
theorem length_significantDigits_numberText_le (finite : x.magnitude < infinity) :
    (numberText x).significantDigits.length ≤ sufficientPrecision x := by
  obtain ⟨-, some, few⟩ := readsBack_sufficientPrecision finite
  obtain ⟨n, writes⟩ := exists_writesDouble finite some few
  rw [numberText, ← writes.text, writes.spelled.significantDigits_text]
  exact Text.length_dropWhile_zero_le writes.spelled.isDigit writes.digits

/-- A zero is written without significant digits. -/
theorem significantDigits_numberText_of_zero (zero : x.magnitude = 0) :
    (numberText x).significantDigits = [] := by
  have isNumber : ¬ ¬ x.IsNumber := not_not.2 (zero.trans_le (Nat.zero_le _))
  have notInfinite : x.magnitude ≠ infinity := by
    rw [zero]
    decide
  rw [numberText, general, if_neg isNumber, if_neg notInfinite, if_pos zero, signText]
  split <;> decide

/-! ### Rounded doubles -/

/-- The distance of a decimal from a double, in the smallest units of doubles. -/
theorem abs_mul_unitsPerOne_sub (q : ℚ) (bits : Nat) :
    |q * unitsPerOne - units bits| = |q - units bits / unitsPerOne| * unitsPerOne := by
  have perOne : (0 : ℚ) < unitsPerOne := by exact_mod_cast unitsPerOne_pos
  conv_rhs => rw [← abs_of_pos perOne, ← abs_mul, sub_mul, abs_of_pos perOne,
    div_mul_cancel₀ _ perOne.ne']

theorem readsBack_of_captures (some : 0 < precision) (few : precision ≤ 17)
    (nonzero : x.magnitude ≠ 0) (finite : x.magnitude < infinity)
    (captures : Captures x.magnitude ((roundedTo precision x).toRat * unitsPerOne)) :
    ReadsBack precision x := by
  obtain ⟨-, lower, upper⟩ := rounds_roundedTo some nonzero finite
  exact .inr (Decimal.nearest_of_captures ⟨by omega, by omega⟩ finite captures)

/-- No decimal with so many digits is nearer to a double than the double rounded to them. -/
theorem abs_roundedTo_sub_le (some : 0 < precision) (nonzero : x.magnitude ≠ 0)
    (few : d.significantDigits ≤ precision) :
    |(roundedTo precision x).toRat * unitsPerOne - units x.magnitude| ≤
      |d.toRat * unitsPerOne - units x.magnitude| := by
  rw [abs_mul_unitsPerOne_sub, abs_mul_unitsPerOne_sub]
  apply mul_le_mul_of_nonneg_right _ (Nat.cast_nonneg _)
  exact Decimal.abs_round_sub_le some (units_pos nonzero) unitsPerOne_pos few

/-- A double reads back with as many digits as a decimal has that is read as the double, if the
decimal does not lie above a power of two. -/
theorem readsBack_of_nearest (some : 0 < precision) (few : precision ≤ 17)
    (nonzero : x.magnitude ≠ 0) (finite : x.magnitude < infinity)
    (fewDigits : d.significantDigits ≤ precision) (nearestEq : d.nearest = x.magnitude)
    (plain : OpensBinade x.magnitude → d.toRat * unitsPerOne ≤ units x.magnitude) :
    ReadsBack precision x := by
  have captures := Decimal.captures_of_nearest (Nat.pos_of_ne_zero nonzero) finite nearestEq
  apply readsBack_of_captures some few nonzero finite
  exact captures.nearer (abs_roundedTo_sub_le some nonzero fewDigits) plain

/-! ### Powers of two -/

/-- A decimal above a power of two is read as the power although the power, rounded to as many
digits, does not read back. -/
structure MissedAbove (precision : Nat) (x : Binary64) (d : Decimal) : Prop where
  some : 0 < precision
  few : precision < 17
  finite : x.magnitude < infinity
  digits : d.significantDigits ≤ precision
  nearest : d.nearest = x.magnitude
  opens : OpensBinade x.magnitude
  above : (units x.magnitude : ℚ) < d.toRat * unitsPerOne
  fails : ¬ ReadsBack precision x

/-- Two multiples of a unit with a number between them are at least a unit apart. -/
theorem unit_le_sub {unit q : ℚ} {m n : ℤ} (positive : 0 < unit) (below : n * unit < q)
    (above : q < m * unit) : unit ≤ m * unit - n * unit := by
  have less : (n : ℚ) < m := lt_of_mul_lt_mul_right (below.trans above) positive.le
  have apart : (n : ℚ) + 1 ≤ m := by exact_mod_cast Int.add_one_le_iff.2 (by exact_mod_cast less)
  have product := mul_le_mul_of_nonneg_right apart positive.le
  linarith

namespace MissedAbove

theorem nonzero (missed : MissedAbove precision x d) : x.magnitude ≠ 0 := by
  intro zero
  have shifted := missed.opens.1
  rw [zero] at shifted
  exact absurd shifted (by decide)

theorem captures (missed : MissedAbove precision x d) :
    Captures x.magnitude (d.toRat * unitsPerOne) :=
  Decimal.captures_of_nearest (Nat.pos_of_ne_zero missed.nonzero) missed.finite missed.nearest

/-- The rounded decimal lies below the power: above it, it would be in the interval of the power as
the other decimal is, which is further away. -/
theorem roundedTo_lt (missed : MissedAbove precision x d) :
    (roundedTo precision x).toRat * unitsPerOne < units x.magnitude := by
  by_contra notBelow
  apply missed.fails
  apply readsBack_of_captures missed.some missed.few.le missed.nonzero missed.finite
  have scale : (0 : ℚ) < 2 ^ shift x.magnitude := by positivity
  have nearer := abs_roundedTo_sub_le missed.some missed.nonzero missed.digits
  rw [abs_of_nonneg (sub_nonneg.2 (not_lt.1 notBelow)), abs_of_pos (sub_pos.2 missed.above),
    ← offset_mul, ← offset_mul] at nearer
  have closer := le_of_mul_le_mul_right nearer scale
  have upward : 0 ≤ offset x.magnitude ((roundedTo precision x).toRat * unitsPerOne) := by
    apply nonneg_of_mul_nonneg_left _ scale
    rw [offset_mul]
    exact sub_nonneg.2 (not_lt.1 notBelow)
  refine ⟨?_, closer.trans missed.captures.above, fun _ => even_of_opensBinade missed.opens⟩
  rw [reachBelow_of_opensBinade missed.opens]
  linarith

/-- The two decimals lie within one last place of the power, and so the unit of which both are
multiples is no larger. -/
theorem unit_le (missed : MissedAbove precision x d) :
    10 ^ Decimal.lastPlace precision (units x.magnitude) unitsPerOne * (unitsPerOne : ℚ) ≤
      2 ^ shift x.magnitude := by
  have perOne : (0 : ℚ) < unitsPerOne := by exact_mod_cast unitsPerOne_pos
  have beneath := missed.roundedTo_lt
  -- Neither decimal is further from the power than half a unit in its last place.
  have nearer := abs_roundedTo_sub_le missed.some missed.nonzero missed.digits
  rw [abs_of_neg (sub_neg.2 beneath), abs_of_pos (sub_pos.2 missed.above)] at nearer
  have upper := mul_le_mul_of_nonneg_right missed.captures.above
    (show (0 : ℚ) ≤ 2 ^ shift x.magnitude by positivity)
  rw [offset_mul] at upper
  -- Both are multiples of one unit, and the power lies between them.
  have belowValue := (lt_div_iff₀ perOne).2 beneath
  have aboveValue := (div_lt_iff₀ perOne).2 missed.above
  have rounded := Decimal.toRat_round (units x.magnitude) unitsPerOne missed.some
  obtain ⟨leadingLower, -⟩ :=
    Decimal.leadingExponent_spec (units_pos missed.nonzero) unitsPerOne_pos
  obtain ⟨m, multiple⟩ := (Decimal.onGrid_or_lt _ _ missed.digits).resolve_right
    (not_lt.2 (leadingLower.trans aboveValue.le))
  rw [← roundedTo, ← Int.cast_natCast] at rounded
  have unit : (0 : ℚ) < 10 ^ Decimal.lastPlace precision (units x.magnitude) unitsPerOne := by
    positivity
  rw [rounded] at belowValue
  rw [multiple] at aboveValue
  have apart := mul_le_mul_of_nonneg_right (unit_le_sub unit belowValue aboveValue) perOne.le
  rw [← multiple, ← rounded, sub_mul] at apart
  linarith

/-- With one digit more the power reads back. -/
theorem readsBack_succ (missed : MissedAbove precision x d) : ReadsBack (precision + 1) x := by
  apply readsBack_of_captures (Nat.succ_pos _) missed.few missed.nonzero missed.finite
  apply captures_of_abs_lt
  rw [reachBelow_of_opensBinade missed.opens]
  have perOne : (0 : ℚ) < unitsPerOne := by exact_mod_cast unitsPerOne_pos
  have scale : (0 : ℚ) < 2 ^ shift x.magnitude := by positivity
  have tenth : Decimal.lastPlace (precision + 1) (units x.magnitude) unitsPerOne =
      Decimal.lastPlace precision (units x.magnitude) unitsPerOne - 1 := by
    unfold Decimal.lastPlace
    omega
  have moved := Decimal.abs_toRat_round_sub_le (units x.magnitude) (Nat.succ_pos precision)
    unitsPerOne_pos
  rw [← roundedTo, tenth, zpow_sub_one₀ (by norm_num)] at moved
  have distance := mul_le_mul_of_nonneg_right moved perOne.le
  rw [← abs_mul_unitsPerOne_sub, ← abs_offset_mul] at distance
  have unitLe := missed.unit_le
  apply lt_of_mul_lt_mul_right _ scale.le
  linarith

end MissedAbove

/-- What is read as a double has as many digits as are enough for the double, or one less. -/
theorem sufficientPrecision_le (nonzero : x.magnitude ≠ 0) (finite : x.magnitude < infinity)
    (nearestEq : d.nearest = x.magnitude) :
    sufficientPrecision x ≤ d.significantDigits ∨
      sufficientPrecision x = d.significantDigits + 1 ∧ OpensBinade x.magnitude ∧
        (units x.magnitude : ℚ) < d.toRat * unitsPerOne := by
  obtain ⟨-, -, atMost⟩ := readsBack_sufficientPrecision finite
  have some : 0 < d.significantDigits := by
    apply Decimal.significantDigits_pos
    rw [nearestEq]
    exact nonzero
  rcases Nat.lt_or_ge d.significantDigits 17 with few | many
  · by_cases readsBack : ReadsBack d.significantDigits x
    · exact .inl (Nat.le_of_not_lt fun fewer => not_readsBack_of_lt some fewer readsBack)
    · have exceptional : OpensBinade x.magnitude ∧
          (units x.magnitude : ℚ) < d.toRat * unitsPerOne := by
        by_contra plain
        apply readsBack
        apply readsBack_of_nearest some few.le nonzero finite le_rfl nearestEq
        exact fun opens => not_lt.1 fun above => plain ⟨opens, above⟩
      obtain ⟨opens, above⟩ := exceptional
      have missed : MissedAbove d.significantDigits x d :=
        ⟨some, few, finite, le_rfl, nearestEq, opens, above, readsBack⟩
      have enough : sufficientPrecision x ≤ d.significantDigits + 1 :=
        Nat.le_of_not_lt fun fewer =>
          not_readsBack_of_lt (Nat.succ_pos _) fewer missed.readsBack_succ
      rcases Nat.lt_or_eq_of_le enough with fewer | equal
      · exact .inl (Nat.le_of_lt_succ fewer)
      · exact .inr ⟨equal, opens, above⟩
  · exact .inl (atMost.trans many)

/-- A decimal that is read as a double has no fewer significant digits than the text of the double,
unless the double is a power of two that opens a binade and the decimal lies above it. Then it may
have one digit less. -/
theorem numberText_shortest (finite : x.magnitude < infinity)
    (nearestEq : d.nearest = x.magnitude) :
    (numberText x).significantDigits.length ≤ d.significantDigits ∨
      (numberText x).significantDigits.length = d.significantDigits + 1 ∧
        OpensBinade x.magnitude ∧ (units x.magnitude : ℚ) / unitsPerOne < d.toRat := by
  by_cases zero : x.magnitude = 0
  · left
    rw [significantDigits_numberText_of_zero zero]
    exact Nat.zero_le _
  · have written := length_significantDigits_numberText_le finite
    have perOne : (0 : ℚ) < unitsPerOne := by exact_mod_cast unitsPerOne_pos
    rcases sufficientPrecision_le zero finite nearestEq with enough | ⟨more, opens, above⟩
    · exact .inl (written.trans enough)
    · rw [more] at written
      rcases Nat.lt_or_eq_of_le written with fewer | equal
      · exact .inl (Nat.le_of_lt_succ fewer)
      · exact .inr ⟨equal, opens, (div_lt_iff₀ perOne).2 above⟩

/-- The least double is written with the one digit that a decimal needs to be read as it. -/
theorem numberText_shortest_least :
    (⟨1⟩ : Binary64).magnitude < infinity ∧
      (⟨3, -324⟩ : Decimal).nearest = (⟨1⟩ : Binary64).magnitude ∧
      (numberText ⟨1⟩).significantDigits.length ≤ (⟨3, -324⟩ : Decimal).significantDigits := by
  have finite : (⟨1⟩ : Binary64).magnitude < infinity := by decide
  have nearestEq : (⟨3, -324⟩ : Decimal).nearest = (⟨1⟩ : Binary64).magnitude := by decide +kernel
  refine ⟨finite, nearestEq, ?_⟩
  rcases numberText_shortest finite nearestEq with shorter | ⟨-, opens, -⟩
  · exact shorter
  · exact absurd opens (by decide)

/-- The forty-fourth power of a half is written with seventeen digits, although a decimal with
sixteen is read as the same double. -/
theorem numberText_not_shortest :
    ¬ ∀ (x : Binary64) (d : Decimal), x.magnitude < infinity → d.nearest = x.magnitude →
      (numberText x).significantDigits.length ≤ d.significantDigits := by
  intro shortest
  have finite : (⟨0x3D30000000000000⟩ : Binary64).magnitude < infinity := by decide
  have nearestEq : (⟨5684341886080802, -29⟩ : Decimal).nearest =
      (⟨0x3D30000000000000⟩ : Binary64).magnitude := by decide +kernel
  have few : (⟨5684341886080802, -29⟩ : Decimal).significantDigits = 16 := by decide +kernel
  have many : (numberText ⟨0x3D30000000000000⟩).significantDigits.length = 17 := by
    decide +kernel
  have atMost := shortest _ _ finite nearestEq
  rw [few, many] at atMost
  exact absurd atMost (by decide)

end PatternSampler
