/-
Module: PatternSampler.Proofs.Rounding.Interval
Purpose: The quotients that a double is the nearest to. Quotients are rounded by at most a half, so
  they lie in an interval around the double: half a unit in its last place to each side,
  but only a quarter below a power of two, where the doubles lie closer together. The
  ends belong to the interval of a double with an even significand.
Main exports: Binary64.RoundsTo, Binary64.roundsTo_roundDiv, Binary64.inUnits, Binary64.OpensBinade,
  Binary64.Captures, Binary64.nearest_eq_iff_captures, Binary64.nearest_eq_of_near
-/
import Mathlib
import PatternSampler.Binary64

namespace PatternSampler

namespace Binary64

/-! ### Rounded quotients -/

/-- A number is rounded to a natural number: no other one is nearer, and of two that are equally
near it is the even one. -/
def RoundsTo (w : ℚ) (n : Nat) : Prop := |w - n| < 1 / 2 ∨ |w - n| = 1 / 2 ∧ Even n

theorem RoundsTo.abs_sub_le {w : ℚ} {n : Nat} (rounds : RoundsTo w n) : |w - n| ≤ 1 / 2 := by
  rcases rounds with near | ⟨tie, -⟩
  · exact near.le
  · exact tie.le

/-- A number is rounded to one natural number only. -/
theorem RoundsTo.unique {w : ℚ} {m n : Nat} (first : RoundsTo w m) (second : RoundsTo w n) :
    m = n := by
  wlog less : m < n generalizing m n
  · rcases lt_trichotomy m n with below | equal | above
    · exact this first second below
    · exact equal
    · exact (this second first above).symm
  have atLeast : (m : ℚ) + 1 ≤ n := by exact_mod_cast less
  have upper := (abs_le.1 first.abs_sub_le).2
  have lower := (abs_le.1 second.abs_sub_le).1
  -- Two neighbours are both at a distance of a half, and not both of them are even.
  have middle : w = m + 1 / 2 := by linarith
  have next : (n : ℚ) = m + 1 := by linarith
  have next' : n = m + 1 := by exact_mod_cast next
  rcases first with near | ⟨-, even⟩
  · rw [middle, add_sub_cancel_left] at near
    norm_num at near
  · rcases second with near | ⟨-, even'⟩
    · rw [middle, next] at near
      norm_num at near
    · rw [next'] at even'
      exact absurd even (Nat.even_add_one.1 even')

/-- Rounded quotients are rounded. -/
theorem roundsTo_roundDiv (num : Nat) {den : Nat} (positive : 0 < den) :
    RoundsTo (num / den) (roundDiv num den) := by
  have denPositive : (0 : ℚ) < den := by exact_mod_cast positive
  have split : (num : ℚ) / den = (num / den : Nat) + (num % den : Nat) / (den : ℚ) := by
    have whole : (num : ℚ) = den * (num / den : Nat) + (num % den : Nat) := by
      exact_mod_cast (Nat.div_add_mod num den).symm
    field_simp
    linarith
  have remainderNonneg : (0 : ℚ) ≤ (num % den : Nat) / (den : ℚ) := by positivity
  have remainderLt : ((num % den : Nat) : ℚ) / den < 1 := by
    rw [div_lt_one denPositive]
    exact_mod_cast Nat.mod_lt num positive
  -- Below a half the remainder is dropped, above it is filled up; in the middle the even one of
  -- both is taken.
  have down : 2 * (num % den) < den → ((num % den : Nat) : ℚ) / den < 1 / 2 := by
    intro small
    have small' : 2 * ((num % den : Nat) : ℚ) < den := by exact_mod_cast small
    rw [div_lt_iff₀ denPositive]
    linarith
  have up : den < 2 * (num % den) → 1 / 2 < ((num % den : Nat) : ℚ) / den := by
    intro large
    have large' : (den : ℚ) < 2 * ((num % den : Nat) : ℚ) := by exact_mod_cast large
    rw [lt_div_iff₀ denPositive]
    linarith
  have half : 2 * (num % den) = den → ((num % den : Nat) : ℚ) / den = 1 / 2 := by
    intro equal
    have equal' : 2 * ((num % den : Nat) : ℚ) = den := by exact_mod_cast equal
    rw [div_eq_iff denPositive.ne']
    linarith
  unfold RoundsTo roundDiv
  dsimp only
  rw [split]
  split_ifs with below above
  · left
    rw [add_sub_cancel_left, abs_of_nonneg remainderNonneg]
    exact down below
  · left
    have large := up above
    push_cast
    rw [abs_lt]
    constructor <;> linarith
  · right
    have middle := half (by omega)
    rw [middle]
    rcases Nat.mod_two_eq_zero_or_one (num / den) with even | odd
    · rw [even, Nat.add_zero, add_sub_cancel_left]
      exact ⟨abs_of_nonneg (by norm_num), Nat.even_iff.2 even⟩
    · rw [odd]
      push_cast
      refine ⟨?_, (Nat.odd_iff.2 odd).add_one⟩
      rw [add_sub_add_left_eq_sub]
      norm_num [abs_of_neg]

/-- A quotient is rounded by at most a half. -/
theorem abs_roundDiv_sub_le (num : Nat) {den : Nat} (positive : 0 < den) :
    |(roundDiv num den : ℚ) - num / den| ≤ 1 / 2 := by
  rw [abs_sub_comm]
  exact (roundsTo_roundDiv num positive).abs_sub_le

/-! ### The nearest double -/

/-- A quotient between two powers of two has the logarithm of the lower one. -/
theorem log2_div_eq {num den k : Nat} (positive : 0 < den) (lower : (2 : ℚ) ^ k ≤ num / den)
    (upper : (num : ℚ) / den < 2 ^ (k + 1)) : (num / den).log2 = k := by
  have denPositive : (0 : ℚ) < den := by exact_mod_cast positive
  rw [le_div_iff₀ denPositive] at lower
  rw [div_lt_iff₀ denPositive] at upper
  have lower' : 2 ^ k ≤ num / den := by
    rw [Nat.le_div_iff_mul_le positive]
    exact_mod_cast lower
  have upper' : num / den < 2 ^ (k + 1) := by
    rw [Nat.div_lt_iff_lt_mul positive]
    exact_mod_cast upper
  have nonzero : num / den ≠ 0 := by
    have := Nat.two_pow_pos k
    omega
  exact (Nat.log2_eq_iff nonzero).2 ⟨lower', upper'⟩

/-- The exact value of a quotient in the smallest units of doubles. -/
def inUnits (num den : Nat) : ℚ := (num * unitsPerOne : Nat) / den

/-- The double nearest to a quotient of at most fifty-three binary digits above the last place
`k`, if the quotient is rounded to a number of units of that place. -/
theorem nearest_of_places {num den k n : Nat} (positive : 0 < den)
    (fits : k = 0 ∧ inUnits num den < 2 ^ 53 ∨
      2 ^ (52 + k) ≤ inUnits num den ∧ inUnits num den < 2 ^ (52 + k + 1))
    (near : RoundsTo (inUnits num den / 2 ^ k) n) :
    nearest num den = min (k * 2 ^ 52 + n) infinity := by
  have places : (num * unitsPerOne / den).log2 - 52 = k := by
    rcases fits with ⟨rfl, small⟩ | ⟨lower, upper⟩
    · have denPositive : (0 : ℚ) < den := by exact_mod_cast positive
      have small' : num * unitsPerOne / den < 2 ^ 53 := by
        rw [Nat.div_lt_iff_lt_mul positive]
        rw [inUnits, div_lt_iff₀ denPositive] at small
        exact_mod_cast small
      by_cases zero : num * unitsPerOne / den = 0
      · rw [zero]
        rfl
      · have := (Nat.log2_lt zero).2 small'
        omega
    · rw [log2_div_eq positive lower upper]
      omega
  have rounded : roundDiv (num * unitsPerOne) (den * 2 ^ k) = n := by
    have exact := roundsTo_roundDiv (num * unitsPerOne) (Nat.mul_pos positive (Nat.two_pow_pos k))
    rw [inUnits, div_div] at near
    push_cast at exact near
    exact exact.unique near
  unfold nearest
  dsimp only
  rw [places, rounded]

/-- A magnitude is subnormal or has the leading bit in its significand. -/
theorem shift_eq_zero_or_le_significand (bits : Nat) :
    shift bits = 0 ∨ 2 ^ 52 ≤ significand bits := by
  unfold shift significand
  split
  · left
    omega
  · right
    omega

/-- A quotient in the binade of a double, counted in the last place of the double. -/
theorem nearest_of_binade {num den k n : Nat} {w : ℚ} (positive : 0 < den)
    (value : inUnits num den = w * 2 ^ k) (normal : k = 0 ∨ 2 ^ 52 ≤ w) (small : w < 2 ^ 53)
    (near : RoundsTo w n) : nearest num den = min (k * 2 ^ 52 + n) infinity := by
  have scale : (0 : ℚ) < 2 ^ k := by positivity
  apply nearest_of_places positive
  · rw [value]
    rcases normal with rfl | above
    · left
      rw [pow_zero, mul_one]
      exact ⟨rfl, small⟩
    · right
      rw [pow_succ, pow_add, mul_right_comm (2 ^ 52 : ℚ)]
      constructor
      · exact mul_le_mul_of_nonneg_right above scale.le
      · apply mul_lt_mul_of_pos_right _ scale
        linarith
  · rw [value, mul_div_assoc, div_self scale.ne', mul_one]
    exact near

/-- A significand that is filled up is the least one behind the next shift. -/
theorem carry_eq (k : Nat) : k * 2 ^ 52 + 2 ^ 53 = (k + 1) * 2 ^ 52 + 2 ^ 52 := by
  omega

/-- A quotient just below a power of two is counted in half the last place of the double that is
that power. -/
theorem nearest_of_below_binade {num den k : Nat} {w : ℚ} (positive : 0 < den)
    (value : inUnits num den = w * 2 ^ (k + 1)) (below : w < 2 ^ 52)
    (near : RoundsTo (2 * w) (2 ^ 53)) :
    nearest num den = min ((k + 1) * 2 ^ 52 + 2 ^ 52) infinity := by
  have halved : inUnits num den = 2 * w * 2 ^ k := by
    rw [value, pow_succ]
    ring
  have lower := (abs_le.1 near.abs_sub_le).1
  push_cast at lower
  have exact : nearest num den = min (k * 2 ^ 52 + 2 ^ 53) infinity := by
    apply nearest_of_binade positive halved _ _ near
    · right
      linarith
    · linarith
  rw [exact, carry_eq]

theorem floor_le_and_lt (num : Nat) {den : Nat} (positive : 0 < den) :
    ((num / den : Nat) : ℚ) ≤ num / den ∧ (num : ℚ) / den < (num / den : Nat) + 1 := by
  have denPositive : (0 : ℚ) < den := by exact_mod_cast positive
  refine ⟨Nat.cast_div_le, ?_⟩
  rw [div_lt_iff₀ denPositive, mul_comm]
  exact_mod_cast Nat.lt_mul_div_succ num positive

/-- A quotient lies in a binade, and is rounded there. -/
theorem exists_binade (num : Nat) {den : Nat} (positive : 0 < den) :
    ∃ (k n : Nat) (w : ℚ), inUnits num den = w * 2 ^ k ∧ (k = 0 ∨ 2 ^ 52 ≤ w) ∧ w < 2 ^ 53 ∧
      RoundsTo w n ∧ nearest num den = min (k * 2 ^ 52 + n) infinity := by
  obtain ⟨k, places⟩ : ∃ k, k = (num * unitsPerOne / den).log2 - 52 := ⟨_, rfl⟩
  obtain ⟨floorLe, ltFloor⟩ := floor_le_and_lt (num * unitsPerOne) positive
  have scale : (0 : ℚ) < 2 ^ k := by positivity
  refine ⟨k, roundDiv (num * unitsPerOne) (den * 2 ^ k), inUnits num den / 2 ^ k, ?_, ?_, ?_, ?_,
    ?_⟩
  · rw [div_mul_cancel₀ _ scale.ne']
  · rcases Nat.eq_zero_or_pos k with zero | shifted
    · exact .inl zero
    · right
      have logEq : (num * unitsPerOne / den).log2 = 52 + k := by omega
      have nonzero : num * unitsPerOne / den ≠ 0 := by
        intro zero
        rw [zero, Nat.log2_zero] at logEq
        omega
      have lower := Nat.log2_self_le nonzero
      rw [logEq, Nat.pow_add] at lower
      have lower' : (2 : ℚ) ^ 52 * 2 ^ k ≤ (num * unitsPerOne / den : Nat) := by
        exact_mod_cast lower
      rw [le_div_iff₀ scale]
      exact lower'.trans floorLe
  · have upper : num * unitsPerOne / den + 1 ≤ 2 ^ (53 + k) := by
      apply Nat.le_trans Nat.lt_log2_self
      exact Nat.pow_le_pow_right (by omega) (by omega)
    rw [Nat.pow_add] at upper
    have upper' : ((num * unitsPerOne / den : Nat) : ℚ) + 1 ≤ 2 ^ 53 * 2 ^ k := by
      exact_mod_cast upper
    rw [div_lt_iff₀ scale]
    exact ltFloor.trans_le upper'
  · have rounds := roundsTo_roundDiv (num * unitsPerOne)
      (Nat.mul_pos positive (Nat.two_pow_pos k))
    rw [inUnits, div_div]
    push_cast at rounds ⊢
    exact rounds
  · rw [places]
    rfl

/-! ### The interval of a double -/

/-- A power of two below which the doubles lie closer together than above it. -/
def OpensBinade (bits : Nat) : Prop := 0 < shift bits ∧ significand bits = 2 ^ 52

instance (bits : Nat) : Decidable (OpensBinade bits) := inferInstanceAs (Decidable (_ ∧ _))

/-- How far the interval of a double reaches below it, in units of its last place. -/
def reachBelow (bits : Nat) : ℚ := if OpensBinade bits then 1 / 4 else 1 / 2

/-- How far a number of smallest units is above a double, in units of the double's last place. -/
def offset (bits : Nat) (u : ℚ) : ℚ := u / 2 ^ shift bits - significand bits

/-- A number of smallest units lies in the interval of a double. -/
structure Captures (bits : Nat) (u : ℚ) : Prop where
  below : -reachBelow bits ≤ offset bits u
  above : offset bits u ≤ 1 / 2
  even : offset bits u = -reachBelow bits ∨ offset bits u = 1 / 2 → Even (significand bits)

section Interval

variable {bits num den : Nat} {u : ℚ}

theorem reachBelow_of_opensBinade (opens : OpensBinade bits) : reachBelow bits = 1 / 4 :=
  if_pos opens

theorem reachBelow_of_not_opensBinade (plain : ¬ OpensBinade bits) : reachBelow bits = 1 / 2 :=
  if_neg plain

theorem reachBelow_le (bits : Nat) : reachBelow bits ≤ 1 / 2 := by
  unfold reachBelow
  split <;> norm_num

theorem even_of_opensBinade (opens : OpensBinade bits) : Even (significand bits) := by
  rw [opens.2]
  exact Nat.even_pow.2 ⟨even_two, by decide⟩

theorem offset_mul (bits : Nat) (u : ℚ) : offset bits u * 2 ^ shift bits = u - units bits := by
  unfold offset units
  push_cast
  field_simp

/-- What is strictly closer to a double than its interval reaches lies in the interval. -/
theorem captures_of_abs_lt (closer : |offset bits u| < reachBelow bits) : Captures bits u := by
  obtain ⟨lower, upper⟩ := abs_lt.1 closer
  have reach := reachBelow_le bits
  refine ⟨lower.le, upper.le.trans reach, ?_⟩
  rintro (equal | equal)
  · exact absurd equal lower.ne'
  · exact absurd equal (upper.trans_le reach).ne

theorem abs_offset_mul (bits : Nat) (u : ℚ) :
    |offset bits u| * 2 ^ shift bits = |u - units bits| := by
  have scale : (0 : ℚ) < 2 ^ shift bits := by positivity
  rw [← offset_mul, abs_mul, abs_of_pos scale]

/-- What is as near to a double as a number in its interval lies there too. From above a power of
two this does not carry over to below it. -/
theorem Captures.nearer {v : ℚ} (captures : Captures bits v)
    (nearer : |u - units bits| ≤ |v - units bits|) (plain : OpensBinade bits → v ≤ units bits) :
    Captures bits u := by
  obtain ⟨lower, upper, even⟩ := captures
  have scale : (0 : ℚ) < 2 ^ shift bits := by positivity
  rw [← abs_offset_mul, ← abs_offset_mul] at nearer
  have closer := le_of_mul_le_mul_right nearer scale
  by_cases opens : OpensBinade bits
  · have notAbove : offset bits v ≤ 0 := by
      have product : offset bits v * 2 ^ shift bits ≤ 0 := by
        rw [offset_mul]
        linarith [plain opens]
      exact nonpos_of_mul_nonpos_left product scale
    rw [reachBelow_of_opensBinade opens] at lower
    rw [abs_of_nonpos notAbove, abs_le] at closer
    refine ⟨?_, by linarith, fun _ => even_of_opensBinade opens⟩
    rw [reachBelow_of_opensBinade opens]
    linarith
  · have reach := reachBelow_of_not_opensBinade opens
    rw [reach] at lower even
    have within := abs_le.2 ⟨lower, upper⟩
    obtain ⟨lower', upper'⟩ := abs_le.1 (closer.trans within)
    rw [← reach] at lower'
    refine ⟨lower', upper', ?_⟩
    rw [reach]
    intro atEnd
    have half : |offset bits u| = 1 / 2 := by
      rcases atEnd with equal | equal <;> rw [equal] <;> norm_num [abs_of_neg]
    rw [half] at closer
    apply even
    rcases eq_or_eq_neg_of_abs_eq (le_antisymm within closer) with equal | equal
    · exact .inr equal
    · exact .inl equal

theorem shift_significand_eq {k n : Nat} (normal : k = 0 ∨ 2 ^ 52 ≤ n) (small : n < 2 ^ 53) :
    shift (k * 2 ^ 52 + n) = k ∧ significand (k * 2 ^ 52 + n) = n := by
  unfold shift significand
  split <;> omega

/-- What is rounded to a double lies in its interval. -/
theorem captures_of_nearest (positive : 0 < den) (finite : bits < infinity)
    (nearestEq : nearest num den = bits) : Captures bits (inUnits num den) := by
  obtain ⟨k, n, w, value, normal, small, rounds, minEq⟩ := exists_binade num positive
  obtain ⟨lower, upper⟩ := abs_le.1 rounds.abs_sub_le
  have scale : (0 : ℚ) < 2 ^ k := by positivity
  have bitsEq : bits = k * 2 ^ 52 + n := by omega
  have atMost : n ≤ 2 ^ 53 := by
    have below : (n : ℚ) < 2 ^ 53 + 1 := by linarith
    have below' : n < 2 ^ 53 + 1 := by exact_mod_cast below
    omega
  have normal' : k = 0 ∨ 2 ^ 52 ≤ n := by
    apply normal.imp_right
    intro atLeast
    have above : (2 : ℚ) ^ 52 < n + 1 := by linarith
    have above' : 2 ^ 52 < n + 1 := by exact_mod_cast above
    omega
  rcases Nat.lt_or_eq_of_le atMost with within | full
  · -- The quotient is rounded to a double of its own binade.
    obtain ⟨shiftEq, significandEq⟩ := shift_significand_eq normal' within
    rw [← bitsEq] at shiftEq significandEq
    have offsetEq : offset bits (inUnits num den) = w - n := by
      rw [offset, shiftEq, significandEq, value, mul_div_cancel_right₀ _ scale.ne']
    by_cases opens : OpensBinade bits
    · have reach := reachBelow_of_opensBinade opens
      have even := even_of_opensBinade opens
      obtain ⟨shifted, least⟩ := opens
      have atLeast := normal.resolve_left (by omega)
      have least' : (n : ℚ) = 2 ^ 52 := by
        rw [← significandEq, least]
        norm_num
      refine ⟨?_, ?_, fun _ => even⟩
      · rw [offsetEq, reach]
        linarith
      · rw [offsetEq]
        exact upper
    · have reach := reachBelow_of_not_opensBinade opens
      refine ⟨?_, ?_, ?_⟩
      · rw [offsetEq, reach]
        exact lower
      · rw [offsetEq]
        exact upper
      · rw [offsetEq, reach, significandEq]
        rcases rounds with near | ⟨-, even⟩
        · obtain ⟨lower', upper'⟩ := abs_lt.1 near
          rintro (equal | equal)
          · exact absurd equal lower'.ne'
          · exact absurd equal upper'.ne
        · exact fun _ => even
  · -- The quotient is rounded up to the power of two that opens the next binade.
    have carried : bits = (k + 1) * 2 ^ 52 + 2 ^ 52 := by rw [bitsEq, full, carry_eq]
    obtain ⟨shiftEq, significandEq⟩ :=
      @shift_significand_eq (k + 1) (2 ^ 52) (.inr le_rfl) (by omega)
    rw [← carried] at shiftEq significandEq
    have opens : OpensBinade bits := ⟨by omega, significandEq⟩
    have offsetEq : offset bits (inUnits num den) = w / 2 - 2 ^ 52 := by
      rw [offset, shiftEq, significandEq, value, pow_succ', mul_div_mul_right _ _ scale.ne']
      norm_num
    rw [full] at lower
    push_cast at lower
    refine ⟨?_, ?_, fun _ => even_of_opensBinade opens⟩
    · rw [offsetEq, reachBelow_of_opensBinade opens]
      linarith
    · rw [offsetEq]
      linarith

/-- What lies in the interval of a double is rounded to it. -/
theorem nearest_of_captures (positive : 0 < den) (finite : bits < infinity)
    (captures : Captures bits (inUnits num den)) : nearest num den = bits := by
  have composed := shift_mul_add_significand bits
  have leading := shift_eq_zero_or_le_significand bits
  have significandLt := significand_lt bits
  obtain ⟨lower, upper, even⟩ := captures
  have reach := reachBelow_le bits
  -- Everything is counted in the last place of the double from here on.
  obtain ⟨w, value⟩ : ∃ w : ℚ, inUnits num den = w * 2 ^ shift bits :=
    ⟨inUnits num den / 2 ^ shift bits, by field_simp⟩
  have offsetEq : offset bits (inUnits num den) = w - significand bits := by
    rw [offset, value, mul_div_cancel_right₀ _ (by positivity)]
  rw [offsetEq] at lower upper even
  have small : w < 2 ^ 53 := by
    have significandLe : (significand bits : ℚ) + 1 ≤ 2 ^ 53 := by exact_mod_cast significandLt
    linarith
  by_cases inBinade : shift bits = 0 ∨ 2 ^ 52 ≤ w
  · have near : RoundsTo w (significand bits) := by
      rcases (abs_le.2 ⟨by linarith, upper⟩ : |w - significand bits| ≤ 1 / 2).lt_or_eq with
        near | tie
      · exact .inl near
      · refine .inr ⟨tie, even ?_⟩
        rcases eq_or_eq_neg_of_abs_eq tie with equal | equal
        · exact .inr equal
        · exact .inl (by linarith)
    rw [nearest_of_binade positive value inBinade small near]
    omega
  · -- Only below a power of two a quotient lies in another binade than its double.
    obtain ⟨normal, below⟩ := not_or.1 inBinade
    have opens : OpensBinade bits := by
      refine ⟨by omega, ?_⟩
      have atMost : (significand bits : ℚ) < 2 ^ 52 + 1 := by linarith
      have atMost' : significand bits < 2 ^ 52 + 1 := by exact_mod_cast atMost
      have atLeast := leading.resolve_left normal
      omega
    obtain ⟨k, shiftEq⟩ : ∃ k, shift bits = k + 1 := ⟨shift bits - 1, by omega⟩
    rw [reachBelow_of_opensBinade opens, opens.2] at lower
    push_cast at lower
    rw [shiftEq] at value
    have doubled : RoundsTo (2 * w) (2 ^ 53) := by
      have near : |2 * w - (2 ^ 53 : Nat)| ≤ 1 / 2 := by
        push_cast
        rw [abs_le]
        constructor <;> linarith
      rcases near.lt_or_eq with closer | tie
      · exact .inl closer
      · exact .inr ⟨tie, Nat.even_pow.2 ⟨even_two, by decide⟩⟩
    rw [nearest_of_below_binade positive value (not_le.1 below) doubled]
    have significandEq := opens.2
    omega

/-- The nearest double of a quotient is the one in whose interval the quotient lies. -/
theorem nearest_eq_iff_captures (positive : 0 < den) (finite : bits < infinity) :
    nearest num den = bits ↔ Captures bits (inUnits num den) :=
  ⟨captures_of_nearest positive finite, nearest_of_captures positive finite⟩

/-- A quotient whose distance from a double is at most one part in two times ten to the
sixteenth has that double as its nearest. -/
theorem nearest_eq_of_near (positive : 0 < den) (finite : bits < infinity)
    (near : |inUnits num den - units bits| * (2 * 10 ^ 16) ≤ units bits) :
    nearest num den = bits := by
  rw [nearest_eq_iff_captures positive finite]
  apply captures_of_abs_lt
  have scale : (0 : ℚ) < 2 ^ shift bits := by positivity
  have nearScaled :
      |offset bits (inUnits num den)| * (2 * 10 ^ 16) ≤ significand bits := by
    rw [← offset_mul, abs_mul, abs_of_pos scale, mul_right_comm, units, Nat.cast_mul, Nat.cast_pow,
      Nat.cast_ofNat] at near
    exact le_of_mul_le_mul_right near scale
  by_cases opens : OpensBinade bits
  · rw [opens.2] at nearScaled
    rw [reachBelow_of_opensBinade opens]
    push_cast at nearScaled
    linarith
  · have significandLe : (significand bits : ℚ) + 1 ≤ 2 ^ 53 := by
      exact_mod_cast significand_lt bits
    rw [reachBelow_of_not_opensBinade opens]
    linarith

end Interval

theorem nearest_zero (den : Nat) : nearest 0 den = 0 := by
  have rounded : roundDiv 0 den = 0 := by
    unfold roundDiv
    simp
  simp [nearest, rounded]

/-- Equal quotients have the same nearest double. -/
theorem nearest_congr {num den num' den' : Nat} (positive : 0 < den) (positive' : 0 < den')
    (equal : (num : ℚ) / den = num' / den') : nearest num den = nearest num' den' := by
  have nonzero : (den : ℚ) ≠ 0 := by exact_mod_cast positive.ne'
  have nonzero' : (den' : ℚ) ≠ 0 := by exact_mod_cast positive'.ne'
  have crossed : num * den' = num' * den := by
    rw [div_eq_div_iff nonzero nonzero'] at equal
    exact_mod_cast equal
  calc nearest num den = nearest (num * den') (den * den') :=
        (nearest_mul_right num den den' positive').symm
    _ = nearest (num' * den) (den' * den) := by rw [crossed, Nat.mul_comm den]
    _ = nearest num' den' := nearest_mul_right num' den' den positive

end Binary64

end PatternSampler
