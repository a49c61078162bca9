/-
Module: PatternSampler.Proofs.NumberText
Purpose: Texts of finite doubles are numerals. Whichever notation is taken and however many zeros
  are left out, the text spells a numeral with the value of the rounded decimal, and the
  double nearest to that is the double the text was written for.
Main exports: Numeral.Spelled, Numeral.ofParts, Numeral.Writes, Decimal.exists_writes,
  exists_numeral_of_count, Numeral.WritesDouble, exists_writesDouble, exists_numeral
-/
import PatternSampler.Numeral
import PatternSampler.Proofs.Digits
import PatternSampler.Proofs.Doubles
import PatternSampler.Proofs.Rounding

namespace PatternSampler

/-! ### Exponents as they are written -/

namespace Exponent

/-- An exponent with a small letter, a sign, and digits. -/
structure Spelled (e : Exponent) : Prop where
  letter : e.letter = 0x65
  sign : e.sign = [0x2D] ∨ e.sign = [0x2B]
  nonempty : e.digits ≠ []
  digits : ∀ b ∈ e.digits, IsDigit b

/-- The exponent that stands for an integer, with at least two digits. -/
def ofInt (e : Int) : Exponent where
  letter := 0x65
  sign := [if e < 0 then 0x2D else 0x2B]
  digits := List.replicate (2 - (Text.decimal e.natAbs).length) 0x30 ++ Text.decimal e.natAbs

theorem spelled_ofInt (e : Int) : (ofInt e).Spelled := by
  constructor
  · rfl
  · by_cases negative : e < 0
    · left
      simp [ofInt, negative]
    · right
      simp [ofInt, negative]
  · exact List.append_ne_nil_of_right_ne_nil _ (Text.decimal_ne_nil _)
  · intro b member
    rcases List.mem_append.1 member with zero | digit
    · rw [List.eq_of_mem_replicate zero]
      decide
    · exact Text.isDigit_of_mem_decimal _ b digit

theorem value_ofInt (e : Int) : (ofInt e).value = e := by
  have digitsEq : Text.decimalValue (ofInt e).digits = e.natAbs :=
    (Text.decimalValue_zeros_append _ _).trans (Text.decimalValue_decimal _)
  unfold value
  rw [digitsEq]
  by_cases negative : e < 0
  · have signEq : (ofInt e).sign = [0x2D] := by simp [ofInt, negative]
    rw [if_pos signEq]
    omega
  · have signNe : (ofInt e).sign ≠ [0x2D] := by simp [ofInt, negative]
    rw [if_neg signNe]
    omega

end Exponent

/-! ### Numerals as they are written -/

namespace Numeral

/-- A numeral with digits before the point, digits only behind it, and an exponent with a sign. -/
structure Spelled (n : Numeral) : Prop where
  nonempty : n.whole ≠ []
  whole : ∀ b ∈ n.whole, IsDigit b
  fraction : ∀ digits ∈ n.fraction, ∀ b ∈ digits, IsDigit b
  exponent : ∀ e ∈ n.exponent, e.Spelled

/-- The numeral with a whole part, a fraction without the zeros at its end, and an exponent. -/
def ofParts (negative : Bool) (whole fraction : Text) (exponent : Option Exponent) : Numeral where
  negative := negative
  whole := whole
  fraction := if Decimal.dropTrailingZeros fraction = [] then none
    else some (Decimal.dropTrailingZeros fraction)
  exponent := exponent

variable {negative : Bool} {whole fraction : Text} {exponent : Option Exponent}

theorem fraction_ofParts :
    (ofParts negative whole fraction exponent).fraction.getD [] =
      Decimal.dropTrailingZeros fraction := by
  unfold ofParts
  dsimp only
  split
  next empty => exact empty.symm
  next => rfl

theorem text_ofParts :
    (ofParts negative whole fraction exponent).text =
      signText negative ++ whole ++ Decimal.fractionText fraction ++ exponentText exponent := by
  have pointed : fractionText (ofParts negative whole fraction exponent).fraction =
      Decimal.fractionText fraction := by
    unfold ofParts Decimal.fractionText
    dsimp only
    cases Decimal.dropTrailingZeros fraction with
    | nil => rfl
    | cons b kept => rfl
  unfold text
  rw [pointed]
  rfl

/-- The zeros at the end of a fraction are all that is left out. -/
theorem exists_zeros (digits : Text) :
    ∃ count, digits = Decimal.dropTrailingZeros digits ++ List.replicate count 0x30 := by
  have split := List.takeWhile_append_dropWhile (p := (· = (0x30 : UInt8))) (l := digits.reverse)
  have zeros : digits.reverse.takeWhile (· = 0x30) =
      List.replicate (digits.reverse.takeWhile (· = 0x30)).length 0x30 := by
    rw [List.eq_replicate_iff]
    refine ⟨rfl, ?_⟩
    intro b member
    have dropped := List.mem_takeWhile_imp member
    exact of_decide_eq_true dropped
  refine ⟨(digits.reverse.takeWhile (· = 0x30)).length, ?_⟩
  rw [← List.reverse_inj, List.reverse_append, List.reverse_replicate, ← zeros,
    Decimal.dropTrailingZeros, List.reverse_reverse]
  exact split.symm

theorem spelled_ofParts (nonempty : whole ≠ []) (wholeDigits : ∀ b ∈ whole, IsDigit b)
    (fractionDigits : ∀ b ∈ fraction, IsDigit b) (exponentSpelled : ∀ e ∈ exponent, e.Spelled) :
    (ofParts negative whole fraction exponent).Spelled := by
  refine ⟨nonempty, wholeDigits, ?_, exponentSpelled⟩
  intro digits present b member
  obtain ⟨count, fractionEq⟩ := exists_zeros fraction
  have kept : digits = Decimal.dropTrailingZeros fraction := by
    rw [← @fraction_ofParts negative whole fraction exponent, Option.mem_def.1 present,
      Option.getD_some]
  apply fractionDigits b
  rw [fractionEq, ← kept]
  exact List.mem_append_left _ member

/-- The value of an optional exponent. -/
def exponentValue (exponent : Option Exponent) : Int := (exponent.map Exponent.value).getD 0

/-- Leaving out zeros at the end of a fraction leaves no more digits. -/
theorem digits_decimal_ofParts :
    (ofParts negative whole fraction exponent).decimal.digits ≤
      Text.decimalValue (whole ++ fraction) := by
  obtain ⟨count, fractionEq⟩ := exists_zeros fraction
  unfold decimal
  rw [fraction_ofParts]
  conv_rhs => rw [fractionEq, ← List.append_assoc, Text.decimalValue_append_zeros]
  exact Nat.le_mul_of_pos_right _ (Nat.pow_pos (by omega))

/-- Leaving out zeros at the end of a fraction does not change the nearest double. -/
theorem nearest_decimal_ofParts {d : Decimal}
    (digitsEq : Text.decimalValue (whole ++ fraction) = d.digits)
    (exponentEq : exponentValue exponent - fraction.length = d.exponent)
    (lower : -400 ≤ d.exponent) (upper : exponentValue exponent ≤ 400) :
    (ofParts negative whole fraction exponent).decimal.nearest = d.nearest := by
  obtain ⟨count, fractionEq⟩ := exists_zeros fraction
  have lengthEq : fraction.length = (Decimal.dropTrailingZeros fraction).length + count := by
    rw [congrArg List.length fractionEq, List.length_append, List.length_replicate]
  have decimalEq : (ofParts negative whole fraction exponent).decimal =
      ⟨Text.decimalValue (whole ++ Decimal.dropTrailingZeros fraction),
        exponentValue exponent - (Decimal.dropTrailingZeros fraction).length⟩ := by
    unfold decimal
    rw [fraction_ofParts]
    rfl
  rw [fractionEq, ← List.append_assoc, Text.decimalValue_append_zeros] at digitsEq
  rw [decimalEq]
  generalize Text.decimalValue (whole ++ Decimal.dropTrailingZeros fraction) = kept at *
  generalize (Decimal.dropTrailingZeros fraction).length = places at *
  apply Decimal.nearest_congr
  · constructor <;> dsimp only <;> omega
  · constructor <;> omega
  · have shifted : exponentValue exponent - places = count + d.exponent := by omega
    rw [shifted, ← Decimal.toRat_append_zeros, digitsEq]

/-- A numeral that is written for a decimal: it spells the text behind a sign, stands for the same
number as far as doubles go, and has no digits that the decimal has not. -/
structure Writes (n : Numeral) (below : Bool) (unsigned : Text) (d : Decimal) : Prop where
  negative : n.negative = below
  spelled : n.Spelled
  text : n.text = signText below ++ unsigned
  nearest : n.decimal.nearest = d.nearest
  digits : n.decimal.digits ≤ d.digits

/-- What a rounded decimal needs of its text: the digits are those of the decimal, and so is the
place of the last one. -/
theorem exists_writes_of_parts (negative : Bool) (whole fraction : Text)
    (exponent : Option Exponent) {d : Decimal} (nonempty : whole ≠ [])
    (digits : ∀ b ∈ whole ++ fraction, IsDigit b)
    (digitsEq : Text.decimalValue (whole ++ fraction) = d.digits)
    (exponentSpelled : ∀ e ∈ exponent, e.Spelled)
    (exponentEq : exponentValue exponent - fraction.length = d.exponent)
    (lower : -400 ≤ d.exponent) (upper : exponentValue exponent ≤ 400) :
    ∃ n : Numeral,
      n.Writes negative (whole ++ Decimal.fractionText fraction ++ exponentText exponent) d := by
  refine ⟨.ofParts negative whole fraction exponent, rfl, ?_, ?_, ?_, ?_⟩
  · apply spelled_ofParts nonempty
    · exact fun b member => digits b (List.mem_append_left _ member)
    · exact fun b member => digits b (List.mem_append_right _ member)
    · exact exponentSpelled
  · rw [text_ofParts, List.append_assoc, List.append_assoc, List.append_assoc]
  · exact nearest_decimal_ofParts digitsEq exponentEq lower upper
  · rw [← digitsEq]
    exact digits_decimal_ofParts

end Numeral

/-! ### Texts of decimals -/

namespace Decimal

theorem length_eq {n precision : Nat} (some : 0 < precision) (lower : 10 ^ (precision - 1) ≤ n)
    (upper : n < 10 ^ precision) : (Text.decimal n).length = precision := by
  unfold Text.decimal
  rw [List.length_map]
  apply Nat.le_antisymm ((Nat.length_toDigits_le_iff (by omega) some).2 upper)
  by_cases single : precision = 1
  · rw [single]
    exact Nat.length_toDigits_pos
  · apply Nat.le_of_not_lt
    intro short
    have below : n < 10 ^ (precision - 1) :=
      (Nat.length_toDigits_le_iff (by omega) (by omega)).1 (by omega)
    omega

/-- The digits of a decimal with the point behind some of them, and an exponent. -/
theorem exists_writes_of_split (negative : Bool) {d : Decimal} {count : Nat}
    {exponent : Option Exponent} (some : 0 < count) (exponentSpelled : ∀ e ∈ exponent, e.Spelled)
    (exponentEq : Numeral.exponentValue exponent - ((Text.decimal d.digits).length - count : Nat) =
      d.exponent)
    (lower : -400 ≤ d.exponent) (upper : Numeral.exponentValue exponent ≤ 400) :
    ∃ n : Numeral, n.Writes negative ((Text.decimal d.digits).take count ++
      fractionText ((Text.decimal d.digits).drop count) ++ Numeral.exponentText exponent) d := by
  have front : (Text.decimal d.digits).take count ≠ [] := by
    intro empty
    rcases List.take_eq_nil_iff.1 empty with zero | empty
    · omega
    · exact Text.decimal_ne_nil _ empty
  refine Numeral.exists_writes_of_parts negative _ _ exponent front ?_ ?_ exponentSpelled ?_ lower
    upper
  · rw [List.take_append_drop]
    exact Text.isDigit_of_mem_decimal d.digits
  · rw [List.take_append_drop, Text.decimalValue_decimal]
  · rw [List.length_drop]
    exact exponentEq

/-- The digits of a decimal behind a zero, the point, and further zeros. -/
theorem exists_writes_of_zeros (negative : Bool) {d : Decimal} {count : Nat}
    (exponentEq : -((count + (Text.decimal d.digits).length : Nat) : Int) = d.exponent)
    (lower : -400 ≤ d.exponent) :
    ∃ n : Numeral, n.Writes negative
      (0x30 :: fractionText (List.replicate count 0x30 ++ Text.decimal d.digits)) d := by
  have zeros : [0x30] ++ (List.replicate count 0x30 ++ Text.decimal d.digits) =
      List.replicate (count + 1) 0x30 ++ Text.decimal d.digits := rfl
  rw [← List.append_nil (_ :: fractionText _)]
  refine Numeral.exists_writes_of_parts negative [0x30] _ none (List.cons_ne_nil _ _) ?_ ?_
    (fun e absent => nomatch absent) ?_ lower (by decide)
  · rw [zeros]
    intro b member
    rcases List.mem_append.1 member with zero | digit
    · rw [List.eq_of_mem_replicate zero]
      decide
    · exact Text.isDigit_of_mem_decimal d.digits b digit
  · rw [zeros, Text.decimalValue_zeros_append, Text.decimalValue_decimal]
  · rw [List.length_append, List.length_replicate, ← exponentEq]
    exact Int.zero_sub _

/-- The text of a rounded decimal spells a numeral that is written for it. -/
theorem exists_writes (negative : Bool) {precision : Nat} {d : Decimal} (some : 0 < precision)
    (few : precision ≤ 17) (length : (Text.decimal d.digits).length = precision)
    (lower : -361 < d.exponent + precision) (upper : d.exponent + precision ≤ 361) :
    ∃ n : Numeral, n.Writes negative (d.text precision) d := by
  have exponentLower : -400 ≤ d.exponent := by omega
  obtain ⟨leading, leadingEq⟩ : ∃ leading, leading = d.exponent + precision - 1 := ⟨_, rfl⟩
  unfold text
  dsimp only
  rw [← leadingEq]
  split
  next positional =>
    cases leading with
    | ofNat e =>
      rw [Int.ofNat_eq_natCast] at leadingEq positional
      have exponentEq : Numeral.exponentValue none -
          ((Text.decimal d.digits).length - (e + 1) : Nat) = d.exponent := by
        rw [length, show Numeral.exponentValue none = 0 from rfl]
        omega
      have exponentSpelled : ∀ e ∈ (none : Option Exponent), e.Spelled :=
        fun e absent => nomatch absent
      dsimp only
      rw [← List.append_nil (_ ++ fractionText _)]
      exact exists_writes_of_split negative (Nat.succ_pos e) exponentSpelled exponentEq
        exponentLower (by decide)
    | negSucc e =>
      apply exists_writes_of_zeros negative _ exponentLower
      rw [length]
      omega
  next scientific =>
    have valueEq : Numeral.exponentValue (.some (.ofInt leading)) = leading :=
      Exponent.value_ofInt leading
    have exponentSpelled : ∀ e ∈ Option.some (Exponent.ofInt leading), e.Spelled := by
      intro e present
      rw [← Option.some.inj present]
      exact Exponent.spelled_ofInt leading
    apply exists_writes_of_split negative Nat.one_pos exponentSpelled _ exponentLower
    · rw [valueEq]
      omega
    · rw [valueEq, length]
      omega

end Decimal

/-! ### Texts of counts and doubles -/

/-- The numeral of a word is integral and not negative, and its double is finite. -/
theorem exists_numeral_of_count (v : UInt64) :
    ∃ n : Numeral, n.Spelled ∧ n.text = Text.decimal v.toNat ∧ n.integral ∧
      n.negative = false ∧ n.InRange := by
  refine ⟨⟨false, Text.decimal v.toNat, none, none⟩, ?_, ?_, rfl, rfl, ?_⟩
  · refine ⟨Text.decimal_ne_nil _, Text.isDigit_of_mem_decimal _, ?_, ?_⟩
    · exact fun digits absent => nomatch absent
    · exact fun e absent => nomatch absent
  · simp [Numeral.text, Numeral.signText, Numeral.fractionText, Numeral.exponentText]
  · have digitsEq : Text.decimalValue (Text.decimal v.toNat ++ []) = v.toNat := by
      rw [List.append_nil, Text.decimalValue_decimal]
    have decimalEq : (⟨false, Text.decimal v.toNat, none, none⟩ : Numeral).decimal =
        ⟨v.toNat, 0⟩ := congrArg (Decimal.mk · 0) digitsEq
    unfold Numeral.InRange
    rw [decimalEq]
    exact Decimal.nearest_word_lt v

/-- A numeral that is written for a finite double with some digits at the most, whether it reads
back as the double or not. -/
structure Numeral.WritesDouble (n : Numeral) (precision : Nat) (x : Binary64) : Prop where
  spelled : n.Spelled
  text : n.text = general precision x
  negative : n.negative = x.isNegative
  digits : n.decimal.digits < 10 ^ precision
  readsBack_iff : n.decimal.nearest = x.magnitude ↔ ReadsBack precision x

/-- The text of a finite double spells a numeral with every number of digits. -/
theorem exists_writesDouble {x : Binary64} {precision : Nat}
    (finite : x.magnitude < Binary64.infinity) (some : 0 < precision) (few : precision ≤ 17) :
    ∃ n : Numeral, n.WritesDouble precision x := by
  have isNumber : ¬ ¬ x.IsNumber := not_not.2 finite.le
  by_cases zero : x.magnitude = 0
  · refine ⟨⟨x.isNegative, [0x30], none, none⟩, ?_, ?_, rfl, Nat.pow_pos (by omega), ?_⟩
    · refine ⟨List.cons_ne_nil _ _, ?_, ?_, ?_⟩
      · simp [IsDigit]
      · exact fun digits absent => nomatch absent
      · exact fun e absent => nomatch absent
    · rw [general, if_neg isNumber, if_neg finite.ne, if_pos zero]
      simp [Numeral.text, Numeral.fractionText, Numeral.exponentText, Numeral.signText, signText]
    · rw [zero]
      exact iff_of_true rfl (.inl zero)
  · obtain ⟨rounds, lower, upper⟩ := rounds_roundedTo some zero finite
    have length := Decimal.length_eq some rounds.lower rounds.upper
    obtain ⟨n, writes⟩ := Decimal.exists_writes x.isNegative some few length lower upper
    refine ⟨n, writes.spelled, ?_, writes.negative, Nat.lt_of_le_of_lt writes.digits rounds.upper,
      ?_⟩
    · rw [general, if_neg isNumber, if_neg finite.ne, if_neg zero]
      exact writes.text
    · rw [writes.nearest]
      exact (or_iff_right zero).symm

/-- The text of a finite double spells a numeral that stands for the double. -/
theorem exists_numeral {x : Binary64} (finite : x.magnitude < Binary64.infinity) :
    ∃ n : Numeral, n.Spelled ∧ n.text = numberText x ∧ n.value = x ∧ n.InRange := by
  obtain ⟨readsBack, some, few⟩ := readsBack_sufficientPrecision finite
  obtain ⟨n, writes⟩ := exists_writesDouble finite some few
  have nearestEq := writes.readsBack_iff.2 readsBack
  refine ⟨n, writes.spelled, writes.text, ?_, ?_⟩
  · unfold Numeral.value
    rw [writes.negative, nearestEq, x.ofMagnitude_magnitude]
  · unfold Numeral.InRange
    rw [nearestEq]
    exact finite

end PatternSampler
