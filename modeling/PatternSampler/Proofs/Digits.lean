/-
Module: PatternSampler.Proofs.Digits
Purpose: Decimal numerals and the numbers they stand for. A numeral is taken apart at its last
  digit; the number of a concatenation and of a numeral with zeros in front or behind
  follows from that, its digits bound a number by powers of ten, and a numeral is read as
  the number it is the numeral of.
Main exports: Text.decimalValue_decimal, Text.decimalValue_append, Text.isDigit_of_mem_decimal,
  Text.pow_le_decimalValue, Text.decimalValue_lt_pow, Text.leadingCount_decimal
-/
import PatternSampler.Numeral.Count

namespace PatternSampler.Text

/-! ### Digits -/

/-- The character of a digit. -/
def digit (n : Nat) : UInt8 := (Nat.digitChar n).toUInt8

theorem digit_spec {n : Nat} (small : n < 10) : IsDigit (digit n) ∧ (digit n - 0x30).toNat = n := by
  revert n
  decide

/-- A numeral is its last digit behind the numeral of a tenth. -/
theorem decimal_eq (n : Nat) :
    decimal n = (if n < 10 then [] else decimal (n / 10)) ++ [digit (n % 10)] := by
  unfold decimal
  rw [Nat.toDigits_eq_if (by omega)]
  split
  next small => simp [digit, Nat.mod_eq_of_lt small]
  next => simp [digit]

theorem isDigit_of_mem_decimal (n : Nat) : ∀ b ∈ decimal n, IsDigit b := by
  induction n using Nat.strongRecOn with
  | ind n inductionHypothesis =>
    intro b member
    rw [decimal_eq, List.mem_append, List.mem_singleton] at member
    rcases member with front | rfl
    · split at front
      next => exact absurd front List.not_mem_nil
      next large => exact inductionHypothesis (n / 10) (by omega) b front
    · exact (digit_spec (Nat.mod_lt n (by omega))).1

/-- The numeral of a number stands for the number. -/
theorem decimalValue_decimal (n : Nat) : decimalValue (decimal n) = n := by
  induction n using Nat.strongRecOn with
  | ind n inductionHypothesis =>
    have last := (digit_spec (Nat.mod_lt n (show 10 > 0 by omega))).2
    rw [decimal_eq, decimalValue_concat, last]
    split
    next small =>
      rw [decimalValue_nil]
      omega
    next large =>
      rw [inductionHypothesis (n / 10) (by omega)]
      omega

/-! ### Concatenation -/

/-- Reading on from a number shifts it by as many places as there are further digits. -/
theorem foldl_digits (u : Text) (n : Nat) :
    u.foldl (fun n b => 10 * n + (b - 0x30).toNat) n = n * 10 ^ u.length + decimalValue u := by
  induction u generalizing n with
  | nil => simp
  | cons b u inductionHypothesis =>
    have fromStart : decimalValue (b :: u) = _ := inductionHypothesis (10 * 0 + (b - 0x30).toNat)
    rw [List.foldl_cons, inductionHypothesis, fromStart, List.length_cons, Nat.pow_succ,
      Nat.mul_zero, Nat.zero_add, Nat.add_mul, Nat.mul_comm 10 n, Nat.mul_assoc, Nat.mul_comm 10,
      Nat.add_assoc]

/-- Digits behind others shift those by as many places. -/
theorem decimalValue_append (t u : Text) :
    decimalValue (t ++ u) = decimalValue t * 10 ^ u.length + decimalValue u := by
  unfold decimalValue
  rw [List.foldl_append, foldl_digits]
  rfl

theorem decimalValue_replicate_zero (count : Nat) :
    decimalValue (List.replicate count 0x30) = 0 := by
  induction count with
  | zero => rfl
  | succ count inductionHypothesis =>
    rw [List.replicate_succ', decimalValue_concat, inductionHypothesis]
    rfl

/-- Zeros in front of a numeral do not change its number. -/
theorem decimalValue_zeros_append (count : Nat) (t : Text) :
    decimalValue (List.replicate count 0x30 ++ t) = decimalValue t := by
  rw [decimalValue_append, decimalValue_replicate_zero, Nat.zero_mul, Nat.zero_add]

/-- Zeros behind a numeral multiply its number by ten each. -/
theorem decimalValue_append_zeros (t : Text) (count : Nat) :
    decimalValue (t ++ List.replicate count 0x30) = decimalValue t * 10 ^ count := by
  rw [decimalValue_append, decimalValue_replicate_zero, List.length_replicate, Nat.add_zero]

/-! ### Powers of ten -/

theorem decimalValue_singleton (b : UInt8) : decimalValue [b] = (b - 0x30).toNat := by
  rw [decimalValue, List.foldl_cons, List.foldl_nil, Nat.mul_zero, Nat.zero_add]

/-- A number of digits that does not begin with a zero is at least a power of ten. -/
theorem pow_le_decimalValue {b : UInt8} (digit : IsDigit b) (nonzero : b ≠ 0x30) (u : Text) :
    10 ^ u.length ≤ decimalValue (b :: u) := by
  have leading : 1 ≤ decimalValue [b] := by
    obtain ⟨lower, -⟩ := digit
    rw [decimalValue_singleton, UInt8.toNat_sub_of_le _ _ lower]
    rw [UInt8.le_iff_toNat_le] at lower
    have differ := mt UInt8.toNat_inj.1 nonzero
    omega
  calc 10 ^ u.length ≤ decimalValue [b] * 10 ^ u.length := Nat.le_mul_of_pos_left _ leading
    _ ≤ decimalValue [b] * 10 ^ u.length + decimalValue u := Nat.le_add_right _ _
    _ = decimalValue (b :: u) := (decimalValue_append [b] u).symm

/-- A number of so many digits is below the power of ten. -/
theorem decimalValue_lt_pow {t : Text} (isDigit : ∀ b ∈ t, IsDigit b) :
    decimalValue t < 10 ^ t.length := by
  induction t with
  | nil => exact Nat.one_pos
  | cons b t inductionHypothesis =>
    obtain ⟨⟨lower, upper⟩, others⟩ := List.forall_mem_cons.1 isDigit
    have behind := inductionHypothesis others
    have leading : decimalValue [b] ≤ 9 := by
      rw [decimalValue_singleton, UInt8.toNat_sub_of_le _ _ lower]
      rw [UInt8.le_iff_toNat_le] at upper
      exact Nat.sub_le_of_le_add upper
    calc decimalValue (b :: t) = decimalValue [b] * 10 ^ t.length + decimalValue t :=
          decimalValue_append [b] t
      _ < (decimalValue [b] + 1) * 10 ^ t.length := by
        rw [Nat.succ_mul]
        exact Nat.add_lt_add_left behind _
      _ ≤ 10 * 10 ^ t.length := Nat.mul_le_mul_right _ (Nat.succ_le_succ leading)
      _ = 10 ^ (b :: t).length := Nat.pow_succ'.symm

/-! ### Counts -/

/-- The numeral of a word is read as the word. -/
theorem leadingCount_decimal (v : UInt64) : leadingCount (decimal v.toNat) = .ok v := by
  have inRange : ¬ 2 ^ 64 ≤ v.toNat := Nat.not_le_of_lt v.toNat_lt
  rw [leadingCount_of_isDigit (isDigit_of_mem_decimal v.toNat), countOf,
    if_neg (decimal_ne_nil v.toNat), decimalValue_decimal, if_neg inRange]
  exact congrArg Except.ok (UInt64.ofNat_toNat)

end PatternSampler.Text
