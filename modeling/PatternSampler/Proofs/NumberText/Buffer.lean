/-
Module: PatternSampler.Proofs.NumberText.Buffer
Purpose: Doubles that are written into a buffer and read again. A buffer of thirty-two bytes is
  filled with the text of a double with one digit more each time, until what it holds is
  read as the double. No text of a finite double is too long for it, so it ends up with the text
  that has the fewest digits. In a list of parameters that text is read to its end, and the
  number that was read has the double as its value.
Main exports: length_general_le, Buffer.hold, Buffer.value, Buffer.write, Buffer.beq_value_hold_iff,
  Buffer.writeFrom_eq, numberText_read_back
-/
import PatternSampler.Proofs.Exceptions.Numbers
import PatternSampler.Proofs.Grammar.Completeness
import PatternSampler.Proofs.Spelling

namespace PatternSampler

/-! ### Lengths of texts -/

namespace Decimal

theorem length_dropTrailingZeros_le (digits : Text) :
    (dropTrailingZeros digits).length ≤ digits.length := by
  obtain ⟨count, digitsEq⟩ := Numeral.exists_zeros digits
  rw [congrArg List.length digitsEq, List.length_append]
  exact Nat.le_add_right _ _

theorem length_fractionText_le (digits : Text) :
    (fractionText digits).length ≤ digits.length + 1 := by
  unfold fractionText
  split
  next => exact Nat.zero_le _
  next => exact Nat.succ_le_succ (length_dropTrailingZeros_le digits)

/-- An exponent of at most three digits is written with five bytes. -/
theorem length_exponentText_le {exponent : Int} (moderate : exponent.natAbs < 10 ^ 3) :
    (exponentText exponent).length ≤ 5 := by
  have digits : (Text.decimal exponent.natAbs).length ≤ 3 := by
    unfold Text.decimal
    rw [List.length_map]
    exact (Nat.length_toDigits_le_iff (by omega) (by omega)).2 moderate
  simp only [exponentText, List.length_cons, List.length_append, List.length_replicate]
  omega

/-- Besides the digits the text of a decimal has a point and an exponent, or a few zeros. -/
theorem length_text_le {precision : Nat} {d : Decimal} (some : 0 < precision)
    (few : precision ≤ 17) (length : (Text.decimal d.digits).length = precision)
    (lower : -361 < d.exponent + precision) (upper : d.exponent + precision ≤ 361) :
    (d.text precision).length ≤ precision + 6 := by
  obtain ⟨leading, leadingEq⟩ : ∃ leading, leading = d.exponent + precision - 1 := ⟨_, rfl⟩
  unfold text
  dsimp only
  rw [← leadingEq]
  split
  next positional =>
    cases leading with
    | ofNat e =>
      have fraction := length_fractionText_le ((Text.decimal d.digits).drop (e + 1))
      rw [List.length_drop, length] at fraction
      dsimp only
      rw [List.length_append, List.length_take, length]
      omega
    | negSucc e =>
      have fraction := length_fractionText_le (List.replicate e 0x30 ++ Text.decimal d.digits)
      rw [List.length_append, List.length_replicate, length] at fraction
      dsimp only
      rw [List.length_cons]
      omega
  next =>
    have fraction := length_fractionText_le ((Text.decimal d.digits).drop 1)
    have exponent := length_exponentText_le (show leading.natAbs < 10 ^ 3 by omega)
    rw [List.length_drop, length] at fraction
    rw [List.length_append, List.length_append, List.length_take, length]
    omega

end Decimal

variable {x : Binary64} {precision : Nat}

/-- Texts of finite doubles are hardly longer than they have digits. -/
theorem length_general_le (finite : x.magnitude < Binary64.infinity) (some : 0 < precision)
    (few : precision ≤ 17) : (general precision x).length ≤ precision + 7 := by
  have isNumber : ¬ ¬ x.IsNumber := not_not.2 finite.le
  have sign : (signText x).length ≤ 1 := by
    unfold signText
    split
    next => exact Nat.le_refl 1
    next => exact Nat.zero_le 1
  rw [general, if_neg isNumber, if_neg finite.ne]
  split
  next =>
    rw [List.length_append, List.length_singleton]
    omega
  next nonzero =>
    obtain ⟨rounds, lower, upper⟩ := rounds_roundedTo some nonzero finite
    have digits := Decimal.length_eq some rounds.lower rounds.upper
    have unsigned := Decimal.length_text_le some few digits lower upper
    rw [List.length_append]
    omega

/-! ### The buffer -/

namespace Buffer

/-- How many bytes the buffer has. -/
def size : Nat := 32

/-- What the buffer holds of a text: its bytes as far as they leave room for a NUL at the end. -/
def hold (t : Text) : Text := t.take (size - 1)

/-- The double that a text is read as. -/
def value (t : Text) : Binary64 := (Numeral.scan (Cursor.ofText t).scan.1).value.value

/-- Fills the buffer with the text of a double that has some digits, and as long as that is read as
another double and there are tries left, with the text that has one digit more. -/
def writeFrom (x : Binary64) (precision : Nat) : Nat → Text
  | 0 => hold (general precision x)
  | tries + 1 =>
    let held := hold (general precision x)
    if (value held).toFloat == x.toFloat then held else writeFrom x (precision + 1) tries

/-- Fills the buffer with the text of a double that has one digit, or more up to seventeen. -/
def write (x : Binary64) : Text := writeFrom x 1 16

/-- The buffer holds a text that is shorter than the buffer is. -/
theorem hold_eq_self {t : Text} (fits : t.length < size) : hold t = t :=
  List.take_of_length_le (Nat.le_pred_of_lt fits)

theorem length_general_lt (finite : x.magnitude < Binary64.infinity) (some : 0 < precision)
    (few : precision ≤ 17) : (general precision x).length < size := by
  have bound := length_general_le finite some few
  unfold size
  omega

theorem value_text {n : Numeral} (spelled : n.Spelled) : value n.text = n.value := by
  have number := (Grammar.spells_number spelled).scan
  obtain ⟨valueEq, -⟩ := Grammar.scan_of_number number Grammar.endsNumber_stop
  exact congrArg Numeral.value valueEq

/-- What the buffer holds is read as the double if and only if the double reads back with that
number of digits. -/
theorem beq_value_hold_iff (finite : x.magnitude < Binary64.infinity) (some : 0 < precision)
    (few : precision ≤ 17) :
    ((value (hold (general precision x))).toFloat == x.toFloat) = true ↔
      ReadsBack precision x := by
  obtain ⟨n, writes⟩ := exists_writesDouble finite some few
  have compared := Binary64.beq_toFloat_iff x.isNegative n.decimal.nearest_le_infinity finite
  rw [x.ofMagnitude_magnitude, ← writes.negative] at compared
  rw [hold_eq_self (length_general_lt finite some few), ← writes.text, value_text writes.spelled]
  exact compared.trans writes.readsBack_iff

/-- While the digits are not enough the next text is tried, and with the first one that is enough
the buffer is left as it is. -/
theorem writeFrom_eq (finite : x.magnitude < Binary64.infinity) {tries : Nat}
    (some : 0 < precision) (last : precision + tries = 17)
    (untried : precision ≤ sufficientPrecision x) : writeFrom x precision tries = numberText x := by
  obtain ⟨readsBack, -, few⟩ := readsBack_sufficientPrecision finite
  have held : hold (numberText x) = numberText x :=
    hold_eq_self (length_general_lt finite (Nat.lt_of_lt_of_le some untried) few)
  induction tries generalizing precision with
  | zero =>
    have enough : precision = sufficientPrecision x := by omega
    rw [enough]
    exact held
  | succ tries inductionHypothesis =>
    have compared := beq_value_hold_iff finite some (show precision ≤ 17 by omega)
    rw [writeFrom]
    rcases Nat.lt_or_eq_of_le untried with fewer | enough
    · rw [if_neg (mt compared.1 (not_readsBack_of_lt some fewer))]
      exact inductionHypothesis (Nat.succ_pos precision) (by omega) fewer
    · rw [← enough] at readsBack
      rw [if_pos (compared.2 readsBack), enough]
      exact held

end Buffer

/-! ### Reading -/

theorem peekSymbol_scan_mark (m : Mark) (u : Text) (place : Location) :
    peekSymbol (Cursor.scan ⟨m.byte :: u, place⟩).1 = .mark m := by
  obtain ⟨place', tokens⟩ := (Grammar.Spells.mark m).scan_before u place
  exact congrArg peekSymbol tokens

/-- A comma and a closing parenthesis end a parameter. -/
theorem endsParameter_scan {behind : Text}
    (ends : behind.head? = some Mark.comma.byte ∨ behind.head? = some Mark.rightParen.byte)
    (place : Location) : Grammar.EndsParameter (peekSymbol (Cursor.scan ⟨behind, place⟩).1) := by
  cases behind with
  | nil => rcases ends with absent | absent <;> cases absent
  | cons b u =>
    rcases ends with equal | equal
    · cases equal
      exact .inl (peekSymbol_scan_mark .comma u place)
    · cases equal
      exact .inr (peekSymbol_scan_mark .rightParen u place)

/-- The text of a finite double is never cut off by the buffer, whatever number of digits is tried,
and as a parameter it is read to its end as a number with that double as its value. So it is
where the conversion of a text fails on numbers that are all but zero. -/
theorem numberText_read_back (finite : x.magnitude < Binary64.infinity) :
    (∀ precision, 0 < precision → precision ≤ 17 →
      (general precision x).length < Buffer.size) ∧
    Buffer.write x = numberText x ∧
    ∀ (behind : Text) (place finish : Location),
      behind.head? = some Mark.comma.byte ∨ behind.head? = some Mark.rightParen.byte →
      ∃ s, Numeral.read finish (Cursor.scan ⟨numberText x ++ behind, place⟩).1 = .ok s ∧
        Strict.readNumber finish (Cursor.scan ⟨numberText x ++ behind, place⟩).1 = .ok s ∧
        s.rest = (Cursor.scan ⟨behind, place.after (numberText x)⟩).1 ∧
        s.value.text = numberText x ∧ s.value.value = x := by
  refine ⟨fun precision => Buffer.length_general_lt finite, ?_, ?_⟩
  · obtain ⟨-, some, -⟩ := readsBack_sufficientPrecision finite
    exact Buffer.writeFrom_eq finite Nat.one_pos rfl some
  · intro behind place finish ends
    obtain ⟨n, spelled, textEq, valueEq, inRange⟩ := exists_numeral finite
    have number := (Grammar.spells_number spelled).scan_before behind place
    rw [textEq] at number
    obtain ⟨s, read, nEq, restEq⟩ :=
      Grammar.read_of_number finish number inRange (endsParameter_scan ends _)
    refine ⟨s, read, ?_, restEq, ?_, ?_⟩
    · rw [Strict.readNumber_eq, read]
      rfl
    · rw [nEq, textEq]
    · rw [nEq, valueEq]

/-- The least double is written with one digit and read again, although it is not a normal one. -/
theorem numberText_read_back_least :
    (⟨1⟩ : Binary64).magnitude < Binary64.infinity ∧ numberText ⟨1⟩ = ascii "5e-324" ∧
      Buffer.write ⟨1⟩ = numberText ⟨1⟩ ∧
      ∃ s, Strict.readNumber .start (Cursor.scan ⟨numberText ⟨1⟩ ++ [0x29], .start⟩).1 = .ok s ∧
        s.value.value = ⟨1⟩ := by
  have finite : (⟨1⟩ : Binary64).magnitude < Binary64.infinity := by decide
  obtain ⟨-, written, reads⟩ := numberText_read_back finite
  obtain ⟨s, -, read, -, -, valueEq⟩ := reads [0x29] .start .start (.inr rfl)
  exact ⟨finite, by decide +kernel, written, s, read, valueEq⟩

end PatternSampler
