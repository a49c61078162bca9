/-
Module: PatternSampler.Proofs.Integers.Parameters
Purpose: Digits as a parameter that is a count. They are read off their spelling, as the word they
  stand for, and never off the double that is kept beside it, which need not be that word: it
  only decides whether they are out of range or, behind a minus sign, below zero. What is no word
  is refused, and so is every numeral with a point or an exponent.
Main exports: Numeral.ofDigits, Annotation.TakesCount, Annotation.Yields,
  Annotation.CountsExactly, Annotation.countsExactly
-/
import PatternSampler.Proofs.Exceptions.Numbers
import PatternSampler.Proofs.Grammar.Completeness
import PatternSampler.Proofs.Spelling

namespace PatternSampler

open Grammar

/-! ### Numerals of digits -/

/-- Digits as a numeral, with a minus sign in front of them or without. -/
def Numeral.ofDigits (negative : Bool) (digits : Text) : Numeral := ⟨negative, digits, none, none⟩

section Digits

variable {digits : Text}

namespace Numeral

theorem text_ofDigits (negative : Bool) (digits : Text) :
    (ofDigits negative digits).text = signText negative ++ digits := by
  simp [text, ofDigits, fractionText, exponentText]

theorem text_ofDigits_false (digits : Text) : (ofDigits false digits).text = digits :=
  text_ofDigits false digits

theorem text_ofDigits_true (digits : Text) : (ofDigits true digits).text = 0x2D :: digits :=
  text_ofDigits true digits

theorem decimal_ofDigits (negative : Bool) (digits : Text) :
    (ofDigits negative digits).decimal = ⟨Text.decimalValue digits, 0⟩ := by
  simp [decimal, ofDigits]

/-- Digits of a word are in range, and so are read as a parameter. -/
theorem inRange_ofDigits (negative : Bool) (small : Text.decimalValue digits < 2 ^ 64) :
    (ofDigits negative digits).InRange := by
  have limited := Decimal.nearest_word_lt (UInt64.ofNat (Text.decimalValue digits))
  rw [UInt64.toNat_ofNat_of_lt' small] at limited
  unfold InRange
  rw [decimal_ofDigits]
  exact limited

theorem not_value_ofDigits_lt_zero (inRange : (ofDigits false digits).InRange) :
    ¬ (ofDigits false digits).value.toFloat < 0.0 :=
  Binary64.not_toFloat_lt_zero inRange

/-- Behind a minus sign digits are below zero unless they are zeros: the double nearest to them is
a negative zero only for zero itself. -/
theorem value_ofDigits_lt_zero_iff (inRange : (ofDigits true digits).InRange) :
    (ofDigits true digits).value.toFloat < 0.0 ↔ 0 < Text.decimalValue digits := by
  unfold InRange at inRange
  unfold value
  rw [decimal_ofDigits] at inRange ⊢
  constructor
  · intro below
    apply Nat.pos_of_ne_zero
    intro zero
    rw [zero] at below
    have notBelow : ¬ (Binary64.ofMagnitude true 0).toFloat < 0.0 := by decide
    exact notBelow below
  · intro positive
    exact Binary64.toFloat_lt_zero (Decimal.nearest_pos positive) inRange

end Numeral

namespace Text

/-- The count of digits is the word they stand for. -/
theorem leadingCount_of_lt (nonempty : digits ≠ []) (isDigit : ∀ b ∈ digits, IsDigit b)
    (small : decimalValue digits < 2 ^ 64) :
    leadingCount digits = .ok (UInt64.ofNat (decimalValue digits)) := by
  rw [leadingCount_of_isDigit isDigit, countOf, if_neg nonempty, if_neg (Nat.not_le.2 small)]
  rfl

theorem leadingCount_of_le (nonempty : digits ≠ []) (isDigit : ∀ b ∈ digits, IsDigit b)
    (large : 2 ^ 64 ≤ decimalValue digits) : leadingCount digits = .error .tooLarge := by
  rw [leadingCount_of_isDigit isDigit, countOf, if_neg nonempty, if_pos large]

/-- Behind a minus sign zero is still counted as zero. -/
theorem leadingCount_minus_zero (nonempty : digits ≠ []) (isDigit : ∀ b ∈ digits, IsDigit b)
    (zero : decimalValue digits = 0) : leadingCount (0x2D :: digits) = .ok 0 := by
  simp only [leadingCount, splitSign_minus, takeWhile_isDigit isDigit, countOf, nonempty, zero,
    if_false]
  rfl

end Text

end Digits

/-! ### Parameters that are counts -/

/-- A parameter that is written as a numeral, in range or not. -/
inductive Grammar.Numbered (n : Numeral) :
    List Token → Option Key → Location → List Token → Prop where
  | positional {t : Token} {ts rest : List Token} (number : Number (t :: ts) n rest) :
      Numbered n (t :: ts) none t.place rest
  | named {s : Symbol} {place place' : Location} {ts rest : List Token} {key : Key}
      (names : Names s key) (number : Number ts n rest) :
      Numbered n (⟨s, place⟩ :: ⟨.mark .equals, place'⟩ :: ts) (some key) place rest

namespace Annotation

/-- An annotation of a kind takes the parameter in a slot for a count, and stands for `meaning n`
at its place if the count is `n`. -/
inductive TakesCount (a : Annotation) (c : Context) :
    Kind → UInt8 → Slots → (UInt64 → Resolution Distribution) → Prop where
  | constant {slots : Slots} (kind : a.kind = .ok .constant)
      (assigned : a.slots .constant [valueKey] = .ok slots) :
      TakesCount a c .constant valueKey slots fun n =>
        match c.positions with
        | none => .ok (.constant n)
        | some size =>
          if n.toNat < size then .ok (.constant n)
          else
            match slots.parameter? valueKey with
            | some p => refuse (.positionOutside n size p.spelling) p.place
            | none => refuse (.positionOutside n size (ascii "~Const")) a.place
  | binomial {slots : Slots} (kind : a.kind = .ok .binomial)
      (assigned : a.slots .binomial a.binomialSlotKeys = .ok slots) :
      TakesCount a c .binomial trialsKey slots fun n =>
        a.checked .binomial (Distribution.mkBinomial n (slots.real probabilityKey 1.0))
  | zipf {slots : Slots} (kind : a.kind = .ok .zipf)
      (assigned : a.slots .zipf [exponentKey, ranksKey] = .ok slots) :
      TakesCount a c .zipf ranksKey slots fun n =>
        a.checked .zipf (Distribution.mkZipf (slots.real exponentKey 1.0) n)

/-- The count is read first, and nothing else is looked at if it is refused. -/
theorem TakesCount.resolve_eq {a : Annotation} {c : Context} {kind : Kind} {slot : UInt8}
    {slots : Slots} {meaning : UInt64 → Resolution Distribution}
    (takes : TakesCount a c kind slot slots meaning) :
    ∃ fallback, ∀ weights, a.resolve c weights = slots.count kind slot fallback >>= meaning := by
  cases takes with
  | constant kind assigned =>
    refine ⟨c.value, fun weights => ?_⟩
    rw [resolve, bind_of_eq_ok kind]
    simp only [constantValue]
    rw [bind_of_eq_ok assigned]
    cases slots.count .constant valueKey c.value with
    | error r => rfl
    | ok n =>
      cases c.positions with
      | none => rfl
      | some size =>
        by_cases inside : n.toNat < size
        · simp only [bind, Except.bind, inside, if_true]
          rfl
        · simp only [bind, Except.bind, inside, if_false]
          cases slots.parameter? valueKey with
          | none => rfl
          | some p => rfl
  | binomial kind assigned =>
    refine ⟨c.trials, fun weights => ?_⟩
    rw [resolve, bind_of_eq_ok kind]
    dsimp only
    rw [bind_of_eq_ok assigned]
  | zipf kind assigned =>
    refine ⟨c.ranks, fun weights => ?_⟩
    rw [resolve, bind_of_eq_ok kind]
    dsimp only
    rw [bind_of_eq_ok assigned]

/-- Where a count is called for, a numeral has an outcome: a count, or a cause for which it is
refused where the parameter stands. The annotation has the meaning of the count or is refused as
well. -/
def Yields (n : Numeral) (outcome : Kind → UInt8 → Except Cause UInt64) : Prop :=
  ∀ (a : Annotation) (c : Context) (kind : Kind) (slot : UInt8) (slots : Slots)
    (meaning : UInt64 → Resolution Distribution) (key : Option Key) (place : Location),
    TakesCount a c kind slot slots meaning →
    slots.parameter? slot = some (.ofNumeral key n place) → n.InRange →
    match outcome kind slot with
    | .ok count =>
      (∀ fallback, slots.count kind slot fallback = .ok count) ∧
        ∀ weights, a.resolve c weights = meaning count
    | .error cause => cause.kind = .validation ∧
      (∀ fallback, slots.count kind slot fallback = refuse cause place) ∧
        ∀ weights, a.resolve c weights = refuse cause place

/-- Digits as a parameter that is a count are read as their number, or refused if it is no word.
Behind a minus sign they are refused unless they are zeros, and with a point or an exponent they
are refused in any case. -/
structure CountsExactly (digits : Text) : Prop where
  /-- Wherever they are written, digits make up the tokens of a numeral: -/
  written : ∀ negative, Spells (Numeral.signText negative ++ digits) fun ts rest =>
    Number ts (.ofDigits negative digits) rest
  /-- A numeral is read as a parameter unless it is out of range, which digits of a word never
  are. -/
  read : ∀ n finish key place ts rest, Numbered n ts key place rest →
    EndsParameter (peekSymbol rest) →
    (∃ step, readParameter finish ts = .ok step ∧ step.value = .ofNumeral key n place ∧
      step.rest = rest) ∨
    ¬ n.InRange ∧ ∃ r, readParameter finish ts = .error r ∧ r.report.kind = .validation ∧
      r.cause = .numberOutOfRange n.text
  inRange : Text.decimalValue digits < 2 ^ 64 →
    ∀ negative, (Numeral.ofDigits negative digits).InRange
  counted : Text.decimalValue digits < 2 ^ 64 →
    ∃ n : UInt64, n.toNat = Text.decimalValue digits ∧
      Yields (.ofDigits false digits) fun _ _ => .ok n
  tooLarge : 2 ^ 64 ≤ Text.decimalValue digits →
    Yields (.ofDigits false digits) fun kind slot => .error (.countOutOfRange kind slot digits)
  zero : Text.decimalValue digits = 0 → Yields (.ofDigits true digits) fun _ _ => .ok 0
  negative : 0 < Text.decimalValue digits → Yields (.ofDigits true digits) fun kind slot =>
    .error (.negativeCount kind slot (0x2D :: digits))
  notInteger : ∀ n : Numeral, n.fraction ≠ none ∨ n.exponent ≠ none →
    Yields n fun kind slot => .error (.notInteger kind slot n.text)

section Counts

variable {n : Numeral} {slots : Slots} {kind : Kind} {slot : UInt8} {key : Option Key}
  {place : Location}

/-- A count that is read is what the annotation stands for. -/
theorem yields_of_count {outcome : Kind → UInt8 → Except Cause UInt64}
    (validation : ∀ kind slot cause, outcome kind slot = .error cause → cause.kind = .validation)
    (count : ∀ slots kind slot key place fallback,
      Slots.parameter? slots slot = some (.ofNumeral key n place) → n.InRange →
      slots.count kind slot fallback = (outcome kind slot).mapError (⟨·, place⟩)) :
    Yields n outcome := by
  intro a c kind slot slots meaning key place takes there inRange
  obtain ⟨fallback, resolved⟩ := takes.resolve_eq
  have counts (fallback : UInt64) := count slots kind slot key place fallback there inRange
  have counted := counts fallback
  cases outcomeEq : outcome kind slot with
  | ok n =>
    rw [outcomeEq] at counts counted
    exact ⟨counts, fun weights => by rw [resolved weights, bind_of_eq_ok counted]⟩
  | error cause =>
    rw [outcomeEq] at counts counted
    refine ⟨validation kind slot cause outcomeEq, counts, fun weights => ?_⟩
    rw [resolved weights, bind_of_eq_error counted]
    rfl

/-- A numeral with a point or an exponent is no count. -/
theorem count_of_not_integral (fallback : UInt64) (notIntegral : n.integral = false)
    (there : slots.parameter? slot = some (.ofNumeral key n place)) :
    slots.count kind slot fallback = refuse (.notInteger kind slot n.text) place := by
  unfold Slots.count
  rw [there]
  dsimp only [Parameter.ofNumeral]
  rw [if_pos (by rw [notIntegral]; decide)]

/-- A numeral below zero is no count. -/
theorem count_of_negative (fallback : UInt64) (integral : n.integral = true)
    (negative : n.value.toFloat < 0.0)
    (there : slots.parameter? slot = some (.ofNumeral key n place)) :
    slots.count kind slot fallback = refuse (.negativeCount kind slot n.text) place := by
  unfold Slots.count
  rw [there]
  dsimp only [Parameter.ofNumeral]
  rw [if_neg (by rw [integral]; decide), if_pos negative]

/-- Other numerals are read off their spelling, and not off the double that they stand for. -/
theorem count_of_not_negative (fallback : UInt64) (integral : n.integral = true)
    (notNegative : ¬ n.value.toFloat < 0.0)
    (there : slots.parameter? slot = some (.ofNumeral key n place)) :
    slots.count kind slot fallback = match Text.leadingCount n.text with
      | .ok count => .ok count
      | .error .tooLarge => refuse (.countOutOfRange kind slot n.text) place
      | .error .noDigits => refuse (.unreadableCount kind slot n.text) place := by
  unfold Slots.count
  rw [there]
  dsimp only [Parameter.ofNumeral]
  rw [if_neg (by rw [integral]; decide)]
  exact if_neg notNegative

/-- A numeral that is out of range is refused where it is read. -/
theorem read_of_outOfRange (finish : Location) {ts rest : List Token} (number : Number ts n rest)
    (ends : EndsParameter (peekSymbol rest)) (outOfRange : ¬ n.InRange) :
    Numeral.read finish ts = refuse (.numberOutOfRange n.text) (peekPlace finish ts) := by
  obtain ⟨valueEq, -⟩ := scan_of_number number ends.endsNumber
  have wellFormed : (Numeral.scan ts).value.WellFormed := by
    rw [valueEq]
    exact number.wellFormed
  unfold Numeral.read
  dsimp only
  rw [dif_pos wellFormed, valueEq, if_neg outOfRange]

/-- A parameter is read with its numeral, or refused if that is out of range. -/
theorem readParameter_of_numbered (finish : Location) {ts rest : List Token}
    (numbered : Numbered n ts key place rest) (ends : EndsParameter (peekSymbol rest)) :
    (∃ step, readParameter finish ts = .ok step ∧ step.value = .ofNumeral key n place ∧
      step.rest = rest) ∨
    ¬ n.InRange ∧ ∃ place', readParameter finish ts = refuse (.numberOutOfRange n.text) place' := by
  by_cases inRange : n.InRange
  · left
    cases numbered with
    | positional number => exact readParameter_of_argument finish (.positional number inRange) ends
    | named names number =>
      exact readParameter_of_argument finish (.named names number inRange) ends
  · refine .inr ⟨inRange, ?_⟩
    cases numbered with
    | @positional t ts _ number =>
      have second : ∀ k place us, t :: ts ≠ k :: ⟨.mark .equals, place⟩ :: us := by
        rintro k place us equal
        cases equal
        exact number.second_ne_equals ends rfl
      rw [readParameter_of_second finish second]
      exact ⟨_, bind_of_eq_error (read_of_outOfRange finish number ends inRange) _⟩
    | named names number =>
      rw [readParameter]
      simp only [keyOf?_of_names names]
      exact ⟨_, bind_of_eq_error (read_of_outOfRange finish number ends inRange) _⟩

end Counts

/-- Digits as a parameter are counted exactly. -/
theorem countsExactly {digits : Text} (nonempty : digits ≠ []) (isDigit : ∀ b ∈ digits, IsDigit b) :
    CountsExactly digits where
  written negative := by
    have spelled : (Numeral.ofDigits negative digits).Spelled :=
      ⟨nonempty, isDigit, nofun, nofun⟩
    exact Numeral.text_ofDigits negative digits ▸ spells_number spelled
  read n finish key place ts rest numbered ends := by
    refine (readParameter_of_numbered finish numbered ends).imp_right ?_
    rintro ⟨outOfRange, place', refused⟩
    exact ⟨outOfRange, _, refused, rfl, rfl⟩
  inRange small negative := Numeral.inRange_ofDigits negative small
  counted small := by
    refine ⟨_, UInt64.toNat_ofNat_of_lt' small, ?_⟩
    refine yields_of_count (fun _ _ _ refused => by cases refused) ?_
    intro slots kind slot key place fallback there inRange
    have notNegative := Numeral.not_value_ofDigits_lt_zero inRange
    rw [count_of_not_negative fallback rfl notNegative there, Numeral.text_ofDigits_false,
      Text.leadingCount_of_lt nonempty isDigit small]
    rfl
  tooLarge large := by
    refine yields_of_count (fun _ _ _ refused => by cases refused; rfl) ?_
    intro slots kind slot key place fallback there inRange
    have notNegative := Numeral.not_value_ofDigits_lt_zero inRange
    rw [count_of_not_negative fallback rfl notNegative there, Numeral.text_ofDigits_false,
      Text.leadingCount_of_le nonempty isDigit large]
    rfl
  zero zero := by
    refine yields_of_count (fun _ _ _ refused => by cases refused) ?_
    intro slots kind slot key place fallback there inRange
    have notNegative : ¬ (Numeral.ofDigits true digits).value.toFloat < 0.0 := by
      rw [Numeral.value_ofDigits_lt_zero_iff inRange, zero]
      exact Nat.lt_irrefl 0
    rw [count_of_not_negative fallback rfl notNegative there, Numeral.text_ofDigits_true,
      Text.leadingCount_minus_zero nonempty isDigit zero]
    rfl
  negative positive := by
    refine yields_of_count (fun _ _ _ refused => by cases refused; rfl) ?_
    intro slots kind slot key place fallback there inRange
    have negative := (Numeral.value_ofDigits_lt_zero_iff inRange).2 positive
    rw [count_of_negative fallback rfl negative there, Numeral.text_ofDigits_true]
    rfl
  notInteger n parts := by
    refine yields_of_count (fun _ _ _ refused => by cases refused; rfl) ?_
    intro slots kind slot key place fallback there inRange
    have notIntegral : n.integral = false := by
      unfold Numeral.integral
      cases fractionEq : n.fraction <;> cases exponentEq : n.exponent <;> simp_all
    exact count_of_not_integral fallback notIntegral there

end Annotation

end PatternSampler
