/-
Module: PatternSampler.Proofs.Exceptions.Numbers
Purpose: No conversion of a number that is read fails. What is collected of a number begins with a
  number, and what is converted of a repeat count are a few digits. So numbers, annotations,
  counts and what stands between braces are read as if nothing could fail.
Main exports: Strict.bind_eq_refused, Strict.readNumber_eq, Strict.readOptional_eq,
  Strict.readCount_eq, Strict.readBraces_eq
-/
import PatternSampler.Proofs.Digits
import PatternSampler.Proofs.Exceptions
import PatternSampler.Proofs.Grammar.Soundness

namespace PatternSampler

/-! ### Digits -/

namespace Grammar

variable {ts rest : List Token}

/-- A run of digits is made of digits. -/
theorem Run.isDigit {digits : Text} (run : Run Symbol.isDigit ts digits rest) :
    ∀ b ∈ digits, IsDigit b := by
  induction run with
  | done => exact nofun
  | @more t _ _ _ holds _ inductionHypothesis =>
    refine List.forall_mem_cons.2 ⟨?_, inductionHypothesis⟩
    cases symbolEq : t.symbol with
    | literal b =>
      rw [symbolEq] at holds
      exact of_decide_eq_true holds
    | escaped | shorthand | mark | loneBackslash | stop =>
      rw [symbolEq] at holds
      cases holds

end Grammar

namespace Text

/-- What follows a minus sign is not looked at to find the sign. -/
theorem splitSign_minus (t : Text) :
    splitSign (List.dropWhile (· ∈ Alphabet.whiteSpace) (0x2D :: t)) = (true, t) := by
  rw [List.dropWhile_cons_of_neg (by decide)]
  rfl

/-- A text is the zeros at its front and what is behind them. -/
theorem eq_zeros_append (digits : Text) :
    digits = List.replicate (digits.findIdx (· ≠ 0x30)) 0x30 ++
      digits.drop (digits.findIdx (· ≠ 0x30)) := by
  induction digits with
  | nil => rfl
  | cons b digits inductionHypothesis =>
    rw [List.findIdx_cons]
    by_cases zero : b = 0x30
    · subst zero
      exact congrArg (0x30 :: ·) inductionHypothesis
    · simp [zero]

end Text

namespace Strict

/-! ### Outcomes -/

/-- Where the first part of a computation does not fail and the second does not fail on its result,
the computation does not fail. -/
theorem bind_eq_refused {α β : Type} {x : Except Refusal α} {outcome : Outcome α}
    {f : α → Except Refusal β} {next : α → Outcome β} (first : outcome = refused x)
    (behind : ∀ a, x = .ok a → next a = refused (f a)) :
    outcome >>= next = refused (x >>= f) := by
  subst first
  cases x with
  | error r => rfl
  | ok a => exact behind a rfl

/-! ### Numbers -/

theorem opensNumber_of_isDigit {b : UInt8} (digit : IsDigit b) (t : Text) :
    opensNumber (b :: t) := by
  unfold opensNumber
  split
  next equal =>
    cases equal
    exact absurd digit (by decide)
  next equal =>
    cases equal
    exact decide_eq_true digit
  next equal => cases equal

theorem opensNumber_of_point {b : UInt8} (digit : IsDigit b) (t : Text) :
    opensNumber (0x2E :: b :: t) := decide_eq_true digit

/-- A mantissa opens a number. -/
theorem opensNumber_of_mantissa {ts rest : List Token} {whole : Text} {fraction : Option Text}
    (mantissa : Grammar.Mantissa ts whole fraction rest) (t : Text) :
    opensNumber (whole ++ Numeral.fractionText fraction ++ t) := by
  have ofDigits : ∀ {ts us : List Token} {digits : Text} (u : Text),
      Grammar.Run Symbol.isDigit ts digits us → digits ≠ [] → opensNumber (digits ++ u) := by
    intro ts us digits u run nonempty
    cases digits with
    | nil => exact absurd rfl nonempty
    | cons b digits => exact opensNumber_of_isDigit (run.isDigit b List.mem_cons_self) _
  cases mantissa with
  | integer digits nonempty =>
    rw [List.append_assoc]
    exact ofDigits _ digits nonempty
  | pointed digits nonempty =>
    rw [List.append_assoc]
    exact ofDigits _ digits nonempty
  | @bare _ _ _ fraction decimals nonempty =>
    cases fraction with
    | nil => exact absurd rfl nonempty
    | cons b fraction => exact opensNumber_of_point (decimals.isDigit b List.mem_cons_self) _

/-- A text that opens a number begins with it: there is no white space and no sign in front. -/
theorem beginsNumber_of_opensNumber {t : Text} (opens : opensNumber t) : beginsNumber t := by
  have unsigned : Text.splitSign (t.dropWhile (· ∈ Alphabet.whiteSpace)) = (false, t) := by
    unfold opensNumber at opens
    split at opens
    next b t =>
      rw [List.dropWhile_cons_of_neg (by decide)]
      rfl
    next => exact Text.splitSign_of_isDigit (of_decide_eq_true opens)
    next => cases opens
  unfold beginsNumber
  rw [unsigned]
  exact opens

theorem beginsNumber_of_number {ts rest : List Token} {n : Numeral}
    (number : Grammar.Number ts n rest) : beginsNumber n.text := by
  cases number with
  | @intro _ _ _ negative whole fraction exponent _ mantissa _ =>
    have opens := opensNumber_of_mantissa mantissa (Numeral.exponentText exponent)
    have textEq : (Numeral.mk negative whole fraction exponent).text =
        Numeral.signText negative ++
          (whole ++ Numeral.fractionText fraction ++ Numeral.exponentText exponent) := by
      simp only [Numeral.text, List.append_assoc]
    rw [textEq]
    cases negative with
    | false => exact beginsNumber_of_opensNumber opens
    | true =>
      unfold beginsNumber
      rw [show Numeral.signText true ++ _ = 0x2D :: _ from rfl, Text.splitSign_minus]
      exact opens

/-- A number is read as if its conversion could not fail. -/
theorem readNumber_eq (finish : Location) (ts : List Token) :
    readNumber finish ts = refused (Numeral.read finish ts) := by
  simp only [readNumber, Numeral.read]
  split
  next wellFormed =>
    have begins := beginsNumber_of_number (Grammar.number_scan wellFormed)
    unfold toDouble
    rw [if_neg (not_not_intro begins)]
    by_cases inRange : (Numeral.scan ts).value.InRange
    · by_cases tiny : IsTiny (Numeral.scan ts).value
      · simp only [inRange, tiny, not_true_eq_false, or_true, if_true]
        rfl
      · simp only [inRange, tiny, not_true_eq_false, or_false, if_false, if_true]
        rfl
    · simp only [inRange, not_false_eq_true, true_or, if_true, if_false]
      rfl
  next =>
    split
    next => rfl
    next => rfl

/-! ### Annotations -/

theorem readParameter_eq (finish : Location) (ts : List Token) :
    readParameter finish ts = (refused <| Annotation.readParameter finish ts) := by
  -- Both readers look for an equals sign behind the first token, so the cases are those of the
  -- second token; whatever else stands there, a number is read.
  match ts with
  | [] | [_] => exact bind_eq_refused (readNumber_eq finish _) fun _ _ => rfl
  | k :: ⟨symbol, place⟩ :: us =>
    cases symbol with
    | mark m =>
      cases m with
      | equals =>
        unfold readParameter Annotation.readParameter
        dsimp only
        cases Annotation.keyOf? k.symbol with
        | none => rfl
        | some key => exact bind_eq_refused (readNumber_eq finish us) fun _ _ => rfl
      | _ => exact bind_eq_refused (readNumber_eq finish _) fun _ _ => rfl
    | _ => exact bind_eq_refused (readNumber_eq finish _) fun _ _ => rfl

theorem readParameters_eq (finish : Location) (ts : List Token) :
    readParameters finish ts = (refused <| Annotation.readParameters finish ts) := by
  fun_induction Annotation.readParameters finish ts with
  | case1 ts inductionHypothesis =>
    rw [readParameters]
    refine bind_eq_refused (readParameter_eq finish ts) fun first _ => ?_
    obtain ⟨⟨p, rest, isSuffix⟩, shorter⟩ := first
    cases rest with
    | nil => rfl
    | cons t us =>
      obtain ⟨symbol, place⟩ := t
      cases symbol with
      | mark m =>
        cases m with
        | comma =>
          exact bind_eq_refused (inductionHypothesis ⟨⟨p, _, isSuffix⟩, shorter⟩ place us rfl)
            fun _ _ => rfl
        | _ => rfl
      | _ => rfl

theorem readParameterList_eq (finish place : Location) (ts : List Token) :
    readParameterList finish place ts =
      (refused <| Annotation.readParameterList finish place ts) := by
  cases ts with
  | nil => exact bind_eq_refused (readParameters_eq finish []) fun _ _ => rfl
  | cons t us =>
    obtain ⟨symbol, place'⟩ := t
    cases symbol with
    | mark m =>
      cases m with
      | rightParen => rfl
      | _ => exact bind_eq_refused (readParameters_eq finish _) fun _ _ => rfl
    | _ => exact bind_eq_refused (readParameters_eq finish _) fun _ _ => rfl

theorem readArguments_eq (finish : Location) (ts : List Token) :
    readArguments finish ts = (refused <| Annotation.readArguments finish ts) := by
  cases ts with
  | nil => rfl
  | cons t us =>
    obtain ⟨symbol, place⟩ := t
    cases symbol with
    | mark m =>
      cases m with
      | leftParen => exact bind_eq_refused (readParameterList_eq finish place us) fun _ _ => rfl
      | _ => rfl
    | _ => rfl

theorem readBody_eq (finish place : Location) (ts : List Token) :
    readBody finish place ts = (refused <| Annotation.readBody finish place ts) := by
  simp only [readBody, Annotation.readBody]
  split
  next => rfl
  next => exact bind_eq_refused (readArguments_eq finish _) fun _ _ => rfl

/-- An annotation is read as if nothing could fail. -/
theorem readOptional_eq (finish : Location) (ts : List Token) :
    readOptional finish ts = (refused <| Annotation.readOptional finish ts) := by
  cases ts with
  | nil => rfl
  | cons t us =>
    obtain ⟨symbol, place⟩ := t
    cases symbol with
    | mark m =>
      cases m with
      | tilde => exact bind_eq_refused (readBody_eq finish place us) fun _ _ => rfl
      | _ => rfl
    | _ => rfl

/-! ### Counts -/

/-- Zeros in front of digits can be left out; what is left has no more digits than its number
needs. -/
theorem significant_spec {digits : Text} (isDigit : ∀ b ∈ digits, IsDigit b) :
    ∃ few, significant digits = .ok few ∧ few ≠ [] ∧ (∀ b ∈ few, IsDigit b) ∧
      Text.decimalValue few = Text.decimalValue digits ∧
      (7 < few.length → 10 ^ 7 ≤ Text.decimalValue digits) := by
  have zerosEq := Text.eq_zeros_append digits
  unfold significant
  generalize firstEq : digits.findIdx (· ≠ 0x30) = first at zerosEq ⊢
  dsimp only
  split
  next all =>
    refine ⟨[0x30], rfl, List.cons_ne_nil _ _, List.forall_mem_singleton.2 (by decide), ?_,
      fun long => absurd long (by decide)⟩
    rw [zerosEq, Text.decimalValue_zeros_append, all, List.drop_length]
    rfl
  next notAll =>
    have within : first < digits.length :=
      Nat.lt_of_le_of_ne (firstEq ▸ List.findIdx_le_length) notAll
    have nonzero : digits[first] ≠ 0x30 := by
      subst firstEq
      exact of_decide_eq_true (List.findIdx_getElem (w := within))
    have few := List.drop_eq_getElem_cons within
    refine ⟨digits.drop first, ?_, ?_, fun b member => isDigit b (List.mem_of_mem_drop member),
      ?_, ?_⟩
    · rw [substring, if_pos (Nat.le_of_lt within), List.take_of_length_le]
      rw [List.length_drop]
      exact Nat.sub_le _ _
    · rw [few]
      exact List.cons_ne_nil _ _
    · rw [← Text.decimalValue_zeros_append first, ← zerosEq]
    · intro long
      have large := Text.pow_le_decimalValue (isDigit _ (List.getElem_mem within)) nonzero
        (digits.drop (first + 1))
      rw [← few, ← Text.decimalValue_zeros_append first (digits.drop first), ← zerosEq] at large
      rw [List.length_drop] at long
      refine Nat.le_trans (Nat.pow_le_pow_right (by omega) ?_) large
      rw [List.length_drop]
      omega

/-- A few digits fit a word. -/
theorem toWord_of_isDigit {t : Text} (nonempty : t ≠ []) (isDigit : ∀ b ∈ t, IsDigit b)
    (few : t.length ≤ 7) : ∃ word, toWord t = .ok word ∧ word.toNat = Text.decimalValue t := by
  have inRange : Text.decimalValue t < 2 ^ 64 :=
    calc Text.decimalValue t < 10 ^ t.length := Text.decimalValue_lt_pow isDigit
      _ ≤ 10 ^ 7 := Nat.pow_le_pow_right (by decide) few
      _ < 2 ^ 64 := by decide
  refine ⟨UInt64.ofNat (Text.decimalValue t), ?_, UInt64.toNat_ofNat_of_lt' inRange⟩
  rw [toWord, Text.leadingCount_of_isDigit isDigit, Text.countOf, if_neg nonempty,
    if_neg (Nat.not_le_of_lt inRange)]
  rfl

/-- A repeat count is read as if its conversion could not fail. -/
theorem readCount_eq (finish : Location) (ts : List Token) :
    readCount finish ts = refused (Repeat.readCount finish ts) := by
  unfold readCount Repeat.readCount
  split
  next t us =>
    dsimp only
    split
    next digit =>
      have isDigit := (Grammar.Run.more digit (Grammar.run_readWhile Symbol.isDigit us)).isDigit
      obtain ⟨few, fewEq, nonempty, fewDigits, valueEq, large⟩ := significant_spec isDigit
      rw [fewEq, bind_of_eq_ok rfl]
      split
      next long =>
        have limit : maxRepeatCount < 10 ^ 7 := by decide
        rw [if_pos (Nat.lt_of_lt_of_le limit (large long))]
        rfl
      next short =>
        obtain ⟨word, converted, toNatEq⟩ :=
          toWord_of_isDigit nonempty fewDigits (Nat.le_of_not_lt short)
        rw [converted, bind_of_eq_ok rfl, ← valueEq, ← toNatEq, UInt64.ofNat_toNat]
        split
        next => rfl
        next => rfl
    next => rfl
  next => rfl

theorem readMaximum_eq (finish : Location) (ts : List Token) :
    readMaximum finish ts = refused (Repeat.readMaximum finish ts) := by
  unfold readMaximum Repeat.readMaximum
  split
  next => exact bind_eq_refused (readCount_eq finish ts) fun _ _ => rfl
  next => rfl

theorem readRange_eq (finish : Location) (ts : List Token) :
    readRange finish ts = refused (Repeat.readRange finish ts) := by
  refine bind_eq_refused (readCount_eq finish ts) fun min _ => ?_
  obtain ⟨⟨count, rest, isSuffix⟩, shorter⟩ := min
  cases rest with
  | nil => rfl
  | cons t us =>
    obtain ⟨symbol, place⟩ := t
    cases symbol with
    | mark m =>
      cases m with
      | comma => exact bind_eq_refused (readMaximum_eq finish us) fun _ _ => rfl
      | _ => rfl
    | _ => rfl

theorem readBraces_eq (finish place : Location) (ts : List Token) :
    readBraces finish place ts = refused (Repeat.readBraces finish place ts) := by
  cases ts with
  | nil => rfl
  | cons t us =>
    refine bind_eq_refused (readRange_eq finish _) fun range _ => ?_
    exact bind_eq_refused (readOptional_eq finish range.rest) fun note _ => rfl

end Strict

end PatternSampler
