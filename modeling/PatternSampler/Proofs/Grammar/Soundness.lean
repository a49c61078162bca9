/-
Module: PatternSampler.Proofs.Grammar.Soundness
Purpose: What the readers read is derived by the grammar. Each reader has one lemma: if it
  gives a result, the tokens begin with the phrase of its production, the result is what
  the phrase stands for, and what is left follows the phrase.
Main exports: Grammar.derives_of_readNested, Grammar.accepts_of_ofTokens
-/
import PatternSampler.Proofs.Grammar

namespace PatternSampler.Grammar

open Annotation (readParameter readParameters readParameterList readArguments readBody readOptional)

theorem run_readWhile (p : Symbol → Bool) (ts : List Token) :
    Run p ts (readWhile p ts).value (readWhile p ts).rest := by
  induction ts with
  | nil => exact .done []
  | cons t ts inductionHypothesis =>
    by_cases holds : p t.symbol
    · rw [value_readWhile_of_pos holds, rest_readWhile_of_pos holds]
      exact .more holds inductionHypothesis
    · rw [value_readWhile_of_neg holds, rest_readWhile_of_neg holds]
      exact .done _

/-! ### Numbers -/

theorem minus_scanMinus (ts : List Token) :
    Minus ts (Numeral.scanMinus ts).value (Numeral.scanMinus ts).rest := by
  unfold Numeral.scanMinus
  split
  next place us => exact .present place us
  next => exact .absent ts

/-- The digits around a point make a mantissa as soon as there is one of them. -/
theorem mantissa_scanFraction {ts us : List Token} {whole : Text}
    (digits : Run Symbol.isDigit ts whole us)
    (digit : whole ≠ [] ∨ (Numeral.scanFraction us).value.getD [] ≠ []) :
    Mantissa ts whole (Numeral.scanFraction us).value (Numeral.scanFraction us).rest := by
  revert digit
  unfold Numeral.scanFraction
  split
  next place vs =>
    intro digit
    have decimals := run_readWhile Symbol.isDigit vs
    by_cases nonempty : whole = []
    · subst nonempty
      cases digits
      exact .bare decimals (by simpa using digit)
    · exact .pointed digits nonempty decimals
  next =>
    intro digit
    exact .integer digits (by simpa using digit)

theorem sign_scanExponentSign (ts : List Token) :
    Sign ts (Numeral.scanExponentSign ts).value (Numeral.scanExponentSign ts).rest := by
  unfold Numeral.scanExponentSign
  split
  next place us => exact .minus place us
  next place us => exact .plus place us
  next => exact .absent ts

theorem power_scanExponent {ts : List Token}
    (digit : ∀ e ∈ (Numeral.scanExponent ts).value, e.digits ≠ []) :
    Power ts (Numeral.scanExponent ts).value (Numeral.scanExponent ts).rest := by
  revert digit
  unfold Numeral.scanExponent
  split
  next letter place us =>
    split
    next opens =>
      intro digit
      exact .present opens (sign_scanExponentSign us) (run_readWhile Symbol.isDigit _)
        (digit _ rfl)
    next =>
      intro _
      exact .absent _
  next =>
    intro _
    exact .absent _

theorem number_scan {ts : List Token} (wellFormed : (Numeral.scan ts).value.WellFormed) :
    Number ts (Numeral.scan ts).value (Numeral.scan ts).rest := by
  have minus := minus_scanMinus ts
  have digits := run_readWhile Symbol.isDigit (Numeral.scanMinus ts).rest
  obtain ⟨hasDigits, exponentDigits⟩ := wellFormed
  unfold Numeral.scan at hasDigits exponentDigits ⊢
  by_cases digit : (Numeral.scanMantissa ts).value.hasDigits
  · simp only [digit, if_true] at hasDigits exponentDigits ⊢
    have around := by simpa [Numeral.hasDigits] using digit
    exact .intro minus (mantissa_scanFraction digits around) (power_scanExponent exponentDigits)
  · -- Without a digit the scan stops before an exponent and has none to show.
    simp [digit] at hasDigits

theorem number_of_read {finish : Location} {ts : List Token} {s : Step Numeral ts}
    (read : Numeral.read finish ts = .ok s) : Number ts s.value s.rest ∧ s.value.InRange := by
  simp only [Numeral.read] at read
  split at read
  next wellFormed =>
    split at read
    next inRange =>
      cases read
      exact ⟨number_scan wellFormed, inRange⟩
    next => cases read
  next =>
    split at read
    next => cases read
    next => cases read

/-! ### Annotations -/

theorem names_of_keyOf? {s : Symbol} {key : Key} (keyed : Annotation.keyOf? s = some key) :
    Names s key := by
  cases s with
  | literal b =>
    cases keyed
    exact .literal b
  | escaped b =>
    cases keyed
    exact .escaped b
  | mark m =>
    cases m with
    | dot =>
      cases keyed
      exact .point
    | _ => cases keyed
  | _ => cases keyed

theorem argument_of_readParameter {finish : Location} {ts : List Token} {s : Step Parameter ts}
    (read : readParameter finish ts = .ok s) : Argument ts s.value s.rest := by
  unfold readParameter at read
  split at read
  next t place us =>
    split at read
    next => cases read
    next key keyed =>
      obtain ⟨number, numberRead, given⟩ := exists_of_bind_eq_ok read
      cases given
      obtain ⟨phrase, inRange⟩ := number_of_read numberRead
      exact .named (names_of_keyOf? keyed) phrase inRange
  next =>
    obtain ⟨number, numberRead, given⟩ := exists_of_bind_eq_ok read
    cases given
    obtain ⟨phrase, inRange⟩ := number_of_read numberRead
    cases ts with
    | nil => exact absurd number.shorter (Nat.not_lt_zero _)
    | cons t ts => exact .positional phrase inRange

theorem arguments_of_readParameters {finish : Location} {ts : List Token}
    {s : Step (List Parameter) ts} (read : readParameters finish ts = .ok s) :
    Arguments ts s.value s.rest := by
  fun_induction readParameters finish ts with
  | case1 ts inductionHypothesis =>
    obtain ⟨first, firstRead, continued⟩ := exists_of_bind_eq_ok read
    have argument := argument_of_readParameter firstRead
    split at continued
    next place us restEq =>
      obtain ⟨others, othersRead, given⟩ := exists_of_bind_eq_ok continued
      cases given
      rw [restEq] at argument
      exact .more argument (inductionHypothesis _ _ _ restEq othersRead)
    next =>
      cases continued
      exact .last argument

theorem argumentList_of_readArguments {finish : Location} {ts : List Token}
    {s : Span (List Parameter) ts} (noLetter : ¬ (peekSymbol ts).isLetter)
    (read : readArguments finish ts = .ok s) : ArgumentList ts s.value s.rest := by
  unfold readArguments at read
  split at read
  next place us =>
    obtain ⟨list, listRead, given⟩ := exists_of_bind_eq_ok read
    cases given
    unfold readParameterList at listRead
    split at listRead
    next place' rest =>
      cases listRead
      exact .empty place place' rest
    next =>
      obtain ⟨parameters, parametersRead, closed⟩ := exists_of_bind_eq_ok listRead
      have arguments := arguments_of_readParameters parametersRead
      split at closed
      next place' rest restEq =>
        cases closed
        rw [restEq] at arguments
        exact .listed arguments
      next => cases closed
      next => cases closed
  next noParen =>
    cases read
    refine .absent noLetter ?_
    intro paren
    cases ts with
    | nil => cases paren
    | cons t ts =>
      cases t with
      | mk symbol place =>
        cases paren
        exact noParen place ts rfl

/-- The run of letters is read to its end: none follows it. -/
theorem not_peekSymbol_rest_readWhile (p : Symbol → Bool) (stops : ¬ p .stop) (ts : List Token) :
    ¬ p (peekSymbol (readWhile p ts).rest) := by
  induction ts with
  | nil => exact stops
  | cons t ts inductionHypothesis =>
    by_cases holds : p t.symbol
    · rw [rest_readWhile_of_pos holds]
      exact inductionHypothesis
    · rw [rest_readWhile_of_neg holds]
      exact holds

theorem note_of_readOptional {finish : Location} {ts : List Token}
    {s : Span (Option Annotation) ts} (read : readOptional finish ts = .ok s) :
    (s.value = none ∧ s.rest = ts) ∨ ∃ a, s.value = some a ∧ Note ts a s.rest := by
  unfold readOptional at read
  split at read
  next place us =>
    obtain ⟨body, bodyRead, given⟩ := exists_of_bind_eq_ok read
    cases given
    simp only [readBody] at bodyRead
    split at bodyRead
    next => cases bodyRead
    next nonempty =>
      obtain ⟨parameters, parametersRead, made⟩ := exists_of_bind_eq_ok bodyRead
      cases made
      have letters := run_readWhile Symbol.isLetter us
      have noLetter := not_peekSymbol_rest_readWhile Symbol.isLetter (by decide) us
      have list := argumentList_of_readArguments noLetter parametersRead
      exact .inr ⟨_, rfl, .intro letters nonempty list⟩
  next =>
    cases read
    exact .inl ⟨rfl, rfl⟩

/-! ### Classes -/

theorem readNamedEnd_eq_ok {finish place : Location} {ts : List Token} {s : Step Unit ts}
    (read : CharClass.readNamedEnd finish place ts = .ok s) :
    ∃ p q, ts = ⟨.literal 0x3A, p⟩ :: ⟨.mark .rightBracket, q⟩ :: s.rest := by
  unfold CharClass.readNamedEnd at read
  split at read
  next p q rest =>
    cases read
    exact ⟨p, q, rfl⟩
  next => cases read
  next => cases read

theorem member_of_readNamed {finish place : Location} {ts : List Token} {s : Step ClassItem ts}
    (read : CharClass.readNamed finish place ts = .ok s) :
    Member (⟨.mark .leftBracket, place⟩ :: ts) s.value s.rest := by
  unfold CharClass.readNamed at read
  split at read
  next p us =>
    obtain ⟨last, lastRead, named⟩ := exists_of_bind_eq_ok read
    obtain ⟨p₃, p₄, restEq⟩ := readNamedEnd_eq_ok lastRead
    have letters := run_readWhile Symbol.isLetter us
    rw [restEq] at letters
    split at named
    next c known =>
      cases named
      exact .named letters (by simp [Alphabet.posix?, known])
    next => cases named
  next => cases read

/-- A symbol between brackets that opens nothing and closes nothing is a member. -/
theorem member_memberOf {s : Symbol} (place : Location) (rest : List Token)
    (notLeft : s ≠ .mark .leftBracket) (notRight : s ≠ .mark .rightBracket)
    (notLone : s ≠ .loneBackslash) :
    Member (⟨s, place⟩ :: rest) (CharClass.memberOf s) rest := by
  by_cases dot : s = .mark .dot
  · subst dot
    exact .wildcard place rest
  by_cases named : ∃ name, s = .shorthand name
  · obtain ⟨name, rfl⟩ := named
    exact .shorthand name place rest
  have literal : CharClass.memberOf s = .literal s.value := by
    unfold CharClass.memberOf
    split
    next => exact absurd rfl dot
    next name => exact absurd ⟨name, rfl⟩ named
    next => rfl
  rw [literal]
  exact .single place rest dot (fun name equal => named ⟨name, equal⟩) notLeft notRight notLone

theorem members_of_readMembers {finish place : Location} {ts : List Token}
    {s : Step (List ClassItem) ts} (read : CharClass.readMembers finish place ts = .ok s) :
    ∃ q, Members ts s.value (⟨.mark .rightBracket, q⟩ :: s.rest) := by
  fun_induction CharClass.readMembers finish place ts with
  | case1 => cases read
  | case2 q rest =>
    cases read
    exact ⟨q, .done _⟩
  | case3 => cases read
  | case4 p us inductionHypothesis =>
    obtain ⟨member, memberRead, continued⟩ := exists_of_bind_eq_ok read
    obtain ⟨others, othersRead, given⟩ := exists_of_bind_eq_ok continued
    cases given
    obtain ⟨q, members⟩ := inductionHypothesis member othersRead
    exact ⟨q, .more (member_of_readNamed memberRead) members⟩
  | case5 symbol p us notRight notLone notLeft inductionHypothesis =>
    obtain ⟨others, othersRead, given⟩ := exists_of_bind_eq_ok read
    cases given
    obtain ⟨q, members⟩ := inductionHypothesis othersRead
    exact ⟨q, .more (member_memberOf p us notLeft notRight notLone) members⟩

theorem negation_readNegation (ts : List Token) :
    Negation ts (CharClass.readNegation ts).value (CharClass.readNegation ts).rest := by
  unfold CharClass.readNegation
  split
  next place us => exact .present place us
  next noCaret =>
    refine .absent ?_
    intro caret
    cases ts with
    | nil => cases caret
    | cons t ts =>
      cases t with
      | mk symbol place =>
        cases caret
        exact noCaret place ts rfl

/-- A class is made of its members, its alphabet and the annotation behind it. -/
theorem attached_of_readAnnotation {finish place : Location} {written : Thunk Text}
    {members : List ClassItem} {negated bracketed : Bool} {ts : List Token}
    {s : Span CharClass ts}
    (read : CharClass.readAnnotation finish place written members negated bracketed ts = .ok s) :
    alphabetOf members negated ≠ [] ∧
      ∃ d, s.value = { members, negated, bracketed, distribution := d } ∧
        Attached (·.onClass (alphabetOf members negated)) ts d s.rest := by
  simp only [CharClass.readAnnotation] at read
  split at read
  next => cases read
  next inhabited =>
    refine ⟨inhabited, ?_⟩
    obtain ⟨note, noteRead, made⟩ := exists_of_bind_eq_ok read
    rcases note_of_readOptional noteRead with ⟨noneEq, stays⟩ | ⟨a, someEq, phrase⟩
    · rw [noneEq] at made
      cases made
      rw [Span.rest_map, stays]
      exact ⟨none, rfl, .absent ts⟩
    · rw [someEq] at made
      obtain ⟨d, means, given⟩ := exists_of_bind_eq_ok made
      cases given
      exact ⟨some d, rfl, .present phrase means⟩

theorem class_of_read {finish : Location} {ts : List Token} {s : Step CharClass ts}
    (read : CharClass.read finish ts = .ok s) : Class ts s.value s.rest := by
  unfold CharClass.read at read
  split at read
  next name place us =>
    obtain ⟨c, annotationRead, given⟩ := exists_of_bind_eq_ok read
    cases given
    obtain ⟨inhabited, d, valueEq, attached⟩ := attached_of_readAnnotation annotationRead
    rw [Step.value_cons, Step.rest_cons, valueEq]
    exact .shorthand inhabited attached
  next place us =>
    obtain ⟨members, membersRead, made⟩ := exists_of_bind_eq_ok read
    obtain ⟨q, listed⟩ := members_of_readMembers membersRead
    split at made
    next => cases made
    next nonempty =>
      obtain ⟨c, annotationRead, given⟩ := exists_of_bind_eq_ok made
      cases given
      obtain ⟨inhabited, d, valueEq, attached⟩ := attached_of_readAnnotation annotationRead
      change Class _ c.value c.rest
      rw [valueEq]
      exact .bracketed (negation_readNegation us) listed nonempty inhabited attached
  next => cases read

/-! ### Repeats -/

theorem count_of_readCount {finish : Location} {ts : List Token} {s : Step UInt64 ts}
    (read : Repeat.readCount finish ts = .ok s) : Count ts s.value s.rest := by
  unfold Repeat.readCount at read
  split at read
  next t us =>
    split at read
    next digit =>
      simp only at read
      split at read
      next => cases read
      next limited =>
        cases read
        exact .intro (.more digit (run_readWhile Symbol.isDigit us)) (by simp)
          (Nat.le_of_not_lt limited)
    next => cases read
  next => cases read

theorem maximum_of_readMaximum {finish : Location} {ts : List Token} {s : Span (Option UInt64) ts}
    (read : Repeat.readMaximum finish ts = .ok s) : Maximum ts s.value s.rest := by
  unfold Repeat.readMaximum at read
  split at read
  next =>
    obtain ⟨count, countRead, given⟩ := exists_of_bind_eq_ok read
    cases given
    exact .present (count_of_readCount countRead)
  next =>
    cases read
    exact .absent ts

/-- The numbers between braces: one of them, or a minimum and a maximum around a comma. -/
theorem range_of_readRange {finish : Location} {ts : List Token} {s : Step Repeat.Range ts}
    (read : Repeat.readRange finish ts = .ok s) :
    (∃ n, s.value = .exact n ∧ Count ts n s.rest) ∨
      ∃ min max place us, s.value = .between min max ∧
        Count ts min (⟨.mark .comma, place⟩ :: us) ∧ Maximum us max s.rest := by
  obtain ⟨min, minRead, continued⟩ := exists_of_bind_eq_ok read
  have minimum := count_of_readCount minRead
  split at continued
  next place us restEq =>
    obtain ⟨max, maxRead, given⟩ := exists_of_bind_eq_ok continued
    cases given
    rw [restEq] at minimum
    exact .inr ⟨min.value, max.value, place, us, rfl, minimum, maximum_of_readMaximum maxRead⟩
  next =>
    cases continued
    exact .inl ⟨min.value, rfl, minimum⟩

/-- Between braces there are numbers, an optional annotation and the closing brace. -/
theorem readBraces_eq_ok {finish place : Location} {ts : List Token} {s : Step Repeat.Braces ts}
    (read : Repeat.readBraces finish place ts = .ok s) :
    ∃ (range : Step Repeat.Range ts) (note : Span (Option Annotation) range.rest) (q : Location),
      Repeat.readRange finish ts = .ok range ∧
        readOptional finish range.rest = .ok note ∧
        note.rest = ⟨.mark .rightBrace, q⟩ :: s.rest ∧ s.value = ⟨range.value, note.value⟩ := by
  unfold Repeat.readBraces at read
  split at read
  next => cases read
  next =>
    obtain ⟨range, rangeRead, noted⟩ := exists_of_bind_eq_ok read
    obtain ⟨note, noteRead, closed⟩ := exists_of_bind_eq_ok noted
    dsimp only at closed
    split at closed
    next q rest restEq =>
      cases closed
      exact ⟨range, note, q, rangeRead, noteRead, restEq, rfl⟩
    next => cases closed
    next => cases closed

/-- Bounds that are not inverted: a maximum that is there is not below the minimum. -/
theorem min_le_of_not_inverted {min : UInt64} {max : Option UInt64}
    (ordered : ¬ (Bounds.mk min max).ceiling < min) : ∀ m ∈ max, min ≤ m := by
  intro m present
  cases present
  exact UInt64.not_lt.1 ordered

/-- A single number between braces. With an annotation it is the baseline and no bound. -/
theorem quantifier_of_exact {place start q : Location} {written : Thunk Text} {n : UInt64}
    {ts us rest : List Token} {finish : Location} {note : Span (Option Annotation) us}
    {r : Repeat} (count : Count ts n us)
    (noteRead : readOptional finish us = .ok note)
    (closed : note.rest = ⟨.mark .rightBrace, q⟩ :: rest)
    (made : Repeat.ofBraces place written ⟨.exact n, note.value⟩ = .ok r) :
    Quantifier (⟨.mark .leftBrace, start⟩ :: ts) r rest := by
  simp only [Repeat.ofBraces] at made
  split at made
  next => cases made
  next =>
    rcases note_of_readOptional noteRead with ⟨noneEq, stays⟩ | ⟨a, someEq, phrase⟩
    · rw [noneEq] at made
      cases made
      rw [← stays, closed] at count
      exact .exact count
    · rw [someEq] at made
      obtain ⟨d, means, given⟩ := exists_of_bind_eq_ok made
      cases given
      rw [closed] at phrase
      exact .drawn count phrase means

/-- A minimum and a maximum between braces. -/
theorem quantifier_of_between {place start comma q : Location} {written : Thunk Text}
    {min : UInt64} {max : Option UInt64} {ts us vs rest : List Token} {finish : Location}
    {note : Span (Option Annotation) vs} {r : Repeat}
    (minimum : Count ts min (⟨.mark .comma, comma⟩ :: us)) (maximum : Maximum us max vs)
    (noteRead : readOptional finish vs = .ok note)
    (closed : note.rest = ⟨.mark .rightBrace, q⟩ :: rest)
    (made : Repeat.ofBraces place written ⟨.between min max, note.value⟩ = .ok r) :
    Quantifier (⟨.mark .leftBrace, start⟩ :: ts) r rest := by
  simp only [Repeat.ofBraces] at made
  split at made
  next => cases made
  next ordered =>
    have between : ∀ {d : Option Distribution},
        Attached (·.onRepeat min) vs d (⟨.mark .rightBrace, q⟩ :: rest) →
        Quantifier (⟨.mark .leftBrace, start⟩ :: ts) ⟨⟨min, max⟩, d⟩ rest :=
      .between minimum maximum (min_le_of_not_inverted ordered)
    rcases note_of_readOptional noteRead with ⟨noneEq, stays⟩ | ⟨a, someEq, phrase⟩
    · rw [noneEq] at made
      cases made
      rw [closed] at stays
      rw [← stays] at between
      exact between (.absent _)
    · rw [someEq] at made
      obtain ⟨d, means, given⟩ := exists_of_bind_eq_ok made
      cases given
      rw [closed] at phrase
      exact between (.present phrase means)

theorem marks_of_markBounds? {s : Symbol} {bounds : Bounds}
    (marked : Repeat.markBounds? s = some bounds) : ∃ m, s = .mark m ∧ Marks m bounds := by
  unfold Repeat.markBounds? at marked
  split at marked
  next => cases marked; exact ⟨.star, rfl, .star⟩
  next => cases marked; exact ⟨.plus, rfl, .plus⟩
  next => cases marked; exact ⟨.question, rfl, .question⟩
  next => cases marked

theorem quantifier_of_read {finish : Location} {ts : List Token} {s : Step Repeat ts}
    (read : Repeat.read finish ts = .ok s) : Quantifier ts s.value s.rest := by
  unfold Repeat.read at read
  split at read
  next place us =>
    obtain ⟨inside, insideRead, continued⟩ := exists_of_bind_eq_ok read
    obtain ⟨r, made, given⟩ := exists_of_bind_eq_ok continued
    cases given
    obtain ⟨range, note, q, rangeRead, noteRead, closed, insideEq⟩ := readBraces_eq_ok insideRead
    rw [insideEq] at made
    rcases range_of_readRange rangeRead with
      ⟨n, exactEq, count⟩ | ⟨min, max, comma, vs, betweenEq, minimum, maximum⟩
    · rw [exactEq] at made
      exact quantifier_of_exact count noteRead closed made
    · rw [betweenEq] at made
      exact quantifier_of_between minimum maximum noteRead closed made
  next t us _ =>
    split at read
    next bounds marked =>
      obtain ⟨note, noteRead, continued⟩ := exists_of_bind_eq_ok read
      obtain ⟨r, made, given⟩ := exists_of_bind_eq_ok continued
      cases given
      cases t with
      | mk symbol place =>
        obtain ⟨m, rfl, marks⟩ := marks_of_markBounds? marked
        rcases note_of_readOptional noteRead with ⟨noneEq, stays⟩ | ⟨a, someEq, phrase⟩
        · rw [noneEq] at made
          cases made
          rw [Step.rest_cons, Span.rest_map, stays]
          exact .mark marks (.absent us)
        · rw [someEq] at made
          obtain ⟨d, means, given⟩ := exists_of_bind_eq_ok made
          cases given
          exact .mark marks (.present phrase means)
    next => cases read
  next => cases read

/-! ### Patterns -/

/-- A reader for the inside of groups reads choices of the level below. -/
def InnerSound (inner : Option (Reader Node)) (depth : Nat) : Prop :=
  ∀ read ∈ inner, ∃ below, depth = below + 1 ∧
    ∀ (ts : List Token) (s : Step Node ts), read ts = .ok s →
      Derives below (.alternation s.value) ts s.rest

section Levels

variable {finish : Location} {inner : Option (Reader Node)} {depth : Nat}

theorem derives_of_readGroup {place : Location} {ts : List Token} {s : Step Node ts}
    (sound : InnerSound inner depth) (read : Node.readGroup inner place ts = .ok s) :
    Derives depth (.atom s.value) (⟨.mark .leftParen, place⟩ :: ts) s.rest := by
  unfold Node.readGroup at read
  split at read
  next => cases read
  next =>
    split at read
    next => cases read
    next readInner =>
      obtain ⟨below, rfl, contentSound⟩ := sound readInner rfl
      obtain ⟨content, contentRead, closed⟩ := exists_of_bind_eq_ok read
      have derived := contentSound ts content contentRead
      split at closed
      next place' rest restEq =>
        cases closed
        rw [restEq] at derived
        exact .group derived
      next => cases closed
      next => cases closed

theorem derives_of_readClass {t : Token} {us : List Token} {s : Step Node (t :: us)}
    (read : (CharClass.read finish (t :: us) >>= fun c =>
      .ok (c.map (.charClass t.place.offset))) = (.ok s : Except Refusal (Step Node (t :: us)))) :
    Derives depth (.atom s.value) (t :: us) s.rest := by
  obtain ⟨c, classRead, given⟩ := exists_of_bind_eq_ok read
  cases given
  exact .charClass depth (class_of_read classRead)

theorem derives_of_readAtom {ts : List Token} {s : Step Node ts} (sound : InnerSound inner depth)
    (read : Node.readAtom finish inner ts = .ok s) : Derives depth (.atom s.value) ts s.rest := by
  match ts, s, read with
  | [], _, read => cases read
  | ⟨symbol, place⟩ :: us, s, read =>
    cases symbol with
    | literal b =>
      cases read
      exact .literal depth b place us
    | escaped b =>
      cases read
      exact .escaped depth b place us
    | shorthand name => exact derives_of_readClass read
    | mark m =>
      cases m with
      | dot =>
        cases read
        exact .wildcard depth place us
      | leftParen =>
        obtain ⟨group, groupRead, given⟩ := exists_of_bind_eq_ok read
        cases given
        exact derives_of_readGroup sound groupRead
      | leftBracket => exact derives_of_readClass read
      | _ => cases read
    | loneBackslash => cases read
    | stop => cases read

theorem derives_of_readFactor {ts : List Token} {s : Step Node ts} (sound : InnerSound inner depth)
    (read : Node.readFactor finish inner ts = .ok s) :
    Derives depth (.factor s.value) ts s.rest := by
  obtain ⟨atom, atomRead, continued⟩ := exists_of_bind_eq_ok read
  have derived := derives_of_readAtom sound atomRead
  split at continued
  next =>
    obtain ⟨r, repeatRead, stacked⟩ := exists_of_bind_eq_ok continued
    dsimp only at stacked
    split at stacked
    next => cases stacked
    next =>
      cases stacked
      exact .repeated derived (quantifier_of_read repeatRead)
  next =>
    cases continued
    exact .bare derived

theorem derives_of_readFactors {ts : List Token} {s : Step (List Node) ts}
    (sound : InnerSound inner depth) (read : Node.readFactors finish inner ts = .ok s) :
    Derives depth (.factors s.value) ts s.rest := by
  fun_induction Node.readFactors finish inner ts with
  | case1 ts inductionHypothesis =>
    obtain ⟨first, firstRead, continued⟩ := exists_of_bind_eq_ok read
    have factor := derives_of_readFactor sound firstRead
    split at continued
    next =>
      obtain ⟨others, othersRead, given⟩ := exists_of_bind_eq_ok continued
      cases given
      exact .moreFactors factor (inductionHypothesis first othersRead)
    next =>
      cases continued
      exact .lastFactor factor

theorem derives_of_readExpression {ts : List Token} {s : Step Node ts}
    (sound : InnerSound inner depth) (read : Node.readExpression finish inner ts = .ok s) :
    Derives depth (.expression s.value) ts s.rest := by
  unfold Node.readExpression at read
  split at read
  next =>
    obtain ⟨factors, factorsRead, given⟩ := exists_of_bind_eq_ok read
    cases given
    cases ts with
    | nil => exact absurd factors.shorter (Nat.not_lt_zero _)
    | cons t ts => exact .sequence (derives_of_readFactors sound factorsRead)
  next => cases read

theorem derives_of_readBranches {ts : List Token} {s : Step (List Node) ts}
    (sound : InnerSound inner depth) (read : Node.readBranches finish inner ts = .ok s) :
    Derives depth (.branches s.value) ts s.rest := by
  fun_induction Node.readBranches finish inner ts with
  | case1 ts inductionHypothesis =>
    obtain ⟨first, firstRead, continued⟩ := exists_of_bind_eq_ok read
    have branch := derives_of_readExpression sound firstRead
    split at continued
    next place us restEq =>
      split at continued
      next => cases continued
      next =>
        obtain ⟨others, othersRead, given⟩ := exists_of_bind_eq_ok continued
        cases given
        rw [restEq] at branch
        exact .moreBranches branch (inductionHypothesis _ _ _ restEq othersRead)
    next =>
      cases continued
      exact .lastBranch branch

theorem derives_of_readAlternation {ts : List Token} {s : Step Node ts}
    (sound : InnerSound inner depth) (read : Node.readAlternation finish inner ts = .ok s) :
    Derives depth (.alternation s.value) ts s.rest := by
  unfold Node.readAlternation at read
  split at read
  next => cases read
  next =>
    obtain ⟨branches, branchesRead, given⟩ := exists_of_bind_eq_ok read
    cases given
    cases ts with
    | nil => exact absurd branches.shorter (Nat.not_lt_zero _)
    | cons t ts => exact .choice (derives_of_readBranches sound branchesRead)

end Levels

/-- What is read where groups may be nested to a depth is derived at that depth. -/
theorem derives_of_readNested {finish : Location} (depth : Nat) {ts : List Token}
    {s : Step Node ts} (read : Node.readNested finish depth ts = .ok s) :
    Derives depth (.alternation s.value) ts s.rest := by
  induction depth generalizing ts with
  | zero =>
    have sound : InnerSound none 0 := by
      intro _ present
      cases present
    exact derives_of_readAlternation sound read
  | succ depth inductionHypothesis =>
    have sound : InnerSound (some (Node.readNested finish depth)) (depth + 1) := by
      intro _ present
      cases present
      exact ⟨depth, rfl, fun ts s => inductionHypothesis⟩
    exact derives_of_readAlternation sound read

theorem startAnchor_readStartAnchor (ts : List Token) :
    StartAnchor ts (Pattern.readStartAnchor ts).value (Pattern.readStartAnchor ts).rest := by
  unfold Pattern.readStartAnchor
  split
  next place us => exact .present place us
  next => exact .absent ts

theorem endAnchor_of_isEndAnchor {ts : List Token} (anchored : Pattern.isEndAnchor ts) :
    EndAnchor ts true := by
  unfold Pattern.isEndAnchor at anchored
  split at anchored
  next place => exact .present place
  next => cases anchored

/-- The tokens of a pattern that is read are accepted, with the tree and the anchors it has. -/
theorem accepts_of_ofTokens {source : Text} {finish : Location} {ts : List Token} {p : Pattern}
    (read : Pattern.ofTokens source finish ts = .ok p) :
    Accepts ts p.root p.startAnchor p.endAnchor ∧ p.source = source := by
  have atStart := startAnchor_readStartAnchor ts
  simp only [Pattern.ofTokens] at read
  split at read
  next => cases read
  next =>
    obtain ⟨root, rootRead, continued⟩ := exists_of_bind_eq_ok read
    have content := derives_of_readNested maxGroupDepth rootRead
    split at continued
    next anchored =>
      cases continued
      exact ⟨.intro atStart content (endAnchor_of_isEndAnchor anchored), rfl⟩
    next =>
      split at continued
      next restEq =>
        cases continued
        rw [restEq] at content
        exact ⟨.intro atStart content .absent, rfl⟩
      next => cases continued

end PatternSampler.Grammar
