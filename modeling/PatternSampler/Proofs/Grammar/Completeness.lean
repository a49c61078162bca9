/-
Module: PatternSampler.Proofs.Grammar.Completeness
Purpose: What the grammar derives is read. The readers take the longest piece that can belong
  to a phrase and look no further, so a phrase is read as derived if what follows it in
  the text cannot continue it. At the end of a pattern nothing follows, and from there the
  condition is handed down to every phrase inside.
Main exports: Grammar.Form.Follows, Grammar.read_of_derives, Grammar.ofTokens_of_accepts
-/
import PatternSampler.Proofs.Grammar

namespace PatternSampler.Grammar

open Annotation (readParameter readParameters readParameterList readArguments readBody readOptional)

/-- A run is read to its end if what follows does not continue it. -/
theorem readWhile_of_run {p : Symbol → Bool} {ts rest : List Token} {bytes : Text}
    (run : Run p ts bytes rest) (stops : ¬ p (peekSymbol rest)) :
    (readWhile p ts).value = bytes ∧ (readWhile p ts).rest = rest := by
  induction run with
  | done rest =>
    cases rest with
    | nil => exact ⟨rfl, rfl⟩
    | cons t rest => exact ⟨value_readWhile_of_neg stops rest, rest_readWhile_of_neg stops rest⟩
  | more holds others inductionHypothesis =>
    obtain ⟨valueEq, restEq⟩ := inductionHypothesis stops
    rw [value_readWhile_of_pos holds, rest_readWhile_of_pos holds, valueEq, restEq]
    exact ⟨rfl, rfl⟩

/-- A run that is not empty begins with its property. -/
theorem Run.front {p : Symbol → Bool} {ts rest : List Token} {bytes : Text}
    (run : Run p ts bytes rest) (nonempty : bytes ≠ []) : p (peekSymbol ts) := by
  cases run with
  | done => exact absurd rfl nonempty
  | more holds others => exact holds

/-! ### Numbers -/

/-- The symbols that end a parameter. -/
def EndsParameter (s : Symbol) : Prop := s = .mark .comma ∨ s = .mark .rightParen

/-- The symbols that no number goes on with. -/
structure EndsNumber (s : Symbol) : Prop where
  noDigit : ¬ s.isDigit
  noDot : s ≠ .mark .dot
  noLetter : ∀ letter, s = .literal letter → ¬ Numeral.IsExponentLetter letter

theorem EndsParameter.endsNumber {s : Symbol} (ends : EndsParameter s) : EndsNumber s := by
  rcases ends with rfl | rfl
  · exact ⟨by decide, by decide, nofun⟩
  · exact ⟨by decide, by decide, nofun⟩

/-- A number ends where the text does. -/
theorem endsNumber_stop : EndsNumber .stop := ⟨by decide, by decide, nofun⟩

theorem Mantissa.front {ts rest : List Token} {whole : Text} {fraction : Option Text}
    (mantissa : Mantissa ts whole fraction rest) :
    (peekSymbol ts).isDigit ∨ peekSymbol ts = .mark .dot := by
  cases mantissa with
  | integer digits nonempty => exact .inl (digits.front nonempty)
  | pointed digits nonempty => exact .inl (digits.front nonempty)
  | bare => exact .inr rfl

theorem scanMinus_of_minus {ts us : List Token} {negative : Bool} (minus : Minus ts negative us)
    (unsigned : (peekSymbol us).isDigit ∨ peekSymbol us = .mark .dot) :
    (Numeral.scanMinus ts).value = negative ∧ (Numeral.scanMinus ts).rest = us := by
  cases minus with
  | present => exact ⟨rfl, rfl⟩
  | absent =>
    unfold Numeral.scanMinus
    split
    next => rcases unsigned with digit | dot <;> contradiction
    next => exact ⟨rfl, rfl⟩

/-- Behind digits the scan for a point finds the mantissa as derived. -/
theorem scanFraction_of_mantissa {ts rest : List Token} {whole : Text} {fraction : Option Text}
    (mantissa : Mantissa ts whole fraction rest) (noDigit : ¬ (peekSymbol rest).isDigit)
    (noDot : peekSymbol rest ≠ .mark .dot) :
    (Numeral.scanDigits ts).value = whole ∧
      (Numeral.scanFraction (Numeral.scanDigits ts).rest).value = fraction ∧
      (Numeral.scanFraction (Numeral.scanDigits ts).rest).rest = rest := by
  cases mantissa with
  | integer digits nonempty =>
    obtain ⟨valueEq, restEq⟩ := readWhile_of_run digits noDigit
    rw [Numeral.scanDigits, valueEq, restEq]
    unfold Numeral.scanFraction
    split
    next => exact absurd rfl noDot
    next => exact ⟨rfl, rfl, rfl⟩
  | pointed digits nonempty decimals =>
    obtain ⟨valueEq, restEq⟩ := readWhile_of_run digits (by simp [peekSymbol, Symbol.isDigit])
    obtain ⟨fractionEq, afterEq⟩ := readWhile_of_run decimals noDigit
    rw [Numeral.scanDigits, valueEq, restEq]
    exact ⟨rfl, congrArg some fractionEq, afterEq⟩
  | @bare place us _ _ decimals nonempty =>
    obtain ⟨fractionEq, afterEq⟩ := readWhile_of_run decimals noDigit
    have stops : ¬ Symbol.isDigit (.mark .dot) := by simp [Symbol.isDigit]
    rw [Numeral.scanDigits, value_readWhile_of_neg stops, rest_readWhile_of_neg stops]
    exact ⟨rfl, congrArg some fractionEq, afterEq⟩

theorem scanExponentSign_of_sign {ts us : List Token} {sign : Text} (signed : Sign ts sign us)
    (unsigned : (peekSymbol us).isDigit) :
    (Numeral.scanExponentSign ts).value = sign ∧ (Numeral.scanExponentSign ts).rest = us := by
  cases signed with
  | minus => exact ⟨rfl, rfl⟩
  | plus => exact ⟨rfl, rfl⟩
  | absent =>
    unfold Numeral.scanExponentSign
    split
    next => contradiction
    next => contradiction
    next => exact ⟨rfl, rfl⟩

theorem scanExponent_of_power {ts rest : List Token} {e : Option Exponent}
    (power : Power ts e rest) (ends : EndsNumber (peekSymbol rest)) :
    (Numeral.scanExponent ts).value = e ∧ (Numeral.scanExponent ts).rest = rest := by
  cases power with
  | absent =>
    unfold Numeral.scanExponent
    split
    next letter place us =>
      rw [if_neg (ends.noLetter letter rfl)]
      exact ⟨rfl, rfl⟩
    next => exact ⟨rfl, rfl⟩
  | @present letter place ts us _ sign digits opens signed run nonempty =>
    obtain ⟨signEq, afterEq⟩ := scanExponentSign_of_sign signed (run.front nonempty)
    obtain ⟨digitsEq, restEq⟩ := readWhile_of_run run ends.noDigit
    have valueEq : (Numeral.scanExponentTail letter ts).value = ⟨letter, sign, digits⟩ := by
      change Exponent.mk letter (Numeral.scanExponentSign ts).value
        (readWhile Symbol.isDigit (Numeral.scanExponentSign ts).rest).value = _
      rw [signEq, afterEq, digitsEq]
    have tailEq : (Numeral.scanExponentTail letter ts).rest = rest := by
      change (readWhile Symbol.isDigit (Numeral.scanExponentSign ts).rest).rest = _
      rw [afterEq, restEq]
    have letterEq : Numeral.IsExponentLetter letter := opens
    simp only [Numeral.scanExponent, letterEq, if_true]
    exact ⟨congrArg some valueEq, tailEq⟩

/-- What follows a mantissa does not continue it. -/
theorem Power.front {ts rest : List Token} {e : Option Exponent} (power : Power ts e rest)
    (ends : EndsNumber (peekSymbol rest)) :
    ¬ (peekSymbol ts).isDigit ∧ peekSymbol ts ≠ .mark .dot := by
  cases power with
  | absent => exact ⟨ends.noDigit, ends.noDot⟩
  | present opens =>
    rcases opens with rfl | rfl
    · exact ⟨by simp [peekSymbol, Symbol.isDigit, IsDigit], by simp [peekSymbol]⟩
    · exact ⟨by simp [peekSymbol, Symbol.isDigit, IsDigit], by simp [peekSymbol]⟩

theorem Number.wellFormed {ts rest : List Token} {n : Numeral} (number : Number ts n rest) :
    n.WellFormed := by
  cases number with
  | intro minus mantissa power =>
    constructor
    · cases mantissa with
      | integer digits nonempty => simp [Numeral.hasDigits, nonempty]
      | pointed digits nonempty => simp [Numeral.hasDigits, nonempty]
      | bare decimals nonempty => simp [Numeral.hasDigits, nonempty]
    · intro e present
      cases power with
      | absent => cases present
      | present opens signed run nonempty =>
        cases present
        exact nonempty

/-- A number that does not go on is scanned as derived. -/
theorem scan_of_number {ts rest : List Token} {n : Numeral} (number : Number ts n rest)
    (ends : EndsNumber (peekSymbol rest)) :
    (Numeral.scan ts).value = n ∧ (Numeral.scan ts).rest = rest := by
  have hasDigits := number.wellFormed.1
  cases number with
  | @intro us vs _ negative whole fraction exponent minus mantissa power =>
    obtain ⟨minusEq, unsignedEq⟩ := scanMinus_of_minus minus mantissa.front
    obtain ⟨noDigit, noDot⟩ := power.front ends
    obtain ⟨wholeEq, fractionEq, afterEq⟩ := scanFraction_of_mantissa mantissa noDigit noDot
    obtain ⟨exponentEq, restEq⟩ := scanExponent_of_power power ends
    have mantissaEq : (Numeral.scanMantissa ts).value = ⟨negative, whole, fraction, none⟩ := by
      change Numeral.mk (Numeral.scanMinus ts).value
        (Numeral.scanDigits (Numeral.scanMinus ts).rest).value
        (Numeral.scanFraction (Numeral.scanDigits (Numeral.scanMinus ts).rest).rest).value none = _
      rw [minusEq, unsignedEq, wholeEq, fractionEq]
    have powerEq : (Numeral.scanMantissa ts).rest = vs := by
      change (Numeral.scanFraction
        (Numeral.scanDigits (Numeral.scanMinus ts).rest).rest).rest = _
      rw [unsignedEq, afterEq]
    have digit : (Numeral.scanMantissa ts).value.hasDigits := by
      rw [mantissaEq]
      exact hasDigits
    simp only [Numeral.scan, digit, if_true]
    rw [powerEq, mantissaEq, exponentEq]
    exact ⟨rfl, restEq⟩

theorem read_of_number (finish : Location) {ts rest : List Token} {n : Numeral}
    (number : Number ts n rest) (inRange : n.InRange) (ends : EndsParameter (peekSymbol rest)) :
    ∃ s, Numeral.read finish ts = .ok s ∧ s.value = n ∧ s.rest = rest := by
  obtain ⟨valueEq, restEq⟩ := scan_of_number number ends.endsNumber
  have wellFormed : (Numeral.scan ts).value.WellFormed := by
    rw [valueEq]
    exact number.wellFormed
  have finite : (Numeral.scan ts).value.InRange := by
    rw [valueEq]
    exact inRange
  refine ⟨⟨Numeral.scan ts, Numeral.length_rest_scan_lt wellFormed⟩, ?_, valueEq, restEq⟩
  simp only [Numeral.read, wellFormed, finite, dif_pos, if_pos]

/-! ### Parameters

A parameter has a key exactly if its second symbol is an equals sign, so that sign must not occur
in a number. -/

/-- The tokens in front of an end piece have a property. -/
def Between (p : Symbol → Prop) (ts rest : List Token) : Prop :=
  ∃ front, ts = front ++ rest ∧ ∀ t ∈ front, p t.symbol

theorem Between.refl (p : Symbol → Prop) (ts : List Token) : Between p ts ts :=
  ⟨[], rfl, by simp⟩

theorem Between.cons {p : Symbol → Prop} {t : Token} {ts rest : List Token} (first : p t.symbol)
    (others : Between p ts rest) : Between p (t :: ts) rest := by
  obtain ⟨front, rfl, holds⟩ := others
  refine ⟨t :: front, rfl, ?_⟩
  intro u member
  rcases List.mem_cons.1 member with rfl | tail
  · exact first
  · exact holds u tail

theorem Between.trans {p : Symbol → Prop} {ts us rest : List Token} (first : Between p ts us)
    (second : Between p us rest) : Between p ts rest := by
  obtain ⟨front, rfl, frontHolds⟩ := first
  obtain ⟨middle, rfl, middleHolds⟩ := second
  refine ⟨front ++ middle, by simp, ?_⟩
  intro t member
  rcases List.mem_append.1 member with left | right
  · exact frontHolds t left
  · exact middleHolds t right

theorem Run.between {p : Symbol → Bool} {q : Symbol → Prop} {ts rest : List Token} {bytes : Text}
    (run : Run p ts bytes rest) (implies : ∀ s, p s → q s) : Between q ts rest := by
  induction run with
  | done rest => exact .refl q rest
  | more holds others inductionHypothesis => exact .cons (implies _ holds) inductionHypothesis

/-- A number consists of digits, signs, points and letters for exponents. -/
theorem Number.between {q : Symbol → Prop} (literal : ∀ b, q (.literal b)) (dot : q (.mark .dot))
    (plus : q (.mark .plus)) {ts rest : List Token} {n : Numeral} (number : Number ts n rest) :
    Between q ts rest := by
  have ofRun : ∀ {ts rest : List Token} {digits : Text}, Run Symbol.isDigit ts digits rest →
      Between q ts rest := by
    intro ts rest digits run
    refine run.between ?_
    intro s digit
    cases s with
    | literal b => exact literal b
    | _ => cases digit
  cases number with
  | @intro us vs _ negative whole fraction exponent minus mantissa power =>
    have first : Between q ts us := by
      cases minus with
      | absent => exact .refl _ _
      | present => exact .cons (literal _) (.refl _ _)
    have second : Between q us vs := by
      cases mantissa with
      | integer digits => exact ofRun digits
      | pointed digits nonempty decimals => exact (ofRun digits).trans (.cons dot (ofRun decimals))
      | bare decimals => exact .cons dot (ofRun decimals)
    have third : Between q vs rest := by
      cases power with
      | absent => exact .refl _ _
      | present opens signed run =>
        refine .cons (literal _) (Between.trans ?_ (ofRun run))
        cases signed with
        | absent => exact .refl _ _
        | minus => exact .cons (literal _) (.refl _ _)
        | plus => exact .cons plus (.refl _ _)
    exact first.trans (second.trans third)

/-- A number begins with a sign, a digit or a point, and so not with the end of a parameter. -/
theorem Number.not_endsParameter {ts rest : List Token} {n : Numeral} (number : Number ts n rest) :
    ¬ EndsParameter (peekSymbol ts) := by
  cases number with
  | intro minus mantissa power =>
    cases minus with
    | present => rintro (equal | equal) <;> cases equal
    | absent =>
      rcases mantissa.front with digit | dot
      · rintro (equal | equal) <;> rw [equal] at digit <;> cases digit
      · rintro (equal | equal) <;> rw [equal] at dot <;> cases dot

theorem Number.second_ne_equals {t : Token} {ts rest : List Token} {n : Numeral}
    (number : Number (t :: ts) n rest) (ends : EndsParameter (peekSymbol rest)) :
    peekSymbol ts ≠ .mark .equals := by
  obtain ⟨front, split, holds⟩ : Between (· ≠ .mark .equals) (t :: ts) rest :=
    number.between (by simp) (by simp) (by simp)
  cases front with
  | nil =>
    rw [List.nil_append] at split
    rw [← split] at ends
    exact absurd ends number.not_endsParameter
  | cons u front =>
    obtain ⟨-, rfl⟩ := List.cons.inj split
    cases front with
    | nil =>
      change peekSymbol rest ≠ _
      rcases ends with equal | equal <;> rw [equal] <;> simp
    | cons v front => exact holds v (by simp)

theorem keyOf?_of_names {s : Symbol} {key : Key} (names : Names s key) :
    Annotation.keyOf? s = some key := by
  cases names with
  | literal => rfl
  | escaped => rfl
  | point => rfl

/-- Without an equals sign behind the first symbol there is only a number to read. -/
theorem readParameter_of_second (finish : Location) {ts : List Token}
    (second : ∀ k place us, ts ≠ k :: ⟨.mark .equals, place⟩ :: us) :
    readParameter finish ts = Numeral.read finish ts >>= fun number =>
      .ok (number.map fun n => .ofNumeral none n (peekPlace finish ts)) := by
  unfold readParameter
  split
  next k place us => exact absurd rfl (second k place us)
  next => rfl

theorem readParameter_of_argument (finish : Location) {ts rest : List Token} {p : Parameter}
    (argument : Argument ts p rest) (ends : EndsParameter (peekSymbol rest)) :
    ∃ s, readParameter finish ts = .ok s ∧ s.value = p ∧ s.rest = rest := by
  cases argument with
  | @positional t ts _ n number inRange =>
    obtain ⟨s, readEq, rfl, rfl⟩ := read_of_number finish number inRange ends
    have second : ∀ k place us, t :: ts ≠ k :: ⟨.mark .equals, place⟩ :: us := by
      rintro k place us equal
      cases equal
      exact number.second_ne_equals ends rfl
    rw [readParameter_of_second finish second, bind_of_eq_ok readEq]
    exact ⟨_, rfl, rfl, rfl⟩
  | named names number inRange =>
    obtain ⟨s, readEq, rfl, rfl⟩ := read_of_number finish number inRange ends
    rw [readParameter]
    simp only [keyOf?_of_names names]
    rw [bind_of_eq_ok readEq]
    exact ⟨_, rfl, rfl, rfl⟩

theorem readParameters_of_arguments (finish : Location) {ts rest : List Token}
    {ps : List Parameter} (arguments : Arguments ts ps rest)
    (closed : peekSymbol rest = .mark .rightParen) :
    ∃ s, readParameters finish ts = .ok s ∧ s.value = ps ∧ s.rest = rest := by
  induction arguments with
  | last argument =>
    obtain ⟨s, readEq, rfl, rfl⟩ := readParameter_of_argument finish argument (.inr closed)
    rw [readParameters, bind_of_eq_ok readEq]
    split
    next place us restEq =>
      rw [restEq] at closed
      cases closed
    next => exact ⟨_, rfl, rfl, rfl⟩
  | more argument others inductionHypothesis =>
    obtain ⟨s, readEq, rfl, restEq⟩ := readParameter_of_argument finish argument (.inl rfl)
    obtain ⟨s', othersEq, rfl, rfl⟩ := inductionHypothesis closed
    rw [readParameters, bind_of_eq_ok readEq]
    split
    next place us restEq' =>
      rw [restEq] at restEq'
      cases restEq'
      rw [bind_of_eq_ok othersEq]
      exact ⟨_, rfl, rfl, rfl⟩
    next noComma => exact absurd restEq (noComma _ _)

/-! ### Annotations -/

theorem Arguments.not_peekSymbol {ts rest : List Token} {ps : List Parameter}
    (arguments : Arguments ts ps rest) : peekSymbol ts ≠ .mark .rightParen := by
  have first : ∀ {ts rest : List Token} {p : Parameter}, Argument ts p rest →
      peekSymbol ts ≠ .mark .rightParen := by
    intro ts rest p argument
    cases argument with
    | positional number => exact fun equal => number.not_endsParameter (.inr equal)
    | named names =>
      cases names with
      | literal => simp [peekSymbol]
      | escaped => simp [peekSymbol]
      | point => simp [peekSymbol]
  cases arguments with
  | last argument => exact first argument
  | more argument => exact first argument

theorem readArguments_of_argumentList (finish : Location) {ts rest : List Token}
    {ps : List Parameter} (list : ArgumentList ts ps rest) :
    ∃ s, readArguments finish ts = .ok s ∧ s.value = ps ∧ s.rest = rest := by
  cases list with
  | absent noLetter noParen =>
    unfold readArguments
    split
    next => exact absurd rfl noParen
    next => exact ⟨_, rfl, rfl, rfl⟩
  | empty => exact ⟨_, rfl, rfl, rfl⟩
  | listed arguments =>
    obtain ⟨s, readEq, rfl, restEq⟩ := readParameters_of_arguments finish arguments rfl
    have inside := arguments.not_peekSymbol
    rw [readArguments]
    unfold readParameterList
    split
    next => exact absurd rfl inside
    next =>
      rw [bind_of_eq_ok readEq]
      split
      next place us restEq' =>
        rw [restEq] at restEq'
        cases restEq'
        exact ⟨_, rfl, rfl, rfl⟩
      next restEq' =>
        rw [restEq] at restEq'
        cases restEq'
      next t us noParen restEq' =>
        rw [restEq] at restEq'
        cases restEq'
        exact (noParen _ rfl).elim

theorem readOptional_of_note (finish : Location) {ts rest : List Token} {a : Annotation}
    (note : Note ts a rest) :
    ∃ s, readOptional finish ts = .ok s ∧ s.value = some a ∧ s.rest = rest := by
  cases note with
  | @intro place ts us _ name ps letters nonempty list =>
    have noLetter : ¬ (peekSymbol us).isLetter := by
      cases list with
      | absent noLetter => exact noLetter
      | empty => simp [peekSymbol, Symbol.isLetter]
      | listed => simp [peekSymbol, Symbol.isLetter]
    obtain ⟨nameEq, restEq⟩ := readWhile_of_run letters noLetter
    rw [← restEq] at list
    obtain ⟨s, readEq, rfl, rfl⟩ := readArguments_of_argumentList finish list
    have bodyEq : ∃ body, readBody finish place ts = .ok body ∧
        body.value = ⟨name, place, s.value⟩ ∧ body.rest = s.rest := by
      simp only [readBody, nameEq, nonempty, if_false]
      rw [bind_of_eq_ok readEq]
      exact ⟨_, rfl, rfl, rfl⟩
    obtain ⟨body, bodyRead, valueEq, afterEq⟩ := bodyEq
    rw [readOptional, bind_of_eq_ok bodyRead]
    exact ⟨_, rfl, congrArg some valueEq, afterEq⟩

/-- An annotation begins with its tilde, which continues no count. -/
theorem Note.front {ts rest : List Token} {a : Annotation} (note : Note ts a rest) :
    ¬ (peekSymbol ts).isDigit ∧ peekSymbol ts ≠ .mark .comma := by
  cases note with
  | intro => exact ⟨Bool.false_ne_true, by simp [peekSymbol]⟩

theorem Attached.not_isDigit {meaning : Annotation → Except Refusal Distribution}
    {ts rest : List Token} {d : Option Distribution} (attached : Attached meaning ts d rest)
    (noDigit : ¬ (peekSymbol rest).isDigit) : ¬ (peekSymbol ts).isDigit := by
  cases attached with
  | absent => exact noDigit
  | present note => exact note.front.1

theorem readOptional_of_ne_tilde (finish : Location) {ts : List Token}
    (noTilde : peekSymbol ts ≠ .mark .tilde) :
    readOptional finish ts = .ok (.stay none) := by
  unfold readOptional
  split
  next => exact absurd rfl noTilde
  next => rfl

/-- An optional annotation is read together with its meaning, and none where no tilde follows. -/
theorem readOptional_of_attached (finish : Location)
    {meaning : Annotation → Except Refusal Distribution} {ts rest : List Token}
    {d : Option Distribution} (attached : Attached meaning ts d rest)
    (noTilde : peekSymbol rest ≠ .mark .tilde) :
    ∃ s, readOptional finish ts = .ok s ∧ s.rest = rest ∧
      ((s.value = none ∧ d = none) ∨
        ∃ a d', s.value = some a ∧ meaning a = .ok d' ∧ d = some d') := by
  cases attached with
  | absent => exact ⟨_, readOptional_of_ne_tilde finish noTilde, rfl, .inl ⟨rfl, rfl⟩⟩
  | present note means =>
    obtain ⟨s, readEq, valueEq, restEq⟩ := readOptional_of_note finish note
    exact ⟨s, readEq, restEq, .inr ⟨_, _, valueEq, means, rfl⟩⟩

/-! ### Classes -/

theorem readNamed_of_member (finish : Location) {place : Location} {us rest : List Token}
    {m : ClassItem} (member : Member (⟨.mark .leftBracket, place⟩ :: us) m rest) :
    ∃ s, CharClass.readNamed finish place us = .ok s ∧ s.value = m ∧ s.rest = rest := by
  cases member with
  | single place rest notDot notShorthand notLeft => exact absurd rfl notLeft
  | @named _ p₂ p₃ p₄ ts _ name letters known =>
    have colonStops : ¬ Symbol.isLetter (.literal 0x3A) := by decide
    obtain ⟨nameEq, restEq⟩ := readWhile_of_run letters colonStops
    obtain ⟨c, found⟩ : ∃ c, Alphabet.NamedClass.ofName? name = some c := by
      simpa [Alphabet.posix?, Option.isSome_iff_exists] using known
    obtain ⟨last, lastEq, afterEq⟩ : ∃ last : Step Unit (readWhile Symbol.isLetter ts).rest,
        CharClass.readNamedEnd finish place (readWhile Symbol.isLetter ts).rest = .ok last ∧
          last.rest = rest := by
      rw [restEq]
      exact ⟨_, rfl, rfl⟩
    rw [CharClass.readNamed, bind_of_eq_ok lastEq]
    split
    next => exact ⟨_, rfl, congrArg ClassItem.posix nameEq, afterEq⟩
    next unknown =>
      rw [nameEq, found] at unknown
      cases unknown

/-- Members are read up to the closing bracket. -/
theorem readMembers_of_members (finish place : Location) {ts rest after : List Token}
    {ms : List ClassItem} {q : Location} (listed : Members ts ms after)
    (closed : after = ⟨.mark .rightBracket, q⟩ :: rest) :
    ∃ s, CharClass.readMembers finish place ts = .ok s ∧ s.value = ms ∧ s.rest = rest := by
  induction listed with
  | done after =>
    subst closed
    rw [CharClass.readMembers]
    exact ⟨_, rfl, rfl, rfl⟩
  | @more ts us after m ms member others inductionHypothesis =>
    obtain ⟨s, othersEq, rfl, rfl⟩ := inductionHypothesis closed
    have phrase := member
    cases member with
    | named letters known =>
      obtain ⟨named, namedEq, valueEq, rfl⟩ := readNamed_of_member finish phrase
      rw [CharClass.readMembers, bind_of_eq_ok namedEq, bind_of_eq_ok othersEq]
      exact ⟨_, rfl, congrArg (· :: s.value) valueEq, rfl⟩
    | wildcard =>
      rw [CharClass.readMembers, bind_of_eq_ok othersEq]
      · exact ⟨_, rfl, rfl, rfl⟩
      all_goals simp
    | shorthand =>
      rw [CharClass.readMembers, bind_of_eq_ok othersEq]
      · exact ⟨_, rfl, rfl, rfl⟩
      all_goals simp
    | @single symbol p _ notDot notShorthand notLeft notRight notLone =>
      have literal : CharClass.memberOf symbol = .literal symbol.value := by
        unfold CharClass.memberOf
        split
        next => exact absurd rfl notDot
        next name => exact absurd rfl (notShorthand name)
        next => rfl
      rw [CharClass.readMembers, bind_of_eq_ok othersEq, literal]
      · exact ⟨_, rfl, rfl, rfl⟩
      · exact notRight
      · exact notLone
      · exact notLeft

theorem readNegation_of_negation {ts us : List Token} {negated : Bool}
    (negation : Negation ts negated us) :
    (CharClass.readNegation ts).value = negated ∧ (CharClass.readNegation ts).rest = us := by
  cases negation with
  | present => exact ⟨rfl, rfl⟩
  | absent noCaret =>
    unfold CharClass.readNegation
    split
    next => exact absurd rfl noCaret
    next => exact ⟨rfl, rfl⟩

theorem readAnnotation_of_attached (finish place : Location) (written : Thunk Text)
    {members : List ClassItem} {negated : Bool} (bracketed : Bool) {ts rest : List Token}
    {d : Option Distribution} (inhabited : alphabetOf members negated ≠ [])
    (attached : Attached (·.onClass (alphabetOf members negated)) ts d rest)
    (noTilde : peekSymbol rest ≠ .mark .tilde) :
    ∃ s, CharClass.readAnnotation finish place written members negated bracketed ts = .ok s ∧
      s.value = { members, negated, bracketed, distribution := d } ∧ s.rest = rest := by
  obtain ⟨note, noteRead, restEq, found⟩ := readOptional_of_attached finish attached noTilde
  simp only [CharClass.readAnnotation, inhabited, if_false]
  rw [bind_of_eq_ok noteRead]
  rcases found with ⟨noneEq, rfl⟩ | ⟨a, d', someEq, means, rfl⟩
  · rw [noneEq]
    exact ⟨_, rfl, rfl, restEq⟩
  · simp only [someEq]
    rw [bind_of_eq_ok means]
    exact ⟨_, rfl, rfl, restEq⟩

theorem read_of_class (finish : Location) {ts rest : List Token} {c : CharClass}
    (phrase : Class ts c rest) (noTilde : peekSymbol rest ≠ .mark .tilde) :
    ∃ s, CharClass.read finish ts = .ok s ∧ s.value = c ∧ s.rest = rest := by
  cases phrase with
  | @shorthand name place us _ d inhabited attached =>
    obtain ⟨s, readEq, valueEq, restEq⟩ := readAnnotation_of_attached finish place
      (Symbol.shorthand name).lexeme false inhabited attached noTilde
    rw [CharClass.read, bind_of_eq_ok readEq]
    exact ⟨_, rfl, valueEq, restEq⟩
  | @bracketed place place' us vs ws _ negated members d negation listed nonempty inhabited
      attached =>
    obtain ⟨negatedEq, afterEq⟩ := readNegation_of_negation negation
    rw [← afterEq] at listed
    obtain ⟨list, listRead, membersEq, closedEq⟩ :=
      readMembers_of_members finish place listed rfl
    rw [CharClass.read, bind_of_eq_ok listRead]
    subst closedEq membersEq negatedEq
    obtain ⟨s, readEq, valueEq, restEq⟩ := readAnnotation_of_attached finish place
      (Token.lexemes (⟨.mark .leftBracket, place⟩ :: tokensBetween us list.rest)) true inhabited
      attached noTilde
    simp only [nonempty, if_false]
    rw [bind_of_eq_ok readEq]
    exact ⟨_, rfl, valueEq, restEq⟩

/-! ### Repeats -/

theorem readCount_of_count (finish : Location) {ts rest : List Token} {n : UInt64}
    (count : Count ts n rest) (noDigit : ¬ (peekSymbol rest).isDigit) :
    ∃ s, Repeat.readCount finish ts = .ok s ∧ s.value = n ∧ s.rest = rest := by
  cases count with
  | @intro _ digits run nonempty limited =>
    cases run with
    | done => exact absurd rfl nonempty
    | @more t us _ bytes holds others =>
      obtain ⟨bytesEq, restEq⟩ := readWhile_of_run others noDigit
      simp only [Repeat.readCount, holds, if_true, bytesEq, Nat.not_lt.2 limited, if_false]
      exact ⟨_, rfl, rfl, restEq⟩

theorem Count.front {ts rest : List Token} {n : UInt64} (count : Count ts n rest) :
    (peekSymbol ts).isDigit := by
  cases count with
  | intro run nonempty => exact run.front nonempty

theorem readMaximum_of_maximum (finish : Location) {ts rest : List Token} {max : Option UInt64}
    (maximum : Maximum ts max rest) (noDigit : ¬ (peekSymbol rest).isDigit) :
    ∃ s, Repeat.readMaximum finish ts = .ok s ∧ s.value = max ∧ s.rest = rest := by
  cases maximum with
  | absent =>
    simp only [Repeat.readMaximum, noDigit]
    exact ⟨_, rfl, rfl, rfl⟩
  | present count =>
    obtain ⟨s, readEq, valueEq, restEq⟩ := readCount_of_count finish count noDigit
    simp only [Repeat.readMaximum, count.front, if_true]
    rw [bind_of_eq_ok readEq]
    exact ⟨_, rfl, congrArg some valueEq, restEq⟩

theorem readRange_of_count (finish : Location) {ts rest : List Token} {n : UInt64}
    (count : Count ts n rest) (noDigit : ¬ (peekSymbol rest).isDigit)
    (noComma : peekSymbol rest ≠ .mark .comma) :
    ∃ s, Repeat.readRange finish ts = .ok s ∧ s.value = .exact n ∧ s.rest = rest := by
  obtain ⟨s, readEq, rfl, rfl⟩ := readCount_of_count finish count noDigit
  rw [Repeat.readRange, bind_of_eq_ok readEq]
  split
  next place us restEq =>
    rw [restEq] at noComma
    exact absurd rfl noComma
  next => exact ⟨_, rfl, rfl, rfl⟩

theorem readRange_of_between (finish : Location) {place : Location} {ts us rest : List Token}
    {min : UInt64} {max : Option UInt64}
    (minimum : Count ts min (⟨.mark .comma, place⟩ :: us)) (maximum : Maximum us max rest)
    (noDigit : ¬ (peekSymbol rest).isDigit) :
    ∃ s, Repeat.readRange finish ts = .ok s ∧ s.value = .between min max ∧ s.rest = rest := by
  obtain ⟨s, readEq, rfl, restEq⟩ := readCount_of_count finish minimum Bool.false_ne_true
  obtain ⟨s', maxEq, rfl, rfl⟩ := readMaximum_of_maximum finish maximum noDigit
  rw [Repeat.readRange, bind_of_eq_ok readEq]
  split
  next place us restEq' =>
    rw [restEq] at restEq'
    cases restEq'
    rw [bind_of_eq_ok maxEq]
    exact ⟨_, rfl, rfl, rfl⟩
  next noComma => exact absurd restEq (noComma _ _)

theorem readBraces_of_range (finish place : Location) {q : Location} {ts us rest : List Token}
    {range : Repeat.Range} {note : Option Annotation}
    (rangeRead : ∃ s, Repeat.readRange finish ts = .ok s ∧ s.value = range ∧ s.rest = us)
    (noteRead : ∃ s, readOptional finish us = .ok s ∧ s.value = note ∧
      s.rest = ⟨.mark .rightBrace, q⟩ :: rest) :
    ∃ s, Repeat.readBraces finish place ts = .ok s ∧ s.value = ⟨range, note⟩ ∧ s.rest = rest := by
  obtain ⟨s, rangeEq, rfl, rfl⟩ := rangeRead
  obtain ⟨s', noteEq, rfl, restEq⟩ := noteRead
  unfold Repeat.readBraces
  split
  next => exact absurd s.shorter (Nat.not_lt_zero _)
  next =>
    rw [bind_of_eq_ok rangeEq, bind_of_eq_ok noteEq]
    dsimp only
    split
    next place us restEq' =>
      change s'.rest = _ at restEq'
      rw [restEq] at restEq'
      cases restEq'
      exact ⟨_, rfl, rfl, rfl⟩
    next restEq' =>
      change s'.rest = _ at restEq'
      rw [restEq] at restEq'
      cases restEq'
    next t us noBrace restEq' =>
      change s'.rest = _ at restEq'
      rw [restEq] at restEq'
      cases restEq'
      exact (noBrace _ rfl).elim

theorem le_maxWord (w : UInt64) : w ≤ maxWord :=
  UInt64.le_iff_toNat_le.2 (toNat_le_maxWord w)

/-- Bounds in order pass the check, whatever annotation stands behind them. -/
theorem ofBraces_of_between (place : Location) (written : Thunk Text) {min : UInt64}
    {max : Option UInt64} (note : Option Annotation) (ordered : ∀ m ∈ max, min ≤ m) :
    Repeat.ofBraces place written ⟨.between min max, note⟩ = Repeat.ofMark ⟨min, max⟩ note := by
  have notInverted : ¬ (Bounds.mk min max).ceiling < min := by
    cases max with
    | none => exact UInt64.not_lt.2 (le_maxWord min)
    | some m => exact UInt64.not_lt.2 (ordered m rfl)
  simp only [Repeat.ofBraces, Repeat.Range.bounds, notInverted, if_false]
  rfl

/-- Behind a mark there is nothing but an annotation to read. -/
theorem read_of_marks (finish place : Location) {m : Mark} {bounds : Bounds}
    (marks : Marks m bounds) (us : List Token) :
    Repeat.read finish (⟨.mark m, place⟩ :: us) =
      readOptional finish us >>= fun note =>
        Repeat.ofMark bounds note.value >>= fun r => .ok (.cons (note.map fun _ => r)) := by
  cases marks with
  | star => rfl
  | plus => rfl
  | question => rfl

/-- An annotation turns the bounds of a repeat into bounds with its distribution. -/
theorem ofMark_of_means (bounds : Bounds) {a : Annotation} {d : Distribution}
    (means : a.onRepeat bounds.min = .ok d) :
    Repeat.ofMark bounds (some a) = .ok ⟨bounds, some d⟩ := by
  simp only [Repeat.ofMark, means]
  rfl

theorem read_of_quantifier (finish : Location) {ts rest : List Token} {r : Repeat}
    (quantifier : Quantifier ts r rest) (noTilde : peekSymbol rest ≠ .mark .tilde) :
    ∃ s, Repeat.read finish ts = .ok s ∧ s.value = r ∧ s.rest = rest := by
  cases quantifier with
  | @mark m place us _ bounds d marks attached =>
    obtain ⟨note, noteRead, restEq, found⟩ := readOptional_of_attached finish attached noTilde
    rw [read_of_marks finish place marks, bind_of_eq_ok noteRead]
    rcases found with ⟨noneEq, rfl⟩ | ⟨a, d', someEq, means, rfl⟩
    · rw [noneEq]
      exact ⟨_, rfl, rfl, restEq⟩
    · rw [someEq, bind_of_eq_ok (ofMark_of_means bounds means)]
      exact ⟨_, rfl, rfl, restEq⟩
  | @exact place place' us _ n count =>
    have rangeRead := readRange_of_count finish count Bool.false_ne_true (by simp [peekSymbol])
    have noTilde' : peekSymbol (⟨.mark .rightBrace, place'⟩ :: rest) ≠ .mark .tilde := by
      simp [peekSymbol]
    have noteRead := readOptional_of_ne_tilde finish noTilde'
    obtain ⟨s, insideEq, valueEq, restEq⟩ := readBraces_of_range finish place rangeRead
      ⟨_, noteRead, rfl, rfl⟩
    rw [Repeat.read, bind_of_eq_ok insideEq, valueEq]
    simp only [Repeat.ofBraces, Repeat.Range.bounds, Bounds.ceiling, Option.getD_some,
      UInt64.lt_irrefl, if_false]
    exact ⟨_, rfl, rfl, restEq⟩
  | @drawn place place' us vs _ n a d count note means =>
    obtain ⟨noDigit, noComma⟩ := note.front
    have rangeRead := readRange_of_count finish count noDigit noComma
    obtain ⟨s, insideEq, valueEq, restEq⟩ := readBraces_of_range finish place rangeRead
      (readOptional_of_note finish note)
    rw [Repeat.read, bind_of_eq_ok insideEq, valueEq]
    simp only [Repeat.ofBraces, Repeat.Range.bounds, Bounds.ceiling, Option.getD_some,
      UInt64.lt_irrefl, if_false, means]
    exact ⟨_, rfl, rfl, restEq⟩
  | @between place place' place'' us vs ws _ min max d minimum maximum ordered attached =>
    obtain ⟨note, noteRead, closedEq, found⟩ :=
      readOptional_of_attached finish attached (by simp [peekSymbol])
    have rangeRead := readRange_of_between finish minimum maximum
      (attached.not_isDigit Bool.false_ne_true)
    obtain ⟨s, insideEq, valueEq, restEq⟩ := readBraces_of_range finish place rangeRead
      ⟨note, noteRead, rfl, closedEq⟩
    rw [Repeat.read, bind_of_eq_ok insideEq, valueEq, ofBraces_of_between _ _ _ ordered]
    rcases found with ⟨noneEq, rfl⟩ | ⟨a, d', someEq, means, rfl⟩
    · rw [noneEq]
      exact ⟨_, rfl, rfl, restEq⟩
    · rw [someEq, bind_of_eq_ok (ofMark_of_means ⟨min, max⟩ means)]
      exact ⟨_, rfl, rfl, restEq⟩

/-! ### Patterns -/

/-- The symbols that may follow a phrase: those that would continue it are not among them. -/
def Form.Follows : Form → Symbol → Prop
  | .atom _, s => s ≠ .mark .tilde
  | .factor _, s => s ≠ .mark .tilde ∧ ¬ s.opensRepeat
  | .factors _, s => s ≠ .mark .tilde ∧ ¬ s.opensRepeat ∧ ¬ s.opensAtom
  | .expression _, s => s ≠ .mark .tilde ∧ ¬ s.opensRepeat ∧ ¬ s.opensAtom
  | .branches _, s => s ≠ .mark .tilde ∧ ¬ s.opensRepeat ∧ ¬ s.opensAtom ∧ s ≠ .mark .pipe
  | .alternation _, s => s ≠ .mark .tilde ∧ ¬ s.opensRepeat ∧ ¬ s.opensAtom ∧ s ≠ .mark .pipe

/-- What begins an atom continues nothing in front of it. -/
theorem follows_factor_of_opensAtom {s : Symbol} (n : Node) (opens : s.opensAtom) :
    (Form.factor n).Follows s := by
  constructor
  · rintro rfl
    cases opens
  · cases s with
    | mark m =>
      revert opens
      cases m <;> decide
    | _ => exact Bool.false_ne_true

/-- A group may be closed behind its content. -/
theorem follows_alternation_rightParen (n : Node) :
    (Form.alternation n).Follows (.mark .rightParen) := by
  refine ⟨?_, Bool.false_ne_true, Bool.false_ne_true, ?_⟩
  · intro equal
    cases equal
  · intro equal
    cases equal

/-- A bar may stand behind a branch. -/
theorem follows_expression_pipe (n : Node) : (Form.expression n).Follows (.mark .pipe) := by
  refine ⟨?_, Bool.false_ne_true, Bool.false_ne_true⟩
  intro equal
  cases equal

theorem Class.opensAtom {ts rest : List Token} {c : CharClass} (phrase : Class ts c rest) :
    (∃ name, peekSymbol ts = .shorthand name) ∨ peekSymbol ts = .mark .leftBracket := by
  cases phrase with
  | shorthand => exact .inl ⟨_, rfl⟩
  | bracketed => exact .inr rfl

/-- Every phrase of the recursive part begins with an atom. -/
theorem Derives.opensAtom {depth : Nat} {form : Form} {ts rest : List Token}
    (derived : Derives depth form ts rest) : (peekSymbol ts).opensAtom := by
  induction derived with
  | literal => rfl
  | escaped => rfl
  | wildcard => rfl
  | charClass _ phrase =>
    rcases phrase.opensAtom with ⟨name, equal⟩ | equal <;> rw [equal] <;> rfl
  | group => rfl
  | bare _ inductionHypothesis => exact inductionHypothesis
  | repeated _ _ inductionHypothesis => exact inductionHypothesis
  | lastFactor _ inductionHypothesis => exact inductionHypothesis
  | moreFactors _ _ inductionHypothesis => exact inductionHypothesis
  | sequence _ inductionHypothesis => exact inductionHypothesis
  | lastBranch _ inductionHypothesis => exact inductionHypothesis
  | moreBranches _ _ inductionHypothesis => exact inductionHypothesis
  | choice _ inductionHypothesis => exact inductionHypothesis

theorem Quantifier.front {ts rest : List Token} {r : Repeat} (quantifier : Quantifier ts r rest) :
    (peekSymbol ts).opensRepeat ∧ peekSymbol ts ≠ .mark .tilde := by
  cases quantifier with
  | mark marks =>
    cases marks with
    | star => exact ⟨rfl, by simp [peekSymbol]⟩
    | plus => exact ⟨rfl, by simp [peekSymbol]⟩
    | question => exact ⟨rfl, by simp [peekSymbol]⟩
  | exact => exact ⟨rfl, by simp [peekSymbol]⟩
  | drawn => exact ⟨rfl, by simp [peekSymbol]⟩
  | between => exact ⟨rfl, by simp [peekSymbol]⟩

/-- The reader for the inside of groups where groups may be nested to a depth. -/
def innerReader (finish : Location) : Nat → Option (Reader Node)
  | 0 => none
  | depth + 1 => some (Node.readNested finish depth)

theorem readNested_eq (finish : Location) (depth : Nat) :
    Node.readNested finish depth = Node.readAlternation finish (innerReader finish depth) := by
  cases depth with
  | zero => rfl
  | succ depth => rfl

/-- The reader of a form gives what the form stands for and leaves the tokens behind it. -/
def Form.IsRead (finish : Location) (depth : Nat) (ts rest : List Token) : Form → Prop
  | .atom n => ∃ s, Node.readAtom finish (innerReader finish depth) ts = .ok s ∧
      s.value = n ∧ s.rest = rest
  | .factor n => ∃ s, Node.readFactor finish (innerReader finish depth) ts = .ok s ∧
      s.value = n ∧ s.rest = rest
  | .factors ns => ∃ s, Node.readFactors finish (innerReader finish depth) ts = .ok s ∧
      s.value = ns ∧ s.rest = rest
  | .expression n => ∃ s, Node.readExpression finish (innerReader finish depth) ts = .ok s ∧
      s.value = n ∧ s.rest = rest
  | .branches ns => ∃ s, Node.readBranches finish (innerReader finish depth) ts = .ok s ∧
      s.value = ns ∧ s.rest = rest
  | .alternation n => ∃ s, Node.readNested finish depth ts = .ok s ∧
      s.value = n ∧ s.rest = rest

section Levels

variable {finish : Location} {depth : Nat}

theorem readAtom_of_class {t : Token} {ts rest : List Token} {c : CharClass}
    (phrase : Class (t :: ts) c rest) (noTilde : peekSymbol rest ≠ .mark .tilde) :
    (Form.atom (.charClass t.place.offset c)).IsRead finish depth (t :: ts) rest := by
  obtain ⟨s, readEq, rfl, rfl⟩ := read_of_class finish phrase noTilde
  cases t with
  | mk symbol place =>
    rcases phrase.opensAtom with ⟨name, equal⟩ | equal
    · cases equal
      change ∃ _, CharClass.read finish _ >>= _ = _ ∧ _
      rw [bind_of_eq_ok readEq]
      exact ⟨_, rfl, rfl, rfl⟩
    · cases equal
      change ∃ _, CharClass.read finish _ >>= _ = _ ∧ _
      rw [bind_of_eq_ok readEq]
      exact ⟨_, rfl, rfl, rfl⟩

theorem readAtom_of_group {place place' : Location} {ts rest : List Token} {n : Node}
    (opens : (peekSymbol ts).opensAtom)
    (content : (Form.alternation n).IsRead finish depth ts (⟨.mark .rightParen, place'⟩ :: rest)) :
    (Form.atom n).IsRead finish (depth + 1) (⟨.mark .leftParen, place⟩ :: ts) rest := by
  obtain ⟨s, readEq, rfl, restEq⟩ := content
  have group : ∃ g, Node.readGroup (innerReader finish (depth + 1)) place ts = .ok g ∧
      g.value = s.value ∧ g.rest = rest := by
    unfold Node.readGroup
    split
    next => cases opens
    next =>
      simp only [innerReader]
      rw [bind_of_eq_ok readEq]
      split
      next place us restEq' =>
        rw [restEq] at restEq'
        cases restEq'
        exact ⟨_, rfl, rfl, rfl⟩
      next restEq' =>
        rw [restEq] at restEq'
        cases restEq'
      next t us noParen restEq' =>
        rw [restEq] at restEq'
        cases restEq'
        exact (noParen _ rfl).elim
  obtain ⟨g, groupEq, valueEq, afterEq⟩ := group
  change ∃ _, Node.readGroup _ place ts >>= _ = _ ∧ _
  rw [bind_of_eq_ok groupEq]
  exact ⟨_, rfl, valueEq, afterEq⟩

theorem readFactor_of_repeated {ts us rest : List Token} {n : Node} {r : Repeat}
    (atom : (Form.atom n).IsRead finish depth ts us) (quantifier : Quantifier us r rest)
    (follows : (Form.factor n).Follows (peekSymbol rest)) :
    (Form.factor (.quantified n.offset r.bounds r.distribution n)).IsRead finish depth ts rest := by
  obtain ⟨s, atomEq, rfl, rfl⟩ := atom
  obtain ⟨noTilde, noRepeat⟩ := follows
  obtain ⟨s', repeatEq, rfl, rfl⟩ := read_of_quantifier finish quantifier noTilde
  change ∃ _, Node.readAtom finish _ ts >>= _ = _ ∧ _
  rw [bind_of_eq_ok atomEq]
  simp only [quantifier.front.1, if_true]
  rw [bind_of_eq_ok repeatEq]
  simp only [Step.rest_thenStep, Step.rest_map, noRepeat]
  exact ⟨_, rfl, rfl, rfl⟩

theorem readFactor_of_bare {ts rest : List Token} {n : Node}
    (atom : (Form.atom n).IsRead finish depth ts rest)
    (noRepeat : ¬ (peekSymbol rest).opensRepeat) :
    (Form.factor n).IsRead finish depth ts rest := by
  obtain ⟨s, atomEq, rfl, rfl⟩ := atom
  change ∃ _, Node.readAtom finish _ ts >>= _ = _ ∧ _
  rw [bind_of_eq_ok atomEq]
  simp only [noRepeat]
  exact ⟨_, rfl, rfl, rfl⟩

theorem readFactors_of_last {ts rest : List Token} {n : Node}
    (factor : (Form.factor n).IsRead finish depth ts rest)
    (noAtom : ¬ (peekSymbol rest).opensAtom) :
    (Form.factors [n]).IsRead finish depth ts rest := by
  obtain ⟨s, factorEq, rfl, rfl⟩ := factor
  change ∃ _, Node.readFactors finish _ ts = _ ∧ _
  rw [Node.readFactors, bind_of_eq_ok factorEq]
  simp only [noAtom]
  exact ⟨_, rfl, rfl, rfl⟩

theorem readFactors_of_more {ts us rest : List Token} {n : Node} {ns : List Node}
    (factor : (Form.factor n).IsRead finish depth ts us) (opens : (peekSymbol us).opensAtom)
    (others : (Form.factors ns).IsRead finish depth us rest) :
    (Form.factors (n :: ns)).IsRead finish depth ts rest := by
  obtain ⟨s, factorEq, rfl, rfl⟩ := factor
  obtain ⟨s', othersEq, rfl, rfl⟩ := others
  change ∃ _, Node.readFactors finish _ ts = _ ∧ _
  rw [Node.readFactors, bind_of_eq_ok factorEq]
  simp only [opens, if_true]
  rw [bind_of_eq_ok othersEq]
  exact ⟨_, rfl, rfl, rfl⟩

theorem readExpression_of_factors {t : Token} {ts rest : List Token} {ns : List Node}
    (opens : t.symbol.opensAtom) (factors : (Form.factors ns).IsRead finish depth (t :: ts) rest) :
    (Form.expression (Node.sequence t.place.offset ns)).IsRead finish depth (t :: ts) rest := by
  obtain ⟨s, factorsEq, rfl, rfl⟩ := factors
  change ∃ _, Node.readExpression finish _ (t :: ts) = _ ∧ _
  simp only [Node.readExpression, peekSymbol, opens, if_true]
  rw [bind_of_eq_ok factorsEq]
  exact ⟨_, rfl, rfl, rfl⟩

theorem readBranches_of_last {ts rest : List Token} {n : Node}
    (branch : (Form.expression n).IsRead finish depth ts rest)
    (noPipe : peekSymbol rest ≠ .mark .pipe) :
    (Form.branches [n]).IsRead finish depth ts rest := by
  obtain ⟨s, branchEq, rfl, rfl⟩ := branch
  change ∃ _, Node.readBranches finish _ ts = _ ∧ _
  rw [Node.readBranches, bind_of_eq_ok branchEq]
  split
  next place us restEq =>
    rw [restEq] at noPipe
    exact absurd rfl noPipe
  next => exact ⟨_, rfl, rfl, rfl⟩

theorem not_endsBranch_of_opensAtom {s : Symbol} (opens : s.opensAtom) :
    ¬ Node.endsBranch s := by
  cases s with
  | mark m =>
    revert opens
    cases m <;> decide
  | stop => cases opens
  | _ => exact Bool.false_ne_true

theorem readBranches_of_more {place : Location} {ts us rest : List Token} {n : Node}
    {ns : List Node}
    (branch : (Form.expression n).IsRead finish depth ts (⟨.mark .pipe, place⟩ :: us))
    (opens : (peekSymbol us).opensAtom)
    (others : (Form.branches ns).IsRead finish depth us rest) :
    (Form.branches (n :: ns)).IsRead finish depth ts rest := by
  obtain ⟨s, branchEq, rfl, restEq⟩ := branch
  obtain ⟨s', othersEq, rfl, rfl⟩ := others
  change ∃ _, Node.readBranches finish _ ts = _ ∧ _
  rw [Node.readBranches, bind_of_eq_ok branchEq]
  split
  next place' us' restEq' =>
    rw [restEq] at restEq'
    cases restEq'
    simp only [not_endsBranch_of_opensAtom opens]
    rw [bind_of_eq_ok othersEq]
    exact ⟨_, rfl, rfl, rfl⟩
  next noPipe => exact absurd restEq (noPipe _ _)

theorem readAlternation_of_opensAtom (inner : Option (Reader Node)) {ts : List Token}
    (opens : (peekSymbol ts).opensAtom) :
    Node.readAlternation finish inner ts = Node.readBranches finish inner ts >>= fun branches =>
      .ok (branches.map (Node.choice (peekPlace finish ts).offset)) := by
  unfold Node.readAlternation
  split
  next => cases opens
  next => rfl

theorem readNested_of_branches {t : Token} {ts rest : List Token} {ns : List Node}
    (opens : (peekSymbol (t :: ts)).opensAtom)
    (branches : (Form.branches ns).IsRead finish depth (t :: ts) rest) :
    (Form.alternation (Node.choice t.place.offset ns)).IsRead finish depth (t :: ts) rest := by
  obtain ⟨s, branchesEq, rfl, rfl⟩ := branches
  change ∃ _, Node.readNested finish depth (t :: ts) = _ ∧ _
  rw [readNested_eq, readAlternation_of_opensAtom _ opens, bind_of_eq_ok branchesEq]
  exact ⟨_, rfl, rfl, rfl⟩

/-- A phrase is read as derived if what follows it does not continue it. -/
theorem read_of_derives {form : Form} {ts rest : List Token}
    (derived : Derives depth form ts rest) (follows : form.Follows (peekSymbol rest)) :
    form.IsRead finish depth ts rest := by
  induction derived with
  | literal => exact ⟨_, rfl, rfl, rfl⟩
  | escaped => exact ⟨_, rfl, rfl, rfl⟩
  | wildcard => exact ⟨_, rfl, rfl, rfl⟩
  | charClass depth phrase => exact readAtom_of_class phrase follows
  | group content inductionHypothesis =>
    exact readAtom_of_group content.opensAtom
      (inductionHypothesis (follows_alternation_rightParen _))
  | bare _ inductionHypothesis =>
    obtain ⟨noTilde, noRepeat⟩ := follows
    exact readFactor_of_bare (inductionHypothesis noTilde) noRepeat
  | repeated _ quantifier inductionHypothesis =>
    exact readFactor_of_repeated (inductionHypothesis quantifier.front.2) quantifier follows
  | lastFactor _ inductionHypothesis =>
    obtain ⟨noTilde, noRepeat, noAtom⟩ := follows
    exact readFactors_of_last (inductionHypothesis ⟨noTilde, noRepeat⟩) noAtom
  | moreFactors _ others firstRead othersRead =>
    exact readFactors_of_more (firstRead (follows_factor_of_opensAtom _ others.opensAtom))
      others.opensAtom (othersRead follows)
  | sequence factors inductionHypothesis =>
    exact readExpression_of_factors factors.opensAtom (inductionHypothesis follows)
  | lastBranch _ inductionHypothesis =>
    obtain ⟨noTilde, noRepeat, noAtom, noPipe⟩ := follows
    exact readBranches_of_last (inductionHypothesis ⟨noTilde, noRepeat, noAtom⟩) noPipe
  | moreBranches _ others firstRead othersRead =>
    exact readBranches_of_more
      (firstRead (follows_expression_pipe _)) others.opensAtom (othersRead follows)
  | choice branches inductionHypothesis =>
    exact readNested_of_branches branches.opensAtom (inductionHypothesis follows)

end Levels

/-! ### Whole patterns -/

theorem readStartAnchor_of_startAnchor {ts us : List Token} {anchored : Bool}
    (atStart : StartAnchor ts anchored us) (opens : (peekSymbol us).opensAtom) :
    (Pattern.readStartAnchor ts).value = anchored ∧ (Pattern.readStartAnchor ts).rest = us := by
  cases atStart with
  | present => exact ⟨rfl, rfl⟩
  | absent =>
    unfold Pattern.readStartAnchor
    split
    next => cases opens
    next => exact ⟨rfl, rfl⟩

theorem EndAnchor.follows {ts : List Token} {anchored : Bool} (atEnd : EndAnchor ts anchored)
    (n : Node) : (Form.alternation n).Follows (peekSymbol ts) := by
  cases atEnd with
  | absent =>
    refine ⟨?_, Bool.false_ne_true, Bool.false_ne_true, ?_⟩
    · intro equal
      cases equal
    · intro equal
      cases equal
  | present =>
    refine ⟨?_, Bool.false_ne_true, Bool.false_ne_true, ?_⟩
    · intro equal
      cases equal
    · intro equal
      cases equal

/-- Where an atom begins there is more than an anchor at the end. -/
theorem not_empty_of_opensAtom {ts : List Token} (opens : (peekSymbol ts).opensAtom) :
    ¬ (ts = [] ∨ Pattern.isEndAnchor ts) := by
  rintro (rfl | anchor)
  · cases opens
  · unfold Pattern.isEndAnchor at anchor
    split at anchor
    next => cases opens
    next => cases anchor

/-- Accepted tokens are read as the pattern with their tree and their anchors. -/
theorem ofTokens_of_accepts (source : Text) (finish : Location) {ts : List Token} {root : Node}
    {startAnchor endAnchor : Bool} (accepted : Accepts ts root startAnchor endAnchor) :
    Pattern.ofTokens source finish ts = .ok ⟨root, startAnchor, endAnchor, source⟩ := by
  cases accepted with
  | @intro us vs _ _ _ atStart content atEnd =>
    obtain ⟨startEq, restEq⟩ := readStartAnchor_of_startAnchor atStart content.opensAtom
    rw [← restEq] at content
    obtain ⟨s, readEq, rfl, rfl⟩ : (Form.alternation root).IsRead finish maxGroupDepth _ vs :=
      read_of_derives content (atEnd.follows root)
    have notEmpty := not_empty_of_opensAtom content.opensAtom
    simp only [Pattern.ofTokens, notEmpty, if_false]
    rw [bind_of_eq_ok readEq, startEq]
    generalize s.rest = left at atEnd
    cases atEnd with
    | absent => rfl
    | present => rfl

end PatternSampler.Grammar
