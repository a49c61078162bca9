/-
Module: PatternSampler.Numeral.Reader
Purpose: Reading numerals from tokens. The parts of a numeral are taken as far as they go,
  and only then it is decided whether they make a number: a text that breaks off is named
  in full. What is read is the spelling of the numeral, token by token.
Main exports: Numeral.scan, Numeral.read
-/
import PatternSampler.Token.Reader

namespace PatternSampler.Numeral

/-- The leading digits. -/
def scanDigits (ts : List Token) : Span Text ts := readWhile Symbol.isDigit ts

/-- A minus sign, if there is one. -/
def scanMinus : (ts : List Token) → Span Bool ts
  | ⟨.literal 0x2D, _⟩ :: us => ⟨true, us, List.suffix_cons _ us⟩
  | _ => .stay false

/-- A point and the digits behind it, if there is a point. -/
def scanFraction : (ts : List Token) → Span (Option Text) ts
  | ⟨.mark .dot, _⟩ :: us =>
    let digits := scanDigits us
    ⟨some digits.value, digits.rest, digits.isSuffix.trans (List.suffix_cons _ us)⟩
  | _ => .stay none

/-- The sign of an exponent, if there is one: a plus sign is a mark, a minus sign is not. -/
def scanExponentSign : (ts : List Token) → Span Text ts
  | ⟨.literal 0x2D, _⟩ :: us => ⟨[0x2D], us, List.suffix_cons _ us⟩
  | ⟨.mark .plus, _⟩ :: us => ⟨[0x2B], us, List.suffix_cons _ us⟩
  | _ => .stay []

/-- The sign and the digits of an exponent behind its letter. -/
def scanExponentTail (letter : UInt8) (ts : List Token) : Span Exponent ts :=
  let sign := scanExponentSign ts
  let digits := scanDigits sign.rest
  ⟨⟨letter, sign.value, digits.value⟩, digits.rest, digits.isSuffix.trans sign.isSuffix⟩

/-- The letters that open an exponent. -/
def IsExponentLetter (b : UInt8) : Prop := b = 0x65 ∨ b = 0x45

instance (b : UInt8) : Decidable (IsExponentLetter b) := inferInstanceAs (Decidable (_ ∨ _))

/-- An exponent, if there is its letter. -/
def scanExponent : (ts : List Token) → Span (Option Exponent) ts
  | ⟨.literal letter, _⟩ :: us =>
    if IsExponentLetter letter then
      let tail := scanExponentTail letter us
      ⟨some tail.value, tail.rest, tail.isSuffix.trans (List.suffix_cons _ us)⟩
    else .stay none
  | _ => .stay none

/-- The parts of a numeral before the exponent. -/
def scanMantissa (ts : List Token) : Span Numeral ts :=
  let minus := scanMinus ts
  let whole := scanDigits minus.rest
  let fraction := scanFraction whole.rest
  ⟨⟨minus.value, whole.value, fraction.value, none⟩, fraction.rest,
    fraction.isSuffix.trans (whole.isSuffix.trans minus.isSuffix)⟩

/-- The parts of a numeral as far as they go. There is an exponent only behind a digit. -/
def scan (ts : List Token) : Span Numeral ts :=
  let mantissa := scanMantissa ts
  if mantissa.value.hasDigits then
    let exponent := scanExponent mantissa.rest
    ⟨{ mantissa.value with exponent := exponent.value }, exponent.rest,
      exponent.isSuffix.trans mantissa.isSuffix⟩
  else mantissa

/-! ### Scanning loses nothing -/

theorem lexemes_scanDigits (ts : List Token) :
    Token.lexemes ts = (scanDigits ts).value ++ Token.lexemes (scanDigits ts).rest := by
  simp only [scanDigits, readWhile]
  induction ts with
  | nil => rfl
  | cons t ts ih =>
    by_cases h : t.symbol.isDigit
    · have hlex : t.lexeme = [t.symbol.value] := by
        revert h
        simp only [Token.lexeme]
        cases t.symbol <;> simp [Symbol.isDigit, Symbol.lexeme, Symbol.value]
      simp only [Token.lexemes] at ih
      simp [Token.lexemes, h, hlex, ← ih]
    · simp [h]

theorem lexemes_scanMinus (ts : List Token) :
    Token.lexemes ts = signText (scanMinus ts).value ++ Token.lexemes (scanMinus ts).rest := by
  unfold scanMinus
  split
  next => simp [signText, Token.lexemes, Token.lexeme, Symbol.lexeme]
  next => simp [signText]

theorem lexemes_scanFraction (ts : List Token) :
    Token.lexemes ts =
      fractionText (scanFraction ts).value ++ Token.lexemes (scanFraction ts).rest := by
  unfold scanFraction
  split
  next place us =>
    have hdigits := lexemes_scanDigits us
    simp only [Token.lexemes] at hdigits
    simp [fractionText, Token.lexemes, Token.lexeme, Symbol.lexeme, Mark.byte, hdigits]
  next => simp [fractionText]

theorem lexemes_scanExponentSign (ts : List Token) :
    Token.lexemes ts =
      (scanExponentSign ts).value ++ Token.lexemes (scanExponentSign ts).rest := by
  unfold scanExponentSign
  split
  next => simp [Token.lexemes, Token.lexeme, Symbol.lexeme]
  next => simp [Token.lexemes, Token.lexeme, Symbol.lexeme, Mark.byte]
  next => simp

theorem lexemes_scanExponentTail (letter : UInt8) (ts : List Token) :
    letter :: Token.lexemes ts =
      (scanExponentTail letter ts).value.text
        ++ Token.lexemes (scanExponentTail letter ts).rest := by
  rw [lexemes_scanExponentSign ts, lexemes_scanDigits (scanExponentSign ts).rest]
  simp [scanExponentTail, Exponent.text]

theorem lexemes_scanExponent (ts : List Token) :
    Token.lexemes ts =
      exponentText (scanExponent ts).value ++ Token.lexemes (scanExponent ts).rest := by
  unfold scanExponent
  split
  next letter place us =>
    split
    next =>
      have htail := lexemes_scanExponentTail letter us
      simp only [Token.lexemes] at htail
      simp [exponentText, Token.lexemes, Token.lexeme, Symbol.lexeme, htail]
    next => simp [exponentText]
  next => simp [exponentText]

theorem lexemes_scanMantissa (ts : List Token) :
    Token.lexemes ts =
      (scanMantissa ts).value.text ++ Token.lexemes (scanMantissa ts).rest := by
  rw [lexemes_scanMinus ts, lexemes_scanDigits (scanMinus ts).rest,
    lexemes_scanFraction (scanDigits (scanMinus ts).rest).rest]
  simp [scanMantissa, Numeral.text, exponentText]

/-- A numeral is read exactly as it is spelled. -/
theorem lexemes_scan (ts : List Token) :
    Token.lexemes ts = (scan ts).value.text ++ Token.lexemes (scan ts).rest := by
  rw [lexemes_scanMantissa ts]
  by_cases h : (scanMantissa ts).value.hasDigits
  · rw [lexemes_scanExponent (scanMantissa ts).rest]
    simp only [scan, h, if_true]
    simp [scanMantissa, Numeral.text, exponentText]
  · simp [scan, h]

/-- A numeral with a digit has taken at least one token. -/
theorem length_rest_scan_lt {ts : List Token} (h : (scan ts).value.WellFormed) :
    (scan ts).rest.length < ts.length := by
  apply Nat.lt_of_le_of_ne (scan ts).isSuffix.length_le
  intro hlen
  have heq : (scan ts).rest = ts := (scan ts).isSuffix.eq_of_length hlen
  have htext := lexemes_scan ts
  rw [heq] at htext
  have hnil : (scan ts).value.text = [] := by simpa using htext
  have hdigits := h.1
  simp only [Numeral.text, List.append_eq_nil_iff] at hnil
  obtain ⟨⟨⟨-, hwhole⟩, hfraction⟩, -⟩ := hnil
  cases hf : (scan ts).value.fraction with
  | none => simp [hasDigits, hwhole, hf] at hdigits
  | some digits => simp [hf, fractionText] at hfraction

/-! ### Reading -/

/-- Reads a numeral. A text that breaks off is refused where it begins, a missing number where
it is missing, and so is a number beyond all doubles. -/
def read (finish : Location) : Reader Numeral := fun ts =>
  let n := scan ts
  if h : n.value.WellFormed then
    if n.value.InRange then .ok ⟨n, length_rest_scan_lt h⟩
    else refuse (.numberOutOfRange n.value.text) (peekPlace finish ts)
  else if n.value.text = [] then refuse .missingNumber (peekPlace finish ts)
  else refuse (.malformedNumber n.value.text) (peekPlace finish ts)

end PatternSampler.Numeral
