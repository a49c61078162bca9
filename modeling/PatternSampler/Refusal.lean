/-
Module: PatternSampler.Refusal
Purpose: Why a template text is refused. Every reason is a cause with the data it concerns;
  a refusal is a cause together with its place. The wording of all causes is given here and
  nowhere else.
Main exports: Cause, Cause.kind, Cause.message, Cause.construct, Refusal, Refusal.report
-/
import PatternSampler.Annotation
import PatternSampler.Distribution
import PatternSampler.Report
import PatternSampler.Token

namespace PatternSampler

/-- The largest number that a repeat may be written with. -/
def maxRepeatCount : Nat := 1000000

/-- How deep groups may be nested. -/
def maxGroupDepth : Nat := 1000

/-- The reasons for refusing a text. -/
inductive Cause where
  /-- Nothing to generate at all. -/
  | emptyPattern
  /-- Nothing before a bar. -/
  | emptyAlternativeBefore
  /-- Nothing behind a bar. -/
  | emptyAlternativeAfter
  /-- A repeat directly behind a repeat. -/
  | stackedQuantifier
  /-- Nothing between parentheses. -/
  | emptyGroup
  /-- A group or a parameter list that is not closed. -/
  | unclosedParenthesis
  /-- A class that is not closed. -/
  | unclosedBracket
  /-- A class without members. -/
  | emptyClass
  /-- A bracket inside a class that opens no named class. -/
  | bracketInClass
  /-- A named class that is not closed at the end of the text. -/
  | unclosedNamedClass
  /-- A named class that goes on after its name. -/
  | malformedNamedClass
  /-- A named class that does not exist. -/
  | unknownNamedClass (name : Text)
  /-- A repeat in braces that is not closed. -/
  | unclosedBrace
  /-- Something else inside the braces of a repeat; `exact` if there was no comma. -/
  | unexpectedInQuantifier (found : Symbol) (exact : Bool)
  /-- Braces without a number. -/
  | missingCount
  /-- A tilde without a name. -/
  | missingDistribution
  /-- Something else inside a parameter list. -/
  | unexpectedInParameters (found : Symbol)
  /-- A key that is not a single character. -/
  | invalidKey (found : Symbol)
  /-- A parameter without a number. -/
  | missingNumber
  /-- A number that breaks off. -/
  | malformedNumber (spelling : Text)
  /-- A symbol where no part of a pattern can begin. -/
  | unexpected (found : Symbol)
  /-- Groups nested too deep. -/
  | nestedTooDeep
  /-- A class without any character. -/
  | emptyAlphabet (written : Text)
  /-- A repeat whose minimum is above its maximum. -/
  | invertedBounds (min max : Nat) (written : Text)
  /-- A repeat count that is too large. -/
  | countTooLarge (digits : Text)
  /-- A number beyond all doubles. -/
  | numberOutOfRange (spelling : Text)
  /-- A distribution that does not exist. -/
  | unknownDistribution (name : Text)
  /-- More parameters without a key than there are parameters. -/
  | tooManyParameters (kind : Kind) (limit : Nat)
  /-- A key that the distribution does not have. -/
  | unknownParameter (kind : Kind) (key : Key)
  /-- A parameter given twice. -/
  | repeatedParameter (kind : Kind) (key : Key)
  /-- A count written with a point or an exponent. -/
  | notInteger (kind : Kind) (slot : UInt8) (spelling : Text)
  /-- A count below zero. -/
  | negativeCount (kind : Kind) (slot : UInt8) (spelling : Text)
  /-- A count beyond all words. -/
  | countOutOfRange (kind : Kind) (slot : UInt8) (spelling : Text)
  /-- A count without digits. -/
  | unreadableCount (kind : Kind) (slot : UInt8) (spelling : Text)
  /-- A weight below zero. -/
  | negativeWeight (spelling : Text)
  /-- A weight on a repeat with a key that is no digit. -/
  | unknownCount (key : Key)
  /-- The weight of a repeat count given twice. -/
  | repeatedCount (count : Nat) (key : Key)
  /-- More weights than the class has characters. -/
  | tooManyWeights (size : Nat) (spelling : Text)
  /-- The remaining weight given twice. -/
  | repeatedRemainder
  /-- A weight for a character that the class does not have. -/
  | notMember (key : Key)
  /-- The weight of a character given twice. -/
  | repeatedMember (key : Key)
  /-- A constant position outside the class. -/
  | positionOutside (position : UInt64) (size : Nat) (written : Text)
  /-- Parameters that the distribution does not allow. -/
  | refusedParameters (kind : Kind) (error : Distribution.ParameterError)

namespace Cause

/-- A text between single quotation marks. -/
def quoted (t : Text) : Text := 0x27 :: (t ++ [0x27])

/-- The name of a distribution as the head of an annotation. -/
def tilded (name : Text) : Text := 0x7E :: name

/-- How a message names the slot of a count. -/
def slotText (kind : Kind) (slot : UInt8) : Text :=
  kind.name ++ ascii " parameter " ++ quoted [slot]

/-- Causes in the form of the text are grammar errors, causes in its meaning are validation
errors. -/
def kind : Cause → ReportKind
  | emptyPattern | emptyAlternativeBefore | emptyAlternativeAfter | stackedQuantifier
  | emptyGroup | unclosedParenthesis | unclosedBracket | emptyClass | bracketInClass
  | unclosedNamedClass | malformedNamedClass | unknownNamedClass _ | unclosedBrace
  | unexpectedInQuantifier _ _ | missingCount | missingDistribution
  | unexpectedInParameters _ | invalidKey _ | missingNumber | malformedNumber _
  | unexpected _ => .grammar
  | _ => .validation

/-- The message about a symbol where no part of a pattern can begin. -/
def unexpectedMessage : Symbol → Text
  | .loneBackslash => ascii "unterminated escape at end of pattern"
  | .stop => ascii "unexpected end of pattern"
  | .mark .rightParen => ascii "unmatched ')'"
  | .mark .caret => ascii "'^' is only allowed at the start of the pattern"
  | .mark .dollar => ascii "'$' is only allowed at the end of the pattern"
  | .mark .tilde => ascii "distribution annotation must follow a quantifier or a class"
  | .mark .rightBracket => ascii "unmatched ']'"
  | .mark .rightBrace => ascii "unmatched '\x7d'"
  | s =>
    if s.opensRepeat then
      ascii "quantifier " ++ quoted s.lexeme ++ ascii " has nothing to repeat"
    else ascii "unexpected " ++ quoted s.lexeme

/-- What would have to stand in place of such a symbol. -/
def unexpectedConstruct : Symbol → Text
  | .loneBackslash => ascii "character after '\\'"
  | .stop => ascii "pattern"
  | .mark .rightParen => ascii "'(' before it"
  | s =>
    if s.opensRepeat then ascii "character, class or group"
    else quoted (Text.backslash :: s.lexeme)

/-- What a cause says. -/
def message : Cause → Text
  | emptyPattern => ascii "empty pattern"
  | emptyAlternativeBefore | emptyAlternativeAfter => ascii "empty alternative"
  | stackedQuantifier => ascii "quantifier cannot follow another quantifier"
  | emptyGroup => ascii "empty group"
  | unclosedParenthesis => ascii "unmatched '('"
  | unclosedBracket | unclosedNamedClass => ascii "unmatched '['"
  | emptyClass => ascii "empty character class"
  | bracketInClass => ascii "'[' inside a class must open a POSIX class"
  | malformedNamedClass => ascii "malformed POSIX class"
  | unknownNamedClass name => ascii "unknown POSIX class " ++ quoted name
  | unclosedBrace => ascii "unmatched '\x7b'"
  | unexpectedInQuantifier found _ =>
    ascii "unexpected " ++ quoted found.lexeme ++ ascii " in quantifier"
  | missingCount => ascii "expected a repeat count"
  | missingDistribution => ascii "expected a distribution name after '~'"
  | unexpectedInParameters found =>
    ascii "unexpected " ++ quoted found.lexeme ++ ascii " in parameter list"
  | invalidKey found => ascii "invalid parameter key " ++ quoted found.lexeme
  | missingNumber => ascii "expected a number"
  | malformedNumber spelling => ascii "malformed number " ++ quoted spelling
  | unexpected found => unexpectedMessage found
  | nestedTooDeep =>
    ascii "groups are nested deeper than " ++ Text.decimal maxGroupDepth ++ ascii " levels"
  | emptyAlphabet _ => ascii "character class has no characters to generate"
  | invertedBounds min max _ =>
    ascii "repeat bounds are inverted: \x7b" ++ Text.decimal min ++ ascii "," ++ Text.decimal max
      ++ ascii "\x7d"
  | countTooLarge digits =>
    ascii "repeat count " ++ digits ++ ascii " exceeds the limit of "
      ++ Text.decimal maxRepeatCount
  | numberOutOfRange spelling => ascii "number out of range " ++ quoted spelling
  | unknownDistribution name =>
    ascii "unknown distribution " ++ quoted name
      ++ ascii " (expected Bin, Ber, Cat, Const, Geo or Zipf)"
  | tooManyParameters kind limit =>
    kind.name ++ ascii " takes at most " ++ Text.decimal limit ++ ascii " parameter(s)"
  | unknownParameter kind key =>
    ascii "unknown parameter " ++ quoted key.text ++ ascii " for " ++ kind.name
  | repeatedParameter kind key =>
    ascii "parameter " ++ quoted key.text ++ ascii " of " ++ kind.name
      ++ ascii " is assigned twice"
  | notInteger kind slot spelling =>
    slotText kind slot ++ ascii " must be an integer, got " ++ spelling
  | negativeCount kind slot spelling =>
    slotText kind slot ++ ascii " must not be negative, got " ++ spelling
  | countOutOfRange kind slot spelling =>
    slotText kind slot ++ ascii " is too large: " ++ spelling
  | unreadableCount kind slot spelling =>
    slotText kind slot ++ ascii " has no digits: " ++ spelling
  | negativeWeight spelling => ascii "Cat weights must be non-negative, got " ++ spelling
  | unknownCount key =>
    ascii "unknown parameter " ++ quoted key.text ++ ascii " for Cat (expected a repeat count 0-9)"
  | repeatedCount count _ =>
    ascii "weight for count " ++ Text.decimal count ++ ascii " is assigned twice"
  | tooManyWeights size _ =>
    ascii "Cat has more weights than the class has members (" ++ Text.decimal size ++ ascii ")"
  | repeatedRemainder => ascii "remainder weight '.' is assigned twice"
  | notMember key => quoted key.text ++ ascii " is not a member of the class"
  | repeatedMember key => ascii "weight for " ++ quoted key.text ++ ascii " is assigned twice"
  | positionOutside position size _ =>
    ascii "Const index " ++ Text.decimal position.toNat ++ ascii " is outside a class of "
      ++ Text.decimal size ++ ascii " member(s)"
  | refusedParameters _ error => error.message

/-- What was expected, for a grammar error; what is at fault, for a validation error. -/
def construct : Cause → Text
  | emptyPattern => ascii "pattern"
  | emptyAlternativeBefore => ascii "pattern before '|'"
  | emptyAlternativeAfter => ascii "pattern after '|'"
  | stackedQuantifier => ascii "group around the quantified part"
  | emptyGroup => ascii "pattern inside '()'"
  | unclosedParenthesis => ascii "')'"
  | unclosedBracket => ascii "']'"
  | emptyClass => ascii "class member before ']'"
  | bracketInClass => ascii "[:name:] or '\\['"
  | unclosedNamedClass | malformedNamedClass => ascii ":]"
  | unknownNamedClass _ =>
    ascii "alnum, alpha, blank, cntrl, digit, graph, lower, print, punct, space, upper, word or "
      ++ ascii "xdigit"
  | unclosedBrace => ascii "'\x7d'"
  | unexpectedInQuantifier _ true => ascii "',', '~' or '\x7d'"
  | unexpectedInQuantifier _ false => ascii "'~' or '\x7d'"
  | missingCount => ascii "digits"
  | missingDistribution => ascii "Bin, Ber, Cat, Const, Geo or Zipf"
  | unexpectedInParameters _ => ascii "',' or ')'"
  | invalidKey _ => ascii "single character or '.'"
  | missingNumber | malformedNumber _ => ascii "number"
  | unexpected found => unexpectedConstruct found
  | nestedTooDeep => ascii "("
  | emptyAlphabet written => written
  | invertedBounds _ _ written => written
  | countTooLarge digits => digits
  | numberOutOfRange spelling => spelling
  | unknownDistribution name => tilded name
  | tooManyParameters kind _ => tilded kind.name
  | unknownParameter _ key => key.text
  | repeatedParameter _ key => key.text
  | notInteger _ _ spelling => spelling
  | negativeCount _ _ spelling => spelling
  | countOutOfRange _ _ spelling => spelling
  | unreadableCount _ _ spelling => spelling
  | negativeWeight spelling => spelling
  | unknownCount key => key.text
  | repeatedCount _ key => key.text
  | tooManyWeights _ spelling => spelling
  | repeatedRemainder => ascii "."
  | notMember key => key.text
  | repeatedMember key => key.text
  | positionOutside _ _ written => written
  | refusedParameters kind _ => tilded kind.name

end Cause

/-- A cause and the place it is found at. -/
structure Refusal where
  cause : Cause
  place : Location

/-- The report of a refusal. -/
def Refusal.report (r : Refusal) : Report :=
  ⟨r.cause.kind, r.cause.message, r.cause.construct, r.place⟩

end PatternSampler
