/-
Module: PatternSampler.Annotation.Reader
Purpose: Reading annotations from tokens. The name takes every letter behind the tilde, and
  an opening parenthesis directly behind the name opens the parameter list, which may be
  empty. What an annotation means at its place is decided later.
Main exports: Annotation.readParameter, Annotation.read, Annotation.readOptional
-/
import PatternSampler.Annotation
import PatternSampler.Numeral.Reader

namespace PatternSampler.Annotation

/-- The key that a symbol in front of an equals sign stands for. -/
def keyOf? : Symbol → Option Key
  | .literal b => some ⟨b, false⟩
  | .escaped b => some ⟨b, true⟩
  | .mark .dot => some ⟨Mark.dot.byte, false⟩
  | _ => none

/-- Reads a parameter: a number, with a key in front of it if the second symbol is an equals
sign. -/
def readParameter (finish : Location) : Reader Parameter
  | k :: ⟨.mark .equals, _⟩ :: us =>
    match keyOf? k.symbol with
    | none => refuse (.invalidKey k.symbol) k.place
    | some key => do
      let number ← Numeral.read finish us
      return (number.map fun n => .ofNumeral (some key) n k.place).behind.behind
  | ts => do
    let number ← Numeral.read finish ts
    return number.map fun n => .ofNumeral none n (peekPlace finish ts)

/-- Reads parameters separated by commas. -/
def readParameters (finish : Location) (ts : List Token) :
    Except Refusal (Step (List Parameter) ts) := do
  let first ← readParameter finish ts
  match h : first.rest with
  | ⟨.mark .comma, place⟩ :: us =>
    let others ← readParameters finish us
    let comma := first.skip h
    return (comma.thenStep others).map (first.value :: ·)
  | _ => return first.map ([·])
termination_by ts.length
decreasing_by
  have := first.shorter
  simp only [h, List.length_cons] at this
  omega

/-- Reads the parameter list behind its opening parenthesis, which stands at `place`, up to the
closing one. -/
def readParameterList (finish place : Location) : Reader (List Parameter)
  | ⟨.mark .rightParen, _⟩ :: _ => return .one []
  | ts => do
    let parameters ← readParameters finish ts
    match h : parameters.rest with
    | ⟨.mark .rightParen, _⟩ :: _ => return parameters.skip h
    | [] => refuse .unclosedParenthesis place
    | t :: _ => refuse (.unexpectedInParameters t.symbol) t.place

/-- Reads what may stand behind the name of an annotation. -/
def readArguments (finish : Location) (ts : List Token) :
    Except Refusal (Span (List Parameter) ts) :=
  match ts with
  | ⟨.mark .leftParen, place⟩ :: us => do
    return (← readParameterList finish place us).behind.toSpan
  | _ => return .stay []

/-- Reads the name and the parameters of an annotation behind its tilde, which stands at
`place`. -/
def readBody (finish place : Location) (ts : List Token) :
    Except Refusal (Span Annotation ts) := do
  let name := readWhile Symbol.isLetter ts
  if name.value = [] then refuse .missingDistribution (peekPlace finish ts)
  else
    let parameters ← readArguments finish name.rest
    return ⟨⟨name.value, place, parameters.value⟩, parameters.rest,
      parameters.isSuffix.trans name.isSuffix⟩

/-- Reads an annotation, if there is a tilde. -/
def readOptional (finish : Location) (ts : List Token) :
    Except Refusal (Span (Option Annotation) ts) :=
  match ts with
  | ⟨.mark .tilde, place⟩ :: us => do
    return ((← readBody finish place us).map some).within (List.suffix_cons _ us)
  | _ => return .stay none

end PatternSampler.Annotation
