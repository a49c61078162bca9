/-
Module: PatternSampler.Pattern.Repeat
Purpose: Reading repeats from tokens. A repeat is one of three marks or a count, a minimum or
  a range in braces, and it may carry an annotation. The exact form with an annotation,
  `{n~D}`, has no bounds of its own: the number is the baseline of the distribution.
Main exports: Repeat, Repeat.readCount, Repeat.read
-/
import PatternSampler.Annotation.Reader
import PatternSampler.Annotation.Meaning
import PatternSampler.Pattern

namespace PatternSampler

/-- What a repeat adds to the part it stands behind. -/
structure Repeat where
  bounds : Bounds
  distribution : Option Distribution

namespace Repeat

/-- Reads a repeat count. -/
def readCount (finish : Location) (ts : List Token) : Except Refusal (Step UInt64 ts) :=
  match ts with
  | t :: us =>
    if t.symbol.isDigit then
      let others := readWhile Symbol.isDigit us
      let digits := t.symbol.value :: others.value
      let value := Text.decimalValue digits
      if maxRepeatCount < value then refuse (.countTooLarge digits) t.place
      else return .cons (others.map fun _ => UInt64.ofNat value)
    else refuse .missingCount t.place
  | [] => refuse .missingCount finish

/-- The numbers between the braces of a repeat. -/
inductive Range where
  /-- One number, which is both bounds. -/
  | exact (count : UInt64)
  /-- A minimum, and a maximum unless there is none. -/
  | between (min : UInt64) (max : Option UInt64)
deriving DecidableEq, Repr

namespace Range

/-- The bounds that the numbers stand for. -/
def bounds : Range → Bounds
  | exact count => ⟨count, some count⟩
  | between min max => ⟨min, max⟩

/-- Whether there is a single number without a comma. -/
def isExact : Range → Bool
  | exact _ => true
  | between .. => false

end Range

/-- Reads the maximum behind a comma, if there is one. -/
def readMaximum (finish : Location) (ts : List Token) :
    Except Refusal (Span (Option UInt64) ts) :=
  if (peekSymbol ts).isDigit then do
    return ((← readCount finish ts).map some).toSpan
  else return .stay none

/-- Reads the numbers between braces. -/
def readRange (finish : Location) (ts : List Token) : Except Refusal (Step Range ts) := do
  let min ← readCount finish ts
  match h : min.rest with
  | ⟨.mark .comma, _⟩ :: us =>
    let max ← readMaximum finish us
    let comma := min.skip h
    return comma.thenSpan (max.map (Range.between min.value))
  | _ => return min.map .exact

/-- Numbers and an annotation between braces. -/
structure Braces where
  range : Range
  note : Option Annotation

/-- Reads what stands between braces, and the closing brace. The opening one stands at
`place`. -/
def readBraces (finish place : Location) : Reader Braces
  | [] => refuse .unclosedBrace place
  | ts => do
    let range ← readRange finish ts
    let note ← Annotation.readOptional finish range.rest
    let inside := range.thenSpan (note.map (Braces.mk range.value))
    match h : inside.rest with
    | ⟨.mark .rightBrace, _⟩ :: _ => return inside.skip h
    | [] => refuse .unclosedBrace place
    | t :: _ => refuse (.unexpectedInQuantifier t.symbol range.value.isExact) t.place

/-- The bounds of a repeat whose distribution stands in for a single number. -/
def unrestricted : Bounds := ⟨0, none⟩

/-- The repeat of a mark with the bounds it stands for, and an annotation behind it. -/
def ofMark (bounds : Bounds) (note : Option Annotation) : Except Refusal Repeat :=
  match note with
  | none => return ⟨bounds, none⟩
  | some a => do return ⟨bounds, some (← a.onRepeat bounds.min)⟩

/-- The repeat of what stands between braces, which begins at `place`. The text as it was written
is asked for only by a refusal. -/
def ofBraces (place : Location) (written : Thunk Text) (b : Braces) : Except Refusal Repeat :=
  let bounds := b.range.bounds
  if bounds.ceiling < bounds.min then
    refuse (.invertedBounds bounds.min.toNat bounds.ceiling.toNat written.get) place
  else
    match b.note with
    | none => return ⟨bounds, none⟩
    | some a => do
      let d ← a.onRepeat bounds.min
      return ⟨if b.range.isExact then unrestricted else bounds, some d⟩

/-- The bounds that a mark alone stands for. -/
def markBounds? : Symbol → Option Bounds
  | .mark .star => some ⟨0, none⟩
  | .mark .plus => some ⟨1, none⟩
  | .mark .question => some ⟨0, some 1⟩
  | _ => none

/-- Reads a repeat. -/
def read (finish : Location) : Reader Repeat
  | ⟨.mark .leftBrace, place⟩ :: us => do
    let inside ← readBraces finish place us
    let r ← ofBraces place
      (Token.lexemes (⟨.mark .leftBrace, place⟩ :: tokensBetween us inside.rest)) inside.value
    return (inside.map fun _ => r).behind
  | t :: us =>
    match markBounds? t.symbol with
    | some bounds => do
      let note ← Annotation.readOptional finish us
      let r ← ofMark bounds note.value
      return .cons (note.map fun _ => r)
    | none => refuse (.unexpected t.symbol) t.place
  | [] => refuse (.unexpected .stop) finish

end Repeat

end PatternSampler
