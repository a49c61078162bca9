/-
Module: PatternSampler.Proofs.Exceptions
Purpose: Reading with operations that fail. Some operations that the reading of a text rests on
  fail outside their domain: pieces are cut from texts at positions that have to exist, numbers
  are converted from texts that have to spell them, sequences and choices are built of
  several parts, distributions of parameters that they allow. Here every such operation is
  called where the reading needs it, and ends the reading with a failure of its own
  unless the failure is caught on the spot, which turns it into a refusal.
Main exports: Failure, Strict.substring, Strict.toWord, Strict.toDouble, Strict.resolve,
  Strict.readNested, Strict.parse
-/
import PatternSampler.Pattern.Reader

namespace PatternSampler

/-- What the reading of a text can end with if it does not end with a pattern. -/
inductive Failure where
  /-- The text is refused. -/
  | refused (r : Refusal)
  /-- A tree was to be built that cannot be built. -/
  | shape (error : ShapeError)
  /-- A distribution was to be made with parameters that it does not allow. -/
  | parameters (error : Distribution.ParameterError)
  /-- A position lies outside of a text, or a number outside of a type. -/
  | outOfRange
  /-- A text spells no number. -/
  | invalidArgument

namespace Strict

/-- What ends with a result or with a failure. -/
abbrev Outcome := Except Failure

/-- An outcome in which nothing fails: a text may only be refused. -/
def refused {α : Type} (x : Except Refusal α) : Outcome α := x.mapError .refused

/-- The failure of refusing a text for a cause at a place. -/
def reject {α : Type} (cause : Cause) (place : Location) : Outcome α :=
  .error (.refused ⟨cause, place⟩)

/-- A reader that may fail. -/
abbrev Reader (α : Type) := (ts : List Token) → Outcome (Step α ts)

/-! ### Operations that fail -/

/-- A piece of a text from a position on, which must not lie behind the text. The piece ends with
the text at the latest. -/
def substring (t : Text) (position count : Nat) : Outcome Text :=
  if position ≤ t.length then .ok ((t.drop position).take count) else .error .outOfRange

/-- The word at the front of a text. -/
def toWord (t : Text) : Outcome UInt64 :=
  match Text.leadingCount t with
  | .ok word => .ok word
  | .error .tooLarge => .error .outOfRange
  | .error .noDigits => .error .invalidArgument

/-- There is a digit at the front of a text, or a digit behind a point. -/
def opensNumber : Text → Bool
  | 0x2E :: b :: _ => IsDigit b
  | b :: _ => IsDigit b
  | [] => false

/-- A text begins with a number, perhaps behind white space and a sign. -/
def beginsNumber (t : Text) : Bool :=
  opensNumber (Text.splitSign (t.dropWhile (· ∈ Alphabet.whiteSpace))).2

/-- A numeral is so close to zero that its double is not a normal one. -/
def IsTiny (n : Numeral) : Prop := n.decimal.digits ≠ 0 ∧ n.decimal.nearest < 2 ^ 52

instance (n : Numeral) : Decidable (IsTiny n) := inferInstanceAs (Decidable (_ ∧ _))

/-- The double of a numeral, converted from its spelling. Numerals beyond all doubles and numerals
that are all but zero are out of range. -/
def toDouble (n : Numeral) : Outcome Binary64 :=
  if ¬ beginsNumber n.text then .error .invalidArgument
  else if ¬ n.InRange ∨ IsTiny n then .error .outOfRange
  else .ok n.value

/-- A tree from a constructor that checks its parts. -/
def shaped {α : Type} (x : Except ShapeError α) : Outcome α := x.mapError .shape

/-- A distribution from a constructor that checks its parameters. -/
def made (x : Except Distribution.ParameterError Distribution) : Outcome Distribution :=
  x.mapError .parameters

/-! ### Numbers and annotations -/

/-- Reads a numeral. What is out of range is rounded towards zero, and refused only if it is
beyond all doubles. -/
def readNumber (finish : Location) : Reader Numeral := fun ts =>
  let n := Numeral.scan ts
  if h : n.value.WellFormed then
    match toDouble n.value with
    | .ok _ => .ok ⟨n, Numeral.length_rest_scan_lt h⟩
    | .error .outOfRange =>
      if n.value.InRange then .ok ⟨n, Numeral.length_rest_scan_lt h⟩
      else reject (.numberOutOfRange n.value.text) (peekPlace finish ts)
    | .error failure => .error failure
  else if n.value.text = [] then reject .missingNumber (peekPlace finish ts)
  else reject (.malformedNumber n.value.text) (peekPlace finish ts)

/-- Reads a parameter. -/
def readParameter (finish : Location) : Reader Parameter
  | k :: ⟨.mark .equals, _⟩ :: us =>
    match Annotation.keyOf? k.symbol with
    | none => reject (.invalidKey k.symbol) k.place
    | some key => do
      let number ← readNumber finish us
      return (number.map fun n => .ofNumeral (some key) n k.place).behind.behind
  | ts => do
    let number ← readNumber finish ts
    return number.map fun n => .ofNumeral none n (peekPlace finish ts)

/-- Reads parameters separated by commas. -/
def readParameters (finish : Location) (ts : List Token) : Outcome (Step (List Parameter) ts) := do
  let first ← readParameter finish ts
  match h : first.rest with
  | ⟨.mark .comma, place⟩ :: us =>
    let others ← readParameters finish us
    let comma := first.skip h
    return (comma.thenStep others).map (first.value :: ·)
  | _ => return first.map ([·])
termination_by ts.length
decreasing_by
  have := first.shorter
  simp only [h, List.length_cons] at this
  omega

/-- Reads the parameter list behind its opening parenthesis, which stands at `place`. -/
def readParameterList (finish place : Location) : Reader (List Parameter)
  | ⟨.mark .rightParen, _⟩ :: _ => return .one []
  | ts => do
    let parameters ← readParameters finish ts
    refused <| match h : parameters.rest with
      | ⟨.mark .rightParen, _⟩ :: _ => return parameters.skip h
      | [] => refuse .unclosedParenthesis place
      | t :: _ => refuse (.unexpectedInParameters t.symbol) t.place

/-- Reads what may stand behind the name of an annotation. -/
def readArguments (finish : Location) (ts : List Token) : Outcome (Span (List Parameter) ts) :=
  match ts with
  | ⟨.mark .leftParen, place⟩ :: us => do
    return (← readParameterList finish place us).behind.toSpan
  | _ => return .stay []

/-- Reads the name and the parameters of an annotation behind its tilde, which stands at
`place`. -/
def readBody (finish place : Location) (ts : List Token) : Outcome (Span Annotation ts) := do
  let name := readWhile Symbol.isLetter ts
  if name.value = [] then reject .missingDistribution (peekPlace finish ts)
  else
    let parameters ← readArguments finish name.rest
    return (parameters.map <| Annotation.mk name.value place).within name.isSuffix

/-- Reads an annotation, if there is a tilde. -/
def readOptional (finish : Location) (ts : List Token) : Outcome (Span (Option Annotation) ts) :=
  match ts with
  | ⟨.mark .tilde, place⟩ :: us => do
    return (Step.cons ((← readBody finish place us).map some)).toSpan
  | _ => return .stay none

/-! ### Meanings of annotations -/

open Annotation (valueKey probabilityKey trialsKey exponentKey ranksKey)

/-- The count in a slot, or what stands in for it. A count that is out of range is refused. -/
def count (kind : Kind) (slots : Annotation.Slots) (key : UInt8) (fallback : UInt64) :
    Outcome UInt64 :=
  match slots.parameter? key with
  | none => .ok fallback
  | some p =>
    if ¬ p.integral then reject (.notInteger kind key p.spelling) p.place
    else if p.value.toFloat < 0.0 then reject (.negativeCount kind key p.spelling) p.place
    else
      match toWord p.spelling with
      | .error .outOfRange => reject (.countOutOfRange kind key p.spelling) p.place
      | outcome => outcome

/-- A distribution that is made for an annotation. Parameters that it does not allow are
refused. -/
def build (a : Annotation) (kind : Kind) (outcome : Outcome Distribution) : Outcome Distribution :=
  match outcome with
  | .error (.parameters error) => reject (.refusedParameters kind error) a.place
  | outcome => outcome

/-- The value of a constant. On a class it has to be a position. -/
def constantValue (a : Annotation) (c : Annotation.Context) : Outcome UInt64 := do
  let slots ← refused (a.slots .constant [valueKey])
  let value ← count .constant slots valueKey c.value
  refused <| match c.positions with
    | none => return value
    | some size =>
      if value.toNat < size then return value
      else
        match slots.parameter? valueKey with
        | some p => refuse (.positionOutside value size p.spelling) p.place
        | none => refuse (.positionOutside value size (ascii "~Const")) a.place

/-- The distribution of an annotation, with the weights of its place for the categorical
kind. -/
def resolve (a : Annotation) (c : Annotation.Context) (weights : Outcome (List Binary64)) :
    Outcome Distribution := do
  let kind ← refused a.kind
  match kind with
  | .constant => return .constant (← constantValue a c)
  | .bernoulli =>
    let slots ← refused (a.slots kind [probabilityKey])
    build a kind (made (Distribution.mkBernoulli (slots.real probabilityKey 1.0)))
  | .binomial =>
    let slots ← refused (a.slots kind a.binomialSlotKeys)
    let trials ← count kind slots trialsKey c.trials
    build a kind (made (Distribution.mkBinomial trials (slots.real probabilityKey 1.0)))
  | .geometric =>
    let slots ← refused (a.slots kind [probabilityKey])
    build a kind
      (made (Distribution.mkGeometric (slots.real probabilityKey 0.5) c.offset))
  | .zipf =>
    let slots ← refused (a.slots kind [exponentKey, ranksKey])
    let ranks ← count kind slots ranksKey c.ranks
    build a kind (made (Distribution.mkZipf (slots.real exponentKey 1.0) ranks))
  | .categorical =>
    let weights ← weights
    build a kind (made (Distribution.mkCategorical weights))

/-- The distribution of an annotation on a repeat with a baseline. -/
def onRepeat (a : Annotation) (baseline : UInt64) : Outcome Distribution :=
  resolve a ⟨baseline, baseline, baseline, if baseline < 1 then 1 else baseline, none⟩
    (refused a.countWeights)

/-- The distribution of an annotation on a class with an alphabet. -/
def onClass (a : Annotation) (alphabet : Text) : Outcome Distribution :=
  let size := UInt64.ofNat alphabet.length
  resolve a ⟨0, if size = 0 then 0 else size - 1, 0, size, some alphabet.length⟩
    (refused (a.memberWeights alphabet))

/-! ### Texts as they were written -/

/-- The text from a token on to the last of the tokens behind it that were read, cut from the text
that is being read by the positions of both tokens. -/
def written (source : Text) (first : Token) (read : List Token) : Outcome Text :=
  let last := (first :: read).getLast (List.cons_ne_nil first read)
  substring source first.place.offset
    (last.place.offset + last.lexeme.length - first.place.offset)

/-! ### Repeats -/

/-- Digits without the zeros in front of them. -/
def significant (digits : Text) : Outcome Text :=
  let first := digits.findIdx (· ≠ 0x30)
  if first = digits.length then .ok [0x30] else substring digits first digits.length

/-- Reads a repeat count. Only counts of few digits are converted. -/
def readCount (finish : Location) (ts : List Token) : Outcome (Step UInt64 ts) :=
  match ts with
  | t :: us =>
    if t.symbol.isDigit then do
      let others := readWhile Symbol.isDigit us
      let digits := t.symbol.value :: others.value
      let few ← significant digits
      if 7 < few.length then reject (.countTooLarge digits) t.place
      else
        let value ← toWord few
        if maxRepeatCount < value.toNat then reject (.countTooLarge digits) t.place
        else return .cons (others.map fun _ => value)
    else reject .missingCount t.place
  | [] => reject .missingCount finish

/-- Reads the maximum behind a comma, if there is one. -/
def readMaximum (finish : Location) (ts : List Token) : Outcome (Span (Option UInt64) ts) :=
  if (peekSymbol ts).isDigit then do
    return ((← readCount finish ts).map some).toSpan
  else return .stay none

/-- Reads the numbers between braces. -/
def readRange (finish : Location) (ts : List Token) : Outcome (Step Repeat.Range ts) := do
  let min ← readCount finish ts
  match h : min.rest with
  | ⟨.mark .comma, _⟩ :: us =>
    let max ← readMaximum finish us
    let comma := min.skip h
    return comma.thenSpan (max.map (Repeat.Range.between min.value))
  | _ => return min.map .exact

/-- Reads what stands between braces, and the closing brace. The opening one stands at
`place`. -/
def readBraces (finish place : Location) : Reader Repeat.Braces
  | [] => reject .unclosedBrace place
  | ts => do
    let range ← readRange finish ts
    let note ← readOptional finish range.rest
    let inside := range.thenSpan (note.map (Repeat.Braces.mk range.value))
    refused <| match h : inside.rest with
      | ⟨.mark .rightBrace, _⟩ :: _ => return inside.skip h
      | [] => refuse .unclosedBrace place
      | t :: _ => refuse (.unexpectedInQuantifier t.symbol range.value.isExact) t.place

/-- The repeat of a mark with the bounds it stands for, and an annotation behind it. -/
def ofMark (bounds : Bounds) (note : Option Annotation) : Outcome Repeat :=
  match note with
  | none => return ⟨bounds, none⟩
  | some a => do return ⟨bounds, some (← onRepeat a bounds.min)⟩

/-- The repeat of what stands between braces, which begins at `place`. The text as it was written
is cut only for a refusal. -/
def ofBraces (place : Location) (text : Thunk (Outcome Text)) (b : Repeat.Braces) :
    Outcome Repeat :=
  let bounds := b.range.bounds
  if bounds.ceiling < bounds.min then do
    let text ← text.get
    reject (.invertedBounds bounds.min.toNat bounds.ceiling.toNat text) place
  else
    match b.note with
    | none => return ⟨bounds, none⟩
    | some a => do
      let d ← onRepeat a bounds.min
      return ⟨if b.range.isExact then Repeat.unrestricted else bounds, some d⟩

/-- Reads a repeat. -/
def readRepeat (source : Text) (finish : Location) : Reader Repeat
  | ⟨.mark .leftBrace, place⟩ :: us => do
    let inside ← readBraces finish place us
    let r ← ofBraces place
      (written source ⟨.mark .leftBrace, place⟩ (tokensBetween us inside.rest)) inside.value
    return (inside.map fun _ => r).behind
  | t :: us =>
    match Repeat.markBounds? t.symbol with
    | some bounds => do
      let note ← readOptional finish us
      let r ← ofMark bounds note.value
      return .cons (note.map fun _ => r)
    | none => reject (.unexpected t.symbol) t.place
  | [] => reject (.unexpected .stop) finish

/-! ### Classes -/

/-- Reads the annotation of a class with given members, which begins at `place`, and builds the
class. The text of the class as it was written is cut only for a refusal. -/
def readClassAnnotation (finish place : Location) (text : Thunk (Outcome Text))
    (members : List ClassItem) (negated bracketed : Bool) (ts : List Token) :
    Outcome (Span CharClass ts) :=
  let alphabet := alphabetOf members negated
  if alphabet = [] then do
    let text ← text.get
    reject (.emptyAlphabet text) place
  else do
    let note ← readOptional finish ts
    match note.value with
    | none =>
      return note.map fun _ => { members, negated, bracketed, distribution := none, alphabet }
    | some a =>
      let d ← onClass a alphabet
      return note.map fun _ => { members, negated, bracketed, distribution := some d, alphabet }

/-- Reads a class: a shorthand, or members between brackets. -/
def readClass (source : Text) (finish : Location) : Reader CharClass
  | ⟨.shorthand name, place⟩ :: us => do
    let c ← readClassAnnotation finish place (written source ⟨.shorthand name, place⟩ [])
      [.shorthand name] false false us
    return .cons c
  | ⟨.mark .leftBracket, place⟩ :: us => do
    let negation := CharClass.readNegation us
    let members ← refused (CharClass.readMembers finish place negation.rest)
    if members.value = [] then reject .emptyClass place
    else
      let c ← readClassAnnotation finish place
        (written source ⟨.mark .leftBracket, place⟩ (tokensBetween us members.rest))
        members.value negation.value true members.rest
      return (Step.within negation.isSuffix (members.thenSpan c)).behind
  | ts => reject (.unexpected (peekSymbol ts)) (peekPlace finish ts)

/-! ### Trees -/

/-- Reads a group behind its opening parenthesis, which stands at `place`. -/
def readGroup (inner : Option (Reader Node)) (place : Location) : Reader Node
  | ⟨.mark .rightParen, _⟩ :: _ => reject .emptyGroup place
  | ts =>
    match inner with
    | none => reject .nestedTooDeep place
    | some readInner => do
      let content ← readInner ts
      refused <| match h : content.rest with
        | ⟨.mark .rightParen, _⟩ :: _ => return content.skip h
        | [] => refuse .unclosedParenthesis place
        | t :: _ => refuse (.unexpected t.symbol) t.place

/-- Reads an atom. -/
def readAtom (source : Text) (finish : Location) (inner : Option (Reader Node)) : Reader Node
  | ⟨.literal b, place⟩ :: _ => return .one (.literal place.offset b)
  | ⟨.escaped b, place⟩ :: _ => return .one (.literal place.offset b)
  | ⟨.mark .dot, place⟩ :: _ => return .one (.wildcard place.offset)
  | ⟨.mark .leftParen, place⟩ :: us => do return (← readGroup inner place us).behind
  | ts =>
    match peekSymbol ts with
    | .shorthand _ | .mark .leftBracket => do
      return (← readClass source finish ts).map (.charClass (peekPlace finish ts).offset)
    | s => reject (.unexpected s) (peekPlace finish ts)

/-- Reads an atom and the repeat behind it, if there is one. A second repeat is refused. -/
def readFactor (source : Text) (finish : Location) (inner : Option (Reader Node)) :
    Reader Node := fun ts => do
  let atom ← readAtom source finish inner ts
  if (peekSymbol atom.rest).opensRepeat then
    let r ← readRepeat source finish atom.rest
    let node ← shaped (Node.mkQuantified atom.value.offset r.value.bounds r.value.distribution
      (some atom.value))
    let factor := atom.thenStep (r.map fun _ => node)
    refused <| if (peekSymbol factor.rest).opensRepeat then
        refuse .stackedQuantifier (peekPlace finish factor.rest)
      else return factor
  else return atom

/-- Reads factors as long as an atom can begin; at least one. -/
def readFactors (source : Text) (finish : Location) (inner : Option (Reader Node))
    (ts : List Token) : Outcome (Step (List Node) ts) := do
  let first ← readFactor source finish inner ts
  if (peekSymbol first.rest).opensAtom then
    let others ← readFactors source finish inner first.rest
    return (first.thenStep others).map (first.value :: ·)
  else return first.map ([·])
termination_by ts.length
decreasing_by exact first.shorter

/-- Several parts in sequence; a single part stands for itself. -/
def sequence (offset : Nat) : List Node → Outcome Node
  | [child] => .ok child
  | children => shaped (Node.mkConcat offset children)

/-- Reads a sequence of factors. -/
def readExpression (source : Text) (finish : Location) (inner : Option (Reader Node)) :
    Reader Node := fun ts =>
  if (peekSymbol ts).opensAtom then do
    let factors ← readFactors source finish inner ts
    let node ← sequence (peekPlace finish ts).offset factors.value
    return factors.map fun _ => node
  else reject (.unexpected (peekSymbol ts)) (peekPlace finish ts)

/-- Reads branches separated by bars. -/
def readBranches (source : Text) (finish : Location) (inner : Option (Reader Node))
    (ts : List Token) : Outcome (Step (List Node) ts) := do
  let first ← readExpression source finish inner ts
  match h : first.rest with
  | ⟨.mark .pipe, place⟩ :: us =>
    if Node.endsBranch (peekSymbol us) then reject .emptyAlternativeAfter place
    else
      let others ← readBranches source finish inner us
      let bar := first.skip h
      return (bar.thenStep others).map (first.value :: ·)
  | _ => return first.map ([·])
termination_by ts.length
decreasing_by
  have := first.shorter
  simp only [h, List.length_cons] at this
  omega

/-- A choice among branches; a single branch stands for itself. -/
def choice (offset : Nat) : List Node → Outcome Node
  | [branch] => .ok branch
  | branches => shaped (Node.mkAlternation offset branches)

/-- Reads a choice among branches. -/
def readAlternation (source : Text) (finish : Location) (inner : Option (Reader Node)) :
    Reader Node
  | ⟨.mark .pipe, place⟩ :: _ => reject .emptyAlternativeBefore place
  | ts => do
    let branches ← readBranches source finish inner ts
    let node ← choice (peekPlace finish ts).offset branches.value
    return branches.map fun _ => node

/-- Reads a choice in which groups may be nested to a depth. -/
def readNested (source : Text) (finish : Location) : Nat → Reader Node
  | 0 => readAlternation source finish none
  | depth + 1 => readAlternation source finish (some (readNested source finish depth))

/-! ### Patterns -/

/-- Reads a pattern from the tokens of the text `source`, which ends at `finish`. -/
def ofTokens (source : Text) (finish : Location) (ts : List Token) : Outcome Pattern :=
  let anchor := Pattern.readStartAnchor ts
  if anchor.rest = [] ∨ Pattern.isEndAnchor anchor.rest then
    reject .emptyPattern (peekPlace finish anchor.rest)
  else do
    let root ← readNested source finish maxGroupDepth anchor.rest
    if Pattern.isEndAnchor root.rest then
      shaped (mkPattern (some root.value) anchor.value true source)
    else
      match root.rest with
      | [] => shaped (mkPattern (some root.value) anchor.value false source)
      | t :: _ => reject (.unexpected t.symbol) t.place

/-- Reads a text. -/
def parse (source : Text) : Outcome Pattern :=
  let scanned := (Cursor.ofText source).scan
  ofTokens source scanned.2 scanned.1

end Strict

end PatternSampler
