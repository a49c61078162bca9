/-
Module: PatternSampler.Pattern.Reader
Purpose: Reading patterns from text. The grammar, from the loosest to the tightest binding:

    pattern     := '^'? alternation '$'?
    alternation := expression ('|' expression)*
    expression  := factor+
    factor      := atom repeat?
    atom        := character | '.' | class | '(' alternation ')'

  Groups leave no node of their own. They are read by the reader of the next level, of
  which there are as many as groups may be nested, so every reader is defined from the
  readers of the levels below it.
Main exports: Node.readAtom, Node.readExpression, Node.readAlternation, Node.readNested,
  Pattern.parse
-/
import PatternSampler.CharClass.Reader
import PatternSampler.Pattern.Repeat
import PatternSampler.Token.Cursor

namespace PatternSampler

namespace Node

/-! ### Atoms and factors

The readers take the reader `inner` for what stands inside a group; there is none where
groups may not be nested any deeper. -/

/-- Reads a group behind its opening parenthesis, which stands at `place`. -/
def readGroup (inner : Option (Reader Node)) (place : Location) : Reader Node
  | ⟨.mark .rightParen, _⟩ :: _ => refuse .emptyGroup place
  | ts =>
    match inner with
    | none => refuse .nestedTooDeep place
    | some readInner => do
      let content ← readInner ts
      match h : content.rest with
      | ⟨.mark .rightParen, _⟩ :: _ => return content.skip h
      | [] => refuse .unclosedParenthesis place
      | t :: _ => refuse (.unexpected t.symbol) t.place

/-- Reads an atom. -/
def readAtom (finish : Location) (inner : Option (Reader Node)) : Reader Node
  | ⟨.literal b, place⟩ :: _ => return .one (.literal place.offset b)
  | ⟨.escaped b, place⟩ :: _ => return .one (.literal place.offset b)
  | ⟨.mark .dot, place⟩ :: _ => return .one (.wildcard place.offset)
  | ⟨.mark .leftParen, place⟩ :: us => do return (← readGroup inner place us).behind
  | ts =>
    match peekSymbol ts with
    | .shorthand _ | .mark .leftBracket => do
      return (← CharClass.read finish ts).map (.charClass (peekPlace finish ts).offset)
    | s => refuse (.unexpected s) (peekPlace finish ts)

/-- Reads an atom and the repeat behind it, if there is one. A second repeat is refused. -/
def readFactor (finish : Location) (inner : Option (Reader Node)) : Reader Node := fun ts => do
  let atom ← readAtom finish inner ts
  if (peekSymbol atom.rest).opensRepeat then
    let r ← Repeat.read finish atom.rest
    let factor := atom.thenStep (r.map fun r =>
      .quantified atom.value.offset r.bounds r.distribution atom.value)
    if (peekSymbol factor.rest).opensRepeat then
      refuse .stackedQuantifier (peekPlace finish factor.rest)
    else return factor
  else return atom

/-! ### Sequences and choices -/

/-- Reads factors as long as an atom can begin; at least one. -/
def readFactors (finish : Location) (inner : Option (Reader Node)) (ts : List Token) :
    Except Refusal (Step (List Node) ts) := do
  let first ← readFactor finish inner ts
  if (peekSymbol first.rest).opensAtom then
    let others ← readFactors finish inner first.rest
    return (first.thenStep others).map (first.value :: ·)
  else return first.map ([·])
termination_by ts.length
decreasing_by exact first.shorter

/-- Reads a sequence of factors. -/
def readExpression (finish : Location) (inner : Option (Reader Node)) : Reader Node := fun ts =>
  if (peekSymbol ts).opensAtom then do
    let factors ← readFactors finish inner ts
    return factors.map (sequence (peekPlace finish ts).offset)
  else refuse (.unexpected (peekSymbol ts)) (peekPlace finish ts)

/-- The symbols behind a bar that leave the branch empty. -/
def endsBranch : Symbol → Bool
  | .stop | .mark .pipe | .mark .rightParen | .mark .dollar => true
  | _ => false

/-- Reads branches separated by bars. -/
def readBranches (finish : Location) (inner : Option (Reader Node)) (ts : List Token) :
    Except Refusal (Step (List Node) ts) := do
  let first ← readExpression finish inner ts
  match h : first.rest with
  | ⟨.mark .pipe, place⟩ :: us =>
    if endsBranch (peekSymbol us) then refuse .emptyAlternativeAfter place
    else
      let others ← readBranches finish inner us
      let bar := first.skip h
      return (bar.thenStep others).map (first.value :: ·)
  | _ => return first.map ([·])
termination_by ts.length
decreasing_by
  have := first.shorter
  simp only [h, List.length_cons] at this
  omega

/-- Reads a choice among branches. -/
def readAlternation (finish : Location) (inner : Option (Reader Node)) : Reader Node
  | ⟨.mark .pipe, place⟩ :: _ => refuse .emptyAlternativeBefore place
  | ts => do
    let branches ← readBranches finish inner ts
    return branches.map (choice (peekPlace finish ts).offset)

/-- Reads a choice in which groups may be nested to a depth. -/
def readNested (finish : Location) : Nat → Reader Node
  | 0 => readAlternation finish none
  | depth + 1 => readAlternation finish (some (readNested finish depth))

end Node

/-! ### Patterns -/

namespace Pattern

/-- An anchor at the start, if there is one. -/
def readStartAnchor : (ts : List Token) → Span Bool ts
  | ⟨.mark .caret, _⟩ :: _ => (Step.one true).toSpan
  | _ => .stay false

/-- Whether nothing but an anchor at the end is left. -/
def isEndAnchor : List Token → Bool
  | [⟨.mark .dollar, _⟩] => true
  | _ => false

/-- Reads a pattern from the tokens of the text `source`, which ends at `finish`. -/
def ofTokens (source : Text) (finish : Location) (ts : List Token) : Except Refusal Pattern :=
  let anchor := readStartAnchor ts
  if anchor.rest = [] ∨ isEndAnchor anchor.rest then
    refuse .emptyPattern (peekPlace finish anchor.rest)
  else do
    let root ← Node.readNested finish maxGroupDepth anchor.rest
    if isEndAnchor root.rest then return ⟨root.value, anchor.value, true, source⟩
    else
      match root.rest with
      | [] => return ⟨root.value, anchor.value, false, source⟩
      | t :: _ => refuse (.unexpected t.symbol) t.place

/-- The pattern that a text stands for, or the reason why there is none. -/
def parse (source : Text) : Except Refusal Pattern :=
  let scanned := (Cursor.ofText source).scan
  ofTokens source scanned.2 scanned.1

end Pattern

end PatternSampler
