/-
Module: PatternSampler.CharClass.Reader
Purpose: Reading character classes from tokens. Between brackets reserved characters stand
  for themselves, except that a point is any printable character and a bracket opens a
  named class. A class whose alphabet is empty is refused before its annotation is read.
Main exports: CharClass.readMembers, CharClass.read
-/
import PatternSampler.Annotation.Reader
import PatternSampler.Annotation.Meaning
import PatternSampler.CharClass

namespace PatternSampler.CharClass

/-- The member that a symbol between brackets stands for. -/
def memberOf : Symbol → ClassItem
  | .mark .dot => .wildcard
  | .shorthand name => .shorthand name
  | s => .literal s.value

/-- Reads the end of a named class: a colon and the closing bracket. The class was opened at
`place`. -/
def readNamedEnd (finish place : Location) : Reader Unit
  | ⟨.literal 0x3A, _⟩ :: ⟨.mark .rightBracket, _⟩ :: _ => return Step.behind (.one ())
  | [] => refuse .unclosedNamedClass place
  | ts => refuse .malformedNamedClass (peekPlace finish ts)

/-- Reads a named class behind its opening bracket, which stands at `place`. -/
def readNamed (finish place : Location) : Reader ClassItem
  | ⟨.literal 0x3A, _⟩ :: us => do
    let name := readWhile Symbol.isLetter us
    let last ← readNamedEnd finish place name.rest
    match Alphabet.NamedClass.ofName? name.value with
    | some _ => return ((last.map fun _ => ClassItem.posix name.value).within name.isSuffix).behind
    | none => refuse (.unknownNamedClass name.value) place
  | _ => refuse .bracketInClass place

/-- Reads the members of a class that was opened at `place`, and its closing bracket. -/
def readMembers (finish place : Location) (ts : List Token) :
    Except Refusal (Step (List ClassItem) ts) :=
  match ts with
  | [] => refuse .unclosedBracket place
  | ⟨.mark .rightBracket, _⟩ :: _ => return .one []
  | ⟨.loneBackslash, p⟩ :: _ => refuse (.unexpected .loneBackslash) p
  | ⟨.mark .leftBracket, p⟩ :: us => do
    let member ← readNamed finish p us
    let others ← readMembers finish place member.rest
    return ((member.thenStep others).map (member.value :: ·)).behind
  | ⟨s, _⟩ :: us => do
    let others ← readMembers finish place us
    return (others.map (memberOf s :: ·)).behind
termination_by ts.length
decreasing_by
  · have := member.shorter
    simp only [List.length_cons]
    omega
  · simp

/-- A negation sign, if there is one. -/
def readNegation : (ts : List Token) → Span Bool ts
  | ⟨.mark .caret, _⟩ :: us => ⟨true, us, List.suffix_cons _ us⟩
  | _ => .stay false

/-- Reads the annotation of a class with given members, which begins at `place`, and builds the
class. The text of the class as it was written is asked for only by a refusal. -/
def readAnnotation (finish place : Location) (written : Thunk Text) (members : List ClassItem)
    (negated bracketed : Bool) (ts : List Token) : Except Refusal (Span CharClass ts) :=
  let alphabet := alphabetOf members negated
  if alphabet = [] then refuse (.emptyAlphabet written.get) place
  else do
    let note ← Annotation.readOptional finish ts
    match note.value with
    | none =>
      return note.map fun _ =>
        { members, negated, bracketed, distribution := none, alphabet }
    | some a =>
      let d ← a.onClass alphabet
      return note.map fun _ =>
        { members, negated, bracketed, distribution := some d, alphabet }

/-- Reads a class: a shorthand, or members between brackets. -/
def read (finish : Location) : Reader CharClass
  | ⟨.shorthand name, place⟩ :: us => do
    let c ← readAnnotation finish place (Symbol.shorthand name).lexeme [.shorthand name] false
      false us
    return .cons c
  | ⟨.mark .leftBracket, place⟩ :: us => do
    let negation := readNegation us
    let members ← readMembers finish place negation.rest
    if members.value = [] then refuse .emptyClass place
    else
      let c ← readAnnotation finish place
        (Token.lexemes (⟨.mark .leftBracket, place⟩ :: tokensBetween us members.rest))
        members.value negation.value true members.rest
      return (Step.within negation.isSuffix (members.thenSpan c)).behind
  | ts => refuse (.unexpected (peekSymbol ts)) (peekPlace finish ts)

end PatternSampler.CharClass
