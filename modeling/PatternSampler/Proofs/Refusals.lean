/-
Module: PatternSampler.Proofs.Refusals
Purpose: Where texts are refused. Every reader refuses at the place of one of the tokens it is
  given or at the end of the text, whatever comes before the refusal. So the place that a
  report shows is the place of a token, and its offset is not behind the text.
Main exports: RefusesAt, Node.refusesAt_readNested, Pattern.exists_token_of_parse,
  Cursor.offset_le_of_mem_tokens
-/
import PatternSampler.Proofs.Grammar.Extent
import PatternSampler.Proofs.Grammar.Soundness
import PatternSampler.Proofs.Resolution.Places
import PatternSampler.Proofs.Tokens

namespace PatternSampler

/-! ### Refusals at places with a property -/

/-- A computation refuses only at places with a property. -/
def RefusesAt {α : Type} (P : Location → Prop) (x : Except Refusal α) : Prop :=
  ∀ r, x = .error r → P r.place

section

variable {α β : Type} {P : Location → Prop}

theorem refusesAt_pure (a : α) : RefusesAt P (pure a) := fun _ refused => nomatch refused

theorem refusesAt_refuse {cause : Cause} {place : Location} (holds : P place) :
    RefusesAt P (refuse cause place : Except Refusal α) := by
  intro r refused
  cases refused
  exact holds

/-- What follows a computation may rely on its result. -/
theorem RefusesAt.bind {x : Except Refusal α} {f : α → Except Refusal β} (first : RefusesAt P x)
    (next : ∀ a, x = .ok a → RefusesAt P (f a)) : RefusesAt P (x >>= f) := by
  cases x with
  | error r =>
    intro r' refused
    cases refused
    exact first r rfl
  | ok a => exact next a rfl

end

/-- All tokens of a list are at places with a property. -/
def AllAt (P : Location → Prop) (ts : List Token) : Prop := ∀ t ∈ ts, P t.place

section

variable {P : Location → Prop} {t : Token} {ts rest : List Token}

theorem AllAt.head (all : AllAt P (t :: ts)) : P t.place := all t List.mem_cons_self

theorem AllAt.tail (all : AllAt P (t :: ts)) : AllAt P ts :=
  fun u member => all u (List.mem_cons_of_mem t member)

theorem AllAt.of_isSuffix (all : AllAt P ts) (suffix : rest <:+ ts) : AllAt P rest :=
  fun u member => all u (suffix.subset member)

theorem AllAt.peekPlace {finish : Location} (all : AllAt P ts) (atEnd : P finish) :
    P (peekPlace finish ts) := by
  cases ts with
  | nil => exact atEnd
  | cons t ts => exact all.head

end

/-! ### Places of annotations -/

namespace Grammar

variable {P : Location → Prop} {ts rest : List Token}

/-- A parameter stands at its first token. -/
theorem Argument.at {p : Parameter} (argument : Argument ts p rest) (all : AllAt P ts) :
    P p.place := by
  cases argument with
  | positional => exact all.head
  | named => exact all.head

theorem Arguments.at {ps : List Parameter} (arguments : Arguments ts ps rest) (all : AllAt P ts) :
    ∀ p ∈ ps, P p.place := by
  induction arguments with
  | last argument => exact List.forall_mem_singleton.2 (argument.at all)
  | more argument _ inductionHypothesis =>
    have behind := all.of_isSuffix ((List.suffix_cons _ _).trans argument.isSuffix)
    exact List.forall_mem_cons.2 ⟨argument.at all, inductionHypothesis behind⟩

theorem ArgumentList.at {ps : List Parameter} (list : ArgumentList ts ps rest)
    (all : AllAt P ts) : ∀ p ∈ ps, P p.place := by
  cases list with
  | absent => exact nofun
  | empty => exact nofun
  | listed arguments => exact arguments.at all.tail

/-- An annotation stands at its tilde, and its parameters behind it. -/
theorem Note.at {a : Annotation} (note : Note ts a rest) (all : AllAt P ts) :
    ∀ q ∈ a.places, P q := by
  cases note with
  | intro letters _ arguments =>
    have parameters := arguments.at (all.tail.of_isSuffix letters.isSuffix)
    exact List.forall_mem_cons.2 ⟨all.head, List.forall_mem_map.2 parameters⟩

end Grammar

/-! ### Readers -/

section Readers

variable {P : Location → Prop} {finish place : Location} {ts : List Token}

theorem Numeral.refusesAt_read (atEnd : P finish) (all : AllAt P ts) :
    RefusesAt P (Numeral.read finish ts) := by
  have atFront := all.peekPlace atEnd
  simp only [Numeral.read]
  split
  next =>
    split
    next => exact refusesAt_pure _
    next => exact refusesAt_refuse atFront
  next =>
    split
    next => exact refusesAt_refuse atFront
    next => exact refusesAt_refuse atFront

namespace Annotation

theorem refusesAt_readParameter (atEnd : P finish) (all : AllAt P ts) :
    RefusesAt P (readParameter finish ts) := by
  unfold readParameter
  split
  next =>
    split
    next => exact refusesAt_refuse all.head
    next => exact (Numeral.refusesAt_read atEnd all.tail.tail).bind fun _ _ => refusesAt_pure _
  next => exact (Numeral.refusesAt_read atEnd all).bind fun _ _ => refusesAt_pure _

theorem refusesAt_readParameters (atEnd : P finish) (all : AllAt P ts) :
    RefusesAt P (readParameters finish ts) := by
  fun_induction readParameters finish ts with
  | case1 ts inductionHypothesis =>
    refine (refusesAt_readParameter atEnd all).bind fun first _ => ?_
    split
    next place us restEq =>
      have behind := all.of_isSuffix first.isSuffix
      rw [restEq] at behind
      exact (inductionHypothesis first place us restEq behind.tail).bind fun _ _ => refusesAt_pure _
    next => exact refusesAt_pure _

theorem refusesAt_readParameterList (atEnd : P finish) (atOpening : P place) (all : AllAt P ts) :
    RefusesAt P (readParameterList finish place ts) := by
  unfold readParameterList
  split
  next => exact refusesAt_pure _
  next =>
    refine (refusesAt_readParameters atEnd all).bind fun parameters _ => ?_
    split
    next => exact refusesAt_pure _
    next => exact refusesAt_refuse atOpening
    next restEq =>
      have behind := all.of_isSuffix parameters.isSuffix
      rw [restEq] at behind
      exact refusesAt_refuse behind.head

theorem refusesAt_readArguments (atEnd : P finish) (all : AllAt P ts) :
    RefusesAt P (readArguments finish ts) := by
  unfold readArguments
  split
  next =>
    exact (refusesAt_readParameterList atEnd all.head all.tail).bind fun _ _ => refusesAt_pure _
  next => exact refusesAt_pure _

theorem refusesAt_readOptional (atEnd : P finish) (all : AllAt P ts) :
    RefusesAt P (readOptional finish ts) := by
  unfold readOptional
  split
  next place us =>
    refine RefusesAt.bind ?_ fun _ _ => refusesAt_pure _
    simp only [readBody]
    split
    next => exact refusesAt_refuse (all.tail.peekPlace atEnd)
    next =>
      have behind := all.tail.of_isSuffix (readWhile Symbol.isLetter us).isSuffix
      exact (refusesAt_readArguments atEnd behind).bind fun _ _ => refusesAt_pure _
  next => exact refusesAt_pure _

/-- The meaning of an annotation that was read is refused at the annotation or at one of its
parameters. -/
theorem refusesAt_meaning {meaning : Annotation → Resolution Distribution}
    (refusedAt : ∀ {a r}, meaning a = .error r → r.place ∈ a.places)
    {note : Span (Option Annotation) ts} (read : readOptional finish ts = .ok note)
    (all : AllAt P ts) {a : Annotation} (present : note.value = some a) :
    RefusesAt P (meaning a) := by
  intro r refused
  rcases Grammar.note_of_readOptional read with ⟨absent, -⟩ | ⟨a', present', phrase⟩
  · rw [absent] at present
    cases present
  · rw [present'] at present
    cases present
    exact phrase.at all r.place (refusedAt refused)

end Annotation

open Annotation (refusesAt_readOptional refusesAt_meaning)

namespace CharClass

theorem refusesAt_readNamedEnd (atEnd : P finish) (atOpening : P place) (all : AllAt P ts) :
    RefusesAt P (readNamedEnd finish place ts) := by
  unfold readNamedEnd
  split
  next => exact refusesAt_pure _
  next => exact refusesAt_refuse atOpening
  next => exact refusesAt_refuse (all.peekPlace atEnd)

theorem refusesAt_readNamed (atEnd : P finish) (atOpening : P place) (all : AllAt P ts) :
    RefusesAt P (readNamed finish place ts) := by
  unfold readNamed
  split
  next _ us =>
    have behind := all.tail.of_isSuffix (readWhile Symbol.isLetter us).isSuffix
    refine (refusesAt_readNamedEnd atEnd atOpening behind).bind fun last _ => ?_
    split
    next => exact refusesAt_pure _
    next => exact refusesAt_refuse atOpening
  next => exact refusesAt_refuse atOpening

theorem refusesAt_readMembers (atEnd : P finish) (atOpening : P place) (all : AllAt P ts) :
    RefusesAt P (readMembers finish place ts) := by
  fun_induction readMembers finish place ts with
  | case1 => exact refusesAt_refuse atOpening
  | case2 => exact refusesAt_pure _
  | case3 => exact refusesAt_refuse all.head
  | case4 p us inductionHypothesis =>
    refine (refusesAt_readNamed atEnd all.head all.tail).bind fun member _ => ?_
    have behind := all.tail.of_isSuffix member.isSuffix
    exact (inductionHypothesis member behind).bind fun _ _ => refusesAt_pure _
  | case5 _ _ _ _ _ _ inductionHypothesis =>
    exact (inductionHypothesis all.tail).bind fun _ _ => refusesAt_pure _

theorem refusesAt_readAnnotation {written : Thunk Text} {members : List ClassItem}
    {negated bracketed : Bool} (atEnd : P finish) (atOpening : P place) (all : AllAt P ts) :
    RefusesAt P <| readAnnotation finish place written members negated bracketed ts := by
  unfold readAnnotation
  dsimp only
  split
  next => exact refusesAt_refuse atOpening
  next =>
    refine (refusesAt_readOptional atEnd all).bind fun note noteRead => ?_
    split
    next => exact refusesAt_pure _
    next a present =>
      exact (refusesAt_meaning Annotation.place_mem_of_onClass noteRead all
        present).bind fun _ _ => refusesAt_pure _

theorem refusesAt_read (atEnd : P finish) (all : AllAt P ts) :
    RefusesAt P (CharClass.read finish ts) := by
  unfold CharClass.read
  split
  next =>
    refine RefusesAt.bind ?_ fun _ _ => refusesAt_pure _
    exact refusesAt_readAnnotation atEnd all.head all.tail
  next place us =>
    have inside := all.tail.of_isSuffix (readNegation us).isSuffix
    refine (refusesAt_readMembers atEnd all.head inside).bind fun members _ => ?_
    split
    next => exact refusesAt_refuse all.head
    next =>
      have behind := inside.of_isSuffix members.isSuffix
      refine RefusesAt.bind ?_ fun _ _ => refusesAt_pure _
      exact refusesAt_readAnnotation atEnd all.head behind
  next => exact refusesAt_refuse (all.peekPlace atEnd)

end CharClass

namespace Repeat

theorem refusesAt_readCount (atEnd : P finish) (all : AllAt P ts) :
    RefusesAt P (readCount finish ts) := by
  unfold readCount
  split
  next =>
    split
    next =>
      dsimp only
      split
      next => exact refusesAt_refuse all.head
      next => exact refusesAt_pure _
    next => exact refusesAt_refuse all.head
  next => exact refusesAt_refuse atEnd

theorem refusesAt_readRange (atEnd : P finish) (all : AllAt P ts) :
    RefusesAt P (readRange finish ts) := by
  unfold readRange
  refine (refusesAt_readCount atEnd all).bind fun min _ => ?_
  split
  next us restEq =>
    have behind := all.of_isSuffix min.isSuffix
    rw [restEq] at behind
    refine RefusesAt.bind ?_ fun _ _ => refusesAt_pure _
    unfold readMaximum
    split
    next => exact (refusesAt_readCount atEnd behind.tail).bind fun _ _ => refusesAt_pure _
    next => exact refusesAt_pure _
  next => exact refusesAt_pure _

theorem refusesAt_readBraces (atEnd : P finish) (atOpening : P place) (all : AllAt P ts) :
    RefusesAt P (readBraces finish place ts) := by
  unfold readBraces
  split
  next => exact refusesAt_refuse atOpening
  next =>
    refine (refusesAt_readRange atEnd all).bind fun range _ => ?_
    have behindRange := all.of_isSuffix range.isSuffix
    refine (refusesAt_readOptional atEnd behindRange).bind fun note _ => ?_
    dsimp only
    split
    next => exact refusesAt_pure _
    next => exact refusesAt_refuse atOpening
    next restEq =>
      have behind := behindRange.of_isSuffix note.isSuffix
      rw [show note.rest = _ from restEq] at behind
      exact refusesAt_refuse behind.head

theorem refusesAt_read (atEnd : P finish) (all : AllAt P ts) :
    RefusesAt P (Repeat.read finish ts) := by
  unfold Repeat.read
  split
  next place us =>
    refine (refusesAt_readBraces atEnd all.head all.tail).bind fun inside read => ?_
    refine RefusesAt.bind ?_ fun _ _ => refusesAt_pure _
    simp only [ofBraces]
    split
    next => exact refusesAt_refuse all.head
    next =>
      split
      next => exact refusesAt_pure _
      next a present =>
        obtain ⟨range, note, -, -, noteRead, -, valueEq⟩ := Grammar.readBraces_eq_ok read
        rw [valueEq] at present
        have behind := all.tail.of_isSuffix range.isSuffix
        exact (refusesAt_meaning Annotation.place_mem_of_onRepeat noteRead behind
          present).bind fun _ _ => refusesAt_pure _
  next t us =>
    split
    next bounds _ =>
      refine (refusesAt_readOptional atEnd all.tail).bind fun note noteRead => ?_
      refine RefusesAt.bind ?_ fun _ _ => refusesAt_pure _
      unfold ofMark
      split
      next => exact refusesAt_pure _
      next a present =>
        exact (refusesAt_meaning Annotation.place_mem_of_onRepeat noteRead all.tail
          present).bind fun _ _ => refusesAt_pure _
    next => exact refusesAt_refuse all.head
  next => exact refusesAt_refuse atEnd

end Repeat

namespace Node

variable {inner : Option (Reader Node)}

/-- What stands inside a group is refused at places with the property. -/
def InnerRefusesAt (P : Location → Prop) (inner : Option (Reader Node)) : Prop :=
  ∀ readInner ∈ inner, ∀ ts, AllAt P ts → RefusesAt P (readInner ts)

theorem refusesAt_readGroup (atOpening : P place) (inside : InnerRefusesAt P inner)
    (all : AllAt P ts) : RefusesAt P (readGroup inner place ts) := by
  unfold readGroup
  split
  next => exact refusesAt_refuse atOpening
  next =>
    split
    next => exact refusesAt_refuse atOpening
    next readInner =>
      refine (inside readInner rfl ts all).bind fun content _ => ?_
      split
      next => exact refusesAt_pure _
      next => exact refusesAt_refuse atOpening
      next restEq =>
        have behind := all.of_isSuffix content.isSuffix
        rw [restEq] at behind
        exact refusesAt_refuse behind.head

theorem refusesAt_readAtom (atEnd : P finish) (inside : InnerRefusesAt P inner)
    (all : AllAt P ts) : RefusesAt P (readAtom finish inner ts) := by
  have ofClass : RefusesAt P (do
      return (← CharClass.read finish ts).map (Node.charClass (peekPlace finish ts).offset)) :=
    (CharClass.refusesAt_read atEnd all).bind fun _ _ => refusesAt_pure _
  cases ts with
  | nil => exact refusesAt_refuse atEnd
  | cons t us =>
    obtain ⟨symbol, place⟩ := t
    cases symbol with
    | literal | escaped => exact refusesAt_pure _
    | shorthand => exact ofClass
    | mark m =>
      cases m with
      | dot => exact refusesAt_pure _
      | leftBracket => exact ofClass
      | leftParen =>
        exact (refusesAt_readGroup all.head inside all.tail).bind fun _ _ => refusesAt_pure _
      | _ => exact refusesAt_refuse all.head
    | _ => exact refusesAt_refuse all.head

theorem refusesAt_readFactor (atEnd : P finish) (inside : InnerRefusesAt P inner)
    (all : AllAt P ts) : RefusesAt P (readFactor finish inner ts) := by
  unfold readFactor
  refine (refusesAt_readAtom atEnd inside all).bind fun atom _ => ?_
  split
  next =>
    have behindAtom := all.of_isSuffix atom.isSuffix
    refine (Repeat.refusesAt_read atEnd behindAtom).bind fun r _ => ?_
    have behind := behindAtom.of_isSuffix r.isSuffix
    dsimp only
    split
    next => exact refusesAt_refuse (behind.peekPlace atEnd)
    next => exact refusesAt_pure _
  next => exact refusesAt_pure _

theorem refusesAt_readFactors (atEnd : P finish) (inside : InnerRefusesAt P inner)
    (all : AllAt P ts) : RefusesAt P (readFactors finish inner ts) := by
  fun_induction readFactors finish inner ts with
  | case1 ts inductionHypothesis =>
    refine (refusesAt_readFactor atEnd inside all).bind fun first _ => ?_
    split
    next =>
      have behind := all.of_isSuffix first.isSuffix
      exact (inductionHypothesis first behind).bind fun _ _ => refusesAt_pure _
    next => exact refusesAt_pure _

theorem refusesAt_readExpression (atEnd : P finish) (inside : InnerRefusesAt P inner)
    (all : AllAt P ts) : RefusesAt P (readExpression finish inner ts) := by
  unfold readExpression
  split
  next => exact (refusesAt_readFactors atEnd inside all).bind fun _ _ => refusesAt_pure _
  next => exact refusesAt_refuse (all.peekPlace atEnd)

theorem refusesAt_readBranches (atEnd : P finish) (inside : InnerRefusesAt P inner)
    (all : AllAt P ts) : RefusesAt P (readBranches finish inner ts) := by
  fun_induction readBranches finish inner ts with
  | case1 ts inductionHypothesis =>
    refine (refusesAt_readExpression atEnd inside all).bind fun first _ => ?_
    split
    next place us restEq =>
      have behind := all.of_isSuffix first.isSuffix
      rw [restEq] at behind
      split
      next => exact refusesAt_refuse behind.head
      next =>
        have others := inductionHypothesis first place us restEq behind.tail
        exact others.bind fun _ _ => refusesAt_pure _
    next => exact refusesAt_pure _

theorem refusesAt_readAlternation (atEnd : P finish) (inside : InnerRefusesAt P inner)
    (all : AllAt P ts) : RefusesAt P (readAlternation finish inner ts) := by
  unfold readAlternation
  split
  next => exact refusesAt_refuse all.head
  next => exact (refusesAt_readBranches atEnd inside all).bind fun _ _ => refusesAt_pure _

/-- Whatever depth is allowed, what is refused is refused at a token or at the end. -/
theorem refusesAt_readNested (atEnd : P finish) (depth : Nat) (all : AllAt P ts) :
    RefusesAt P (readNested finish depth ts) := by
  induction depth generalizing ts with
  | zero => exact refusesAt_readAlternation atEnd (fun _ absent => nomatch absent) all
  | succ depth inductionHypothesis =>
    refine refusesAt_readAlternation atEnd ?_ all
    intro readInner present ts all
    cases present
    exact inductionHypothesis all

end Node

theorem Pattern.refusesAt_ofTokens {source : Text} (atEnd : P finish) (all : AllAt P ts) :
    RefusesAt P (Pattern.ofTokens source finish ts) := by
  have content := all.of_isSuffix (readStartAnchor ts).isSuffix
  simp only [Pattern.ofTokens]
  split
  next => exact refusesAt_refuse (content.peekPlace atEnd)
  next =>
    refine (Node.refusesAt_readNested atEnd maxGroupDepth content).bind fun root _ => ?_
    split
    next => exact refusesAt_pure _
    next =>
      split
      next => exact refusesAt_pure _
      next restEq =>
        have behind := content.of_isSuffix root.isSuffix
        rw [restEq] at behind
        exact refusesAt_refuse behind.head

end Readers

/-! ### Texts -/

/-- No token stands behind the end of its text. -/
theorem Cursor.offset_le_of_mem_tokens {s : Text} {t : Token}
    (member : t ∈ (Cursor.ofText s).tokens) : t.place.offset ≤ s.length := by
  obtain ⟨before, behind, splits⟩ := List.append_of_mem member
  have textEq : Token.lexemes (before ++ t :: behind) = s := splits ▸ lexemes_tokens (ofText s)
  rw [place_of_tokens splits, Location.offset_after, ← textEq, Token.lexemes_append,
    List.length_append]
  exact Nat.le_trans (Nat.le_of_eq (Nat.zero_add _)) (Nat.le_add_right _ _)

/-- A text that is refused is refused at the place of one of its tokens, the stop token
included. -/
theorem Pattern.exists_token_of_parse {s : Text} {r : Refusal}
    (refused : Pattern.parse s = .error r) :
    ∃ t ∈ (Cursor.ofText s).tokens, r.place = t.place := by
  refine Pattern.refusesAt_ofTokens
    (P := fun place => ∃ t ∈ (Cursor.ofText s).tokens, place = t.place) ?_ ?_ r refused
  · exact ⟨_, List.mem_append_right _ (List.mem_singleton_self _), rfl⟩
  · intro t member
    exact ⟨t, List.mem_append_left _ member, rfl⟩

end PatternSampler
