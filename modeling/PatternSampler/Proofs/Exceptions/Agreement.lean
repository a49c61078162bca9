/-
Module: PatternSampler.Proofs.Exceptions.Agreement
Purpose: No reading of a text fails. The tokens of a text lie in it one behind the other, so a
  piece of the text from a token to a later one can be cut, and it is what the tokens are
  written as; and sequences, choices, repeats and patterns are built only of the parts that they
  need. So every text is read as if nothing could fail: it has a pattern, or it is refused at the
  place of one of its tokens.
Main exports: Laid, laid_ofText, Strict.written_eq, Strict.readNested_eq, Strict.parse_eq,
  Pattern.parse_or_refused
-/
import PatternSampler.Proofs.Exceptions.Meanings
import PatternSampler.Proofs.Refusals

namespace PatternSampler

/-! ### Tokens in their text -/

/-- The tokens lie in a text up to its end: in front of each of them there is as much of the text as
its offset says, and the rest of the text is written as the tokens from there on. -/
def Laid (source : Text) (ts : List Token) : Prop :=
  ∀ t us, t :: us <:+ ts →
    ∃ front, source = front ++ Token.lexemes (t :: us) ∧ t.place.offset = front.length

namespace Laid

variable {source : Text} {t : Token} {ts rest : List Token}

theorem of_isSuffix (laid : Laid source ts) (suffix : rest <:+ ts) : Laid source rest :=
  fun t us inside => laid t us (inside.trans suffix)

theorem tail (laid : Laid source (t :: ts)) : Laid source ts :=
  laid.of_isSuffix (List.suffix_cons t ts)

/-- From a token to a later one the offset grows by what is written in between. -/
theorem offset_eq {u : Token} {others us : List Token} (laid : Laid source (t :: ts))
    (splits : t :: ts = others ++ u :: us) :
    u.place.offset = t.place.offset + (Token.lexemes others).length := by
  obtain ⟨front, sourceEq, offsetEq⟩ := laid t ts List.suffix_rfl
  obtain ⟨farther, sourceEq', offsetEq'⟩ := laid u us ⟨others, splits.symm⟩
  have total := congrArg List.length (sourceEq.symm.trans sourceEq')
  rw [splits, Token.lexemes_append] at total
  simp only [List.length_append] at total
  omega

end Laid

/-- The tokens of a text lie in the text. -/
theorem laid_ofText (s : Text) : Laid s (Cursor.ofText s).scan.1 := by
  rintro t us ⟨before, splits⟩
  refine ⟨Token.lexemes before, ?_, ?_⟩
  · rw [← Token.lexemes_append, splits, Cursor.lexemes_scan]
    rfl
  · rw [Cursor.place_of_scan splits.symm, Location.offset_after]
    exact Nat.zero_add _

/-- The tokens before an end piece are those that it was appended to. -/
theorem tokensBetween_append (before rest : List Token) :
    tokensBetween (before ++ rest) rest = before := by
  rw [tokensBetween, List.length_append, Nat.add_sub_cancel, List.take_left]

namespace Strict

/-- The text from a token to a later one can be cut from the text they lie in, and is written as
these tokens. -/
theorem written_eq {source : Text} {t : Token} {ts rest : List Token}
    (laid : Laid source (t :: ts)) (suffix : rest <:+ ts) :
    written source t (tokensBetween ts rest) =
      .ok (Token.lexemes (t :: tokensBetween ts rest)) := by
  obtain ⟨between, rfl⟩ := suffix
  rw [tokensBetween_append]
  unfold written
  dsimp only
  have partsEq := List.dropLast_concat_getLast (List.cons_ne_nil t between)
  generalize (t :: between).getLast (List.cons_ne_nil t between) = last at partsEq ⊢
  generalize (t :: between).dropLast = others at partsEq
  have splits : t :: (between ++ rest) = others ++ last :: rest := by
    rw [← List.cons_append, ← partsEq, List.append_assoc]
    rfl
  have lengthEq : last.place.offset + last.lexeme.length - t.place.offset =
      (Token.lexemes (t :: between)).length := by
    rw [laid.offset_eq splits, ← partsEq, Token.lexemes_append, List.length_append,
      Nat.add_assoc, Nat.add_sub_cancel_left]
    exact congrArg (_ + List.length ·) (List.append_nil last.lexeme).symm
  obtain ⟨front, sourceEq, offsetEq⟩ := laid t (between ++ rest) List.suffix_rfl
  rw [← List.cons_append, Token.lexemes_append] at sourceEq
  have within : front.length ≤ source.length := by
    rw [sourceEq, List.length_append]
    exact Nat.le_add_right _ _
  rw [substring, lengthEq, offsetEq, if_pos within, sourceEq, List.drop_left, List.take_left]

/-! ### Repeats and classes -/

section Readers

variable {source : Text} {finish place : Location} {ts : List Token}

theorem countable_of_readOptional {note : Span (Option Annotation) ts}
    (read : Annotation.readOptional finish ts = .ok note) :
    ∀ a ∈ note.value, ∀ p ∈ a.parameters, p.Countable := by
  intro a present
  rcases Grammar.note_of_readOptional read with ⟨absent, -⟩ | ⟨b, given, phrase⟩
  · cases absent.symm.trans present
  · cases given.symm.trans present
    exact phrase.countable

theorem countable_of_readBraces {inside : Step Repeat.Braces ts}
    (read : Repeat.readBraces finish place ts = .ok inside) :
    ∀ a ∈ inside.value.note, ∀ p ∈ a.parameters, p.Countable := by
  obtain ⟨_, _, _, -, noteRead, -, valueEq⟩ := Grammar.readBraces_eq_ok read
  rw [valueEq]
  exact countable_of_readOptional noteRead

theorem ofMark_eq (bounds : Bounds) {note : Option Annotation}
    (countable : ∀ a ∈ note, ∀ p ∈ a.parameters, p.Countable) :
    ofMark bounds note = refused (Repeat.ofMark bounds note) := by
  cases note with
  | none => rfl
  | some a => exact bind_eq_refused (onRepeat_eq (countable a rfl) bounds.min) fun _ _ => rfl

theorem ofBraces_eq (place : Location) {text : Outcome Text} {whole : Text}
    (cut : text = .ok whole) {b : Repeat.Braces}
    (countable : ∀ a ∈ b.note, ∀ p ∈ a.parameters, p.Countable) :
    ofBraces place text b = refused (Repeat.ofBraces place whole b) := by
  simp only [ofBraces, Repeat.ofBraces]
  split
  next =>
    subst cut
    rfl
  next =>
    cases present : b.note with
    | none => rfl
    | some a => exact bind_eq_refused (onRepeat_eq (countable a present) _) fun _ _ => rfl

/-- A repeat that a mark alone stands for is read as if nothing could fail. -/
theorem readMarked_eq (t : Token) (bounds : Bounds) :
    (do
      let note ← readOptional finish ts
      let r ← ofMark bounds note.value
      return .cons (note.map fun _ => r) : Outcome (Step Repeat (t :: ts))) =
    refused (do
      let note ← Annotation.readOptional finish ts
      let r ← Repeat.ofMark bounds note.value
      return .cons (note.map fun _ => r)) := by
  refine bind_eq_refused (readOptional_eq finish ts) fun note noteRead => ?_
  exact bind_eq_refused (ofMark_eq bounds (countable_of_readOptional noteRead)) fun _ _ => rfl

theorem readRepeat_eq (laid : Laid source ts) :
    readRepeat source finish ts = refused (Repeat.read finish ts) := by
  cases ts with
  | nil => rfl
  | cons t us =>
    obtain ⟨symbol, place⟩ := t
    cases symbol with
    | mark m =>
      cases m with
      | leftBrace =>
        refine bind_eq_refused (readBraces_eq finish place us) fun inside insideRead => ?_
        have cut := written_eq laid inside.isSuffix
        exact bind_eq_refused (ofBraces_eq place cut (countable_of_readBraces insideRead))
          fun _ _ => rfl
      | star => exact readMarked_eq _ ⟨0, none⟩
      | plus => exact readMarked_eq _ ⟨1, none⟩
      | question => exact readMarked_eq _ ⟨0, some 1⟩
      | _ => rfl
    | _ => rfl

theorem readClassAnnotation_eq {text : Outcome Text} {whole : Text} (cut : text = .ok whole)
    (members : List ClassItem) (negated bracketed : Bool) :
    readClassAnnotation finish place text members negated bracketed ts =
      refused (CharClass.readAnnotation finish place whole members negated bracketed ts) := by
  unfold readClassAnnotation CharClass.readAnnotation
  dsimp only
  split
  next =>
    subst cut
    rfl
  next =>
    refine bind_eq_refused (readOptional_eq finish ts) fun note noteRead => ?_
    cases present : note.value with
    | none => rfl
    | some a =>
      have countable := countable_of_readOptional noteRead a present
      exact bind_eq_refused (onClass_eq countable _) fun _ _ => rfl

theorem readClass_eq (laid : Laid source ts) :
    readClass source finish ts = refused (CharClass.read finish ts) := by
  cases ts with
  | nil => rfl
  | cons t us =>
    obtain ⟨symbol, place⟩ := t
    cases symbol with
    | shorthand name =>
      have cut := written_eq laid List.suffix_rfl
      rw [show tokensBetween us us = [] from tokensBetween_append [] us] at cut
      exact bind_eq_refused (readClassAnnotation_eq cut _ _ _) fun _ _ => rfl
    | mark m =>
      cases m with
      | leftBracket =>
        refine bind_eq_refused rfl fun members _ => ?_
        split
        next => rfl
        next =>
          have behind := members.isSuffix.trans (CharClass.readNegation us).isSuffix
          have cut := written_eq laid behind
          exact bind_eq_refused (readClassAnnotation_eq cut _ _ _) fun _ _ => rfl
      | _ => rfl
    | _ => rfl

/-! ### Trees -/

/-- A reader reads the tokens that lie in a text as if nothing could fail. -/
def Agrees {α : Type} (source : Text) (strict : Reader α) (reader : PatternSampler.Reader α) :
    Prop :=
  ∀ ts, Laid source ts → strict ts = refused (reader ts)

variable {strictInner : Option (Reader Node)} {inner : Option (PatternSampler.Reader Node)}

theorem readGroup_eq (agree : Option.Rel (Agrees source) strictInner inner)
    (laid : Laid source ts) :
    readGroup strictInner place ts = refused (Node.readGroup inner place ts) := by
  cases agree with
  | none =>
    cases ts with
    | nil => rfl
    | cons t us =>
      obtain ⟨symbol, place'⟩ := t
      cases symbol with
      | mark m => cases m with | _ => rfl
      | _ => rfl
  | some agreeInside =>
    cases ts with
    | nil => exact bind_eq_refused (agreeInside [] laid) fun _ _ => rfl
    | cons t us =>
      obtain ⟨symbol, place'⟩ := t
      cases symbol with
      | mark m =>
        cases m with
        | rightParen => rfl
        | _ => exact bind_eq_refused (agreeInside _ laid) fun _ _ => rfl
      | _ => exact bind_eq_refused (agreeInside _ laid) fun _ _ => rfl

theorem readAtom_eq (agree : Option.Rel (Agrees source) strictInner inner)
    (laid : Laid source ts) :
    readAtom source finish strictInner ts = refused (Node.readAtom finish inner ts) := by
  cases ts with
  | nil => rfl
  | cons t us =>
    obtain ⟨symbol, place⟩ := t
    cases symbol with
    | shorthand name => exact bind_eq_refused (readClass_eq laid) fun _ _ => rfl
    | mark m =>
      cases m with
      | leftBracket => exact bind_eq_refused (readClass_eq laid) fun _ _ => rfl
      | leftParen => exact bind_eq_refused (readGroup_eq agree laid.tail) fun _ _ => rfl
      | _ => rfl
    | _ => rfl

theorem readFactor_eq (agree : Option.Rel (Agrees source) strictInner inner)
    (laid : Laid source ts) :
    readFactor source finish strictInner ts = refused (Node.readFactor finish inner ts) := by
  refine bind_eq_refused (readAtom_eq agree laid) fun atom _ => ?_
  split
  next =>
    exact bind_eq_refused (readRepeat_eq (laid.of_isSuffix atom.isSuffix)) fun _ _ => rfl
  next => rfl

theorem readFactors_eq (agree : Option.Rel (Agrees source) strictInner inner)
    (laid : Laid source ts) :
    readFactors source finish strictInner ts = refused (Node.readFactors finish inner ts) := by
  fun_induction Node.readFactors finish inner ts with
  | case1 ts inductionHypothesis =>
    rw [readFactors]
    refine bind_eq_refused (readFactor_eq agree laid) fun first _ => ?_
    split
    next =>
      have others := inductionHypothesis first (laid.of_isSuffix first.isSuffix)
      exact bind_eq_refused others fun _ _ => rfl
    next => rfl

/-- Factors are read until none follows, and there is at least one. -/
theorem value_readFactors_ne_nil {factors : Step (List Node) ts}
    (read : Node.readFactors finish inner ts = .ok factors) : factors.value ≠ [] := by
  rw [Node.readFactors] at read
  obtain ⟨first, -, continued⟩ := exists_of_bind_eq_ok read
  split at continued
  next =>
    obtain ⟨others, -, given⟩ := exists_of_bind_eq_ok continued
    cases given
    exact List.cons_ne_nil _ _
  next =>
    cases continued
    exact List.cons_ne_nil _ _

/-- At least one part makes a sequence or stands for itself. -/
theorem sequence_eq (offset : Nat) {children : List Node} (nonempty : children ≠ []) :
    sequence offset children = .ok (Node.sequence offset children) := by
  match children with
  | [] => exact absurd rfl nonempty
  | [child] => rfl
  | first :: second :: others =>
    have several : 2 ≤ (first :: second :: others).length := Nat.le_add_left 2 others.length
    rw [sequence, shaped, Node.mkConcat, if_pos several]
    · rfl
    · exact nofun

theorem readExpression_eq (agree : Option.Rel (Agrees source) strictInner inner)
    (laid : Laid source ts) :
    readExpression source finish strictInner ts =
      refused (Node.readExpression finish inner ts) := by
  unfold readExpression Node.readExpression
  split
  next =>
    refine bind_eq_refused (readFactors_eq agree laid) fun factors factorsRead => ?_
    rw [sequence_eq _ (value_readFactors_ne_nil factorsRead)]
    rfl
  next => rfl

theorem readBranches_eq (agree : Option.Rel (Agrees source) strictInner inner)
    (laid : Laid source ts) :
    readBranches source finish strictInner ts = refused (Node.readBranches finish inner ts) := by
  fun_induction Node.readBranches finish inner ts with
  | case1 ts inductionHypothesis =>
    rw [readBranches]
    refine bind_eq_refused (readExpression_eq agree laid) fun first _ => ?_
    obtain ⟨⟨n, rest, isSuffix⟩, shorter⟩ := first
    cases rest with
    | nil => rfl
    | cons t us =>
      obtain ⟨symbol, place⟩ := t
      cases symbol with
      | mark m =>
        cases m with
        | pipe =>
          dsimp only
          split
          next => rfl
          next =>
            have others := inductionHypothesis ⟨⟨n, _, isSuffix⟩, shorter⟩ place us rfl
              (laid.of_isSuffix isSuffix).tail
            exact bind_eq_refused others fun _ _ => rfl
        | _ => rfl
      | _ => rfl

/-- There is at least one branch. -/
theorem value_readBranches_ne_nil {branches : Step (List Node) ts}
    (read : Node.readBranches finish inner ts = .ok branches) : branches.value ≠ [] := by
  rw [Node.readBranches] at read
  obtain ⟨first, -, continued⟩ := exists_of_bind_eq_ok read
  split at continued
  next =>
    split at continued
    next => cases continued
    next =>
      obtain ⟨others, -, given⟩ := exists_of_bind_eq_ok continued
      cases given
      exact List.cons_ne_nil _ _
  next =>
    cases continued
    exact List.cons_ne_nil _ _

/-- At least one branch makes a choice or stands for itself. -/
theorem choice_eq (offset : Nat) {branches : List Node} (nonempty : branches ≠ []) :
    choice offset branches = .ok (Node.choice offset branches) := by
  match branches with
  | [] => exact absurd rfl nonempty
  | [branch] => rfl
  | first :: second :: others =>
    have several : 2 ≤ (first :: second :: others).length := Nat.le_add_left 2 others.length
    rw [choice, shaped, Node.mkAlternation, if_pos several]
    · rfl
    · exact nofun

theorem choiceOf_eq (offset : Nat) {branches : Step (List Node) ts}
    (read : Node.readBranches finish inner ts = .ok branches) :
    (do
      let node ← choice offset branches.value
      return branches.map fun _ => node) =
      refused (return branches.map (Node.choice offset)) := by
  rw [choice_eq offset (value_readBranches_ne_nil read)]
  rfl

theorem readAlternation_eq (agree : Option.Rel (Agrees source) strictInner inner)
    (laid : Laid source ts) :
    readAlternation source finish strictInner ts =
      refused (Node.readAlternation finish inner ts) := by
  cases ts with
  | nil => exact bind_eq_refused (readBranches_eq agree laid) fun _ read => choiceOf_eq _ read
  | cons t us =>
    obtain ⟨symbol, place⟩ := t
    cases symbol with
    | mark m =>
      cases m with
      | pipe => rfl
      | _ => exact bind_eq_refused (readBranches_eq agree laid) fun _ read => choiceOf_eq _ read
    | _ => exact bind_eq_refused (readBranches_eq agree laid) fun _ read => choiceOf_eq _ read

/-- Whatever depth is allowed, a choice is read as if nothing could fail. -/
theorem readNested_eq (depth : Nat) :
    Agrees source (readNested source finish depth) (Node.readNested finish depth) := by
  induction depth with
  | zero =>
    intro ts laid
    exact readAlternation_eq .none laid
  | succ depth inductionHypothesis =>
    intro ts laid
    exact readAlternation_eq (.some inductionHypothesis) laid

theorem ofTokens_eq (laid : Laid source ts) :
    ofTokens source finish ts = refused (Pattern.ofTokens source finish ts) := by
  simp only [ofTokens, Pattern.ofTokens]
  split
  next => rfl
  next =>
    have content := laid.of_isSuffix (Pattern.readStartAnchor ts).isSuffix
    refine bind_eq_refused (readNested_eq maxGroupDepth _ content) fun root _ => ?_
    split
    next => rfl
    next =>
      cases root.rest with
      | nil => rfl
      | cons t us => rfl

end Readers

/-! ### Texts -/

/-- A text is read as if nothing could fail. -/
theorem parse_eq (s : Text) : parse s = refused (Pattern.parse s) :=
  ofTokens_eq (laid_ofText s)

end Strict

/-- Every text has a pattern or is refused. The refusal is at the place of one of the tokens, the
stop token included, and not behind the end of the text. Nothing else can end the reading, though
every operation in it that may fail is called for what it is. -/
theorem Pattern.parse_or_refused (s : Text) :
    (∃ p, Pattern.parse s = .ok p ∧ Strict.parse s = .ok p) ∨
      ∃ r, Pattern.parse s = .error r ∧ Strict.parse s = .error (.refused r) ∧
        (∃ t ∈ (Cursor.ofText s).tokens, r.place = t.place) ∧ r.place.offset ≤ s.length := by
  rw [Strict.parse_eq]
  cases parsed : Pattern.parse s with
  | ok p => exact .inl ⟨p, rfl, rfl⟩
  | error r =>
    obtain ⟨t, member, placeEq⟩ := exists_token_of_parse parsed
    exact .inr ⟨r, rfl, rfl, ⟨t, member, placeEq⟩, placeEq ▸ Cursor.offset_le_of_mem_tokens member⟩

end PatternSampler
