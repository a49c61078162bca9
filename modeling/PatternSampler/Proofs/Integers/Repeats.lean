/-
Module: PatternSampler.Proofs.Integers.Repeats
Purpose: Digits as a repeat count. However many there are, with zeros in front or without, they are
  read as the number they stand for, or refused as they are written if it is beyond the limit, and
  so is a text with a repeat of which they are a bound.
Main exports: Pattern.CountedIn, Pattern.CountsExactly, Pattern.countsExactly
-/
import PatternSampler.Proofs.Composition

namespace PatternSampler

open Grammar

/-! ### Repeat counts -/

namespace Repeat

variable {place : Location} {ts us rest : List Token} {digits : Text} {r : Refusal}

/-- Digits within the limit are read as their number. -/
theorem exists_readCount_of_run (finish : Location) (run : Run Symbol.isDigit ts digits rest)
    (nonempty : digits ≠ []) (noDigit : ¬ (peekSymbol rest).isDigit)
    (limited : Text.decimalValue digits ≤ maxRepeatCount) :
    ∃ s, readCount finish ts = .ok s ∧ s.value.toNat = Text.decimalValue digits ∧
      s.rest = rest := by
  obtain ⟨s, readEq, valueEq, restEq⟩ :=
    readCount_of_count finish (.intro run nonempty limited) noDigit
  refine ⟨s, readEq, ?_, restEq⟩
  rw [valueEq, UInt64.toNat_ofNat_of_lt' (Nat.lt_of_le_of_lt limited (by decide))]

/-- Digits beyond the limit are refused where they begin. -/
theorem readCount_of_tooLarge (finish : Location) (run : Run Symbol.isDigit ts digits rest)
    (nonempty : digits ≠ []) (noDigit : ¬ (peekSymbol rest).isDigit)
    (tooLarge : maxRepeatCount < Text.decimalValue digits) :
    readCount finish ts = refuse (.countTooLarge digits) (peekPlace finish ts) := by
  cases run with
  | done => exact absurd rfl nonempty
  | more holds others =>
    obtain ⟨bytesEq, -⟩ := readWhile_of_run others noDigit
    simp only [readCount, holds, if_true, bytesEq, tooLarge]
    rfl

/-- Numbers that are refused are refused with the repeat. -/
theorem read_of_refused_range {finish : Location} (nonempty : us ≠ [])
    (refused : readRange finish us = .error r) :
    read finish (⟨.mark .leftBrace, place⟩ :: us) = .error r := by
  have inside : readBraces finish place us = .error r := by
    unfold readBraces
    split
    next => exact absurd rfl nonempty
    next => exact bind_of_eq_error refused _
  exact bind_of_eq_error inside _

/-- Digits beyond the limit are refused as a minimum, whatever follows them. -/
theorem read_of_tooLarge_minimum (finish place : Location)
    (run : Run Symbol.isDigit ts digits rest) (nonempty : digits ≠ [])
    (noDigit : ¬ (peekSymbol rest).isDigit)
    (tooLarge : maxRepeatCount < Text.decimalValue digits) :
    read finish (⟨.mark .leftBrace, place⟩ :: ts) =
      refuse (.countTooLarge digits) (peekPlace finish ts) := by
  have filled : ts ≠ [] := by
    rintro rfl
    exact nomatch run.front nonempty
  have refused := readCount_of_tooLarge finish run nonempty noDigit tooLarge
  have rangeRefused : readRange finish ts = refuse (.countTooLarge digits) (peekPlace finish ts) :=
    bind_of_eq_error refused _
  exact read_of_refused_range filled rangeRefused

/-- A maximum that is refused is refused with the minimum. -/
theorem readRange_of_refused_maximum {finish : Location} {min : UInt64}
    (minimum : Count ts min (⟨.mark .comma, place⟩ :: us))
    (digit : (peekSymbol us).isDigit) (refused : readCount finish us = .error r) :
    readRange finish ts = .error r := by
  obtain ⟨s, readEq, -, restEq⟩ := readCount_of_count finish minimum Bool.false_ne_true
  have maximum : readMaximum finish us = .error r := by
    unfold readMaximum
    rw [if_pos digit]
    exact bind_of_eq_error refused _
  rw [readRange, bind_of_eq_ok readEq]
  split
  next place us restEq' =>
    rw [restEq] at restEq'
    cases restEq'
    exact bind_of_eq_error maximum _
  next noComma => exact absurd restEq (noComma _ _)

/-- A minimum above the maximum is refused where the brace stands. -/
theorem read_of_inverted (finish : Location) {place' place'' : Location} {min max : UInt64}
    (minimum : Count ts min (⟨.mark .comma, place'⟩ :: us))
    (maximum : Count us max (⟨.mark .rightBrace, place''⟩ :: rest)) (inverted : max < min) :
    ∃ written, read finish (⟨.mark .leftBrace, place⟩ :: ts) =
      refuse (.invertedBounds min.toNat max.toNat written) place := by
  have rangeRead := readRange_of_between finish minimum (.present maximum) Bool.false_ne_true
  have noTilde : peekSymbol (⟨.mark .rightBrace, place''⟩ :: rest) ≠ .mark .tilde := by
    simp [peekSymbol]
  obtain ⟨s, insideEq, valueEq, -⟩ := readBraces_of_range finish place rangeRead
    ⟨_, readOptional_of_ne_tilde finish noTilde, rfl, rfl⟩
  refine ⟨Token.lexemes (⟨.mark .leftBrace, place⟩ :: tokensBetween ts s.rest), ?_⟩
  rw [read, bind_of_eq_ok insideEq, valueEq]
  simp only [ofBraces, Range.bounds, Bounds.ceiling, Option.getD_some, inverted, if_true]
  rfl

/-- Tokens that begin with an opening brace are refused as a repeat, for a reason. -/
def IsRefused (P : Refusal → Prop) (ts : List Token) : Prop :=
  peekSymbol ts = .mark .leftBrace ∧ ∀ finish, ∃ r, read finish ts = .error r ∧ P r

end Repeat

/-! ### Refused repeats -/

namespace Node

variable {finish : Location} {depth : Nat} {ts us : List Token} {n : Node} {r : Refusal}

/-- Where the repeat behind the first atom is refused, everything that begins with the atom is. -/
theorem readNested_of_refused_repeat (atom : (Form.atom n).IsRead finish depth ts us)
    (opensAtom : (peekSymbol ts).opensAtom) (opensRepeat : (peekSymbol us).opensRepeat)
    (refused : Repeat.read finish us = .error r) : readNested finish depth ts = .error r := by
  obtain ⟨s, atomEq, -, rfl⟩ := atom
  have factor : readFactor finish (innerReader finish depth) ts = .error r := by
    unfold readFactor
    rw [bind_of_eq_ok atomEq]
    dsimp only
    rw [if_pos opensRepeat]
    exact bind_of_eq_error refused _
  have factors : readFactors finish (innerReader finish depth) ts = .error r := by
    rw [readFactors]
    exact bind_of_eq_error factor _
  have expression : readExpression finish (innerReader finish depth) ts = .error r := by
    unfold readExpression
    rw [if_pos opensAtom]
    exact bind_of_eq_error factors _
  have branches : readBranches finish (innerReader finish depth) ts = .error r := by
    rw [readBranches]
    exact bind_of_eq_error expression _
  rw [readNested_eq, readAlternation_of_opensAtom _ opensAtom]
  exact bind_of_eq_error branches _

end Node

namespace Pattern

/-- Tokens that begin with an atom are refused where their content is. -/
theorem ofTokens_of_refused (source : Text) {finish : Location} {ts : List Token} {r : Refusal}
    (opens : (peekSymbol ts).opensAtom)
    (refused : Node.readNested finish maxGroupDepth ts = .error r) :
    ofTokens source finish ts = .error r := by
  obtain ⟨-, restEq⟩ := readStartAnchor_of_startAnchor (.absent ts) opens
  rw [← restEq] at opens refused
  have notEmpty := not_empty_of_opensAtom opens
  simp only [ofTokens, notEmpty, if_false]
  exact bind_of_eq_error refused _

/-- A text is refused if a repeat behind its first group is. -/
theorem parse_of_refused_repeat {s q : Text} {p : Pattern} {P : Refusal → Prop}
    (groupable : p.Groupable s) (spells : Spells q fun ts _ => Repeat.IsRefused P ts) :
    ∃ r, parse (grouped true s ++ q) = .error r ∧ P r := by
  obtain ⟨opens, refused⟩ := spells.scan_at (Location.start.after (grouped true s))
  obtain ⟨r, refusedEq, holds⟩ := refused (Cursor.ofText (grouped true s ++ q)).scan.2
  have derived := derives_grouped groupable q Location.start
  have noTilde : peekSymbol (Cursor.scan ⟨q, Location.start.after (grouped true s)⟩).1 ≠
      .mark .tilde := by
    rw [opens]
    simp
  refine ⟨r, ofTokens_of_refused _ derived.opensAtom ?_, holds⟩
  exact Node.readNested_of_refused_repeat (read_of_derives derived noTilde) derived.opensAtom
    (by rw [opens]; rfl) refusedEq

/-- The repeats in which digits are a count, and the bounds that they stand for if the digits stand
for `n`. The minimum in front of a maximum is within the limit. -/
inductive CountedIn (digits : Text) : Text → (UInt64 → Bounds) → Prop where
  | exact : CountedIn digits (braced digits) fun n => ⟨n, some n⟩
  | atLeast : CountedIn digits (braced (digits ++ [0x2C])) fun n => ⟨n, none⟩
  | between {other : Text} {min : UInt64} (minimum : CountsAs other min) :
      CountedIn digits (braced (other ++ 0x2C :: digits)) fun n => ⟨min, some n⟩

/-- Digits as a repeat count are read as their number, or refused if it is beyond the limit. -/
structure CountsExactly (digits : Text) : Prop where
  /-- Wherever a count is read: -/
  counted : Text.decimalValue digits ≤ maxRepeatCount → ∀ finish ts rest,
    Run Symbol.isDigit ts digits rest → ¬ (peekSymbol rest).isDigit →
    ∃ step, Repeat.readCount finish ts = .ok step ∧
      step.value.toNat = Text.decimalValue digits ∧ step.rest = rest
  tooLarge : maxRepeatCount < Text.decimalValue digits → ∀ finish ts rest,
    Run Symbol.isDigit ts digits rest → ¬ (peekSymbol rest).isDigit →
    Repeat.readCount finish ts = refuse (.countTooLarge digits) (peekPlace finish ts)
  /-- In whole texts, of which the bounds have to be in order: -/
  repeated : Text.decimalValue digits ≤ maxRepeatCount →
    ∃ n : UInt64, n.toNat = Text.decimalValue digits ∧
      ∀ (s q : Text) (p : Pattern) (bounds : UInt64 → Bounds), p.Groupable s →
        CountedIn digits q bounds →
        if (bounds n).min ≤ (bounds n).ceiling then
          parse (grouped true s ++ q) =
            .ok ⟨.quantified (p.root.offset + 1) (bounds n) none (p.root.shift 1), false, false,
              grouped true s ++ q⟩
        else ∃ r, parse (grouped true s ++ q) = .error r ∧ r.report.kind = .validation ∧
          ∃ written, r.cause = .invertedBounds (bounds n).min.toNat n.toNat written
  refused : maxRepeatCount < Text.decimalValue digits →
    ∀ (s q : Text) (p : Pattern) (bounds : UInt64 → Bounds), p.Groupable s →
      CountedIn digits q bounds →
      ∃ r, parse (grouped true s ++ q) = .error r ∧ r.report.kind = .validation ∧
        r.cause = .countTooLarge digits
  /-- A minimum beyond the limit is refused first. -/
  minimumRefused : ∀ (s other : Text) (p : Pattern), p.Groupable s → other ≠ [] →
    (∀ b ∈ other, IsDigit b) → maxRepeatCount < Text.decimalValue other →
    ∃ r, parse (grouped true s ++ braced (other ++ 0x2C :: digits)) = .error r ∧
      r.report.kind = .validation ∧ r.cause = .countTooLarge other

section Counts

variable {digits q : Text} {bounds : UInt64 → Bounds}

/-- Digits that are not too large count as their number. -/
theorem exists_countsAs (nonempty : digits ≠ []) (isDigit : ∀ b ∈ digits, IsDigit b)
    (limited : Text.decimalValue digits ≤ maxRepeatCount) : ∃ n, CountsAs digits n := by
  have valueEq : (UInt64.ofNat (Text.decimalValue digits)).toNat = Text.decimalValue digits :=
    UInt64.toNat_ofNat_of_lt' (Nat.lt_of_le_of_lt limited (by decide))
  exact ⟨_, nonempty, isDigit, valueEq.symm, by rwa [valueEq]⟩

/-- Bounds in order make a repeat. -/
theorem CountedIn.quantifies (counted : CountedIn digits q bounds) {n : UInt64}
    (count : CountsAs digits n) (ordered : (bounds n).min ≤ (bounds n).ceiling) :
    Quantifies q (bounds n) := by
  cases counted with
  | exact => exact .exact count
  | atLeast => exact .atLeast count
  | between minimum => exact .between minimum count ordered

/-- Bounds that are not in order are refused with their numbers. -/
theorem spells_refused_of_inverted (counted : CountedIn digits q bounds) {n : UInt64}
    (count : CountsAs digits n) (inverted : (bounds n).ceiling < (bounds n).min) :
    Spells q fun ts _ => Repeat.IsRefused (fun r => r.report.kind = .validation ∧
      ∃ written, r.cause = .invertedBounds (bounds n).min.toNat n.toNat written) ts := by
  cases counted with
  | exact => exact absurd inverted (UInt64.lt_irrefl n)
  | atLeast => exact absurd inverted (UInt64.not_lt.2 (le_maxWord n))
  | between minimum =>
    have both := spells_braced ((spells_countsAs_comma minimum).append (spells_countsAs count))
    rw [List.append_assoc] at both
    refine both.mono ?_
    rintro ts rest ⟨place, us, place', rfl, vs, ⟨place'', first⟩, second⟩
    refine ⟨rfl, fun finish => ?_⟩
    obtain ⟨written, refused⟩ := Repeat.read_of_inverted finish first second inverted
    exact ⟨_, refused, rfl, written, rfl⟩

/-- Digits beyond the limit are refused as they are written. -/
theorem spells_refused_of_tooLarge (counted : CountedIn digits q bounds) (nonempty : digits ≠ [])
    (isDigit : ∀ b ∈ digits, IsDigit b) (tooLarge : maxRepeatCount < Text.decimalValue digits) :
    Spells q fun ts _ => Repeat.IsRefused
      (fun r => r.report.kind = .validation ∧ r.cause = .countTooLarge digits) ts := by
  cases counted with
  | exact =>
    refine (spells_braced (spells_digits isDigit)).mono ?_
    rintro ts rest ⟨place, us, place', rfl, run⟩
    refine ⟨rfl, fun finish => ?_⟩
    have refused :=
      Repeat.read_of_tooLarge_minimum finish place run nonempty Bool.false_ne_true tooLarge
    exact ⟨_, refused, rfl, rfl⟩
  | atLeast =>
    refine (spells_braced ((spells_digits isDigit).append (Spells.mark .comma))).mono ?_
    rintro ts rest ⟨place, us, place', rfl, vs, run, place'', rfl⟩
    refine ⟨rfl, fun finish => ?_⟩
    have refused :=
      Repeat.read_of_tooLarge_minimum finish place run nonempty Bool.false_ne_true tooLarge
    exact ⟨_, refused, rfl, rfl⟩
  | between minimum =>
    have both := spells_braced ((spells_countsAs_comma minimum).append (spells_digits isDigit))
    rw [List.append_assoc] at both
    refine both.mono ?_
    rintro ts rest ⟨place, us, place', rfl, vs, ⟨place'', first⟩, run⟩
    have filled : us ≠ [] := by
      rintro rfl
      exact nomatch first.front
    refine ⟨rfl, fun finish => ?_⟩
    have refused :=
      Repeat.readCount_of_tooLarge finish run nonempty Bool.false_ne_true tooLarge
    have rangeRefused :=
      Repeat.readRange_of_refused_maximum first (run.front nonempty) refused
    exact ⟨_, Repeat.read_of_refused_range filled rangeRefused, rfl, rfl⟩

/-- A minimum beyond the limit is refused whatever the maximum is. -/
theorem spells_refused_of_tooLarge_minimum {other : Text} (isDigit : ∀ b ∈ digits, IsDigit b)
    (otherNonempty : other ≠ []) (otherIsDigit : ∀ b ∈ other, IsDigit b)
    (tooLarge : maxRepeatCount < Text.decimalValue other) :
    Spells (braced (other ++ 0x2C :: digits)) fun ts _ => Repeat.IsRefused
      (fun r => r.report.kind = .validation ∧ r.cause = .countTooLarge other) ts := by
  have range := (spells_digits otherIsDigit).append
    ((Spells.mark .comma).append (spells_digits isDigit))
  refine (spells_braced range).mono ?_
  rintro ts rest ⟨place, us, place', rfl, vs, run, ws, ⟨place'', rfl⟩, -⟩
  refine ⟨rfl, fun finish => ?_⟩
  have refused :=
    Repeat.read_of_tooLarge_minimum finish place run otherNonempty Bool.false_ne_true tooLarge
  exact ⟨_, refused, rfl, rfl⟩

/-- Digits are counted exactly. -/
theorem countsExactly (nonempty : digits ≠ []) (isDigit : ∀ b ∈ digits, IsDigit b) :
    CountsExactly digits where
  counted limited finish ts rest run noDigit :=
    Repeat.exists_readCount_of_run finish run nonempty noDigit limited
  tooLarge tooLarge finish ts rest run noDigit :=
    Repeat.readCount_of_tooLarge finish run nonempty noDigit tooLarge
  repeated limited := by
    obtain ⟨n, count⟩ := exists_countsAs nonempty isDigit limited
    refine ⟨n, count.value.symm, ?_⟩
    intro s q p bounds groupable counted
    split
    next ordered => exact parse_repeated groupable (counted.quantifies count ordered)
    next inverted =>
      have refused := spells_refused_of_inverted counted count (UInt64.not_le.1 inverted)
      exact parse_of_refused_repeat groupable refused
  refused tooLarge s q p bounds groupable counted :=
    parse_of_refused_repeat groupable
      (spells_refused_of_tooLarge counted nonempty isDigit tooLarge)
  minimumRefused s other p groupable otherNonempty otherIsDigit tooLarge :=
    parse_of_refused_repeat groupable
      (spells_refused_of_tooLarge_minimum isDigit otherNonempty otherIsDigit tooLarge)

end Counts

end Pattern

end PatternSampler
