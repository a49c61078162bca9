/-
Module: PatternSampler.Proofs.Exceptions.Meanings
Purpose: No meaning of an annotation fails. A parameter that may stand for a count was read as
  digits behind an optional sign, so a count can be read off its spelling; and what a
  distribution does not allow is caught where the distribution is made. So an annotation that was
  read has its meaning or is refused.
Main exports: Parameter.Countable, Grammar.Note.countable, Strict.onRepeat_eq, Strict.onClass_eq
-/
import PatternSampler.Proofs.Exceptions.Numbers
import PatternSampler.Proofs.Resolution

namespace PatternSampler

/-! ### Parameters that stand for counts -/

namespace Text

/-- Digits behind an optional minus sign can be read as a count. -/
theorem leadingCount_ne_noDigits {negative : Bool} {digits : Text} (nonempty : digits ≠ [])
    (isDigit : ∀ b ∈ digits, IsDigit b) :
    leadingCount (Numeral.signText negative ++ digits) ≠ .error .noDigits := by
  have countOf_ne : ∀ negative, countOf negative digits ≠ .error .noDigits := by
    intro negative
    unfold countOf
    rw [if_neg nonempty]
    split
    next => exact nofun
    next => exact nofun
  cases negative with
  | false =>
    change leadingCount digits ≠ _
    rw [leadingCount_of_isDigit isDigit]
    exact countOf_ne false
  | true =>
    change leadingCount (0x2D :: digits) ≠ _
    simp only [leadingCount, splitSign_minus, takeWhile_isDigit isDigit]
    exact countOf_ne true

end Text

/-- An integral numeral is spelled by its sign and its digits. -/
theorem Numeral.text_of_integral {n : Numeral} (integral : n.integral) :
    n.text = signText n.negative ++ n.whole := by
  obtain ⟨noPoint, noExponent⟩ := Bool.and_eq_true_iff.1 integral
  rw [text, Option.isNone_iff_eq_none.1 noPoint, Option.isNone_iff_eq_none.1 noExponent,
    fractionText, exponentText, List.append_nil, List.append_nil]

/-- A parameter that may stand for a count begins with digits. -/
def Parameter.Countable (p : Parameter) : Prop :=
  p.integral → Text.leadingCount p.spelling ≠ .error .noDigits

namespace Grammar

variable {ts rest : List Token}

theorem Number.countable {n : Numeral} (number : Number ts n rest) (key : Option Key)
    (place : Location) : (Parameter.ofNumeral key n place).Countable := by
  intro integral
  change Text.leadingCount n.text ≠ _
  rw [Numeral.text_of_integral integral]
  obtain ⟨noPoint, -⟩ := Bool.and_eq_true_iff.1 integral
  cases number with
  | intro minus mantissa power =>
    cases mantissa with
    | integer digits nonempty => exact Text.leadingCount_ne_noDigits nonempty digits.isDigit
    | pointed => cases noPoint
    | bare => cases noPoint

theorem Argument.countable {p : Parameter} (argument : Argument ts p rest) : p.Countable := by
  cases argument with
  | positional number => exact number.countable none _
  | named _ number => exact number.countable (some _) _

theorem Arguments.countable {ps : List Parameter} (arguments : Arguments ts ps rest) :
    ∀ p ∈ ps, p.Countable := by
  induction arguments with
  | last argument => exact List.forall_mem_singleton.2 argument.countable
  | more argument _ inductionHypothesis =>
    exact List.forall_mem_cons.2 ⟨argument.countable, inductionHypothesis⟩

/-- The parameters of an annotation that was read stand for counts if they may. -/
theorem Note.countable {a : Annotation} (note : Note ts a rest) :
    ∀ p ∈ a.parameters, p.Countable := by
  cases note with
  | intro _ _ list =>
    cases list with
    | absent => exact nofun
    | empty => exact nofun
    | listed arguments => exact arguments.countable

end Grammar

/-! ### Parameters in slots -/

namespace Annotation

variable {a : Annotation} {slots : Slots}

theorem mem_parameters_of_mem_named {key : Key} {p : Parameter} (named : (key, p) ∈ a.named) :
    p ∈ a.parameters := by
  obtain ⟨q, member, keyed⟩ := List.mem_filterMap.1 named
  obtain ⟨_, _, equal⟩ := Option.map_eq_some_iff.1 keyed
  cases equal
  exact member

/-- What stands in a slot is a parameter of the annotation. -/
theorem mem_parameters_of_slots {kind : Kind} {keys : List UInt8}
    (slotted : a.slots kind keys = .ok slots) :
    ∀ slot ∈ slots, ∀ p ∈ slot.2, p ∈ a.parameters := by
  unfold Annotation.slots at slotted
  split at slotted
  next => cases slotted
  next =>
    refine foldlM_preserves
      (P := fun slots : Slots => ∀ slot ∈ slots, ∀ p ∈ slot.2, p ∈ a.parameters) ?_ ?_ slotted
    · rintro slots ⟨key, p⟩ named next before assigned slot member q inSlot
      change slots.assign kind key p = .ok next at assigned
      unfold Slots.assign at assigned
      split at assigned
      next => cases assigned
      next =>
        split at assigned
        next => cases assigned
        next =>
          cases assigned
          obtain ⟨old, oldMember, rfl⟩ := List.mem_map.1 member
          split at inSlot
          next =>
            cases inSlot
            exact mem_parameters_of_mem_named named
          next => exact before old oldMember q inSlot
    · intro slot member p inSlot
      obtain ⟨i, within, rfl⟩ := List.mem_mapIdx.1 member
      exact List.mem_of_mem_filter (List.mem_of_getElem? inSlot)

theorem mem_parameters_of_parameter? {kind : Kind} {keys : List UInt8} {key : UInt8}
    {p : Parameter} (slotted : a.slots kind keys = .ok slots)
    (found : slots.parameter? key = some p) : p ∈ a.parameters := by
  obtain ⟨slot, slotFound, inSlot⟩ := Option.bind_eq_some_iff.1 found
  exact mem_parameters_of_slots slotted slot (List.mem_of_find?_eq_some slotFound) p inSlot

end Annotation

/-! ### Meanings -/

namespace Strict

variable {a : Annotation}

/-- A count in a slot can be read, or it is refused. -/
theorem count_eq {kind : Kind} {slots : Annotation.Slots} {key : UInt8}
    (countable : ∀ p, slots.parameter? key = some p → p.Countable) (fallback : UInt64) :
    count kind slots key fallback = refused (slots.count kind key fallback) := by
  unfold count Annotation.Slots.count
  cases found : slots.parameter? key with
  | none => rfl
  | some p =>
    dsimp only
    split
    next => rfl
    next integral =>
      split
      next => rfl
      next =>
        have digits := countable p found (not_not.1 integral)
        unfold toWord
        cases leading : Text.leadingCount p.spelling with
        | ok word => rfl
        | error error =>
          cases error with
          | tooLarge => rfl
          | noDigits => exact absurd leading digits

/-- Parameters that a distribution does not allow are refused where it is made. -/
theorem build_eq (a : Annotation) (kind : Kind)
    (d : Except Distribution.ParameterError Distribution) :
    build a kind (made d) = refused (a.checked kind d) := by
  cases d with
  | ok d => rfl
  | error error => rfl

section Countable

variable (countable : ∀ p ∈ a.parameters, p.Countable)

include countable

theorem count_slots_eq {kind : Kind} {keys : List UInt8} {slots : Annotation.Slots}
    (slotted : a.slots kind keys = .ok slots) (key : UInt8) (fallback : UInt64) :
    count kind slots key fallback = refused (slots.count kind key fallback) :=
  count_eq (fun p found => countable p <| Annotation.mem_parameters_of_parameter? slotted found)
    fallback

theorem constantValue_eq (c : Annotation.Context) :
    constantValue a c = refused (a.constantValue c) :=
  bind_eq_refused rfl fun _ slotted =>
    bind_eq_refused (count_slots_eq countable slotted _ _) fun _ _ => rfl

/-- Resolution has one case for each kind. -/
theorem resolve_eq (c : Annotation.Context)
    (weights : Annotation.Resolution (List Binary64)) :
    resolve a c (refused weights) = refused (a.resolve c weights) := by
  refine bind_eq_refused rfl fun kind _ => ?_
  cases kind with
  | constant => exact bind_eq_refused (constantValue_eq countable c) fun _ _ => rfl
  | bernoulli => exact bind_eq_refused rfl fun slots _ => build_eq a _ _
  | binomial =>
    refine bind_eq_refused rfl fun slots slotted => ?_
    exact bind_eq_refused (count_slots_eq countable slotted _ _) fun trials _ => build_eq a _ _
  | geometric => exact bind_eq_refused rfl fun slots _ => build_eq a _ _
  | zipf =>
    refine bind_eq_refused rfl fun slots slotted => ?_
    exact bind_eq_refused (count_slots_eq countable slotted _ _) fun ranks _ => build_eq a _ _
  | categorical => exact bind_eq_refused rfl fun weights _ => build_eq a _ _

theorem onRepeat_eq (baseline : UInt64) :
    onRepeat a baseline = refused (a.onRepeat baseline) :=
  resolve_eq countable _ _

theorem onClass_eq (alphabet : Text) : onClass a alphabet = refused (a.onClass alphabet) :=
  resolve_eq countable _ _

end Countable

end Strict

end PatternSampler
