/-
Module: PatternSampler.Proofs.Resolution.Weights
Purpose: The weights that an annotation gives to the characters of a class. A parameter without a
  key weighs the character at its own position, a named one the character of its key, and all
  characters that are left have the same share. The parameters are put in one after the
  other; as no two of them have the same target, each is still there at the end.
Main exports: Annotation.weightOf, Annotation.memberWeights_eq, Annotation.kind_of_resolve,
  Annotation.weights_of_onClass
-/
import PatternSampler.Proofs.Resolution.Order

namespace PatternSampler

namespace Annotation

open Resolution

/-- The weight of the character at a position: that of the parameter without a key at the position,
or else that of the parameter whose key is the character, or else a share. An unescaped point
is not the key of a character. -/
def weightOf (a : Annotation) (share : Binary64) (position : Nat) (b : UInt8) : Binary64 :=
  match a.positional[position]? with
  | some p => p.value
  | none =>
    match a.named.find? fun entry => entry.1.byte = b ∧ ¬ entry.1.namesOthers with
    | some (_, p) => p.value
    | none => share

/-! ### Targets -/

namespace MemberWeights

/-- The weight with a key goes to the character of the key, wherever that is in the alphabet. -/
theorem target_eq_member_iff {alphabet : Text} (distinct : alphabet.Nodup) {position : Nat}
    {b : UInt8} (found : alphabet[position]? = some b) (key : Key) :
    target alphabet key = .member position ↔ key.byte = b ∧ ¬ key.namesOthers := by
  obtain ⟨within, rfl⟩ := List.getElem?_eq_some_iff.1 found
  have indexed : alphabet.idxOf? key.byte = some position ↔ key.byte = alphabet[position] := by
    rw [List.idxOf?_eq_some_iff]
    constructor
    · rintro ⟨_, same, -⟩
      exact same.symm
    · intro same
      refine ⟨within, same.symm, ?_⟩
      intro earlier before equal
      have positions := (distinct.getElem_inj_iff).1 (equal.trans same)
      omega
  unfold target
  split
  next others => simp [others]
  next notOthers =>
    rw [← indexed]
    cases alphabet.idxOf? key.byte with
    | none => simp
    | some index => simp [notOthers]

variable {collected : MemberWeights} {t : MemberTarget} {position : Nat}

/-- A character that is put a weight has that weight. -/
theorem join_put_self (within : position < collected.weights.length) (w : Binary64) :
    (collected.put w (.member position)).weights[position]?.join = some w := by
  unfold put
  rw [List.getElem?_set_self within]
  rfl

/-- All other characters keep theirs. -/
theorem join_put_of_ne (apart : t ≠ .member position) (w : Binary64) :
    (collected.put w t).weights[position]?.join = collected.weights[position]?.join := by
  cases t with
  | others => rfl
  | member index =>
    unfold put
    rw [List.getElem?_set_ne fun same => apart (congrArg _ same)]
  | missing => rfl

/-- An assignment that is not refused has put the weight at a target that was free. -/
theorem eq_put_of_assign {alphabet : Text} {next : MemberWeights} {key : Key} {p : Parameter}
    (assigned : collected.assign alphabet key p = .ok next) :
    collected.Free (target alphabet key) ∧
      next = collected.put p.value (target alphabet key) := by
  by_cases accepted : ¬ p.value.toFloat < 0.0 ∧ collected.Free (target alphabet key)
  · rw [assign_of_free accepted.1 accepted.2] at assigned
    exact ⟨accepted.2, (Except.ok.inj assigned).symm⟩
  · obtain ⟨r, refused, -⟩ := exists_refusal_of_not_free accepted
    rw [refused] at assigned
    cases assigned

/-- Behind all assignments a character has the weight it had before, or else that of its key. -/
theorem join_foldlM_assign {alphabet : Text} (distinct : alphabet.Nodup) {b : UInt8}
    (found : alphabet[position]? = some b) {entries : List (Key × Parameter)}
    {collected result : MemberWeights} (complete : collected.weights.length = alphabet.length)
    (assigned : entries.foldlM (fun (collected : MemberWeights) (entry : Key × Parameter) =>
      collected.assign alphabet entry.1 entry.2) collected = .ok result) :
    result.weights[position]?.join = collected.weights[position]?.join.or
      ((entries.find? fun entry => entry.1.byte = b ∧ ¬ entry.1.namesOthers).map (·.2.value)) := by
  induction entries generalizing collected with
  | nil =>
    cases assigned
    rw [List.find?_nil, Option.map_none, Option.or_none]
  | cons entry entries inductionHypothesis =>
    obtain ⟨key, p⟩ := entry
    rw [List.foldlM_cons] at assigned
    obtain ⟨next, first, others⟩ := exists_of_bind_eq_ok assigned
    obtain ⟨free, rfl⟩ := eq_put_of_assign first
    rw [inductionHypothesis ((length_weights_put _ _ _).trans complete) others]
    have goes := target_eq_member_iff distinct found key
    by_cases own : target alphabet key = .member position
    · -- The target was free, so this is the only weight of the character.
      have open' : collected.weights[position]?.join = none := by
        rw [own] at free
        exact free
      have within : position < collected.weights.length := by
        rw [complete]
        exact lt_of_target own
      rw [List.find?_cons_of_pos (by simpa using goes.1 own), own, join_put_self within, open']
      rfl
    · rw [List.find?_cons_of_neg (by simpa using mt goes.2 own), join_put_of_ne own]

end MemberWeights

/-! ### Weights of an alphabet -/

theorem positionalWeights_eq {size index : Nat} {ps : List Parameter} {ws : List Binary64}
    (weighed : positionalWeights size index ps = .ok ws) : ws = ps.map (·.value) := by
  induction ps generalizing index ws with
  | nil =>
    cases weighed
    rfl
  | cons p ps inductionHypothesis =>
    obtain ⟨value, own, continued⟩ := exists_of_bind_eq_ok weighed
    have valueEq : value = p.value := by
      rcases weight_cases p with ⟨-, r, refused, -⟩ | ⟨-, taken⟩
      · rw [refused] at own
        cases own
      · rw [taken] at own
        exact (Except.ok.inj own).symm
    split at continued
    next => cases continued
    next =>
      obtain ⟨others, othersWeighed, given⟩ := exists_of_bind_eq_ok continued
      cases given
      rw [List.map_cons, valueEq, inductionHypothesis othersWeighed]

/-- Open places behind given ones add nothing. -/
theorem join_append_open {α : Type} (given : List α) (open' position : Nat) :
    (given.map some ++ List.replicate open' none)[position]?.join = given[position]? := by
  rw [List.getElem?_append, List.length_map]
  split
  next within =>
    rw [List.getElem?_map, List.getElem?_eq_getElem within]
    rfl
  next behind =>
    rw [List.getElem?_eq_none (Nat.not_lt.1 behind), List.getElem?_replicate]
    split
    next => rfl
    next => rfl

/-- The weights of an alphabet follow the rule for single characters, with the same share for all
that no parameter weighs. -/
theorem memberWeights_eq {a : Annotation} {alphabet : Text} {ws : List Binary64}
    (distinct : alphabet.Nodup) (weighed : a.memberWeights alphabet = .ok ws) :
    ∃ share, ws = alphabet.mapIdx (a.weightOf share) := by
  have lengthEq := length_memberWeights weighed
  obtain ⟨positional, positionalWeighed, continued⟩ := exists_of_bind_eq_ok weighed
  obtain ⟨collected, collectedEq, given⟩ := exists_of_bind_eq_ok continued
  cases given
  rw [List.length_map] at lengthEq
  refine ⟨collected.share, ?_⟩
  apply List.ext_getElem?
  intro position
  rw [List.getElem?_mapIdx, List.getElem?_map]
  cases found : alphabet[position]? with
  | none =>
    rw [List.getElem?_eq_none_iff] at found
    rw [List.getElem?_eq_none (Nat.le_trans (Nat.le_of_eq lengthEq) found)]
    rfl
  | some b =>
    have complete := length_positional_append_open positionalWeighed
    have weightEq := MemberWeights.join_foldlM_assign distinct found complete collectedEq
    rw [join_append_open, positionalWeights_eq positionalWeighed, List.getElem?_map] at weightEq
    have within : position < collected.weights.length := by
      rw [lengthEq]
      exact (List.getElem?_eq_some_iff.1 found).1
    rw [List.getElem?_eq_getElem within, Option.join_some] at weightEq
    rw [List.getElem?_eq_getElem within, Option.map_some, Option.map_some, weightEq, weightOf]
    cases a.positional[position]? with
    | some p => rfl
    | none =>
      cases a.named.find? fun entry => entry.1.byte = b ∧ ¬ entry.1.namesOthers with
      | some entry => rfl
      | none => rfl

/-! ### Meanings on a class -/

/-- A meaning is of the kind that the annotation names. -/
theorem kind_of_resolve {a : Annotation} {c : Context} {weights : Resolution (List Binary64)}
    {d : Distribution} (resolved : a.resolve c weights = .ok d) : a.kind = .ok d.kind := by
  obtain ⟨kind, named, resolved⟩ := exists_of_bind_eq_ok resolved
  rw [named]
  cases kind with
  | constant =>
    obtain ⟨value, -, made⟩ := exists_of_bind_eq_ok resolved
    cases made
    rfl
  | bernoulli =>
    obtain ⟨slots, -, made⟩ := exists_of_bind_eq_ok resolved
    rw [Distribution.eq_of_mkBernoulli (eq_ok_of_checked made)]
    rfl
  | binomial =>
    obtain ⟨slots, -, resolved⟩ := exists_of_bind_eq_ok resolved
    obtain ⟨trials, -, made⟩ := exists_of_bind_eq_ok resolved
    rw [Distribution.eq_of_mkBinomial (eq_ok_of_checked made)]
    rfl
  | geometric =>
    obtain ⟨slots, -, made⟩ := exists_of_bind_eq_ok resolved
    rw [Distribution.eq_of_mkGeometric (eq_ok_of_checked made)]
    rfl
  | zipf =>
    obtain ⟨slots, -, resolved⟩ := exists_of_bind_eq_ok resolved
    obtain ⟨ranks, -, made⟩ := exists_of_bind_eq_ok resolved
    rw [Distribution.eq_of_mkZipf (eq_ok_of_checked made)]
    rfl
  | categorical =>
    obtain ⟨ws, -, made⟩ := exists_of_bind_eq_ok resolved
    rw [Distribution.eq_of_mkCategorical (eq_ok_of_checked made)]
    rfl

/-- On a class a categorical distribution has the weights that the rule gives to the characters. -/
theorem weights_of_onClass {a : Annotation} {alphabet : Text} {weights : List Float}
    (distinct : alphabet.Nodup) (means : a.onClass alphabet = .ok (.categorical weights)) :
    ∃ share, weights = (alphabet.mapIdx (a.weightOf share)).map Binary64.toFloat := by
  obtain ⟨kind, named, resolved⟩ := exists_of_bind_eq_ok means
  have kindEq := kind_of_resolve means
  rw [named] at kindEq
  cases kindEq
  obtain ⟨ws, weighed, made⟩ := exists_of_bind_eq_ok resolved
  obtain ⟨share, rfl⟩ := memberWeights_eq distinct weighed
  have made := Distribution.eq_of_mkCategorical (eq_ok_of_checked made)
  exact ⟨share, Distribution.categorical.inj made⟩

end Annotation

end PatternSampler
