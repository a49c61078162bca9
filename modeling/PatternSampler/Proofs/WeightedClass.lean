/-
Module: PatternSampler.Proofs.WeightedClass
Purpose: Classes whose characters are weighed. Every class of a tree that is read is found in the
  text, and its distribution is what the annotation behind it means. Of a categorical one each
  character has the weight that the annotation gives to it, and the character that is drawn
  has a positive weight, whatever the source delivers: some weight is positive, as the sum of
  them is, and neither a zero in front of a share nor a target beyond all shares leads to a
  weight of zero.
Main exports: Distribution.sample_categorical, Node.generate_charClass, Grammar.Annotated,
  Pattern.exists_annotated_of_within, Pattern.draws_weighted_members
-/
import PatternSampler.Proofs.Invariants
import PatternSampler.Proofs.Language.Completeness
import PatternSampler.Proofs.Resolution.Weights
import PatternSampler.Proofs.Support

namespace PatternSampler

/-! ### Positive weights -/

namespace Distribution

/-- The sum of weights that are all zero is zero. -/
theorem weightSum_eq_zero {weights : List Float}
    (zeros : ∀ w ∈ weights, w ≤ 0.0 ∧ ¬ w < 0.0) : weightSum weights = 0.0 := by
  unfold weightSum
  induction weights with
  | nil => rfl
  | cons w ws inductionHypothesis =>
    obtain ⟨zero, others⟩ := List.forall_mem_cons.1 zeros
    rw [List.foldl_cons, Binary64.zero_add_of_zero zero.1 zero.2]
    exact inductionHypothesis others

theorem exists_weights_of_kind {d : Distribution} (categorical : d.kind = .categorical) :
    ∃ weights, d = .categorical weights := by
  cases d with
  | categorical weights => exact ⟨weights, rfl⟩
  | _ => cases categorical

/-- Weights that have a mass are not all zero. -/
theorem exists_weight_not_le {weights : List Float} (valid : (categorical weights).Valid) :
    ∃ w ∈ weights, ¬ w ≤ 0.0 := by
  obtain ⟨-, weighing, mass⟩ := valid
  by_contra noWeight
  push Not at noWeight
  have sumEq := weightSum_eq_zero fun w member => ⟨noWeight w member, (weighing w member).2⟩
  rw [sumEq] at mass
  exact mass (by decide +kernel)

/-- The index that is drawn is that of a positive weight. -/
theorem sample_categorical {σ : Type} [WordSource σ] {weights : List Float}
    (valid : (categorical weights).Valid) (counted : weights.length < 2 ^ 64) (s : σ) :
    ∃ w, weights[((categorical weights).sample s).1.toNat]? = some w ∧ 0.0 < w := by
  rw [toNat_sample_categorical counted]
  rcases positionByWeight_spec ((Draw.uniformFraction s).1 * weightSum weights) weights 0 0.0 0
    with ⟨behind, w, found, at', positive⟩ | ⟨-, zeros⟩
  · rw [found, Nat.zero_add]
    have weighs := valid.2.1 w (List.mem_of_getElem? at')
    exact ⟨w, at', Binary64.zero_lt_of_not_le weighs.1 positive⟩
  · obtain ⟨w, member, positive⟩ := exists_weight_not_le valid
    exact absurd (zeros w member) positive

end Distribution

/-! ### Drawing a character -/

section Draws

open Generation

variable {σ : Type} [WordSource σ]

/-- Drawing from a class with a distribution is drawing from the distribution, whose sample stands
for a position in the alphabet. -/
theorem Node.generate_charClass {c : CharClass} (inhabited : c.alphabet ≠ []) {d : Distribution}
    (present : c.distribution = some d) (offset : Nat) (cap : UInt64) (s : σ) :
    ((Node.charClass offset c).generate cap : Generation σ Text).run.run s =
      (.ok [c.alphabet.getD (positionOf d (d.sample s).1
        (UInt64.ofNat c.alphabet.length - 1)).toNat 0], (d.sample s).2) := by
  unfold Node.generate drawPosition
  rw [if_neg inhabited, present]
  rfl

/-- A sample that is a position of an alphabet stands for that position. -/
theorem positionOf_categorical {weights : List Float} {sample last : UInt64}
    (within : sample ≤ last) : positionOf (.categorical weights) sample last = sample :=
  if_neg (UInt64.not_lt.2 within)

/-- From a class with weights for its characters a character is drawn whose weight is positive. -/
theorem Node.generate_weighted {c : CharClass} (wellFormed : c.WellFormed) {weights : List Float}
    (present : c.distribution = some (.categorical weights)) (offset : Nat) (cap : UInt64) (s : σ) :
    ∃ (b : UInt8) (s' : σ),
      ((Node.charClass offset c).generate cap : Generation σ Text).run.run s = (.ok [b], s') ∧
      b ∈ c.alphabet ∧
      ∀ position : Nat, c.alphabet[position]? = some b →
        ∃ w, weights[position]? = some w ∧ 0.0 < w := by
  have valid := Distribution.valid_of_mkCategorical (wellFormed.remade _ present)
  have lengthEq : weights.length = c.alphabet.length := wellFormed.fits _ present
  have counted : weights.length < 2 ^ 64 := by
    have few := length_le_of_nodup wellFormed.distinct
    omega
  obtain ⟨w, weighs, positive⟩ := Distribution.sample_categorical valid counted s
  have drawn := Node.generate_charClass wellFormed.inhabited present offset cap s
  generalize (Distribution.categorical weights).sample s = outcome at weighs drawn
  obtain ⟨index, s'⟩ := outcome
  have withinWeights : index.toNat < weights.length := (List.getElem?_eq_some_iff.1 weighs).1
  have within : index.toNat < c.alphabet.length := lengthEq ▸ withinWeights
  have notBehind : index ≤ UInt64.ofNat c.alphabet.length - 1 := by
    rw [← lengthEq, UInt64.le_iff_toNat_le, Distribution.toNat_last valid.1 counted]
    exact Nat.le_sub_one_of_lt withinWeights
  rw [positionOf_categorical notBehind, List.getD_eq_getElem _ _ within] at drawn
  refine ⟨_, s', drawn, List.getElem_mem within, ?_⟩
  intro position found
  -- No character occurs twice, so a weight of the character drawn is the one it was drawn by.
  have positionEq : position = index.toNat := by
    obtain ⟨inside, same⟩ := List.getElem?_eq_some_iff.1 found
    exact (wellFormed.distinct.getElem_inj_iff).1 same
  rw [positionEq]
  exact ⟨w, weighs, positive⟩

end Draws

/-! ### Classes in a text -/

namespace Grammar

/-- At an offset of some tokens there is a phrase for a class, and an annotation stands at the end
of the phrase. -/
def Annotated (tokens : List Token) (offset : Nat) (c : CharClass) (a : Annotation) : Prop :=
  ∃ t ts us rest, t :: ts <:+ tokens ∧ t.place.offset = offset ∧ Class (t :: ts) c rest ∧
    us <:+ ts ∧ Note us a rest

/-- The distribution of a class is what the annotation at the end of its phrase means. -/
theorem annotated_of_class {tokens : List Token} {t : Token} {ts rest : List Token} {c : CharClass}
    (within : t :: ts <:+ tokens) (phrase : Class (t :: ts) c rest) :
    ∀ d ∈ c.distribution, ∃ a, Annotated tokens t.place.offset c a ∧
      a.onClass c.alphabet = .ok d := by
  intro d present
  have found : ∀ {us : List Token} {d' : Option Distribution} {alphabet : Text}, us <:+ ts →
      Attached (·.onClass alphabet) us d' rest → d' = some d →
      ∃ a, Annotated tokens t.place.offset c a ∧ a.onClass alphabet = .ok d := by
    intro us d' alphabet behind attached same
    cases attached with
    | absent => cases same
    | @present _ a _ note means =>
      cases same
      exact ⟨a, ⟨t, ts, us, rest, within, rfl, phrase, behind, note⟩, means⟩
  cases phrase with
  | shorthand _ attached => exact found (List.suffix_refl _) attached present
  | bracketed negation listed _ _ attached =>
    refine found ?_ attached present
    exact (List.suffix_cons _ _).trans (listed.isSuffix.trans negation.isSuffix)

/-- What holds of a node that is a class: an annotation stands where its distribution comes from. -/
def Describes (tokens : List Token) : Node → Prop
  | .charClass offset c => ∀ d ∈ c.distribution, ∃ a, Annotated tokens offset c a ∧
      a.onClass c.alphabet = .ok d
  | _ => True

theorem builds_describes (tokens : List Token) : Builds (· <:+ tokens) (Describes tokens) where
  behind := fun within behind => behind.trans within
  literal := fun _ _ => trivial
  wildcard := fun _ => trivial
  charClass := annotated_of_class
  concat := fun _ _ _ => trivial
  alternation := fun _ _ _ => trivial
  quantified := fun _ _ _ => trivial

end Grammar

/-! ### Classes that are read -/

namespace Pattern

/-- The distribution of a class that is read is what an annotation in the text means on it. -/
theorem exists_annotated_of_within {s : Text} {p : Pattern} (read : Pattern.parse s = .ok p)
    {offset : Nat} {c : CharClass} (inside : (Node.charClass offset c).Within p.root)
    {d : Distribution} (present : d ∈ c.distribution) :
    ∃ a, Grammar.Annotated (Cursor.ofText s).scan.1 offset c a ∧ a.onClass c.alphabet = .ok d :=
  Pattern.all_root_of_builds (Grammar.builds_describes _) (List.suffix_refl _) read _ inside d
    present

/-- A class that is read with a distribution has an annotation in the text, which means that
distribution. If its kind is categorical, there is one weight for each character, as the
annotation gives them, and whatever words the source delivers and whatever the cap is, a
character is drawn whose weight is positive. -/
theorem draws_weighted_members {σ : Type} [WordSource σ] {s : Text} {p : Pattern}
    (read : Pattern.parse s = .ok p) {offset : Nat} {c : CharClass}
    (inside : (Node.charClass offset c).Within p.root) {d : Distribution}
    (present : d ∈ c.distribution) :
    ∃ a, Grammar.Annotated (Cursor.ofText s).scan.1 offset c a ∧ a.onClass c.alphabet = .ok d ∧
      (a.kind = .ok .categorical → ∃ weights, d = .categorical weights ∧
        weights.length = c.alphabet.length ∧
        (∃ share, weights = (c.alphabet.mapIdx (a.weightOf share)).map Binary64.toFloat) ∧
        ∀ (cap : UInt64) (source : σ), ∃ (b : UInt8) (source' : σ),
          ((Node.charClass offset c).generate cap : Generation σ Text).run.run source =
            (.ok [b], source') ∧
          b ∈ c.alphabet ∧
          ∀ position : Nat, c.alphabet[position]? = some b →
            ∃ w, weights[position]? = some w ∧ 0.0 < w) := by
  obtain ⟨a, annotated, means⟩ := exists_annotated_of_within read inside present
  refine ⟨a, annotated, means, ?_⟩
  intro named
  have wellFormed : c.WellFormed := Pattern.wellFormed_of_parse read _ inside
  have kindEq := Annotation.kind_of_resolve means
  rw [named] at kindEq
  obtain ⟨weights, rfl⟩ := Distribution.exists_weights_of_kind (Except.ok.inj kindEq).symm
  refine ⟨weights, rfl, wellFormed.fits _ present,
    Annotation.weights_of_onClass wellFormed.distinct means, ?_⟩
  intro cap source
  exact Node.generate_weighted wellFormed present offset cap source

theorem draws_weighted_members_pair :
    ∃ p c weights, Pattern.parse (ascii "[ab]~Cat(a=0)") = .ok p ∧
      (Node.charClass 0 c).Within p.root ∧ c.alphabet = ascii "ab" ∧
      c.distribution = some (.categorical weights) ∧ weights.length = 2 ∧
      ∃ (b : UInt8) (source : SeededSource),
        ((Node.charClass 0 c).generate 32 : Generation SeededSource Text).run.run
          (SeededSource.ofSeed 7) = (.ok [b], source) ∧
        ∀ position : Nat, (ascii "ab")[position]? = some b →
          ∃ w, weights[position]? = some w ∧ 0.0 < w := by
  have parsed : ((Pattern.parse (ascii "[ab]~Cat(a=0)")).toOption.bind fun p =>
      match p.root with
      | .charClass offset c => some (offset, c.alphabet, c.distribution.map Distribution.kind)
      | _ => none) = some (0, ascii "ab", some .categorical) := by
    decide +kernel
  cases read : Pattern.parse (ascii "[ab]~Cat(a=0)") with
  | error r =>
    rw [read] at parsed
    cases parsed
  | ok p =>
    rw [read] at parsed
    change (match p.root with
      | .charClass offset c => some (offset, c.alphabet, c.distribution.map Distribution.kind)
      | _ => none) = some (0, ascii "ab", some .categorical) at parsed
    split at parsed
    next offset c root =>
      obtain ⟨rfl, alphabetEq, d, present, kindEq⟩ : offset = 0 ∧ c.alphabet = ascii "ab" ∧
          ∃ d, c.distribution = some d ∧ d.kind = .categorical := by
        simpa using parsed
      have inside : (Node.charClass 0 c).Within p.root := by
        rw [root]
        exact .self _
      obtain ⟨a, -, means, ofKind⟩ :=
        draws_weighted_members (σ := SeededSource) read inside present
      have named := Annotation.kind_of_resolve means
      rw [kindEq] at named
      obtain ⟨weights, rfl, lengthEq, -, draws⟩ := ofKind named
      obtain ⟨b, source, drawn, -, weighs⟩ := draws 32 (SeededSource.ofSeed 7)
      rw [alphabetEq] at lengthEq weighs
      exact ⟨p, c, weights, rfl, inside, alphabetEq, present, lengthEq, b, source, drawn, weighs⟩
    next => cases parsed

end Pattern

end PatternSampler
