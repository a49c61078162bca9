/-
Module: PatternSampler.Proofs.RoundTrip.Shape
Purpose: Trees that are the same but for the offsets of their nodes. Their distributions may be
  compared in any way; trees whose distributions are equal have the same text, and where all
  parameters are in their domain equal distributions are equal as numbers too.
Main exports: CharClass.Matches, Node.Matches, Node.MatchesAll, Node.text_eq_of_matches,
  Node.Matches.as_numbers
-/
import PatternSampler.Pattern.Canonical
import PatternSampler.Proofs.Invariants
import PatternSampler.Proofs.RoundTrip.Annotation

namespace PatternSampler

/-- A way to compare distributions. -/
abbrev Comparison := Distribution → Distribution → Prop

variable {R : Comparison}

/-- Classes with the same members, negation, brackets and alphabet, and with distributions that
compare. -/
structure CharClass.Matches (R : Comparison) (c c' : CharClass) : Prop where
  members : c.members = c'.members
  negated : c.negated = c'.negated
  bracketed : c.bracketed = c'.bracketed
  alphabet : c.alphabet = c'.alphabet
  distribution : Option.Rel R c.distribution c'.distribution

mutual

/-- Trees of the same shape and contents, wherever their nodes were written. -/
inductive Node.Matches (R : Comparison) : Node → Node → Prop where
  | literal (offset offset' : Nat) (b : UInt8) :
      Matches R (.literal offset b) (.literal offset' b)
  | wildcard (offset offset' : Nat) : Matches R (.wildcard offset) (.wildcard offset')
  | charClass (offset offset' : Nat) {c c' : CharClass} (same : c.Matches R c') :
      Matches R (.charClass offset c) (.charClass offset' c')
  | concat (offset offset' : Nat) {children children' : List Node}
      (parts : MatchesAll R children children') :
      Matches R (.concat offset children) (.concat offset' children')
  | alternation (offset offset' : Nat) {branches branches' : List Node}
      (parts : MatchesAll R branches branches') :
      Matches R (.alternation offset branches) (.alternation offset' branches')
  | quantified (offset offset' : Nat) (bounds : Bounds) {d d' : Option Distribution}
      {child child' : Node} (drawn : Option.Rel R d d') (part : Matches R child child') :
      Matches R (.quantified offset bounds d child) (.quantified offset' bounds d' child')

/-- As many trees, each matching the one in its place. -/
inductive Node.MatchesAll (R : Comparison) : List Node → List Node → Prop where
  | nil : MatchesAll R [] []
  | cons {n n' : Node} {ns ns' : List Node} (first : Matches R n n')
      (others : MatchesAll R ns ns') : MatchesAll R (n :: ns) (n' :: ns')

end

theorem rel_refl (d : Option Distribution) : Option.Rel (· = ·) d d := by
  cases d with
  | none => exact .none
  | some d => exact .some rfl

theorem CharClass.Matches.refl (c : CharClass) : c.Matches (· = ·) c :=
  ⟨rfl, rfl, rfl, rfl, rel_refl _⟩

/-! ### Kinds and numbers of nodes -/

namespace Node

variable {n n' : Node} {ns ns' : List Node}

theorem MatchesAll.length_eq (all : MatchesAll R ns ns') : ns.length = ns'.length := by
  induction ns generalizing ns' with
  | nil =>
    cases all
    rfl
  | cons n ns inductionHypothesis =>
    cases all with
    | cons first others => rw [List.length_cons, List.length_cons, inductionHypothesis others]

theorem Matches.isConcat_eq (same : n.Matches R n') : n.isConcat = n'.isConcat := by
  cases same <;> rfl

theorem Matches.isAlternation_eq (same : n.Matches R n') :
    n.isAlternation = n'.isAlternation := by
  cases same <;> rfl

theorem Matches.isQuantified_eq (same : n.Matches R n') : n.isQuantified = n'.isQuantified := by
  cases same <;> rfl

end Node

/-! ### Texts -/

theorem eq_of_rel {d d' : Option Distribution} (same : Option.Rel (· = ·) d d') : d = d' := by
  cases same with
  | some equal => rw [equal]
  | none => rfl

/-- Classes with equal distributions are equal. -/
theorem CharClass.Matches.eq {c c' : CharClass} (same : c.Matches (· = ·) c') : c = c' := by
  obtain ⟨members, negated, bracketed, alphabet, distribution⟩ := same
  cases c
  cases c'
  cases members
  cases negated
  cases bracketed
  cases alphabet
  cases eq_of_rel distribution
  rfl

mutual

/-- Trees that differ in their offsets only have the same text. -/
theorem Node.text_eq_of_matches {n n' : Node} (same : n.Matches (· = ·) n') :
    n.text = n'.text := by
  cases same with
  | literal => rfl
  | wildcard => rfl
  | charClass _ _ same =>
    rw [same.eq]
    rfl
  | concat _ _ parts => exact Node.sequenceText_eq_of_matches parts
  | alternation _ _ parts =>
    unfold Node.text
    rw [Node.branchTexts_eq_of_matches parts]
  | quantified _ _ _ drawn part =>
    unfold Node.text
    rw [Node.text_eq_of_matches part, part.isConcat_eq, part.isAlternation_eq,
      part.isQuantified_eq, eq_of_rel drawn]

theorem Node.sequenceText_eq_of_matches {ns ns' : List Node}
    (all : Node.MatchesAll (· = ·) ns ns') : Node.sequenceText ns = Node.sequenceText ns' := by
  cases all with
  | nil => rfl
  | cons first others =>
    unfold Node.sequenceText
    rw [Node.text_eq_of_matches first, first.isConcat_eq, first.isAlternation_eq,
      Node.sequenceText_eq_of_matches others]

theorem Node.branchTexts_eq_of_matches {ns ns' : List Node}
    (all : Node.MatchesAll (· = ·) ns ns') : Node.branchTexts ns = Node.branchTexts ns' := by
  cases all with
  | nil => rfl
  | cons first others =>
    unfold Node.branchTexts
    rw [Node.text_eq_of_matches first, first.isAlternation_eq,
      Node.branchTexts_eq_of_matches others]

end

/-! ### Equality as numbers -/

theorem beq_self_of_forall {ws : List Float} (finite : ∀ w ∈ ws, w.isFinite) :
    (ws == ws) = true := by
  induction ws with
  | nil => rfl
  | cons w ws inductionHypothesis =>
    have first := Binary64.beq_self_of_isFinite (finite w List.mem_cons_self)
    have others := inductionHypothesis fun w member => finite w (List.mem_cons_of_mem _ member)
    rw [List.cons_beq_cons, first, others]
    rfl

/-- A distribution with parameters in their domain equals itself. -/
theorem Distribution.beq_self_of_valid {d : Distribution} (valid : d.Valid) :
    (d == d) = true := by
  change d.beq d = true
  cases d with
  | constant v => exact beq_self_eq_true v
  | bernoulli p => exact Binary64.beq_self_of_isFinite valid.1
  | binomial trials p =>
    exact Bool.and_eq_true_iff.2 ⟨beq_self_eq_true trials, Binary64.beq_self_of_isFinite valid.1.1⟩
  | categorical weights =>
    obtain ⟨-, inDomain, -⟩ := valid
    exact beq_self_of_forall fun w member => (inDomain w member).1
  | geometric p offset =>
    exact Bool.and_eq_true_iff.2 ⟨Binary64.beq_self_of_isFinite valid.1, beq_self_eq_true offset⟩
  | zipf law =>
    exact Bool.and_eq_true_iff.2
      ⟨Binary64.beq_self_of_isFinite valid.1.1, beq_self_eq_true law.ranks⟩

/-- Distributions are equal as numbers. -/
def Distribution.SameNumbers (d d' : Distribution) : Prop := (d == d') = true

theorem sameNumbers_of_rel {d d' : Option Distribution} (same : Option.Rel (· = ·) d d')
    (remade : ∀ d' ∈ d, d'.remake = .ok d') : Option.Rel Distribution.SameNumbers d d' := by
  cases same with
  | some equal =>
    cases equal
    exact .some (Distribution.beq_self_of_valid (Distribution.valid_of_remake (remade _ rfl)))
  | none => exact .none

mutual

/-- Trees with equal distributions have distributions that are equal as numbers, if their
parameters are in their domain. -/
theorem Node.Matches.as_numbers {n n' : Node} (same : n.Matches (· = ·) n')
    (all : n.All Node.WellFormed) : n.Matches Distribution.SameNumbers n' := by
  have root := all.root
  cases same with
  | literal => exact .literal _ _ _
  | wildcard => exact .wildcard _ _
  | charClass _ _ same =>
    obtain ⟨members, negated, bracketed, alphabet, distribution⟩ := same
    obtain ⟨-, -, -, remade, -⟩ := root
    exact .charClass _ _
      ⟨members, negated, bracketed, alphabet, sameNumbers_of_rel distribution remade⟩
  | concat _ _ parts =>
    exact .concat _ _ (Node.MatchesAll.as_numbers parts fun child member => all.child member)
  | alternation _ _ parts =>
    exact .alternation _ _ (Node.MatchesAll.as_numbers parts fun child member => all.child member)
  | quantified _ _ _ drawn part =>
    obtain ⟨-, fits⟩ := root
    have child := Node.Matches.as_numbers part (all.child (List.mem_singleton_self _))
    exact .quantified _ _ _ (sameNumbers_of_rel drawn fun d present => (fits d present).remade)
      child

theorem Node.MatchesAll.as_numbers {ns ns' : List Node} (same : Node.MatchesAll (· = ·) ns ns')
    (all : ∀ n ∈ ns, n.All Node.WellFormed) : Node.MatchesAll Distribution.SameNumbers ns ns' := by
  cases same with
  | nil => exact .nil
  | cons first others =>
    exact .cons (Node.Matches.as_numbers first (all _ List.mem_cons_self))
      (Node.MatchesAll.as_numbers others fun n member => all n (List.mem_cons_of_mem _ member))

end

end PatternSampler
