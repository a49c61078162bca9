/-
Module: PatternSampler.Proofs.Invariants
Purpose: What holds of every node of a tree that is read from a text: sequences and choices have
  several parts, bounds are in order and within the limit, alphabets are inhabited and
  follow from the members, and distributions fit the place where they stand.
Main exports: Node.Within, Node.All, Node.WellFormed, Grammar.Establishes, Grammar.Builds,
  Grammar.all_of_derives, Pattern.wellFormed_of_parse
-/
import PatternSampler.Proofs.Acceptance
import PatternSampler.Proofs.Grammar.Extent
import PatternSampler.Proofs.Resolution

namespace PatternSampler

/-! ### The invariant -/

/-- A node is part of a tree. -/
inductive Node.Within : Node → Node → Prop where
  | self (n : Node) : Within n n
  | deeper {m child n : Node} (member : child ∈ n.children) (inside : Within m child) : Within m n

/-- What holds of the bounds of a repeat. -/
structure Bounds.WellFormed (b : Bounds) : Prop where
  ordered : b.min ≤ b.ceiling
  minLimited : b.min.toNat ≤ maxRepeatCount
  maxLimited : ∀ max ∈ b.max, max.toNat ≤ maxRepeatCount

/-- What holds of a distribution on a repeat. A geometric one begins at the minimum, but without
bounds it may begin at any count within the limit. -/
structure Distribution.FitsRepeat (d : Distribution) (b : Bounds) : Prop where
  remade : d.remake = .ok d
  begins : d.BeginsAt b.min ∨
    b = ⟨0, none⟩ ∧ ∃ offset : UInt64, offset.toNat ≤ maxRepeatCount ∧ d.BeginsAt offset

/-- What holds of a class. -/
structure CharClass.WellFormed (c : CharClass) : Prop where
  inhabited : c.alphabet ≠ []
  distinct : c.alphabet.Nodup
  resolved : c.alphabet = alphabetOf c.members c.negated
  remade : ∀ d ∈ c.distribution, d.remake = .ok d
  fits : ∀ d ∈ c.distribution, d.FitsClass c.alphabet.length

/-- What holds of a node, its children left aside. -/
def Node.WellFormed : Node → Prop
  | .literal .. => True
  | .wildcard _ => True
  | .charClass _ c => c.WellFormed
  | .concat _ children => 2 ≤ children.length
  | .alternation _ branches => 2 ≤ branches.length
  | .quantified _ bounds distribution _ =>
    bounds.WellFormed ∧ ∀ d ∈ distribution, d.FitsRepeat bounds

/-! ### Trees -/

/-- Every node of a tree has a property. -/
def Node.All (P : Node → Prop) (n : Node) : Prop := ∀ m : Node, m.Within n → P m

section

variable {P : Node → Prop} {n : Node}

/-- A property holds of a whole tree if it holds of the root and of the trees of the children. -/
theorem Node.all_of_children (root : P n) (below : ∀ child ∈ n.children, child.All P) :
    n.All P := by
  intro m inside
  cases inside with
  | self => exact root
  | deeper member inside => exact below _ member m inside

theorem Node.All.root (all : n.All P) : P n := all n (.self n)

theorem Node.All.child {child : Node} (all : n.All P) (member : child ∈ n.children) :
    child.All P := by
  intro m inside
  exact all m (.deeper member inside)

/-- A sequence is a single part, or several of them under a node of their own. -/
theorem Node.all_sequence {offset : Nat} {children : List Node} (nonempty : children ≠ [])
    (several : 2 ≤ children.length → P (.concat offset children))
    (all : ∀ child ∈ children, child.All P) : (Node.sequence offset children).All P := by
  unfold Node.sequence
  split
  next child => exact all child (List.mem_singleton_self child)
  next severalNot =>
    refine Node.all_of_children (several ?_) all
    match children with
    | [] => exact absurd rfl nonempty
    | [child] => exact absurd rfl (severalNot child)
    | first :: second :: others => simp

/-- A choice is a single branch, or several of them under a node of their own. -/
theorem Node.all_choice {offset : Nat} {branches : List Node} (nonempty : branches ≠ [])
    (several : 2 ≤ branches.length → P (.alternation offset branches))
    (all : ∀ branch ∈ branches, branch.All P) : (Node.choice offset branches).All P := by
  unfold Node.choice
  split
  next branch => exact all branch (List.mem_singleton_self branch)
  next severalNot =>
    refine Node.all_of_children (several ?_) all
    match branches with
    | [] => exact absurd rfl nonempty
    | [branch] => exact absurd rfl (severalNot branch)
    | first :: second :: others => simp

end

namespace Grammar

/-! ### Classes -/

theorem means_of_attached {meaning : Annotation → Except Refusal Distribution}
    {ts rest : List Token} {d : Option Distribution} (attached : Attached meaning ts d rest) :
    ∀ d' ∈ d, ∃ a, meaning a = .ok d' := by
  intro d' present
  cases attached with
  | absent => cases present
  | @present _ a _ note means =>
    cases present
    exact ⟨a, means⟩

theorem wellFormed_of_class {ts rest : List Token} {c : CharClass} (phrase : Class ts c rest) :
    c.WellFormed := by
  have fromAttached : ∀ {members : List ClassItem} {negated : Bool} {us vs : List Token}
      {d : Option Distribution} (bracketed : Bool), alphabetOf members negated ≠ [] →
      Attached (·.onClass (alphabetOf members negated)) us d vs →
      CharClass.WellFormed { members, negated, bracketed, distribution := d } := by
    intro members negated us vs d bracketed inhabited attached
    constructor
    · exact inhabited
    · exact nodup_alphabetOf members negated
    · rfl
    · intro d' present
      obtain ⟨a, means⟩ := means_of_attached attached d' present
      obtain ⟨valid, -⟩ := Annotation.fitsClass_of_onClass means
      exact Distribution.remake_of_valid valid
    · intro d' present
      obtain ⟨a, means⟩ := means_of_attached attached d' present
      obtain ⟨-, fits⟩ := Annotation.fitsClass_of_onClass means
      exact fits
  cases phrase with
  | shorthand inhabited attached => exact fromAttached false inhabited attached
  | bracketed _ _ _ inhabited attached => exact fromAttached true inhabited attached

/-! ### Repeats -/

theorem Count.limited {ts rest : List Token} {n : UInt64} (count : Count ts n rest) :
    n.toNat ≤ maxRepeatCount := by
  cases count with
  | intro _ _ limited =>
    have small : maxRepeatCount < 2 ^ 64 := by decide
    rw [UInt64.toNat_ofNat', Nat.mod_eq_of_lt (Nat.lt_of_le_of_lt limited small)]
    exact limited

theorem Maximum.limited {ts rest : List Token} {max : Option UInt64}
    (maximum : Maximum ts max rest) : ∀ m ∈ max, m.toNat ≤ maxRepeatCount := by
  intro m present
  cases maximum with
  | absent => cases present
  | present count =>
    cases present
    exact count.limited

theorem wellFormed_of_marks {m : Mark} {bounds : Bounds} (marks : Marks m bounds) :
    bounds.WellFormed := by
  cases marks with
  | star => exact ⟨by decide, by decide, by simp⟩
  | plus => exact ⟨by decide, by decide, by simp⟩
  | question =>
    refine ⟨by decide, by decide, ?_⟩
    intro max present
    cases present
    decide

/-- A distribution behind a repeat begins at the minimum of the repeat. -/
theorem fitsRepeat_of_attached {ts rest : List Token} {bounds : Bounds} {d : Option Distribution}
    (attached : Attached (·.onRepeat bounds.min) ts d rest) : ∀ d' ∈ d, d'.FitsRepeat bounds := by
  intro d' present
  obtain ⟨a, means⟩ := means_of_attached attached d' present
  obtain ⟨valid, begins⟩ := Annotation.beginsAt_of_onRepeat means
  exact ⟨Distribution.remake_of_valid valid, .inl begins⟩

theorem wellFormed_of_quantifier {ts rest : List Token} {r : Repeat}
    (quantifier : Quantifier ts r rest) :
    r.bounds.WellFormed ∧ ∀ d ∈ r.distribution, d.FitsRepeat r.bounds := by
  cases quantifier with
  | mark marks attached => exact ⟨wellFormed_of_marks marks, fitsRepeat_of_attached attached⟩
  | @exact _ _ _ _ n count =>
    refine ⟨⟨UInt64.le_refl n, count.limited, ?_⟩, by simp⟩
    intro max present
    cases present
    exact count.limited
  | @drawn _ _ _ _ _ n a d count note means =>
    refine ⟨wellFormed_of_marks .star, ?_⟩
    intro d' present
    cases present
    obtain ⟨valid, begins⟩ := Annotation.beginsAt_of_onRepeat means
    exact ⟨Distribution.remake_of_valid valid, .inr ⟨rfl, n, count.limited, begins⟩⟩
  | @between _ _ _ _ _ _ _ min max d minimum maximum ordered attached =>
    refine ⟨⟨?_, minimum.limited, maximum.limited⟩, fitsRepeat_of_attached attached⟩
    cases max with
    | none => exact le_maxWord min
    | some m => exact ordered m rfl

/-! ### Trees that are read -/

/-- A form stands for trees of which a property holds throughout. -/
def Form.All (P : Node → Prop) : Form → Prop
  | .atom n | .factor n | .expression n | .alternation n => n.All P
  | .factors ns | .branches ns => ns ≠ [] ∧ ∀ n ∈ ns, n.All P

/-- Every production builds nodes with a property from tokens with known names. -/
structure Establishes (P : Node → Prop) : Prop where
  literal : ∀ offset b, P (.literal offset b)
  wildcard : ∀ offset, P (.wildcard offset)
  charClass : ∀ {ts rest : List Token} {c : CharClass} (offset : Nat), AllNamed ts →
    Class ts c rest → P (.charClass offset c)
  concat : ∀ offset ns, 2 ≤ ns.length → P (.concat offset ns)
  alternation : ∀ offset ns, 2 ≤ ns.length → P (.alternation offset ns)
  quantified : ∀ {ts rest : List Token} {r : Repeat} (offset : Nat) (n : Node),
    Quantifier ts r rest → P (.quantified offset r.bounds r.distribution n)

/-- Every production builds nodes with a property from tokens that fulfil a condition, which the
tokens behind them fulfil then as well. A class is found at the offset of its node. -/
structure Builds (Q : List Token → Prop) (P : Node → Prop) : Prop where
  behind : ∀ {ts us : List Token}, Q ts → us <:+ ts → Q us
  literal : ∀ offset b, P (.literal offset b)
  wildcard : ∀ offset, P (.wildcard offset)
  charClass : ∀ {t : Token} {ts rest : List Token} {c : CharClass}, Q (t :: ts) →
    Class (t :: ts) c rest → P (.charClass t.place.offset c)
  concat : ∀ offset ns, 2 ≤ ns.length → P (.concat offset ns)
  alternation : ∀ offset ns, 2 ≤ ns.length → P (.alternation offset ns)
  quantified : ∀ {ts rest : List Token} {r : Repeat} (offset : Nat) (n : Node),
    Quantifier ts r rest → P (.quantified offset r.bounds r.distribution n)

theorem Establishes.builds {P : Node → Prop} (establishes : Establishes P) :
    Builds AllNamed P where
  behind := AllNamed.of_isSuffix
  literal := establishes.literal
  wildcard := establishes.wildcard
  charClass := establishes.charClass _
  concat := establishes.concat
  alternation := establishes.alternation
  quantified := establishes.quantified

/-- What every production builds holds throughout the trees that are derived. -/
theorem all_of_derives {Q : List Token → Prop} {P : Node → Prop} (builds : Builds Q P)
    {depth : Nat} {form : Form} {ts rest : List Token} (derived : Derives depth form ts rest)
    (start : Q ts) : form.All P ∧ Q rest := by
  have alone : ∀ {n : Node}, n.children = [] → P n → n.All P := by
    intro n childless root
    refine Node.all_of_children root ?_
    rw [childless]
    exact fun child member => nomatch member
  have next : ∀ {t : Token} {us : List Token}, Q (t :: us) → Q us :=
    fun holds => builds.behind holds (List.suffix_cons _ _)
  induction derived with
  | literal => exact ⟨alone rfl (builds.literal _ _), next start⟩
  | escaped => exact ⟨alone rfl (builds.literal _ _), next start⟩
  | wildcard => exact ⟨alone rfl (builds.wildcard _), next start⟩
  | charClass _ phrase =>
    exact ⟨alone rfl (builds.charClass start phrase), builds.behind start phrase.isSuffix⟩
  | group _ inductionHypothesis =>
    obtain ⟨inside, behind⟩ := inductionHypothesis (next start)
    exact ⟨inside, next behind⟩
  | bare _ inductionHypothesis => exact inductionHypothesis start
  | repeated _ quantifier inductionHypothesis =>
    obtain ⟨atom, behind⟩ := inductionHypothesis start
    refine ⟨Node.all_of_children (builds.quantified _ _ quantifier) ?_,
      builds.behind behind quantifier.isSuffix⟩
    intro child member
    rw [List.mem_singleton.1 member]
    exact atom
  | lastFactor _ inductionHypothesis =>
    obtain ⟨factor, behind⟩ := inductionHypothesis start
    exact ⟨⟨by simp, by simpa [Form.All] using factor⟩, behind⟩
  | moreFactors _ _ first others =>
    obtain ⟨factor, between⟩ := first start
    obtain ⟨factors, behind⟩ := others between
    exact ⟨⟨by simp, List.forall_mem_cons.2 ⟨factor, factors.2⟩⟩, behind⟩
  | sequence _ inductionHypothesis =>
    obtain ⟨factors, behind⟩ := inductionHypothesis start
    exact ⟨Node.all_sequence factors.1 (builds.concat _ _) factors.2, behind⟩
  | lastBranch _ inductionHypothesis =>
    obtain ⟨branch, behind⟩ := inductionHypothesis start
    exact ⟨⟨by simp, by simpa [Form.All] using branch⟩, behind⟩
  | moreBranches _ _ first others =>
    obtain ⟨branch, between⟩ := first start
    obtain ⟨branches, behind⟩ := others (next between)
    exact ⟨⟨by simp, List.forall_mem_cons.2 ⟨branch, branches.2⟩⟩, behind⟩
  | choice _ inductionHypothesis =>
    obtain ⟨branches, behind⟩ := inductionHypothesis start
    exact ⟨Node.all_choice branches.1 (builds.alternation _ _) branches.2, behind⟩

theorem establishes_wellFormed : Establishes Node.WellFormed where
  literal := fun _ _ => trivial
  wildcard := fun _ => trivial
  charClass := fun _ _ phrase => wellFormed_of_class phrase
  concat := fun _ _ several => several
  alternation := fun _ _ several => several
  quantified := fun _ _ quantifier => wellFormed_of_quantifier quantifier

end Grammar

/-- What every production builds from the tokens of a text holds throughout the tree of its
pattern. -/
theorem Pattern.all_root_of_builds {Q : List Token → Prop} {P : Node → Prop}
    (builds : Grammar.Builds Q P) {s : Text} {p : Pattern} (start : Q (Cursor.ofText s).scan.1)
    (read : Pattern.parse s = .ok p) : p.root.All P := by
  obtain ⟨accepted, -⟩ := Grammar.parse_eq_ok_iff.1 read
  cases accepted with
  | intro atStart content _ =>
    exact (Grammar.all_of_derives builds content (builds.behind start atStart.isSuffix)).1

/-- What every production establishes holds throughout the tree of a pattern. -/
theorem Pattern.all_root {P : Node → Prop} (establishes : Grammar.Establishes P) {s : Text}
    {p : Pattern} (read : Pattern.parse s = .ok p) : p.root.All P :=
  Pattern.all_root_of_builds establishes.builds (Cursor.named_of_mem_scan _) read

/-- The tree of a pattern that is read has only well-formed nodes. -/
theorem Pattern.allWellFormed_root {s : Text} {p : Pattern} (read : Pattern.parse s = .ok p) :
    p.root.All Node.WellFormed :=
  Pattern.all_root Grammar.establishes_wellFormed read

/-- Every node of a tree that is read from a text is well-formed. -/
theorem Pattern.wellFormed_of_parse {s : Text} {p : Pattern} (read : Pattern.parse s = .ok p)
    (n : Node) (inside : n.Within p.root) : n.WellFormed :=
  Pattern.allWellFormed_root read n inside

theorem Pattern.wellFormed_of_parse_star :
    ∃ p, Pattern.parse [0x61, 0x2A] = .ok p ∧ (Node.literal 0 0x61).Within p.root ∧
      ∀ n : Node, n.Within p.root → n.WellFormed := by
  have read := Grammar.parse_star (show ¬ IsReserved 0x61 by decide)
  refine ⟨_, read, .deeper (List.mem_singleton_self _) (.self _), ?_⟩
  intro n inside
  exact Pattern.wellFormed_of_parse read n inside

end PatternSampler
