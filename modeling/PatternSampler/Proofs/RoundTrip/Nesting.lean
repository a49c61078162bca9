/-
Module: PatternSampler.Proofs.RoundTrip.Nesting
Purpose: How deep the parentheses of a canonical text are nested. A text has parentheses only
  where the tree needs them, and there the text it was read from had them too, so the
  nesting never exceeds that of the original.
Main exports: Node.nesting, Grammar.nesting_of_derives
-/
import PatternSampler.Pattern.Canonical
import PatternSampler.Proofs.Grammar

namespace PatternSampler

mutual

/-- How deep parentheses are nested in the canonical text of a node. -/
def Node.nesting : Node → Nat
  | .literal .. => 0
  | .wildcard _ => 0
  | .charClass .. => 0
  | .concat _ children => Node.sequenceNesting children
  | .alternation _ branches => Node.branchNesting branches
  | .quantified _ _ _ child =>
    child.nesting + (child.isConcat || child.isAlternation || child.isQuantified).toNat

/-- How deep they are nested in the parts of a sequence. -/
def Node.sequenceNesting : List Node → Nat
  | [] => 0
  | child :: children =>
    max (child.nesting + (child.isConcat || child.isAlternation).toNat)
      (Node.sequenceNesting children)

/-- How deep they are nested in the branches of a choice. -/
def Node.branchNesting : List Node → Nat
  | [] => 0
  | branch :: branches =>
    max (branch.nesting + branch.isAlternation.toNat) (Node.branchNesting branches)

end

namespace Grammar

/-- A form is written with parentheses nested at most `depth` deep. What is no atom by itself
needs one more pair of them where an atom stands, and so on. -/
def Form.NestedWithin (depth : Nat) : Form → Prop
  | .atom n => n.nesting + (n.isConcat || n.isAlternation || n.isQuantified).toNat ≤ depth
  | .factor n => n.nesting + (n.isConcat || n.isAlternation).toNat ≤ depth
  | .factors ns => Node.sequenceNesting ns ≤ depth
  | .expression n => n.nesting + n.isAlternation.toNat ≤ depth
  | .branches ns => Node.branchNesting ns ≤ depth
  | .alternation n => n.nesting ≤ depth

theorem toNat_le_toNat_or (a b : Bool) : a.toNat ≤ (a || b).toNat ∧ b.toNat ≤ (a || b).toNat := by
  cases a <;> cases b <;> decide

/-- Deriving a tree takes as many nested groups as its canonical text has. -/
theorem nesting_of_derives {depth : Nat} {form : Form} {ts rest : List Token}
    (derived : Derives depth form ts rest) : form.NestedWithin depth := by
  induction derived with
  | literal => exact Nat.zero_le _
  | escaped => exact Nat.zero_le _
  | wildcard => exact Nat.zero_le _
  | charClass => exact Nat.zero_le _
  | group _ inductionHypothesis => exact Nat.add_le_add inductionHypothesis (Bool.toNat_le _)
  | @bare _ _ _ n _ inductionHypothesis =>
    have fewer := (toNat_le_toNat_or (n.isConcat || n.isAlternation) n.isQuantified).1
    exact Nat.le_trans (Nat.add_le_add_left fewer _) inductionHypothesis
  | repeated _ _ inductionHypothesis => exact inductionHypothesis
  | lastFactor _ inductionHypothesis => exact Nat.max_le.2 ⟨inductionHypothesis, Nat.zero_le _⟩
  | moreFactors _ _ first others => exact Nat.max_le.2 ⟨first, others⟩
  | @sequence _ _ _ _ ns _ inductionHypothesis =>
    unfold Node.sequence
    split
    next n _ =>
      have factor := (Nat.max_le.1 inductionHypothesis).1
      have fewer := (toNat_le_toNat_or n.isConcat n.isAlternation).2
      exact Nat.le_trans (Nat.add_le_add_left fewer _) factor
    next => exact inductionHypothesis
  | lastBranch _ inductionHypothesis => exact Nat.max_le.2 ⟨inductionHypothesis, Nat.zero_le _⟩
  | moreBranches _ _ first others => exact Nat.max_le.2 ⟨first, others⟩
  | @choice _ _ _ _ ns _ inductionHypothesis =>
    unfold Node.choice
    split
    next => exact Nat.le_trans (Nat.le_add_right _ _) (Nat.max_le.1 inductionHypothesis).1
    next => exact inductionHypothesis

end Grammar

end PatternSampler
