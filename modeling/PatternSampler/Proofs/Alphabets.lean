/-
Module: PatternSampler.Proofs.Alphabets
Purpose: Alphabets of classes. Positions in an alphabet are what distributions draw, so the order
  of an alphabet is specified together with its members: a plain alphabet has the characters
  of its members where they first appear, a negated one the printable characters that are
  left, in byte order. Further members extend the first at its end and thin out the second.
Main exports: Alphabet.Collects, Alphabet.collects_insert, Alphabet.collects_insertAll,
  Alphabet.LeavesOut, alphabetOf_ordered
-/
import Mathlib.Data.List.Basic
import PatternSampler.CharClass

namespace PatternSampler

namespace Alphabet

/-! ### Collecting characters -/

/-- An alphabet has each character of a text once, in the order of their first appearance. -/
structure Collects (chars alphabet : Text) : Prop where
  distinct : alphabet.Nodup
  mem_iff : ∀ b, b ∈ alphabet ↔ b ∈ chars
  ordered : alphabet.Pairwise fun a b => chars.idxOf a < chars.idxOf b

theorem collects_nil : Collects [] [] where
  distinct := List.nodup_nil
  mem_iff := fun _ => Iff.rfl
  ordered := .nil

/-- Characters that were collected keep the place of their first appearance. -/
theorem Collects.ordered_append {chars alphabet : Text} (collects : Collects chars alphabet)
    (more : Text) :
    alphabet.Pairwise fun a b => (chars ++ more).idxOf a < (chars ++ more).idxOf b := by
  apply collects.ordered.imp_of_mem
  intro a b first second before
  rw [List.idxOf_append_of_mem ((collects.mem_iff a).1 first),
    List.idxOf_append_of_mem ((collects.mem_iff b).1 second)]
  exact before

/-- One more character is collected at the end of the alphabet unless it appeared before. -/
theorem collects_insert {chars alphabet : Text} (collects : Collects chars alphabet) (b : UInt8) :
    Collects (chars ++ [b]) (insert alphabet b) where
  distinct := nodup_insert collects.distinct b
  mem_iff := by
    intro c
    rw [mem_insert, List.mem_append, List.mem_singleton, collects.mem_iff]
  ordered := by
    have kept := collects.ordered_append [b]
    unfold insert
    split
    next => exact kept
    next fresh =>
      rw [List.pairwise_append]
      refine ⟨kept, List.pairwise_singleton _ _, ?_⟩
      intro a present c last
      rw [List.mem_singleton.1 last]
      have appeared := (collects.mem_iff a).1 present
      have unseen := mt (collects.mem_iff b).2 fresh
      rw [List.idxOf_append_of_mem appeared, List.idxOf_append_of_notMem unseen]
      exact Nat.lt_of_lt_of_le (List.idxOf_lt_length_of_mem appeared) (Nat.le_add_right _ _)

/-- A text is collected character by character. -/
theorem collects_insertAll {chars alphabet : Text} (collects : Collects chars alphabet)
    (more : Text) : Collects (chars ++ more) (insertAll alphabet more) := by
  induction more generalizing chars alphabet with
  | nil =>
    rw [List.append_nil]
    exact collects
  | cons b more inductionHypothesis =>
    rw [← List.singleton_append, ← List.append_assoc]
    exact inductionHypothesis (collects_insert collects b)

/-- The characters of members are collected member by member. -/
theorem collects_members {chars alphabet : Text} (collects : Collects chars alphabet)
    (members : List ClassItem) :
    Collects (chars ++ members.flatMap ClassItem.chars)
      (members.foldl (fun alphabet m => insertAll alphabet m.chars) alphabet) := by
  induction members generalizing chars alphabet with
  | nil =>
    rw [List.flatMap_nil, List.append_nil]
    exact collects
  | cons m members inductionHypothesis =>
    rw [List.flatMap_cons, ← List.append_assoc]
    exact inductionHypothesis (collects_insertAll collects m.chars)

/-! ### Extending alphabets -/

theorem prefix_insert (alphabet : Text) (b : UInt8) : alphabet <+: insert alphabet b := by
  unfold insert
  split
  next => exact List.prefix_rfl
  next => exact List.prefix_append _ _

theorem prefix_insertAll (alphabet chars : Text) : alphabet <+: insertAll alphabet chars := by
  induction chars generalizing alphabet with
  | nil => exact List.prefix_rfl
  | cons b chars inductionHypothesis =>
    exact (prefix_insert alphabet b).trans (inductionHypothesis (insert alphabet b))

theorem prefix_members (alphabet : Text) (members : List ClassItem) :
    alphabet <+: members.foldl (fun alphabet m => insertAll alphabet m.chars) alphabet := by
  induction members generalizing alphabet with
  | nil => exact List.prefix_rfl
  | cons m members inductionHypothesis =>
    exact (prefix_insertAll alphabet m.chars).trans (inductionHypothesis _)

/-! ### Leaving out characters -/

/-- An alphabet has the printable characters that are not in a text, in byte order. -/
structure LeavesOut (chars alphabet : Text) : Prop where
  mem_iff : ∀ b, b ∈ alphabet ↔ (0x20 ≤ b ∧ b ≤ 0x7E) ∧ b ∉ chars
  increasing : alphabet.Pairwise (· < ·)

theorem mem_printable (b : UInt8) : b ∈ printable ↔ 0x20 ≤ b ∧ b ≤ 0x7E := by
  unfold printable
  rw [List.mem_map, UInt8.le_iff_toNat_le, UInt8.le_iff_toNat_le]
  change _ ↔ 32 ≤ b.toNat ∧ b.toNat ≤ 126
  constructor
  · rintro ⟨i, inRange, rfl⟩
    have small := List.mem_range.1 inRange
    rw [UInt8.toNat_ofNat_of_lt' (Nat.lt_of_lt_of_le (Nat.add_lt_add_left small 0x20) (by decide))]
    omega
  · rintro ⟨lower, upper⟩
    refine ⟨b.toNat - 0x20, List.mem_range.2 (by omega), ?_⟩
    rw [Nat.add_sub_cancel' lower, UInt8.ofNat_toNat]

theorem increasing_printable : printable.Pairwise (· < ·) := by decide +kernel

theorem leavesOut_complement (excluded : Text) : LeavesOut excluded (complement excluded) where
  mem_iff := by
    intro b
    rw [mem_complement, mem_printable]
  increasing := increasing_printable.sublist List.filter_sublist

/-- The more is excluded, the less is left. -/
theorem complement_sublist {excluded more : Text} (within : excluded ⊆ more) :
    List.Sublist (complement more) (complement excluded) := by
  apply List.monotone_filter_right
  intro b kept
  rw [decide_eq_true_iff] at kept ⊢
  exact fun present => kept (within present)

end Alphabet

open Alphabet

/-! ### Alphabets of classes -/

/-- The alphabet of a class has the characters of its members without repetition, ordered by where
they first appear; the alphabet of a negated class has the printable characters that no member
has, in byte order. Of a list of members with further ones behind it the former alphabet is
extended at the end, and the latter has characters taken out. -/
theorem alphabetOf_ordered (members more : List ClassItem) :
    ((alphabetOf members false).Nodup ∧
      (∀ b, b ∈ alphabetOf members false ↔ ∃ m ∈ members, b ∈ m.chars) ∧
      (alphabetOf members false).Pairwise fun a b =>
        (members.flatMap ClassItem.chars).idxOf a < (members.flatMap ClassItem.chars).idxOf b) ∧
    ((alphabetOf members true).Pairwise (· < ·) ∧
      ∀ b, b ∈ alphabetOf members true ↔ (0x20 ≤ b ∧ b ≤ 0x7E) ∧ ∀ m ∈ members, b ∉ m.chars) ∧
    alphabetOf members false <+: alphabetOf (members ++ more) false ∧
    List.Sublist (alphabetOf (members ++ more) true) (alphabetOf members true) := by
  have plain : Collects (members.flatMap ClassItem.chars) (alphabetOf members false) :=
    collects_members collects_nil members
  have negated : LeavesOut (alphabetOf members false) (alphabetOf members true) :=
    leavesOut_complement _
  have memIff (b : UInt8) : b ∈ alphabetOf members false ↔ ∃ m ∈ members, b ∈ m.chars :=
    (plain.mem_iff b).trans List.mem_flatMap
  have extended : alphabetOf members false <+: alphabetOf (members ++ more) false := by
    have behind := prefix_members (alphabetOf members false) more
    unfold alphabetOf at behind ⊢
    dsimp only at behind ⊢
    rw [List.foldl_append]
    exact behind
  have thinned := complement_sublist extended.subset
  refine ⟨⟨plain.distinct, memIff, plain.ordered⟩, ⟨negated.increasing, ?_⟩, extended, thinned⟩
  intro b
  rw [negated.mem_iff, memIff, not_exists]
  exact and_congr_right fun _ => forall_congr' fun m => not_and

end PatternSampler
