/-
Module: PatternSampler.Proofs.RoundTrip.Draws
Purpose: What is drawn from a canonical text. A draw reads the kinds, contents and distributions
  of the nodes and nothing else, so trees that differ in their offsets only take the same
  words from a source and make the same strings of them. Hence a pattern and the pattern
  that is read from its canonical text give the same strings from the same seed.
Main exports: Node.generate_eq_of_matches, Pattern.exists_matches_parse_text,
  Pattern.generateMany_parse_text
-/
import PatternSampler.Proofs.Language
import PatternSampler.Proofs.RoundTrip

namespace PatternSampler

open Generation

/-! ### Trees that differ in their offsets -/

section Trees

variable {σ : Type} [WordSource σ]

mutual

/-- Drawing from trees that differ in their offsets only is the same computation. -/
theorem Node.generate_eq_of_matches (cap : UInt64) {n n' : Node} (same : n.Matches (· = ·) n') :
    (n.generate cap : Generation σ Text) = n'.generate cap := by
  cases same with
  | literal => rfl
  | wildcard => rfl
  | charClass _ _ same =>
    rw [same.eq]
    rfl
  | concat _ _ parts => exact Node.generateAll_eq_of_matches cap parts
  | alternation _ _ parts =>
    unfold Node.generate
    rw [parts.length_eq]
    exact bind_congr fun index => Node.generateNth_eq_of_matches cap parts index.toNat
  | quantified _ _ _ drawn part =>
    unfold Node.generate
    rw [eq_of_rel drawn, Node.generate_eq_of_matches cap part]

theorem Node.generateAll_eq_of_matches (cap : UInt64) {ns ns' : List Node}
    (all : Node.MatchesAll (· = ·) ns ns') :
    (Node.generateAll cap ns : Generation σ Text) = Node.generateAll cap ns' := by
  cases all with
  | nil => rfl
  | cons first others =>
    unfold Node.generateAll
    rw [Node.generate_eq_of_matches cap first, Node.generateAll_eq_of_matches cap others]

theorem Node.generateNth_eq_of_matches (cap : UInt64) {ns ns' : List Node}
    (all : Node.MatchesAll (· = ·) ns ns') (index : Nat) :
    (Node.generateNth cap ns index : Generation σ Text) = Node.generateNth cap ns' index := by
  cases all with
  | nil => rfl
  | cons first others =>
    cases index with
    | zero => exact Node.generate_eq_of_matches cap first
    | succ index => exact Node.generateNth_eq_of_matches cap others index

end

/-- Patterns with such trees give the same strings and leave the same source, whatever their
anchors and the texts they were read from. -/
theorem Pattern.generateMany_eq_of_matches (cap count : UInt64) {p p' : Pattern}
    (same : p.root.Matches (· = ·) p'.root) :
    (p.generateMany cap count : Generation σ (List Text)) = p'.generateMany cap count := by
  unfold Pattern.generateMany Pattern.generate
  rw [Node.generate_eq_of_matches cap same]

/-- Several strings can be drawn from a pattern that was read, however many. -/
theorem Pattern.exists_generateMany {s : Text} {p : Pattern} (read : Pattern.parse s = .ok p)
    (cap count : UInt64) (source : σ) :
    ∃ strings source', (p.generateMany cap count).run.run source = (.ok strings, source') ∧
      strings.length = count.toNat := by
  have all := Pattern.allWellFormed_root read
  have each : (p.generate cap : Generation σ Text).Yields True fun _ => True :=
    (@Node.yields_generate σ _ True True cap p.root (fun _ => Node.shaped_of_wellFormed all)
      fun _ => Node.faultless_of_wellFormed all).mono fun _ _ => trivial
  have yields := yields_times each count source
  unfold Pattern.generateMany
  generalize (times count (p.generate cap)).run.run source = outcome at yields
  rcases outcome with ⟨fault | strings, source'⟩
  · exact absurd trivial yields
  · exact ⟨strings, source', rfl, yields.1⟩

end Trees

/-! ### Canonical texts -/

/-- The canonical text of a pattern that was read is read as a pattern with the same tree, offsets
aside. -/
theorem Pattern.exists_matches_parse_text {s : Text} {p : Pattern}
    (read : Pattern.parse s = .ok p) :
    ∃ p' : Pattern, Pattern.parse p.text = .ok p' ∧ p.root.Matches (· = ·) p'.root := by
  have nested : p.root.nesting ≤ maxGroupDepth := by
    obtain ⟨accepted, -⟩ := Grammar.parse_eq_ok_iff.1 read
    cases accepted with
    | intro _ content _ => exact Grammar.nesting_of_derives content
  have spells := Grammar.spells_pattern (Pattern.allWellFormed_root read)
    (Pattern.all_root Grammar.establishes_written read) nested
  obtain ⟨root, same, accepted⟩ := spells.scan rfl
  exact ⟨⟨root, p.startAnchor, p.endAnchor, p.text⟩,
    Grammar.parse_eq_ok_iff.2 ⟨Grammar.accepts_iff_within.2 accepted, rfl⟩, same⟩

/-- A pattern that was read and the pattern that is read from its canonical text give the same
strings from the same seed, whatever the cap and the number of strings, and both leave the
source in the same state. -/
theorem Pattern.generateMany_parse_text {s : Text} {p : Pattern}
    (read : Pattern.parse s = .ok p) :
    ∃ p' : Pattern, Pattern.parse p.text = .ok p' ∧
      ∀ seed cap count : UInt64, ∃ strings source,
        (p.generateMany cap count).run.run (SeededSource.ofSeed seed) = (.ok strings, source) ∧
        (p'.generateMany cap count).run.run (SeededSource.ofSeed seed) = (.ok strings, source) ∧
        strings.length = count.toNat := by
  obtain ⟨p', readAgain, same⟩ := Pattern.exists_matches_parse_text read
  refine ⟨p', readAgain, ?_⟩
  intro seed cap count
  obtain ⟨strings, source, drawn, lengthEq⟩ :=
    Pattern.exists_generateMany read cap count (SeededSource.ofSeed seed)
  have sameDraw : (p.generateMany cap count : Generation SeededSource _) = _ :=
    Pattern.generateMany_eq_of_matches cap count same
  refine ⟨strings, source, drawn, ?_, lengthEq⟩
  rw [← sameDraw]
  exact drawn

theorem Pattern.generateMany_parse_text_star :
    ∃ p p' : Pattern, Pattern.parse [0x61, 0x2A] = .ok p ∧ Pattern.parse p.text = .ok p' ∧
      ∃ strings source,
        (p.generateMany 32 3).run.run (SeededSource.ofSeed 7) = (.ok strings, source) ∧
        (p'.generateMany 32 3).run.run (SeededSource.ofSeed 7) = (.ok strings, source) ∧
        strings.length = 3 := by
  have read := Grammar.parse_star (show ¬ IsReserved 0x61 by decide)
  obtain ⟨p', readAgain, sameDraws⟩ := Pattern.generateMany_parse_text read
  exact ⟨_, p', read, readAgain, sameDraws 7 32 3⟩

end PatternSampler
