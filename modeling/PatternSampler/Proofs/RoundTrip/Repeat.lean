/-
Module: PatternSampler.Proofs.RoundTrip.Repeat
Purpose: Repeats as they are written. Whichever of its spellings a repeat takes, the text spells
  the repeat again; with a distribution the number in front of it is a baseline at which
  the distribution begins.
Main exports: Grammar.spells_repeat
-/
import PatternSampler.Pattern.Canonical
import PatternSampler.Proofs.Invariants
import PatternSampler.Proofs.RoundTrip.Annotation

namespace PatternSampler.Grammar

variable {b : Bounds} {d : Distribution} {baseline : UInt64}

/-! ### Parts -/

/-- A text in braces spells what stands between the braces. -/
theorem spells_braced {t : Text} {phrase : Phrase} (spells : Spells t phrase) :
    Spells (braced t) fun ts rest => ∃ place us place',
      ts = ⟨.mark .leftBrace, place⟩ :: us ∧ phrase us (⟨.mark .rightBrace, place'⟩ :: rest) := by
  apply ((Spells.mark .leftBrace).append (spells.append (Spells.mark .rightBrace))).mono
  rintro ts rest ⟨us, ⟨place, rfl⟩, vs, inside, ⟨place', rfl⟩⟩
  exact ⟨place, us, place', rfl, inside⟩

/-- A minimum and a comma. -/
theorem spells_minimum {min : UInt64} (limited : min.toNat ≤ maxRepeatCount) :
    Spells (Text.decimal min.toNat ++ [0x2C]) fun ts rest =>
      ∃ place, Count ts min (⟨.mark .comma, place⟩ :: rest) := by
  apply ((spells_count limited).append (Spells.mark .comma)).mono
  rintro ts rest ⟨us, count, ⟨place, rfl⟩⟩
  exact ⟨place, count⟩

/-- A distribution that begins at a baseline is what its text means there. -/
theorem spells_drawn (remade : d.remake = .ok d) (begins : d.BeginsAt baseline) :
    Spells d.text fun ts rest => ∃ a, Note ts a rest ∧ a.onRepeat baseline = .ok d := by
  apply (spells_distribution (Distribution.valid_of_remake remade)).mono
  rintro ts rest ⟨a, denotes, note⟩
  exact ⟨a, note, Annotation.onRepeat_of_denotes denotes remade begins⟩

/-! ### Repeats without a distribution -/

/-- The greatest word is no count within the limit. -/
theorem ne_maxWord_of_limited {n : UInt64} (limited : n.toNat ≤ maxRepeatCount) : n ≠ maxWord := by
  rintro rfl
  exact absurd limited (by decide)

theorem spells_marks {m : Mark} (marks : Marks m b) :
    Spells [m.byte] fun ts rest => Quantifier ts ⟨b, none⟩ rest := by
  apply (Spells.mark m).mono
  rintro ts rest ⟨place, rfl⟩
  exact .mark marks (.absent rest)

theorem spells_bounds (wellFormed : b.WellFormed) :
    Spells b.text fun ts rest => Quantifier ts ⟨b, none⟩ rest := by
  obtain ⟨min, max⟩ := b
  obtain ⟨ordered, minLimited, maxLimited⟩ := wellFormed
  dsimp only at minLimited maxLimited
  unfold Bounds.text
  dsimp only
  split_ifs with question star plus exactly
  · obtain ⟨rfl, rfl⟩ := question
    exact spells_marks .question
  · obtain ⟨rfl, rfl⟩ := star
    exact spells_marks .star
  · obtain ⟨rfl, rfl⟩ := plus
    exact spells_marks .plus
  · cases max with
    | none => exact absurd exactly (ne_maxWord_of_limited minLimited)
    | some max =>
      have maxEq : max = min := exactly.symm
      subst maxEq
      apply (spells_braced (spells_count minLimited)).mono
      rintro ts rest ⟨place, us, place', rfl, count⟩
      exact .exact count
  · cases max with
    | none =>
      apply (spells_braced (spells_minimum minLimited)).mono
      rintro ts rest ⟨place, us, place', rfl, place'', minimum⟩
      exact .between minimum (.absent _) (fun m absent => nomatch absent) (.absent _)
    | some max =>
      have maximum := spells_count (maxLimited max rfl)
      have both := spells_braced ((spells_minimum minLimited).append maximum)
      rw [List.append_assoc] at both
      apply both.mono
      rintro ts rest ⟨place, us, place', rfl, vs, ⟨place'', minimum⟩, count⟩
      refine .between minimum (.present count) ?_ (.absent _)
      intro m present
      cases present
      exact ordered

/-! ### Repeats with a distribution -/

/-- Without bounds, any number within the limit may be the baseline. -/
theorem spells_unrestricted (remade : d.remake = .ok d) (limited : baseline.toNat ≤ maxRepeatCount)
    (begins : d.BeginsAt baseline) :
    Spells (braced (Text.decimal baseline.toNat ++ d.text)) fun ts rest =>
      Quantifier ts ⟨⟨0, none⟩, some d⟩ rest := by
  apply (spells_braced ((spells_count limited).append (spells_drawn remade begins))).mono
  rintro ts rest ⟨place, us, place', rfl, vs, count, a, note, means⟩
  exact .drawn count note means

/-- The baseline that is written where there are no bounds is one at which the distribution
begins. -/
theorem begins_of_fitsRepeat (fits : d.FitsRepeat ⟨0, none⟩) :
    ∃ baseline : UInt64, baseline.toNat ≤ maxRepeatCount ∧ d.BeginsAt baseline ∧
      Bounds.textWith ⟨0, none⟩ d = braced (Text.decimal baseline.toNat ++ d.text) := by
  obtain ⟨-, begins⟩ := fits
  have zeroLimited : (0 : UInt64).toNat ≤ maxRepeatCount := by decide
  cases d with
  | geometric p offset =>
    refine ⟨offset, ?_, rfl, rfl⟩
    rcases begins with atMinimum | ⟨-, limit, limited, atLimit⟩
    · rw [show offset = 0 from atMinimum]
      exact zeroLimited
    · rw [show offset = limit from atLimit]
      exact limited
  | constant => exact ⟨0, zeroLimited, trivial, rfl⟩
  | bernoulli => exact ⟨0, zeroLimited, trivial, rfl⟩
  | binomial => exact ⟨0, zeroLimited, trivial, rfl⟩
  | categorical => exact ⟨0, zeroLimited, trivial, rfl⟩
  | zipf => exact ⟨0, zeroLimited, trivial, rfl⟩

theorem spells_boundsWith (wellFormed : b.WellFormed) (fits : d.FitsRepeat b) :
    Spells (b.textWith d) fun ts rest => Quantifier ts ⟨b, some d⟩ rest := by
  obtain ⟨min, max⟩ := b
  obtain ⟨ordered, minLimited, maxLimited⟩ := wellFormed
  dsimp only at minLimited maxLimited
  by_cases unrestricted : min = 0 ∧ max = none
  · obtain ⟨rfl, rfl⟩ := unrestricted
    obtain ⟨baseline, limited, begins, textEq⟩ := begins_of_fitsRepeat fits
    rw [textEq]
    exact spells_unrestricted fits.remade limited begins
  · have begins : d.BeginsAt min := by
      rcases fits.begins with atMinimum | ⟨equal, -⟩
      · exact atMinimum
      · cases equal
        exact absurd ⟨rfl, rfl⟩ unrestricted
    have minimum := spells_minimum minLimited
    have drawn := spells_drawn fits.remade begins
    unfold Bounds.textWith
    cases max with
    | none =>
      dsimp only
      rw [if_neg fun zero => unrestricted ⟨zero, rfl⟩]
      have whole := spells_braced (minimum.append drawn)
      rw [List.append_assoc] at whole
      apply whole.mono
      rintro ts rest ⟨place, us, place', rfl, vs, ⟨place'', count⟩, a, note, means⟩
      exact .between count (.absent _) (fun m absent => nomatch absent) (.present note means)
    | some max =>
      have maximum := spells_count (maxLimited max rfl)
      have whole := spells_braced (minimum.append (maximum.append drawn))
      rw [List.append_assoc] at whole
      apply whole.mono
      rintro ts rest ⟨place, us, place', rfl, vs, ⟨place'', count⟩, ws, count', a, note, means⟩
      refine .between count (.present count') ?_ (.present note means)
      intro m present
      cases present
      exact ordered

/-- The text of a repeat spells the repeat. -/
theorem spells_repeat {distribution : Option Distribution} (wellFormed : b.WellFormed)
    (fits : ∀ d ∈ distribution, d.FitsRepeat b) :
    Spells (b.quantifierText distribution) fun ts rest => Quantifier ts ⟨b, distribution⟩ rest := by
  cases distribution with
  | none => exact spells_bounds wellFormed
  | some d => exact spells_boundsWith wellFormed (fits d rfl)

end PatternSampler.Grammar
