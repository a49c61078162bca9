/-
Module: PatternSampler.Proofs.WordsTaken
Purpose: How many words a draw takes from its source. A distribution takes a number of words that
  its kind and its parameters decide, and nothing else does: neither the words themselves nor
  the values they give. So the source comes to the same state behind every repeat and every
  class that carries the distribution, whatever the bounds, the cap and the alphabet are.
Main exports: WordSource.skip, Draw.Takes, Distribution.wordsTaken, Distribution.takes_sample,
  Distribution.draws_take_words
-/
import PatternSampler.Pattern.Generation
import PatternSampler.Proofs.Doubles
import PatternSampler.Proofs.Support

namespace PatternSampler

/-! ### Sources -/

namespace WordSource

variable {σ : Type} [WordSource σ]

/-- The source behind its next words. -/
def skip (n : Nat) (s : σ) : σ := (fun s => (nextWord s).2)^[n] s

theorem skip_add (m n : Nat) (s : σ) : skip (m + n) s = skip n (skip m s) := by
  unfold skip
  rw [Nat.add_comm, Function.iterate_add_apply]

end WordSource

/-! ### Draws -/

namespace Draw

variable {σ : Type} [WordSource σ] {α β : Type}

/-- A draw takes a fixed number of words, whatever the source delivers. -/
def Takes (x : Draw σ α) (n : Nat) : Prop := ∀ s, (x s).2 = WordSource.skip n s

theorem takes_pure (a : α) : Takes (pure a : Draw σ α) 0 := fun _ => rfl

theorem takes_word : Takes (word : Draw σ UInt64) 1 := fun _ => rfl

/-- One draw after the other takes the words of both, if the second takes as many for every value
of the first. -/
theorem Takes.bind {x : Draw σ α} {f : α → Draw σ β} {m n : Nat} (first : x.Takes m)
    (next : ∀ a, (f a).Takes n) : Takes (x >>= f) (m + n) := by
  intro s
  change (f (x s).1 (x s).2).2 = _
  rw [next, first, ← WordSource.skip_add]

/-- What is made of a value takes no words. -/
theorem Takes.map {x : Draw σ α} {n : Nat} (takes : x.Takes n) (f : α → β) :
    Takes (do return f (← x)) n :=
  takes.bind fun a => takes_pure (f a)

theorem takes_uniformFraction : Takes (uniformFraction : Draw σ Float) 1 :=
  takes_word.map unitReal

end Draw

/-! ### Distributions -/

namespace Distribution

open Draw Generation WordSource

/-- How many words it takes to decide with a probability: none if there is no doubt. -/
def wordsPerTrial (probability : Float) : Nat :=
  if probability == 0.0 || probability == 1.0 then 0 else 1

/-- How many words a distribution takes for a value. -/
def wordsTaken : Distribution → Nat
  | constant _ => 0
  | bernoulli probability => wordsPerTrial probability
  | binomial trials probability => trials.toNat * wordsPerTrial probability
  | categorical _ => 1
  | geometric _ _ => 1
  | zipf _ => 1

section Draws

variable {σ : Type} [WordSource σ]

/-- A probability leaves no doubt exactly if it is zero or one. -/
theorem takes_chance {p : Float} (inDomain : IsProbability p) :
    (chance p : Draw σ Bool).Takes (wordsPerTrial p) := by
  obtain ⟨-, notNegative, notAboveOne⟩ := inDomain
  have isZero : p ≤ 0.0 ↔ (p == 0.0) = true := Binary64.le_iff_beq_of_not_lt notNegative
  have isOne : 1.0 ≤ p ↔ (p == 1.0) = true :=
    (Binary64.le_iff_beq_of_not_lt notAboveOne).trans ⟨Binary64.beq_symm, Binary64.beq_symm⟩
  unfold chance wordsPerTrial
  simp only [isZero, isOne, Bool.or_eq_true]
  by_cases zero : (p == 0.0) = true
  · rw [if_pos zero, if_pos (.inl zero)]
    exact takes_pure false
  · by_cases one : (p == 1.0) = true
    · rw [if_neg zero, if_pos one, if_pos (.inr one)]
      exact takes_pure true
    · rw [if_neg zero, if_neg one, if_neg (not_or.2 ⟨zero, one⟩)]
      exact takes_uniformFraction.map (· < p)

/-- Every trial takes as many words as the first one, however many have succeeded. -/
theorem takes_countSuccesses {p : Float} (inDomain : IsProbability p) (trials : Nat)
    (count : UInt64) :
    (countSuccesses p trials count : Draw σ UInt64).Takes (trials * wordsPerTrial p) := by
  induction trials generalizing count with
  | zero =>
    rw [Nat.zero_mul]
    exact takes_pure count
  | succ trials inductionHypothesis =>
    rw [Nat.succ_mul, Nat.add_comm (trials * _)]
    exact (takes_chance inDomain).bind fun success => inductionHypothesis _

/-- A value of a distribution whose parameters are in their domain takes its number of words. -/
theorem takes_sample {d : Distribution} (valid : d.Valid) :
    (d.sample : Draw σ UInt64).Takes d.wordsTaken := by
  cases d with
  | constant value => exact takes_pure value
  | bernoulli p => exact (takes_chance valid).map _
  | binomial trials p => exact takes_countSuccesses valid.1 trials.toNat 0
  | categorical weights => exact takes_uniformFraction.map _
  | geometric p offset => exact takes_uniformFraction.map _
  | zipf law => exact takes_uniformFraction.map _

/-- The number of times of a repeat is made of a sample, and takes the words of the sample. -/
theorem run_drawCount {d : Distribution} (cap : UInt64) {bounds : Bounds}
    (notInverted : ¬ bounds.ceiling < bounds.min) (s : σ) :
    (drawCount cap bounds (some d)).run.run s =
      (.ok (clamp (d.sample s).1 bounds.min (effectiveMax cap bounds)), (d.sample s).2) := by
  unfold drawCount
  rw [if_neg notInverted]
  rfl

/-- The position in an alphabet is made of a sample, and takes the words of the sample. -/
theorem run_drawPosition {d : Distribution} {c : CharClass} (carried : c.distribution = some d)
    (inhabited : c.alphabet ≠ []) (s : σ) :
    (drawPosition c).run.run s =
      (.ok (positionOf d (d.sample s).1 (UInt64.ofNat c.alphabet.length - 1)),
        (d.sample s).2) := by
  unfold drawPosition
  rw [if_neg inhabited, carried]
  rfl

end Draws

/-- A distribution that was made takes its number of words for every value, whatever the source is.
A repeat and a class that carry it take as many, whatever their bounds, cap and alphabet are,
unless they are at fault: then they take none. -/
theorem draws_take_words {σ : Type} [WordSource σ] {d : Distribution} (made : d.Made) (s : σ) :
    (d.sample s).2 = skip d.wordsTaken s ∧
    (∀ cap bounds,
      (∃ count, (drawCount cap bounds (some d)).run.run s = (.ok count, skip d.wordsTaken s)) ∨
      (bounds.ceiling < bounds.min ∧ (drawCount cap bounds (some d)).run.run s =
        (.error (.invertedBounds bounds.min bounds.ceiling), s))) ∧
    ∀ c : CharClass, c.distribution = some d →
      (∃ position, (drawPosition c).run.run s = (.ok position, skip d.wordsTaken s)) ∨
      (c.alphabet = [] ∧ (drawPosition c).run.run s = (.error .emptyAlphabet, s)) := by
  have taken : (d.sample s).2 = skip d.wordsTaken s := takes_sample made.valid s
  refine ⟨taken, ?_, ?_⟩
  · intro cap bounds
    by_cases inverted : bounds.ceiling < bounds.min
    · refine .inr ⟨inverted, ?_⟩
      unfold drawCount
      rw [if_pos inverted]
      rfl
    · exact .inl ⟨_, (run_drawCount cap inverted s).trans (by rw [taken])⟩
  · intro c carried
    by_cases empty : c.alphabet = []
    · refine .inr ⟨empty, ?_⟩
      unfold drawPosition
      rw [if_pos empty]
      rfl
    · exact .inl ⟨_, (run_drawPosition carried empty s).trans (by rw [taken])⟩

/-- Three trials with an even chance take three words, also for a repeat of at most one time. -/
theorem draws_take_words_coins :
    ∃ d, mkBinomial 3 ⟨0x3FE0000000000000⟩ = .ok d ∧
      (d.sample (SeededSource.ofSeed 7)).2 = skip 3 (SeededSource.ofSeed 7) ∧
      ∃ count, (drawCount 32 ⟨0, some 1⟩ (some d)).run.run (SeededSource.ofSeed 7) =
        (.ok count, skip 3 (SeededSource.ofSeed 7)) := by
  have made : mkBinomial 3 ⟨0x3FE0000000000000⟩ =
      .ok (binomial 3 (Binary64.toFloat ⟨0x3FE0000000000000⟩)) := by
    unfold mkBinomial
    rw [if_neg (by decide +kernel), if_pos (by decide)]
  have words : (binomial 3 (Binary64.toFloat ⟨0x3FE0000000000000⟩)).wordsTaken = 3 := by
    decide +kernel
  obtain ⟨sampled, counted, -⟩ := draws_take_words (.binomial made) (SeededSource.ofSeed 7)
  rw [words] at sampled counted
  refine ⟨_, made, sampled, ?_⟩
  rcases counted 32 ⟨0, some 1⟩ with drawn | ⟨inverted, -⟩
  · exact drawn
  · exact absurd inverted (by decide)

end Distribution

end PatternSampler
