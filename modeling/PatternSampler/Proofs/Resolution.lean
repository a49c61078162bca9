/-
Module: PatternSampler.Proofs.Resolution
Purpose: What annotations resolve to. A resolved distribution passes the check of its own kind
  again, and it fits the place of its annotation: on a class a constant is a position,
  weights are as many as there are characters and geometric distributions begin at zero; on
  a repeat geometric distributions begin at the baseline.
Main exports: Distribution.remake, Annotation.Resolved, Annotation.resolved_of_resolve,
  Distribution.FitsClass, Distribution.BeginsAt, Annotation.fitsClass_of_onClass,
  Annotation.beginsAt_of_onRepeat
-/
import PatternSampler.Annotation.Meaning
import PatternSampler.Proofs.Doubles

namespace PatternSampler

/-! ### Distributions that pass their check -/

/-- The cumulative probabilities of a law follow from its parameters. -/
theorem ZipfLaw.eq_mk (law : ZipfLaw) :
    { exponent := law.exponent, ranks := law.ranks } = law := by
  cases law with
  | mk exponent ranks cumulative cumulativeEq =>
    subst cumulativeEq
    rfl

namespace Distribution

/-- What the checking function of a distribution's kind makes of the parameters it has. -/
def remake : Distribution → Except ParameterError Distribution
  | constant value => .ok (constant value)
  | bernoulli p => mkBernoulli (.ofFloat p)
  | binomial trials p => mkBinomial trials (.ofFloat p)
  | categorical weights => mkCategorical (weights.map Binary64.ofFloat)
  | geometric p offset => mkGeometric (.ofFloat p) offset
  | zipf law => mkZipf (.ofFloat law.exponent) law.ranks

theorem map_toFloat_map_ofFloat (weights : List Float) :
    (weights.map Binary64.ofFloat).map Binary64.toFloat = weights := by
  rw [List.map_map]
  have identity : Binary64.toFloat ∘ Binary64.ofFloat = id :=
    funext Binary64.toFloat_ofFloat
  rw [identity, List.map_id]

theorem eq_of_mkBernoulli {p : Binary64} {d : Distribution} (made : mkBernoulli p = .ok d) :
    d = bernoulli p.toFloat := by
  unfold mkBernoulli at made
  split at made
  next => cases made; rfl
  next => cases made

theorem eq_of_mkBinomial {trials : UInt64} {p : Binary64} {d : Distribution}
    (made : mkBinomial trials p = .ok d) : d = binomial trials p.toFloat := by
  unfold mkBinomial at made
  split at made
  next => cases made
  next =>
    split at made
    next => cases made; rfl
    next => cases made

theorem eq_of_mkCategorical {ws : List Binary64} {d : Distribution}
    (made : mkCategorical ws = .ok d) : d = categorical (ws.map Binary64.toFloat) := by
  unfold mkCategorical at made
  split at made
  next => cases made
  next =>
    split at made
    next => cases made
    next =>
      split at made
      next => cases made
      next => cases made; rfl

theorem eq_of_mkGeometric {p : Binary64} {offset : UInt64} {d : Distribution}
    (made : mkGeometric p offset = .ok d) : d = geometric p.toFloat offset := by
  unfold mkGeometric at made
  split at made
  next => cases made; rfl
  next => cases made

theorem eq_of_mkZipf {exponent : Binary64} {ranks : UInt64} {d : Distribution}
    (made : mkZipf exponent ranks = .ok d) :
    d = zipf { exponent := exponent.toFloat, ranks } := by
  unfold mkZipf at made
  split at made
  next => cases made
  next =>
    split at made
    next => cases made; rfl
    next => cases made

/-- A distribution with parameters in their domain passes its check and comes out the same. -/
theorem remake_of_valid {d : Distribution} (valid : d.Valid) : d.remake = .ok d := by
  cases d with
  | constant value => rfl
  | bernoulli p =>
    have inDomain : IsProbability p := valid
    simp only [remake, mkBernoulli, Binary64.toFloat_ofFloat, inDomain, if_true]
  | binomial trials p =>
    obtain ⟨inDomain, limited⟩ := valid
    simp only [remake, mkBinomial, Binary64.toFloat_ofFloat, inDomain, limited, not_true, if_false,
      if_true]
  | categorical weights =>
    obtain ⟨nonempty, weighing, mass⟩ := valid
    have found : (weights.map Binary64.ofFloat).find? (fun w => ¬ IsWeight w.toFloat) = none := by
      rw [List.find?_eq_none]
      intro b member
      obtain ⟨w, present, rfl⟩ := List.mem_map.1 member
      simpa [Binary64.toFloat_ofFloat] using weighing w present
    have nonempty' : ¬ weights.map Binary64.ofFloat = [] := by simpa using nonempty
    simp only [remake, mkCategorical, nonempty', if_false, found, map_toFloat_map_ofFloat, mass]
  | geometric p offset =>
    have inDomain : IsProperProbability p := valid
    simp only [remake, mkGeometric, Binary64.toFloat_ofFloat, inDomain, if_true]
  | zipf law =>
    obtain ⟨inDomain, atLeast, atMost⟩ := valid
    simp only [remake, mkZipf, Binary64.toFloat_ofFloat, inDomain, atLeast, atMost, not_true,
      if_false, and_self, if_true, ZipfLaw.eq_mk]

/-- On a class of some size a constant is a position, there is one weight for each character, and
a geometric distribution begins at the first position. -/
def FitsClass (size : Nat) : Distribution → Prop
  | constant value => value.toNat < size
  | categorical weights => weights.length = size
  | geometric _ offset => offset = 0
  | _ => True

/-- A geometric distribution has a given offset. -/
def BeginsAt (baseline : UInt64) : Distribution → Prop
  | geometric _ offset => offset = baseline
  | _ => True

end Distribution

/-! ### Resolution -/

namespace Annotation

/-- What an annotation can resolve to at a place: a constant, which is a position if the place has
positions, or a distribution that has passed the check of its kind. -/
inductive Resolved (c : Context) (weights : Resolution (List Binary64)) : Distribution → Prop where
  | constant {value : UInt64} (position : ∀ size ∈ c.positions, value.toNat < size) :
      Resolved c weights (.constant value)
  | bernoulli {p : Binary64} {d : Distribution} (made : Distribution.mkBernoulli p = .ok d) :
      Resolved c weights d
  | binomial {trials : UInt64} {p : Binary64} {d : Distribution}
      (made : Distribution.mkBinomial trials p = .ok d) : Resolved c weights d
  | geometric {p : Binary64} {d : Distribution}
      (made : Distribution.mkGeometric p c.offset = .ok d) : Resolved c weights d
  | zipf {exponent : Binary64} {ranks : UInt64} {d : Distribution}
      (made : Distribution.mkZipf exponent ranks = .ok d) : Resolved c weights d
  | categorical {ws : List Binary64} {d : Distribution} (given : weights = .ok ws)
      (made : Distribution.mkCategorical ws = .ok d) : Resolved c weights d

theorem eq_ok_of_checked {a : Annotation} {kind : Kind}
    {made : Except Distribution.ParameterError Distribution} {d : Distribution}
    (passed : a.checked kind made = .ok d) : made = .ok d := by
  cases made with
  | error => cases passed
  | ok d' =>
    cases passed
    rfl

theorem position_of_constantValue {a : Annotation} {c : Context} {value : UInt64}
    (found : a.constantValue c = .ok value) : ∀ size ∈ c.positions, value.toNat < size := by
  intro size positions
  obtain ⟨slots, -, found⟩ := exists_of_bind_eq_ok found
  obtain ⟨count, -, checked⟩ := exists_of_bind_eq_ok found
  rw [Option.mem_def.1 positions] at checked
  dsimp only at checked
  split at checked
  next within =>
    cases checked
    exact within
  next =>
    split at checked
    next => cases checked
    next => cases checked

/-- Resolution has one case for each kind. -/
theorem resolved_of_resolve {a : Annotation} {c : Context}
    {weights : Resolution (List Binary64)} {d : Distribution}
    (resolved : a.resolve c weights = .ok d) : Resolved c weights d := by
  obtain ⟨kind, -, resolved⟩ := exists_of_bind_eq_ok resolved
  cases kind with
  | constant =>
    obtain ⟨value, found, made⟩ := exists_of_bind_eq_ok resolved
    cases made
    exact .constant (position_of_constantValue found)
  | bernoulli =>
    obtain ⟨slots, -, made⟩ := exists_of_bind_eq_ok resolved
    exact .bernoulli (eq_ok_of_checked made)
  | binomial =>
    obtain ⟨slots, -, resolved⟩ := exists_of_bind_eq_ok resolved
    obtain ⟨trials, -, made⟩ := exists_of_bind_eq_ok resolved
    exact .binomial (eq_ok_of_checked made)
  | geometric =>
    obtain ⟨slots, -, made⟩ := exists_of_bind_eq_ok resolved
    exact .geometric (eq_ok_of_checked made)
  | zipf =>
    obtain ⟨slots, -, resolved⟩ := exists_of_bind_eq_ok resolved
    obtain ⟨ranks, -, made⟩ := exists_of_bind_eq_ok resolved
    exact .zipf (eq_ok_of_checked made)
  | categorical =>
    obtain ⟨ws, given, made⟩ := exists_of_bind_eq_ok resolved
    exact .categorical given (eq_ok_of_checked made)

/-- A resolved distribution has parameters in their domain. -/
theorem Resolved.valid {c : Context} {weights : Resolution (List Binary64)} {d : Distribution}
    (resolved : Resolved c weights d) : d.Valid := by
  cases resolved with
  | constant => trivial
  | bernoulli made => exact Distribution.valid_of_mkBernoulli made
  | binomial made => exact Distribution.valid_of_mkBinomial made
  | geometric made => exact Distribution.valid_of_mkGeometric made
  | zipf made => exact Distribution.valid_of_mkZipf made
  | categorical _ made => exact Distribution.valid_of_mkCategorical made

/-! ### Weights of characters -/

/-- What every step of a loop preserves holds at its end. -/
theorem foldlM_preserves {ε α β : Type} {f : β → α → Except ε β} {P : β → Prop} {l : List α}
    (step : ∀ b, ∀ a ∈ l, ∀ b', P b → f b a = .ok b' → P b') {b b' : β} (start : P b)
    (run : l.foldlM f b = .ok b') : P b' := by
  induction l generalizing b with
  | nil =>
    cases run
    exact start
  | cons a l inductionHypothesis =>
    rw [List.foldlM_cons] at run
    obtain ⟨next, stepped, continued⟩ := exists_of_bind_eq_ok run
    obtain ⟨first, others⟩ := List.forall_mem_cons.1 fun a member b => step b a member
    exact inductionHypothesis (fun b a member => others a member b) (first b next start stepped)
      continued

theorem length_positionalWeights {size index : Nat} {ps : List Parameter} {ws : List Binary64}
    (weighed : positionalWeights size index ps = .ok ws) :
    ws.length = ps.length ∧ (index ≤ size → index + ps.length ≤ size) := by
  induction ps generalizing index ws with
  | nil =>
    cases weighed
    exact ⟨rfl, fun within => within⟩
  | cons p ps inductionHypothesis =>
    obtain ⟨value, -, continued⟩ := exists_of_bind_eq_ok weighed
    split at continued
    next => cases continued
    next within =>
      obtain ⟨others, othersWeighed, given⟩ := exists_of_bind_eq_ok continued
      cases given
      obtain ⟨lengthEq, bound⟩ := inductionHypothesis othersWeighed
      constructor
      · rw [List.length_cons, List.length_cons, lengthEq]
      · intro _
        have behind := bound (Nat.lt_of_not_le within)
        rw [List.length_cons]
        omega

/-- With open places behind the weights without a key there is a place for each character. -/
theorem length_positional_append_open {size : Nat} {ps : List Parameter} {ws : List Binary64}
    (weighed : positionalWeights size 0 ps = .ok ws) :
    (ws.map some ++ List.replicate (size - ws.length) none).length = size := by
  obtain ⟨lengthEq, bound⟩ := length_positionalWeights weighed
  have within := bound (Nat.zero_le _)
  simp only [List.length_append, List.length_map, List.length_replicate]
  omega

/-- Assigning a weight to a character changes no number of weights. -/
theorem length_weights_of_assign {alphabet : Text} {collected next : MemberWeights} {key : Key}
    {p : Parameter} (assigned : collected.assign alphabet key p = .ok next) :
    next.weights.length = collected.weights.length := by
  obtain ⟨value, -, continued⟩ := exists_of_bind_eq_ok assigned
  split at continued
  next =>
    split at continued
    next => cases continued
    next =>
      cases continued
      rfl
  next =>
    split at continued
    next => cases continued
    next =>
      split at continued
      next => cases continued
      next =>
        cases continued
        exact List.length_set

/-- There is one weight for each character of the alphabet. -/
theorem length_memberWeights {a : Annotation} {alphabet : Text} {ws : List Binary64}
    (weighed : a.memberWeights alphabet = .ok ws) : ws.length = alphabet.length := by
  obtain ⟨positional, positionalWeighed, continued⟩ := exists_of_bind_eq_ok weighed
  obtain ⟨collected, collectedEq, given⟩ := exists_of_bind_eq_ok continued
  cases given
  have kept : collected.weights.length = alphabet.length := by
    refine foldlM_preserves (P := fun m => m.weights.length = alphabet.length) ?_ ?_ collectedEq
    · rintro m ⟨key, p⟩ - m' before assigned
      rw [length_weights_of_assign assigned, before]
    · exact length_positional_append_open positionalWeighed
  rw [List.length_map, kept]

/-! ### Places -/

/-- On a class a resolved distribution fits the alphabet. -/
theorem fitsClass_of_onClass {a : Annotation} {alphabet : Text} {d : Distribution}
    (resolved : a.onClass alphabet = .ok d) : d.Valid ∧ d.FitsClass alphabet.length := by
  have shape := resolved_of_resolve resolved
  refine ⟨shape.valid, ?_⟩
  cases shape with
  | constant position => exact position alphabet.length rfl
  | bernoulli made =>
    rw [Distribution.eq_of_mkBernoulli made]
    trivial
  | binomial made =>
    rw [Distribution.eq_of_mkBinomial made]
    trivial
  | geometric made =>
    rw [Distribution.eq_of_mkGeometric made]
    rfl
  | zipf made =>
    rw [Distribution.eq_of_mkZipf made]
    trivial
  | categorical given made =>
    rw [Distribution.eq_of_mkCategorical made]
    exact (List.length_map _).trans (length_memberWeights given)

/-- On a repeat a resolved geometric distribution begins at the baseline. -/
theorem beginsAt_of_onRepeat {a : Annotation} {baseline : UInt64} {d : Distribution}
    (resolved : a.onRepeat baseline = .ok d) : d.Valid ∧ d.BeginsAt baseline := by
  have shape := resolved_of_resolve resolved
  refine ⟨shape.valid, ?_⟩
  cases shape with
  | constant => trivial
  | bernoulli made =>
    rw [Distribution.eq_of_mkBernoulli made]
    trivial
  | binomial made =>
    rw [Distribution.eq_of_mkBinomial made]
    trivial
  | geometric made =>
    rw [Distribution.eq_of_mkGeometric made]
    rfl
  | zipf made =>
    rw [Distribution.eq_of_mkZipf made]
    trivial
  | categorical _ made =>
    rw [Distribution.eq_of_mkCategorical made]
    trivial

end Annotation

end PatternSampler
