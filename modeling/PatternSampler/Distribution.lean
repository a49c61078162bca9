/-
Module: PatternSampler.Distribution
Purpose: The six discrete distributions of the template language. A distribution is built by
  a function that checks its parameters and names the reason if it refuses them; what it
  accepts is the predicate `Valid`. Every distribution has a least value, and all but the
  geometric one have a greatest.
Main exports: Kind, Distribution, ParameterError, Distribution.Valid, mkBernoulli, mkBinomial,
  mkCategorical, mkGeometric, mkZipf, least, greatest?, text
-/
import PatternSampler.Decimal

namespace PatternSampler

/-! ### Kinds -/

/-- The kinds of distributions, in the order in which messages list them. -/
inductive Kind where
  | binomial | bernoulli | categorical | constant | geometric | zipf
deriving DecidableEq, Repr

namespace Kind

/-- Every kind. -/
def all : List Kind := [binomial, bernoulli, categorical, constant, geometric, zipf]

/-- The name a kind is written with. -/
def name : Kind → Text
  | binomial => ascii "Bin"
  | bernoulli => ascii "Ber"
  | categorical => ascii "Cat"
  | constant => ascii "Const"
  | geometric => ascii "Geo"
  | zipf => ascii "Zipf"

/-- The kind with a given name; the case of letters does not matter. -/
def ofName? (t : Text) : Option Kind :=
  all.find? fun kind => kind.name.map toLower = t.map toLower

theorem ofName?_name (kind : Kind) : ofName? kind.name = some kind := by
  cases kind <;> decide

end Kind

/-! ### Distributions -/

/-- The powers `1 ^ (-s)`, `2 ^ (-s)` and so on summed up: entry `i` is the sum over the ranks
from one to `i + 1`. -/
def zipfSums (exponent : Float) (ranks : Nat) : Array Float :=
  (Nat.fold ranks
    (fun i _ (state : Array Float × Float) =>
      let sum := state.2 + Float.pow (Float.ofNat (i + 1)) (-exponent)
      (state.1.push sum, sum))
    (#[], 0.0)).1

/-- The cumulative probabilities of the ranks: the sums divided by the last one. The last
probability is one without any rounding. -/
def zipfCumulative (exponent : Float) (ranks : Nat) : Array Float :=
  let sums := zipfSums exponent ranks
  sums.mapIdx fun i sum => if i + 1 = sums.size then 1.0 else sum / sums.back?.getD 1.0

/-- Ranks from one to `ranks`, weighted by a negative power of the rank. The cumulative
probabilities are kept, because every draw searches them. -/
structure ZipfLaw where
  exponent : Float
  ranks : UInt64
  cumulative : Array Float := zipfCumulative exponent ranks.toNat
  cumulative_eq : cumulative = zipfCumulative exponent ranks.toNat := by rfl

/-- The greatest 64-bit word. -/
def maxWord : UInt64 := 0xFFFFFFFFFFFFFFFF

theorem toNat_maxWord : maxWord.toNat = 2 ^ 64 - 1 := rfl

theorem toNat_le_maxWord (w : UInt64) : w.toNat ≤ maxWord.toNat := by
  have below := w.toNat_lt
  rw [toNat_maxWord]
  omega

/-- A distribution over 64-bit words. -/
inductive Distribution where
  /-- Always the same value. -/
  | constant (value : UInt64)
  /-- One with a probability, otherwise zero. -/
  | bernoulli (probability : Float)
  /-- The number of successes among independent trials. -/
  | binomial (trials : UInt64) (probability : Float)
  /-- An index, by weight. -/
  | categorical (weights : List Float)
  /-- The number of failures before the first success, added to an offset. -/
  | geometric (probability : Float) (offset : UInt64)
  /-- A rank, by a negative power of it. -/
  | zipf (law : ZipfLaw)

namespace Distribution

/-- The kind of a distribution. -/
def kind : Distribution → Kind
  | constant _ => .constant
  | bernoulli _ => .bernoulli
  | binomial _ _ => .binomial
  | categorical _ => .categorical
  | geometric _ _ => .geometric
  | zipf _ => .zipf

/-- The sum of weights, from the left. -/
def weightSum (weights : List Float) : Float :=
  weights.foldl (· + ·) 0.0

/-- The most trials that a binomial distribution may have. -/
def maxTrials : UInt64 := 1048576

/-- The most ranks that a Zipf distribution may have. -/
def maxRanks : UInt64 := 65536

/-! ### Parameters -/

/-- A finite number from zero to one, both included. -/
def IsProbability (p : Float) : Prop := p.isFinite ∧ ¬ p < 0.0 ∧ ¬ 1.0 < p

/-- A finite number between zero and one, neither included. -/
def IsProperProbability (p : Float) : Prop := p.isFinite ∧ ¬ p ≤ 0.0 ∧ ¬ 1.0 ≤ p

/-- A finite number that is not negative. -/
def IsWeight (w : Float) : Prop := w.isFinite ∧ ¬ w < 0.0

/-- A finite number that is positive. -/
def IsExponent (s : Float) : Prop := s.isFinite ∧ ¬ s ≤ 0.0

instance (p : Float) : Decidable (IsProbability p) := inferInstanceAs (Decidable (_ ∧ _))
instance (p : Float) : Decidable (IsProperProbability p) := inferInstanceAs (Decidable (_ ∧ _))
instance (w : Float) : Decidable (IsWeight w) := inferInstanceAs (Decidable (_ ∧ _))
instance (s : Float) : Decidable (IsExponent s) := inferInstanceAs (Decidable (_ ∧ _))

/-- The parameters of a distribution are in their domain. -/
def Valid : Distribution → Prop
  | constant _ => True
  | bernoulli p => IsProbability p
  | binomial trials p => IsProbability p ∧ trials ≤ maxTrials
  | categorical weights =>
    weights ≠ [] ∧ (∀ w ∈ weights, IsWeight w) ∧ ¬ weightSum weights ≤ 0.0
  | geometric p _ => IsProperProbability p
  | zipf law => IsExponent law.exponent ∧ 1 ≤ law.ranks ∧ law.ranks ≤ maxRanks

/-- Why parameters are refused. -/
inductive ParameterError where
  | notProbability (kind : Kind) (value : Binary64)
  | tooManyTrials (trials : UInt64)
  | noWeights
  | negativeWeight (value : Binary64)
  | noMass
  | notProperProbability (value : Binary64)
  | exponentNotPositive (value : Binary64)
  | ranksOutOfRange (ranks : UInt64)
deriving DecidableEq, Repr

/-- The wording of a refusal. -/
def ParameterError.message : ParameterError → Text
  | notProbability kind value =>
    kind.name ++ ascii " probability must be within [0, 1], got " ++ numberText value
  | tooManyTrials trials =>
    ascii "Bin trial count must be at most " ++ Text.decimal maxTrials.toNat ++ ascii ", got "
      ++ Text.decimal trials.toNat
  | noWeights => ascii "Cat needs at least one weight"
  | negativeWeight value => ascii "Cat weights must be non-negative, got " ++ numberText value
  | noMass => ascii "Cat weights must not all be zero"
  | notProperProbability value =>
    ascii "Geo probability must be within (0, 1), got " ++ numberText value
  | exponentNotPositive value =>
    ascii "Zipf exponent must be positive, got " ++ numberText value
  | ranksOutOfRange ranks =>
    ascii "Zipf rank count must be within [1, " ++ Text.decimal maxRanks.toNat
      ++ ascii "], got " ++ Text.decimal ranks.toNat

/-- The distribution that is one with a probability. -/
def mkBernoulli (probability : Binary64) : Except ParameterError Distribution :=
  if IsProbability probability.toFloat then .ok (bernoulli probability.toFloat)
  else .error (.notProbability .bernoulli probability)

/-- The distribution of successes among trials. The probability is looked at first. -/
def mkBinomial (trials : UInt64) (probability : Binary64) :
    Except ParameterError Distribution :=
  if ¬ IsProbability probability.toFloat then .error (.notProbability .binomial probability)
  else if trials ≤ maxTrials then .ok (binomial trials probability.toFloat)
  else .error (.tooManyTrials trials)

/-- The distribution of indices by weight. The first weight out of its domain is named. -/
def mkCategorical (weights : List Binary64) : Except ParameterError Distribution :=
  if weights = [] then .error .noWeights
  else
    match weights.find? fun w => ¬ IsWeight w.toFloat with
    | some w => .error (.negativeWeight w)
    | none =>
      if weightSum (weights.map Binary64.toFloat) ≤ 0.0 then .error .noMass
      else .ok (categorical (weights.map Binary64.toFloat))

/-- The distribution of failures before a success. -/
def mkGeometric (probability : Binary64) (offset : UInt64) :
    Except ParameterError Distribution :=
  if IsProperProbability probability.toFloat then .ok (geometric probability.toFloat offset)
  else .error (.notProperProbability probability)

/-- The distribution of ranks. The exponent is looked at first. -/
def mkZipf (exponent : Binary64) (ranks : UInt64) : Except ParameterError Distribution :=
  if ¬ IsExponent exponent.toFloat then .error (.exponentNotPositive exponent)
  else if 1 ≤ ranks ∧ ranks ≤ maxRanks then
    .ok (zipf { exponent := exponent.toFloat, ranks })
  else .error (.ranksOutOfRange ranks)

theorem valid_of_mkBernoulli {p : Binary64} {d : Distribution} (h : mkBernoulli p = .ok d) :
    d.Valid := by
  unfold mkBernoulli at h
  split at h
  next hp => cases h; exact hp
  next => cases h

theorem valid_of_mkBinomial {n : UInt64} {p : Binary64} {d : Distribution}
    (h : mkBinomial n p = .ok d) : d.Valid := by
  unfold mkBinomial at h
  split at h
  next => cases h
  next hp =>
    split at h
    next hn => cases h; exact ⟨Decidable.not_not.1 hp, hn⟩
    next => cases h

theorem valid_of_mkCategorical {ws : List Binary64} {d : Distribution}
    (h : mkCategorical ws = .ok d) : d.Valid := by
  unfold mkCategorical at h
  split at h
  next => cases h
  next hne =>
    split at h
    next => cases h
    next hw =>
      split at h
      next => cases h
      next hsum =>
        cases h
        refine ⟨by simpa using hne, fun w hmem => ?_, hsum⟩
        obtain ⟨b, hb, rfl⟩ := List.mem_map.1 hmem
        simpa using List.find?_eq_none.1 hw b hb

theorem valid_of_mkGeometric {p : Binary64} {offset : UInt64} {d : Distribution}
    (h : mkGeometric p offset = .ok d) : d.Valid := by
  unfold mkGeometric at h
  split at h
  next hp => cases h; exact hp
  next => cases h

theorem valid_of_mkZipf {s : Binary64} {k : UInt64} {d : Distribution} (h : mkZipf s k = .ok d) :
    d.Valid := by
  unfold mkZipf at h
  split at h
  next => cases h
  next hs =>
    split at h
    next hk => cases h; exact ⟨Decidable.not_not.1 hs, hk⟩
    next => cases h

/-! ### Bounds -/

/-- The least value of a distribution. -/
def least : Distribution → UInt64
  | constant value => value
  | geometric _ offset => offset
  | zipf _ => 1
  | _ => 0

/-- The greatest value of a distribution; the geometric one has none. -/
def greatest? : Distribution → Option UInt64
  | constant value => some value
  | bernoulli _ => some 1
  | binomial trials _ => some trials
  | categorical weights => some (UInt64.ofNat weights.length - 1)
  | geometric _ _ => none
  | zipf law => some law.ranks

/-! ### Equality and text -/

/-- Equality of parameters as numbers: zero equals negative zero. -/
def beq : Distribution → Distribution → Bool
  | constant v, constant v' => v == v'
  | bernoulli p, bernoulli p' => p == p'
  | binomial n p, binomial n' p' => n == n' && p == p'
  | categorical ws, categorical ws' => ws == ws'
  | geometric p o, geometric p' o' => p == p' && o == o'
  | zipf l, zipf l' => l.exponent == l'.exponent && l.ranks == l'.ranks
  | _, _ => false

instance : BEq Distribution := ⟨beq⟩

/-- The text of a parameter that is a real number. -/
def realText (x : Float) : Text := numberText (.ofFloat x)

/-- The parameters of a distribution as they are written. The offset of the geometric one is
not among them: it comes from where the annotation stands. -/
def parameterTexts : Distribution → List Text
  | constant value => [Text.decimal value.toNat]
  | bernoulli p => [realText p]
  | binomial trials p => [Text.decimal trials.toNat, realText p]
  | categorical weights => weights.map realText
  | geometric p _ => [realText p]
  | zipf law => [realText law.exponent, Text.decimal law.ranks.toNat]

/-- The annotation that stands for a distribution, every parameter written out. -/
def text (d : Distribution) : Text :=
  0x7E :: (d.kind.name ++ 0x28 :: ([0x2C].intercalate d.parameterTexts ++ [0x29]))

end Distribution

end PatternSampler
