/-
Module: PatternSampler.Proofs.RoundTrip.Annotation
Purpose: Distributions as they are written. The text of a distribution spells an annotation with
  the name of its kind and one parameter for each of its own, all without keys, and at a
  place that the distribution fits this annotation resolves to the distribution again.
Main exports: Distribution.values, Parameter.Stands, Grammar.spells_distribution,
  Annotation.onRepeat_of_denotes, Annotation.onClass_of_denotes
-/
import PatternSampler.Proofs.Resolution
import PatternSampler.Proofs.Spelling

namespace PatternSampler

/-! ### Parameters -/

/-- A parameter of a distribution. -/
inductive ParameterValue where
  | count (v : UInt64)
  | real (x : Float)

namespace ParameterValue

/-- A parameter as it is written. -/
def text : ParameterValue → Text
  | count v => Text.decimal v.toNat
  | real x => Distribution.realText x

/-- A parameter that can be written: counts can, and finite numbers. -/
def Finite : ParameterValue → Prop
  | count _ => True
  | real x => x.isFinite

end ParameterValue

/-- What a parameter without a key stands for. -/
def Parameter.Stands (p : Parameter) : ParameterValue → Prop
  | .count v =>
    p.key = none ∧ p.integral ∧ ¬ p.value.toFloat < 0.0 ∧ Text.leadingCount p.spelling = .ok v
  | .real x => p.key = none ∧ p.value = .ofFloat x

theorem Parameter.Stands.key {p : Parameter} {v : ParameterValue} (stands : p.Stands v) :
    p.key = none := by
  cases v with
  | count => exact stands.1
  | real => exact stands.1

namespace Distribution

/-- The parameters of a distribution in the order in which they are written. -/
def values : Distribution → List ParameterValue
  | constant value => [.count value]
  | bernoulli p => [.real p]
  | binomial trials p => [.count trials, .real p]
  | categorical weights => weights.map .real
  | geometric p _ => [.real p]
  | zipf law => [.real law.exponent, .count law.ranks]

theorem parameterTexts_eq (d : Distribution) :
    d.parameterTexts = d.values.map ParameterValue.text := by
  cases d with
  | constant => rfl
  | bernoulli => rfl
  | binomial => rfl
  | categorical weights =>
    rw [values, List.map_map]
    rfl
  | geometric => rfl
  | zipf => rfl

/-- A distribution that passes its own check has parameters in their domain. -/
theorem valid_of_remake {d : Distribution} (remade : d.remake = .ok d) : d.Valid := by
  cases d with
  | constant => trivial
  | bernoulli => exact valid_of_mkBernoulli remade
  | binomial => exact valid_of_mkBinomial remade
  | categorical => exact valid_of_mkCategorical remade
  | geometric => exact valid_of_mkGeometric remade
  | zipf => exact valid_of_mkZipf remade

theorem finite_of_valid {d : Distribution} (valid : d.Valid) : ∀ v ∈ d.values, v.Finite := by
  intro v member
  cases d with
  | constant =>
    rw [List.mem_singleton.1 member]
    trivial
  | bernoulli =>
    rw [List.mem_singleton.1 member]
    exact valid.1
  | binomial =>
    rcases List.mem_cons.1 member with rfl | second
    · trivial
    · rw [List.mem_singleton.1 second]
      exact valid.1.1
  | categorical =>
    obtain ⟨w, present, rfl⟩ := List.mem_map.1 member
    exact (valid.2.1 w present).1
  | geometric =>
    rw [List.mem_singleton.1 member]
    exact valid.1
  | zipf =>
    rcases List.mem_cons.1 member with rfl | second
    · exact valid.1.1
    · rw [List.mem_singleton.1 second]
      trivial

theorem values_ne_nil {d : Distribution} (valid : d.Valid) : d.values ≠ [] := by
  cases d with
  | categorical weights =>
    obtain ⟨nonempty, -, -⟩ := valid
    exact fun empty => nonempty (List.map_eq_nil_iff.1 empty)
  | constant => exact List.cons_ne_nil _ _
  | bernoulli => exact List.cons_ne_nil _ _
  | binomial => exact List.cons_ne_nil _ _
  | geometric => exact List.cons_ne_nil _ _
  | zipf => exact List.cons_ne_nil _ _

end Distribution

/-! ### Texts -/

namespace Grammar

theorem Number.exists_cons {ts rest : List Token} {n : Numeral} (number : Number ts n rest) :
    ∃ t us, ts = t :: us := by
  cases number with
  | intro minus mantissa power =>
    cases minus with
    | present => exact ⟨_, _, rfl⟩
    | absent =>
      cases mantissa with
      | integer digits nonempty =>
        cases digits with
        | done => exact absurd rfl nonempty
        | more => exact ⟨_, _, rfl⟩
      | pointed digits nonempty =>
        cases digits with
        | done => exact ⟨_, _, rfl⟩
        | more => exact ⟨_, _, rfl⟩
      | bare => exact ⟨_, _, rfl⟩

/-- A numeral in the range of doubles is spelled as a parameter without a key. -/
theorem spells_argument {n : Numeral} (spelled : n.Spelled) (inRange : n.InRange) :
    Spells n.text fun ts rest => ∃ place, Argument ts (.ofNumeral none n place) rest := by
  apply (spells_number spelled).mono
  intro ts rest number
  obtain ⟨t, us, rfl⟩ := number.exists_cons
  exact ⟨t.place, .positional number inRange⟩

/-- The text of a parameter spells a parameter that stands for it. -/
theorem spells_value {v : ParameterValue} (finite : v.Finite) :
    Spells v.text fun ts rest => ∃ p : Parameter, p.Stands v ∧ Argument ts p rest := by
  cases v with
  | count v =>
    obtain ⟨n, spelled, textEq, integral, positive, inRange⟩ := exists_numeral_of_count v
    have notNegative : ¬ n.value.toFloat < 0.0 := by
      unfold Numeral.value
      rw [positive]
      exact Binary64.not_toFloat_lt_zero inRange
    have counted : Text.leadingCount n.text = .ok v := by rw [textEq, Text.leadingCount_decimal]
    have argument := spells_argument spelled inRange
    rw [textEq] at argument
    apply argument.mono
    rintro ts rest ⟨place, parameter⟩
    refine ⟨_, ?_, parameter⟩
    unfold Parameter.ofNumeral
    dsimp only [Parameter.Stands]
    exact ⟨rfl, integral, notNegative, counted⟩
  | real x =>
    obtain ⟨n, spelled, textEq, valueEq, inRange⟩ :=
      exists_numeral (Binary64.magnitude_ofFloat_lt finite)
    have argument := spells_argument spelled inRange
    rw [textEq] at argument
    apply argument.mono
    rintro ts rest ⟨place, parameter⟩
    exact ⟨_, ⟨rfl, valueEq⟩, parameter⟩

/-- Parameters are spelled with commas between them. -/
theorem spells_values {vs : List ParameterValue} (nonempty : vs ≠ [])
    (finite : ∀ v ∈ vs, v.Finite) :
    Spells ([0x2C].intercalate (vs.map ParameterValue.text)) fun ts rest =>
      ∃ ps, List.Forall₂ Parameter.Stands ps vs ∧ Arguments ts ps rest := by
  induction vs with
  | nil => exact absurd rfl nonempty
  | cons v vs inductionHypothesis =>
    have first := spells_value (finite v List.mem_cons_self)
    cases vs with
    | nil =>
      rw [List.map_cons, List.map_nil, List.intercalate_singleton]
      apply first.mono
      rintro ts rest ⟨p, stands, argument⟩
      exact ⟨[p], .cons stands .nil, .last argument⟩
    | cons w vs =>
      have others := inductionHypothesis (List.cons_ne_nil _ _)
        fun v member => finite v (List.mem_cons_of_mem _ member)
      have textEq : [0x2C].intercalate ((v :: w :: vs).map ParameterValue.text) =
          v.text ++ ([0x2C] ++ [0x2C].intercalate ((w :: vs).map ParameterValue.text)) := by
        simp
      rw [textEq]
      apply (first.append ((Spells.mark .comma).append others)).mono
      rintro ts rest ⟨us, ⟨p, stands, argument⟩, us', ⟨place, rfl⟩, ps, allStand, arguments⟩
      exact ⟨p :: ps, .cons stands allStand, .more argument arguments⟩

/-- A written annotation of a distribution: its kind is named, and it has the parameters of the
distribution. -/
structure Denotes (a : Annotation) (d : Distribution) : Prop where
  kind : Kind.ofName? a.name = some d.kind
  stands : List.Forall₂ Parameter.Stands a.parameters d.values

theorem isLetter_of_mem_name (kind : Kind) : ∀ b ∈ kind.name, IsLetter b := by
  cases kind <;> decide +kernel

/-- The text of a distribution spells an annotation of the distribution. -/
theorem spells_distribution {d : Distribution} (valid : d.Valid) :
    Spells d.text fun ts rest => ∃ a, Denotes a d ∧ Note ts a rest := by
  have name := spells_letters (isLetter_of_mem_name d.kind)
  have values := spells_values (Distribution.values_ne_nil valid)
    (Distribution.finite_of_valid valid)
  rw [← Distribution.parameterTexts_eq] at values
  have nameNonempty : d.kind.name ≠ [] := by cases d.kind <;> decide
  have closing := values.append (Spells.mark .rightParen)
  apply ((Spells.mark .tilde).append (name.append ((Spells.mark .leftParen).append closing))).mono
  rintro ts rest ⟨us, ⟨place, rfl⟩, vs, letters, ws, ⟨place', rfl⟩, xs,
    ⟨ps, stands, arguments⟩, ⟨place'', rfl⟩⟩
  exact ⟨⟨d.kind.name, place, ps⟩, ⟨Kind.ofName?_name d.kind, stands⟩,
    .intro letters nameNonempty (.listed arguments)⟩

end Grammar

/-! ### Resolution -/

namespace Annotation

open Grammar (Denotes)

/-- Parameters that stand for values have no keys. -/
theorem key_of_stands {ps : List Parameter} {vs : List ParameterValue}
    (stands : List.Forall₂ Parameter.Stands ps vs) : ∀ p ∈ ps, p.key = none := by
  induction stands with
  | nil => exact fun p absent => absurd absent List.not_mem_nil
  | cons first _ inductionHypothesis =>
    intro p member
    rcases List.mem_cons.1 member with rfl | others
    · exact first.key
    · exact inductionHypothesis p others

theorem positional_of_key {a : Annotation} (keys : ∀ p ∈ a.parameters, p.key = none) :
    a.positional = a.parameters := by
  unfold positional
  rw [List.filter_eq_self]
  intro p member
  rw [keys p member]
  rfl

theorem named_of_key {a : Annotation} (keys : ∀ p ∈ a.parameters, p.key = none) :
    a.named = [] := by
  unfold named
  rw [List.filterMap_eq_nil_iff]
  intro p member
  rw [keys p member]
  rfl

/-- Parameters without keys fill the slots in order. -/
theorem slots_of_key {a : Annotation} (kind : Kind) {keys : List UInt8}
    (noKeys : ∀ p ∈ a.parameters, p.key = none) (fits : a.parameters.length ≤ keys.length) :
    a.slots kind keys = .ok (keys.mapIdx fun i key => (key, a.parameters[i]?)) := by
  unfold slots
  rw [positional_of_key noKeys, named_of_key noKeys, List.drop_eq_nil_iff.2 fits]
  rfl

theorem count_of_stands {slots : Slots} {kind : Kind} {key : UInt8} {fallback v : UInt64}
    {p : Parameter} (found : slots.parameter? key = some p) (stands : p.Stands (.count v)) :
    slots.count kind key fallback = .ok v := by
  obtain ⟨-, integral, notNegative, counted⟩ := stands
  unfold Slots.count
  rw [found]
  dsimp only
  rw [if_neg (not_not.2 integral), if_neg notNegative, counted]

theorem real_of_stands {slots : Slots} {key : UInt8} {fallback x : Float} {p : Parameter}
    (found : slots.parameter? key = some p) (stands : p.Stands (.real x)) :
    slots.real key fallback = .ofFloat x := by
  unfold Slots.real
  rw [found]
  exact stands.2

variable {a : Annotation} {p q : Parameter} {v w : ParameterValue}

/-- One parameter without a key fills the only slot. -/
theorem slots_of_single (kind : Kind) (key : UInt8)
    (stands : List.Forall₂ Parameter.Stands a.parameters [v]) :
    ∃ p : Parameter, p.Stands v ∧ a.slots kind [key] = .ok [(key, some p)] := by
  have noKeys := key_of_stands stands
  cases parametersEq : a.parameters with
  | nil =>
    rw [parametersEq] at stands
    cases stands
  | cons p ps =>
    rw [parametersEq] at stands
    cases stands with
    | cons first others =>
      cases others
      have filled := slots_of_key kind noKeys (show _ ≤ [key].length by rw [parametersEq]; rfl)
      rw [parametersEq] at filled
      exact ⟨p, first, filled⟩

/-- Two parameters without keys fill two slots in order. -/
theorem slots_of_pair (kind : Kind) (key key' : UInt8)
    (stands : List.Forall₂ Parameter.Stands a.parameters [v, w]) :
    ∃ p q : Parameter, p.Stands v ∧ q.Stands w ∧ 2 ≤ a.positional.length ∧
      a.slots kind [key, key'] = .ok [(key, some p), (key', some q)] := by
  have noKeys := key_of_stands stands
  have twoParameters : a.parameters.length = 2 := stands.length_eq
  have filled := slots_of_key kind noKeys (show _ ≤ [key, key'].length by rw [twoParameters]; rfl)
  rw [positional_of_key noKeys, twoParameters]
  cases parametersEq : a.parameters with
  | nil =>
    rw [parametersEq] at stands
    cases stands
  | cons p ps =>
    rw [parametersEq] at stands filled
    cases stands with
    | cons first others =>
      cases others with
      | cons second none =>
        cases none
        exact ⟨p, _, first, second, Nat.le_refl 2, filled⟩

theorem parameter?_first (key : UInt8) (slots : Slots) :
    Slots.parameter? ((key, some p) :: slots) key = some p := by
  simp [Slots.parameter?]

theorem parameter?_second {key key' : UInt8} (different : key ≠ key') :
    Slots.parameter? [(key, some p), (key', some q)] key' = some q := by
  simp [Slots.parameter?, different]

/-! Each kind takes its parameters from its slots; what is left out is not asked for. -/

section kinds

variable {c : Context} {weights : Resolution (List Binary64)}

theorem constantValue_of_stands {n : UInt64}
    (stands : List.Forall₂ Parameter.Stands a.parameters [.count n])
    (position : ∀ size ∈ c.positions, n.toNat < size) : a.constantValue c = .ok n := by
  obtain ⟨p, standsFor, slotsEq⟩ := slots_of_single .constant valueKey stands
  unfold constantValue
  rw [bind_of_eq_ok slotsEq, bind_of_eq_ok (count_of_stands (parameter?_first _ _) standsFor)]
  cases positions : c.positions with
  | none => rfl
  | some size => exact if_pos (position size positions)

/-- An annotation that denotes a distribution resolves to it where its offset is that of the
place, its value a position of the place and its weights those of the place. -/
theorem resolve_of_denotes {d : Distribution} (denotes : Denotes a d)
    (remade : d.remake = .ok d) (begins : d.BeginsAt c.offset)
    (position : ∀ n, d = .constant n → ∀ size ∈ c.positions, n.toNat < size)
    (weighs : ∀ ws, d = .categorical ws → weights = .ok (ws.map Binary64.ofFloat)) :
    a.resolve c weights = .ok d := by
  obtain ⟨kindEq, stands⟩ := denotes
  have kindOk : a.kind = .ok d.kind := by
    unfold kind
    rw [kindEq]
  have passed : ∀ {kind made}, made = .ok d → a.checked kind made = .ok d := by
    intro kind made madeEq
    rw [madeEq]
    rfl
  unfold resolve
  rw [bind_of_eq_ok kindOk]
  cases d with
  | constant n =>
    dsimp only [Distribution.kind]
    rw [bind_of_eq_ok (constantValue_of_stands stands (position n rfl))]
    rfl
  | bernoulli x =>
    obtain ⟨p, standsFor, slotsEq⟩ := slots_of_single .bernoulli probabilityKey stands
    dsimp only [Distribution.kind]
    rw [bind_of_eq_ok slotsEq, real_of_stands (parameter?_first _ _) standsFor]
    exact passed remade
  | binomial n x =>
    obtain ⟨p, q, trials, probability, two, slotsEq⟩ :=
      slots_of_pair .binomial trialsKey probabilityKey stands
    have keysEq : a.binomialSlotKeys = [trialsKey, probabilityKey] := if_pos two
    rw [← keysEq] at slotsEq
    dsimp only [Distribution.kind]
    rw [bind_of_eq_ok slotsEq,
      bind_of_eq_ok (count_of_stands (parameter?_first _ _) trials),
      real_of_stands (parameter?_second (by decide)) probability]
    exact passed remade
  | categorical ws =>
    dsimp only [Distribution.kind]
    rw [bind_of_eq_ok (weighs ws rfl)]
    exact passed remade
  | geometric x offset =>
    obtain ⟨p, standsFor, slotsEq⟩ := slots_of_single .geometric probabilityKey stands
    have offsetEq : offset = c.offset := begins
    dsimp only [Distribution.kind]
    rw [bind_of_eq_ok slotsEq, real_of_stands (parameter?_first _ _) standsFor,
      ← offsetEq]
    exact passed remade
  | zipf law =>
    obtain ⟨p, q, exponent, ranks, -, slotsEq⟩ :=
      slots_of_pair .zipf exponentKey ranksKey stands
    dsimp only [Distribution.kind]
    rw [bind_of_eq_ok slotsEq,
      bind_of_eq_ok (count_of_stands (parameter?_second (by decide)) ranks),
      real_of_stands (parameter?_first _ _) exponent]
    exact passed remade

end kinds

/-! ### Weights -/

theorem weight_of_stands {x : Float} (stands : p.Stands (.real x))
    (inDomain : Distribution.IsWeight x) : weight p = .ok (.ofFloat x) := by
  unfold weight
  rw [stands.2, Binary64.toFloat_ofFloat]
  exact if_neg inDomain.2

theorem mapM_weight_of_stands {ps : List Parameter} {ws : List Float}
    (stands : List.Forall₂ Parameter.Stands ps (ws.map .real))
    (inDomain : ∀ w ∈ ws, Distribution.IsWeight w) :
    ps.mapM weight = .ok (ws.map Binary64.ofFloat) := by
  induction ws generalizing ps with
  | nil =>
    cases stands
    rfl
  | cons w ws inductionHypothesis =>
    cases stands with
    | cons first others =>
      have rest := inductionHypothesis others
        fun w member => inDomain w (List.mem_cons_of_mem _ member)
      rw [List.mapM_cons, bind_of_eq_ok (weight_of_stands first (inDomain w List.mem_cons_self)),
        bind_of_eq_ok rest]
      rfl

theorem positionalWeights_of_stands {size index : Nat} {ps : List Parameter} {ws : List Float}
    (stands : List.Forall₂ Parameter.Stands ps (ws.map .real))
    (inDomain : ∀ w ∈ ws, Distribution.IsWeight w) (fits : index + ws.length ≤ size) :
    positionalWeights size index ps = .ok (ws.map Binary64.ofFloat) := by
  induction ws generalizing ps index with
  | nil =>
    cases stands
    rfl
  | cons w ws inductionHypothesis =>
    rw [List.length_cons] at fits
    cases stands with
    | cons first others =>
      have rest := @inductionHypothesis (index + 1) _ others
        (fun w member => inDomain w (List.mem_cons_of_mem _ member)) (by omega)
      rw [positionalWeights, bind_of_eq_ok (weight_of_stands first (inDomain w List.mem_cons_self)),
        if_neg (show ¬ size ≤ index by omega), bind_of_eq_ok rest]
      rfl

/-- Weights that are all given are taken as they are. -/
theorem map_getD_map_some (ws : List Binary64) (fallback : Binary64) :
    (ws.map some).map (·.getD fallback) = ws := by
  rw [List.map_map]
  exact List.map_id ws

/-! ### Places -/

/-- On a repeat an annotation resolves to what it denotes, if that begins at the baseline. -/
theorem onRepeat_of_denotes {d : Distribution} {baseline : UInt64} (denotes : Denotes a d)
    (remade : d.remake = .ok d) (begins : d.BeginsAt baseline) : a.onRepeat baseline = .ok d := by
  apply resolve_of_denotes denotes remade begins
  · exact fun n _ size absent => nomatch absent
  · rintro ws rfl
    obtain ⟨-, inDomain, -⟩ := Distribution.valid_of_remake remade
    have noKeys := key_of_stands denotes.stands
    have positionalEq : a.positional.mapM weight = .ok (ws.map Binary64.ofFloat) := by
      rw [positional_of_key noKeys]
      exact mapM_weight_of_stands denotes.stands inDomain
    unfold countWeights
    rw [bind_of_eq_ok positionalEq, named_of_key noKeys]
    exact congrArg Except.ok (map_getD_map_some _ _)

/-- On a class an annotation resolves to what it denotes, if that fits the alphabet. -/
theorem onClass_of_denotes {d : Distribution} {alphabet : Text} (denotes : Denotes a d)
    (remade : d.remake = .ok d) (fits : d.FitsClass alphabet.length) :
    a.onClass alphabet = .ok d := by
  apply resolve_of_denotes denotes remade
  · cases d with
    | geometric => exact fits
    | constant => trivial
    | bernoulli => trivial
    | binomial => trivial
    | categorical => trivial
    | zipf => trivial
  · rintro n rfl size present
    cases present
    exact fits
  · rintro ws rfl
    obtain ⟨-, inDomain, -⟩ := Distribution.valid_of_remake remade
    have sizeEq : ws.length = alphabet.length := fits
    have noKeys := key_of_stands denotes.stands
    have positionalEq : positionalWeights alphabet.length 0 a.positional =
        .ok (ws.map Binary64.ofFloat) := by
      rw [positional_of_key noKeys]
      exact positionalWeights_of_stands denotes.stands inDomain (by omega)
    unfold memberWeights
    rw [bind_of_eq_ok positionalEq, named_of_key noKeys, List.length_map, sizeEq, Nat.sub_self,
      List.replicate_zero, List.append_nil]
    exact congrArg Except.ok (map_getD_map_some _ _)

end Annotation

end PatternSampler
