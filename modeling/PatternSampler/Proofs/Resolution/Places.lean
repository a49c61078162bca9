/-
Module: PatternSampler.Proofs.Resolution.Places
Purpose: The meaning of an annotation does not depend on where its parts are written. If the
  annotation and its parameters are moved to other places, the same distribution comes out,
  or the same refusal at the place its part was moved to. So a refusal is always found at the
  annotation or at one of its parameters: a move that leaves these where they are leaves
  the refusal where it is.
Main exports: Annotation.move, Resolution.move, Annotation.onRepeat_move, Annotation.onClass_move,
  Annotation.place_mem_of_onRepeat, Annotation.place_mem_of_onClass
-/
import PatternSampler.Annotation.Meaning

namespace PatternSampler

variable (g : Location → Location)

/-! ### Moves -/

/-- A parameter at another place. -/
def Parameter.move (p : Parameter) : Parameter := { p with place := g p.place }

/-- An annotation at another place, and its parameters with it. -/
def Annotation.move (a : Annotation) : Annotation :=
  ⟨a.name, g a.place, a.parameters.map (·.move g)⟩

/-- A refusal at another place. -/
def Refusal.move (r : Refusal) : Refusal := ⟨r.cause, g r.place⟩

namespace Annotation

/-- What a resolution comes to at other places; its value moves in a way of its own. -/
def Resolution.move {α β : Type} (σ : α → β) : Resolution α → Resolution β
  | .ok a => .ok (σ a)
  | .error r => .error (r.move g)

/-- Slots with moved parameters. -/
def Slots.move (slots : Slots) : Slots := slots.map fun slot => (slot.1, slot.2.map (·.move g))

variable {g} {α β γ δ : Type}

theorem Resolution.move_bind {x : Resolution α} {f : α → Resolution β} {f' : γ → Resolution δ}
    {σ : α → γ} {τ : β → δ} (moves : ∀ a, f' (σ a) = Resolution.move g τ (f a)) :
    Resolution.move g σ x >>= f' = Resolution.move g τ (x >>= f) := by
  cases x with
  | error r => rfl
  | ok a => exact moves a

theorem Resolution.move_foldlM {f : β → α → Resolution β} {f' : δ → γ → Resolution δ}
    {σ : α → γ} {τ : β → δ} (moves : ∀ b a, f' (τ b) (σ a) = Resolution.move g τ (f b a))
    (as : List α) (b : β) :
    (as.map σ).foldlM f' (τ b) = Resolution.move g τ (as.foldlM f b) := by
  induction as generalizing b with
  | nil => rfl
  | cons a as inductionHypothesis =>
    rw [List.map_cons, List.foldlM_cons, List.foldlM_cons, moves]
    exact Resolution.move_bind inductionHypothesis

/-- The same for a state that nothing moves. -/
theorem Resolution.move_foldlM_id {f : β → α → Resolution β} {f' : β → γ → Resolution β}
    {σ : α → γ} (moves : ∀ b a, f' b (σ a) = Resolution.move g id (f b a)) (as : List α) (b : β) :
    (as.map σ).foldlM f' b = Resolution.move g id (as.foldlM f b) :=
  Resolution.move_foldlM moves as b

/-! ### Parameters and slots -/

theorem positional_move (a : Annotation) :
    (a.move g).positional = a.positional.map (·.move g) := by
  unfold positional move
  rw [List.filter_map]
  rfl

theorem named_move (a : Annotation) :
    (a.move g).named = a.named.map fun entry => (entry.1, entry.2.move g) := by
  unfold named move
  rw [List.filterMap_map, List.map_filterMap]
  congr 1
  funext p
  change p.key.map (·, p.move g) = _
  rw [Option.map_map]
  rfl

theorem Slots.parameter?_move (slots : Slots) (key : UInt8) :
    (slots.move g).parameter? key = (slots.parameter? key).map (·.move g) := by
  unfold Slots.parameter? Slots.move
  rw [List.find?_map, Option.bind_map, Option.map_bind]
  rfl

theorem Slots.keys_move (slots : Slots) : (slots.move g).map (·.1) = slots.map (·.1) := by
  unfold Slots.move
  rw [List.map_map]
  rfl

theorem Slots.assign_move (kind : Kind) (slots : Slots) (key : Key) (p : Parameter) :
    (slots.move g).assign kind key (p.move g) =
      Resolution.move g (Slots.move g) (slots.assign kind key p) := by
  unfold Slots.assign
  rw [Slots.keys_move, Slots.parameter?_move, Option.isSome_map]
  split
  next => rfl
  next =>
    split
    next => rfl
    next =>
      change Except.ok _ = Except.ok _
      unfold Slots.move
      rw [List.map_map, List.map_map]
      congr 2
      funext slot
      dsimp only [Function.comp_apply]
      split
      next => rfl
      next => rfl

theorem slots_move (a : Annotation) (kind : Kind) (keys : List UInt8) :
    (a.move g).slots kind keys = Resolution.move g (Slots.move g) (a.slots kind keys) := by
  have start : (keys.mapIdx fun i key => (key, (a.move g).positional[i]?) : Slots) =
      Slots.move g (keys.mapIdx fun i key => (key, a.positional[i]?)) := by
    apply List.ext_getElem?
    intro i
    simp only [Slots.move, positional_move, List.getElem?_mapIdx, List.getElem?_map,
      Option.map_map, Function.comp_def]
  unfold slots
  rw [start, positional_move, ← List.map_drop]
  cases a.positional.drop keys.length with
  | cons extra others => rfl
  | nil =>
    rw [List.map_nil, named_move]
    exact Resolution.move_foldlM (fun slots entry => Slots.assign_move kind slots entry.1 entry.2)
      _ _

theorem Slots.real_move (slots : Slots) (key : UInt8) (fallback : Float) :
    (slots.move g).real key fallback = slots.real key fallback := by
  unfold Slots.real
  rw [Slots.parameter?_move]
  cases slots.parameter? key with
  | none => rfl
  | some p => rfl

theorem Slots.count_move (kind : Kind) (slots : Slots) (key : UInt8) (fallback : UInt64) :
    (slots.move g).count kind key fallback =
      Resolution.move g id (slots.count kind key fallback) := by
  unfold Slots.count
  rw [Slots.parameter?_move]
  cases slots.parameter? key with
  | none => rfl
  | some p =>
    dsimp only [Option.map_some, Parameter.move]
    split
    next => rfl
    next =>
      split
      next => rfl
      next =>
        split
        next => rfl
        next => rfl
        next => rfl

/-! ### Distributions with slots -/

theorem kind_move (a : Annotation) : (a.move g).kind = Resolution.move g id a.kind := by
  unfold kind
  rw [show (a.move g).name = a.name from rfl]
  cases Kind.ofName? a.name with
  | none => rfl
  | some kind => rfl

theorem checked_move (a : Annotation) (kind : Kind)
    (d : Except Distribution.ParameterError Distribution) :
    (a.move g).checked kind d = Resolution.move g id (a.checked kind d) := by
  cases d with
  | error error => rfl
  | ok d => rfl

theorem binomialSlotKeys_move (a : Annotation) :
    (a.move g).binomialSlotKeys = a.binomialSlotKeys := by
  unfold binomialSlotKeys
  rw [positional_move, List.length_map]

theorem constantValue_move (a : Annotation) (c : Context) :
    (a.move g).constantValue c = Resolution.move g id (a.constantValue c) := by
  unfold constantValue
  rw [slots_move]
  refine Resolution.move_bind fun slots => ?_
  rw [Slots.count_move]
  refine Resolution.move_bind fun value => ?_
  cases c.positions with
  | none => rfl
  | some size =>
    dsimp only [id_eq]
    rw [Slots.parameter?_move]
    split
    next => rfl
    next =>
      cases slots.parameter? valueKey with
      | none => rfl
      | some p => rfl

theorem resolve_move (a : Annotation) (c : Context) {weights : Resolution (List Binary64)} :
    (a.move g).resolve c (Resolution.move g id weights) =
      Resolution.move g id (a.resolve c weights) := by
  unfold resolve
  rw [kind_move]
  refine Resolution.move_bind fun kind => ?_
  cases kind with
  | constant =>
    dsimp only [id_eq]
    rw [constantValue_move]
    exact Resolution.move_bind fun value => rfl
  | bernoulli =>
    dsimp only [id_eq]
    rw [slots_move]
    refine Resolution.move_bind fun slots => ?_
    rw [Slots.real_move]
    exact checked_move a _ _
  | binomial =>
    dsimp only [id_eq]
    rw [slots_move, binomialSlotKeys_move]
    refine Resolution.move_bind fun slots => ?_
    rw [Slots.count_move]
    refine Resolution.move_bind fun trials => ?_
    rw [Slots.real_move]
    exact checked_move a _ _
  | geometric =>
    dsimp only [id_eq]
    rw [slots_move]
    refine Resolution.move_bind fun slots => ?_
    rw [Slots.real_move]
    exact checked_move a _ _
  | zipf =>
    dsimp only [id_eq]
    rw [slots_move]
    refine Resolution.move_bind fun slots => ?_
    rw [Slots.count_move]
    refine Resolution.move_bind fun ranks => ?_
    rw [Slots.real_move]
    exact checked_move a _ _
  | categorical => exact Resolution.move_bind fun weights => checked_move a _ _

/-! ### Weights -/

theorem weight_move (p : Parameter) :
    weight (p.move g) = Resolution.move g id (weight p) := by
  unfold weight
  change (if p.value.toFloat < 0.0 then _ else _) = _
  by_cases negative : p.value.toFloat < 0.0
  · rw [if_pos negative, if_pos negative]
    rfl
  · rw [if_neg negative, if_neg negative]
    rfl

theorem mapM_weight_move (ps : List Parameter) :
    (ps.map (·.move g)).mapM weight = Resolution.move g id (ps.mapM weight) := by
  induction ps with
  | nil => rfl
  | cons p ps inductionHypothesis =>
    rw [List.map_cons, List.mapM_cons, List.mapM_cons, weight_move]
    refine Resolution.move_bind fun value => ?_
    rw [inductionHypothesis]
    exact Resolution.move_bind fun values => rfl

theorem assignCount_move (weights : List (Option Binary64)) (key : Key) (p : Parameter) :
    assignCount weights key (p.move g) = Resolution.move g id (assignCount weights key p) := by
  unfold assignCount
  split
  next => rfl
  next =>
    rw [weight_move]
    refine Resolution.move_bind fun value => ?_
    dsimp only [id_eq]
    split
    next => rfl
    next => rfl

theorem countWeights_move (a : Annotation) :
    (a.move g).countWeights = Resolution.move g id a.countWeights := by
  unfold countWeights
  rw [positional_move, mapM_weight_move, named_move]
  refine Resolution.move_bind fun positional => ?_
  rw [id_eq, Resolution.move_foldlM_id fun weights (entry : Key × Parameter) =>
    assignCount_move weights entry.1 entry.2]
  exact Resolution.move_bind fun weights => rfl

theorem positionalWeights_move (size index : Nat) (ps : List Parameter) :
    positionalWeights size index (ps.map (·.move g)) =
      Resolution.move g id (positionalWeights size index ps) := by
  induction ps generalizing index with
  | nil => rfl
  | cons p ps inductionHypothesis =>
    rw [List.map_cons, positionalWeights, positionalWeights, weight_move]
    refine Resolution.move_bind fun value => ?_
    dsimp only [id_eq]
    split
    next => rfl
    next =>
      rw [inductionHypothesis]
      exact Resolution.move_bind fun values => rfl

theorem MemberWeights.assign_move (alphabet : Text) (collected : MemberWeights) (key : Key)
    (p : Parameter) :
    collected.assign alphabet key (p.move g) =
      Resolution.move g id (collected.assign alphabet key p) := by
  unfold MemberWeights.assign
  rw [weight_move]
  refine Resolution.move_bind fun value => ?_
  dsimp only [id_eq]
  split
  next =>
    split
    next => rfl
    next => rfl
  next =>
    split
    next => rfl
    next =>
      split
      next => rfl
      next => rfl

theorem memberWeights_move (a : Annotation) (alphabet : Text) :
    (a.move g).memberWeights alphabet = Resolution.move g id (a.memberWeights alphabet) := by
  unfold memberWeights
  rw [positional_move, positionalWeights_move, named_move]
  refine Resolution.move_bind fun positional => ?_
  dsimp only [id_eq]
  rw [Resolution.move_foldlM_id fun collected (entry : Key × Parameter) =>
    MemberWeights.assign_move alphabet collected entry.1 entry.2]
  exact Resolution.move_bind fun collected => rfl

/-! ### Meanings -/

/-- On a repeat a moved annotation means the same. -/
theorem onRepeat_move (a : Annotation) (baseline : UInt64) :
    (a.move g).onRepeat baseline = Resolution.move g id (a.onRepeat baseline) := by
  unfold onRepeat
  rw [countWeights_move]
  exact resolve_move a _

/-- On a class a moved annotation means the same. -/
theorem onClass_move (a : Annotation) (alphabet : Text) :
    (a.move g).onClass alphabet = Resolution.move g id (a.onClass alphabet) := by
  unfold onClass
  rw [memberWeights_move]
  exact resolve_move a _

/-- A moved annotation stands for the distribution that it stood for. -/
theorem onRepeat_move_of_ok {a : Annotation} {baseline : UInt64} {d : Distribution}
    (means : a.onRepeat baseline = .ok d) : (a.move g).onRepeat baseline = .ok d := by
  rw [onRepeat_move, means]
  rfl

theorem onClass_move_of_ok {a : Annotation} {alphabet : Text} {d : Distribution}
    (means : a.onClass alphabet = .ok d) : (a.move g).onClass alphabet = .ok d := by
  rw [onClass_move, means]
  rfl

/-! ### Places of refusals -/

/-- The places of an annotation and of its parameters. -/
def places (a : Annotation) : List Location := a.place :: a.parameters.map (·.place)

theorem move_eq_self {a : Annotation} (fixed : ∀ q ∈ a.places, g q = q) : a.move g = a := by
  obtain ⟨fixedPlace, fixedParameters⟩ := List.forall_mem_cons.1 fixed
  have parametersEq : a.parameters.map (·.move g) = a.parameters := by
    rw [List.map_congr_left fun p member => ?_, List.map_id]
    change { p with place := g p.place } = p
    rw [fixedParameters p.place (List.mem_map_of_mem member)]
  unfold move
  rw [fixedPlace, parametersEq]

/-- A meaning that does not depend on places refuses at a place of the annotation: a move that
changes the place of the refusal alone would change the outcome, but not the annotation. -/
theorem place_mem_of_move (meaning : Annotation → Resolution α)
    (natural : ∀ (g : Location → Location) (a : Annotation),
      meaning (a.move g) = Resolution.move g id (meaning a))
    {a : Annotation} {r : Refusal} (refused : meaning a = .error r) : r.place ∈ a.places := by
  apply Decidable.byContradiction
  intro elsewhere
  let aside : Location → Location := fun q =>
    if q = r.place then ⟨q.offset + 1, q.line, q.column⟩ else q
  have fixed : a.move aside = a := by
    apply move_eq_self
    intro q member
    apply if_neg
    rintro rfl
    exact elsewhere member
  have moved := natural aside a
  rw [fixed, refused] at moved
  have placeEq : r.place = aside r.place := congrArg Refusal.place (Except.error.inj moved)
  rw [show aside r.place = _ from if_pos rfl] at placeEq
  have offsetEq := congrArg Location.offset placeEq
  exact absurd offsetEq (Nat.ne_of_lt (Nat.lt_succ_self _))

theorem place_mem_of_onRepeat {a : Annotation} {baseline : UInt64} {r : Refusal}
    (refused : a.onRepeat baseline = .error r) : r.place ∈ a.places :=
  place_mem_of_move (·.onRepeat baseline) (fun _ a => onRepeat_move a baseline) refused

theorem place_mem_of_onClass {a : Annotation} {alphabet : Text} {r : Refusal}
    (refused : a.onClass alphabet = .error r) : r.place ∈ a.places :=
  place_mem_of_move (·.onClass alphabet) (fun _ a => onClass_move a alphabet) refused

end Annotation

end PatternSampler
