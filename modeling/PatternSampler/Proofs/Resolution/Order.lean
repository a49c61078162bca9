/-
Module: PatternSampler.Proofs.Resolution.Order
Purpose: The meaning of an annotation does not depend on the order of its named parameters. Each of
  them goes to a place of its own: all of them are put there if and only if each is accepted
  at the beginning and no two have the same place, and then the order does not matter. So
  annotations whose parameters are the same but for their order, with those without a key in the
  same order, have the same meaning or are both refused.
Main exports: Resolution.Agree, Placing, Placing.agree_foldlM, Reorders, Reorders.agree_onRepeat,
  Reorders.agree_onClass, meaning_of_perm
-/
import Mathlib.Data.List.Nodup
import PatternSampler.Proofs.Exceptions.Agreement

namespace PatternSampler.Annotation

/-! ### Resolutions that agree -/

/-- Two resolutions agree: they give the same, or both are refused for what a text means. -/
inductive Resolution.Agree {α : Type} : Resolution α → Resolution α → Prop where
  | given (a : α) : Agree (.ok a) (.ok a)
  | refused {r r' : Refusal} (kind : r.cause.kind = .validation)
    (kind' : r'.cause.kind = .validation) : Agree (.error r) (.error r')

open Resolution

variable {α β τ : Type}

/-- What follows resolutions that agree need only agree on what they give. -/
theorem Resolution.Agree.bind {x y : Resolution α} {f g : α → Resolution β} (first : Agree x y)
    (next : ∀ a, x = .ok a → Agree (f a) (g a)) : Agree (x >>= f) (y >>= g) := by
  cases first with
  | given a => exact next a rfl
  | refused kind kind' => exact .refused kind kind'

theorem Resolution.agree_refuse {cause cause' : Cause} {place place' : Location}
    (kind : cause.kind = .validation) (kind' : cause'.kind = .validation) :
    Agree (refuse cause place : Resolution α) (refuse cause' place') :=
  .refused kind kind'

/-! ### Items with places of their own -/

/-- Each step of a loop puts an item into a place, its target, if the item is accepted, and is
refused otherwise. Once an item is put, its target accepts no other; all other targets
accept what they accepted before. -/
structure Placing (f : β → α → Resolution β) (holds : β → Prop) (accepts : β → α → Prop)
    (put : β → α → β) (target : α → τ) : Prop where
  accepted : ∀ {b a}, accepts b a → f b a = .ok (put b a)
  refused : ∀ {b a}, ¬ accepts b a → ∃ r, f b a = .error r ∧ r.cause.kind = .validation
  kept : ∀ {b a}, holds b → accepts b a → holds (put b a)
  accepts_put : ∀ {b a}, holds b → accepts b a → ∀ a',
    accepts (put b a) a' ↔ accepts b a' ∧ target a ≠ target a'
  put_comm : ∀ {a a'}, target a ≠ target a' → ∀ b, put (put b a) a' = put (put b a') a

/-- Items that are accepted at the beginning, no two of them at the same target. -/
def Fits (accepts : β → α → Prop) (target : α → τ) (b : β) (as : List α) : Prop :=
  (∀ a ∈ as, accepts b a) ∧ (as.map target).Nodup

theorem fits_of_perm {accepts : β → α → Prop} {target : α → τ} {b : β} {as as' : List α}
    (perm : as.Perm as') : Fits accepts target b as ↔ Fits accepts target b as' := by
  unfold Fits
  rw [(perm.map target).nodup_iff]
  simp only [perm.mem_iff]

namespace Placing

variable {f : β → α → Resolution β} {holds : β → Prop} {accepts : β → α → Prop}
  {put : β → α → β} {target : α → τ}

/-- Behind an item that is accepted, the others fit if and only if all of them fit. -/
theorem fits_cons (placing : Placing f holds accepts put target) {b : β} {a : α} {as : List α}
    (start : holds b) (accepted : accepts b a) :
    Fits accepts target b (a :: as) ↔ Fits accepts target (put b a) as := by
  unfold Fits
  simp only [List.forall_mem_cons, List.map_cons, List.nodup_cons, List.mem_map, not_exists,
    not_and, placing.accepts_put start accepted]
  constructor
  · rintro ⟨⟨-, others⟩, fresh, distinct⟩
    exact ⟨fun a' member => ⟨others a' member, fun same => fresh a' member same.symm⟩, distinct⟩
  · rintro ⟨others, distinct⟩
    exact ⟨⟨accepted, fun a' member => (others a' member).1⟩,
      fun a' member same => (others a' member).2 same.symm, distinct⟩

/-- Items that fit are all put. -/
theorem foldlM_of_fits (placing : Placing f holds accepts put target) {b : β} {as : List α}
    (start : holds b) (fits : Fits accepts target b as) : as.foldlM f b = .ok (as.foldl put b) := by
  induction as generalizing b with
  | nil => rfl
  | cons a as inductionHypothesis =>
    have accepted := fits.1 a List.mem_cons_self
    have fitsBehind := (placing.fits_cons start accepted).1 fits
    rw [List.foldlM_cons, placing.accepted accepted]
    exact inductionHypothesis (placing.kept start accepted) fitsBehind

/-- Items that do not fit are refused. -/
theorem foldlM_of_not_fits (placing : Placing f holds accepts put target) {b : β} {as : List α}
    (start : holds b) (unfit : ¬ Fits accepts target b as) :
    ∃ r, as.foldlM f b = .error r ∧ r.cause.kind = .validation := by
  induction as generalizing b with
  | nil => exact absurd ⟨nofun, List.nodup_nil⟩ unfit
  | cons a as inductionHypothesis =>
    rw [List.foldlM_cons]
    by_cases accepted : accepts b a
    · rw [placing.accepted accepted]
      exact inductionHypothesis (placing.kept start accepted)
        (mt (placing.fits_cons start accepted).2 unfit)
    · obtain ⟨r, refused, kind⟩ := placing.refused accepted
      rw [refused]
      exact ⟨r, rfl, kind⟩

/-- The order of the items does not matter. -/
theorem agree_foldlM (placing : Placing f holds accepts put target) {b : β} {as as' : List α}
    (start : holds b) (perm : as.Perm as') : Agree (as.foldlM f b) (as'.foldlM f b) := by
  by_cases fits : Fits accepts target b as
  · have same : as.foldl put b = as'.foldl put b := by
      refine perm.foldl_eq' ?_ b
      intro a member a' member' b
      -- Equal items change places unnoticed; different ones have different targets.
      by_cases equal : a = a'
      · rw [equal]
      · have apart : target a ≠ target a' :=
          fun same => equal (List.inj_on_of_nodup_map fits.2 member member' same)
        exact placing.put_comm apart b
    have fits' := (fits_of_perm perm).1 fits
    rw [placing.foldlM_of_fits start fits, placing.foldlM_of_fits start fits', same]
    exact .given _
  · obtain ⟨r, refused, kind⟩ := placing.foldlM_of_not_fits start fits
    obtain ⟨r', refused', kind'⟩ :=
      placing.foldlM_of_not_fits start (mt (fits_of_perm perm).2 fits)
    rw [refused, refused']
    exact .refused kind kind'

end Placing

/-! ### Slots -/

namespace Slots

/-- The slots with a parameter in the slot of a key. -/
def put (slots : Slots) (key : UInt8) (p : Parameter) : Slots :=
  slots.map fun slot => if slot.1 = key then (slot.1, some p) else slot

variable {slots : Slots} {key key' : UInt8}

theorem map_fst_put (slots : Slots) (key : UInt8) (p : Parameter) :
    (slots.put key p).map (·.1) = slots.map (·.1) := by
  unfold put
  rw [List.map_map]
  congr 1
  funext slot
  dsimp only [Function.comp_apply]
  split
  next => rfl
  next => rfl

theorem put_cons (slot : UInt8 × Option Parameter) (slots : Slots) (key : UInt8) (p : Parameter) :
    put (slot :: slots) key p =
      (if slot.1 = key then (slot.1, some p) else slot) :: put slots key p := rfl

theorem parameter?_cons (slot : UInt8 × Option Parameter) (slots : Slots) (key : UInt8) :
    parameter? (slot :: slots) key = if slot.1 = key then slot.2 else slots.parameter? key := by
  unfold parameter?
  rw [List.find?_cons]
  split
  next same => rw [if_pos (of_decide_eq_true same), Option.bind_some]
  next other => rw [if_neg (of_decide_eq_false other)]

theorem parameter?_put_self (known : key ∈ slots.map (·.1)) (p : Parameter) :
    (slots.put key p).parameter? key = some p := by
  induction slots with
  | nil => cases known
  | cons slot slots inductionHypothesis =>
    rw [put_cons, parameter?_cons]
    by_cases same : slot.1 = key
    · rw [if_pos same, if_pos same]
    · rw [if_neg same, if_neg same]
      exact inductionHypothesis (List.mem_of_ne_of_mem (Ne.symm same) known)

theorem parameter?_put_of_ne (apart : key ≠ key') (slots : Slots) (p : Parameter) :
    (slots.put key p).parameter? key' = slots.parameter? key' := by
  induction slots with
  | nil => rfl
  | cons slot slots inductionHypothesis =>
    rw [put_cons, parameter?_cons, parameter?_cons, inductionHypothesis]
    by_cases same : slot.1 = key
    · have other : slot.1 ≠ key' := same ▸ apart
      rw [if_pos same, if_neg other, if_neg other]
    · rw [if_neg same]

theorem put_comm (apart : key ≠ key') (slots : Slots) (p p' : Parameter) :
    (slots.put key p).put key' p' = (slots.put key' p').put key p := by
  unfold put
  rw [List.map_map, List.map_map]
  congr 1
  funext slot
  dsimp only [Function.comp_apply]
  by_cases same : slot.1 = key
  · have other : slot.1 ≠ key' := same ▸ apart
    rw [if_pos same, if_neg other, if_neg other, if_pos same]
  · rw [if_neg same]
    split
    next => rfl
    next => rfl

end Slots

/-- A named parameter goes to the slot of its key, if there is such a slot and it is free. -/
theorem placing_slots (kind : Kind) :
    Placing (fun (slots : Slots) (entry : Key × Parameter) => slots.assign kind entry.1 entry.2)
      (fun _ => True)
      (fun slots entry => ¬ (entry.1.escaped ∨ entry.1.byte ∉ slots.map (·.1)) ∧
        ¬ (slots.parameter? entry.1.byte).isSome)
      (fun slots entry => slots.put entry.1.byte entry.2)
      (fun entry => entry.1.byte) where
  accepted := by
    rintro slots ⟨key, p⟩ ⟨known, free⟩
    change slots.assign kind key p = _
    rw [Slots.assign, if_neg known, if_neg free]
    rfl
  refused := by
    rintro slots ⟨key, p⟩ notAccepted
    change ∃ r, slots.assign kind key p = .error r ∧ _
    unfold Slots.assign
    split
    next => exact ⟨_, rfl, rfl⟩
    next known =>
      rw [if_pos (not_not.1 fun free => notAccepted ⟨known, free⟩)]
      exact ⟨_, rfl, rfl⟩
  kept _ _ := trivial
  accepts_put := by
    rintro slots ⟨key, p⟩ - ⟨known, -⟩ ⟨key', p'⟩
    have slotted : key.byte ∈ slots.map (·.1) := not_not.1 (not_or.1 known).2
    dsimp only
    rw [Slots.map_fst_put]
    by_cases same : key.byte = key'.byte
    · rw [← same, Slots.parameter?_put_self slotted]
      simp
    · rw [Slots.parameter?_put_of_ne same]
      simp [same]
  put_comm := by
    rintro ⟨key, p⟩ ⟨key', p'⟩ apart slots
    exact slots.put_comm apart p p'

/-! ### Weights of counts -/

section Entries

variable {entries : List (Option α)} {index index' : Nat}

theorem getElem?_writeAt (entries : List (Option α)) (index i : Nat) (a : α) :
    (writeAt entries index a)[i]? =
      if i = index then some (some a)
      else if i < max entries.length (index + 1) then some entries[i]?.join else none := by
  unfold writeAt
  rw [List.getElem?_set]
  grind

theorem join_writeAt (entries : List (Option α)) (index i : Nat) (a : α) :
    (writeAt entries index a)[i]?.join = if i = index then some a else entries[i]?.join := by
  rw [getElem?_writeAt]
  grind

theorem length_writeAt (entries : List (Option α)) (index : Nat) (a : α) :
    (writeAt entries index a).length = max entries.length (index + 1) := by
  unfold writeAt
  grind

/-- Entries at different positions are written in any order. -/
theorem writeAt_comm (apart : index ≠ index') (entries : List (Option α)) (a a' : α) :
    writeAt (writeAt entries index a) index' a' = writeAt (writeAt entries index' a') index a := by
  apply List.ext_getElem?
  intro i
  simp only [getElem?_writeAt, length_writeAt]
  grind

end Entries

/-- A weight that is not negative is taken, and any other is refused. -/
theorem weight_cases (p : Parameter) :
    (p.value.toFloat < 0.0 ∧ ∃ r, weight p = .error r ∧ r.cause.kind = .validation) ∨
      ¬ p.value.toFloat < 0.0 ∧ weight p = .ok p.value := by
  unfold weight
  split
  next negative => exact .inl ⟨negative, _, rfl, rfl⟩
  next notNegative => exact .inr ⟨notNegative, rfl⟩

/-- The repeat count that a digit as a key stands for. -/
def countOf (key : Key) : Nat := (key.byte - 0x30).toNat

/-- A named weight goes to the repeat count of its key, if that is a digit and the count has no
weight yet. -/
theorem placing_counts :
    Placing
      (fun (weights : List (Option Binary64)) (entry : Key × Parameter) =>
        assignCount weights entry.1 entry.2)
      (fun _ => True)
      (fun weights entry => ¬ (entry.1.escaped ∨ ¬ IsDigit entry.1.byte) ∧
        ¬ entry.2.value.toFloat < 0.0 ∧ ¬ (weights[countOf entry.1]?.join).isSome)
      (fun weights entry => writeAt weights (countOf entry.1) entry.2.value)
      (fun entry => countOf entry.1) where
  accepted := by
    rintro weights ⟨key, p⟩ ⟨known, notNegative, free⟩
    change assignCount weights key p = _
    rw [assignCount, if_neg known, weight, if_neg notNegative]
    exact if_neg free
  refused := by
    rintro weights ⟨key, p⟩ notAccepted
    change ∃ r, assignCount weights key p = .error r ∧ _
    unfold assignCount
    split
    next => exact ⟨_, rfl, rfl⟩
    next known =>
      rcases weight_cases p with ⟨-, r, refused, kind⟩ | ⟨notNegative, weighed⟩
      · rw [refused]
        exact ⟨r, rfl, kind⟩
      · rw [weighed]
        have taken := not_not.1 fun free => notAccepted ⟨known, notNegative, free⟩
        exact ⟨_, if_pos taken, rfl⟩
  kept _ _ := trivial
  accepts_put := by
    rintro weights ⟨key, p⟩ - - ⟨key', p'⟩
    dsimp only
    rw [join_writeAt]
    by_cases same : countOf key' = countOf key
    · simp [same]
    · simp [same, Ne.symm same]
  put_comm := by
    rintro ⟨key, p⟩ ⟨key', p'⟩ apart weights
    exact writeAt_comm apart weights p.value p'.value

/-! ### Weights of characters -/

/-- Where a named weight goes on a class: aside, to a character, or nowhere. -/
inductive MemberTarget where
  | others
  | member (index : Nat)
  | missing

namespace MemberWeights

/-- Where the weight with a key goes. -/
def target (alphabet : Text) (key : Key) : MemberTarget :=
  if key.namesOthers then .others
  else
    match alphabet.idxOf? key.byte with
    | some index => .member index
    | none => .missing

/-- Whether a target may be given a weight: it has none yet. -/
def Free (collected : MemberWeights) : MemberTarget → Prop
  | .others => collected.remainder = none
  | .member index => collected.weights[index]?.join = none
  | .missing => False

/-- The weights with a weight at a target. -/
def put (collected : MemberWeights) (w : Binary64) : MemberTarget → MemberWeights
  | .others => { collected with remainder := some w }
  | .member index => { collected with weights := collected.weights.set index (some w) }
  | .missing => collected

variable {alphabet : Text} {collected : MemberWeights} {key : Key} {p : Parameter}

/-- A weight that is not negative is put at its target if that has no weight yet. -/
theorem assign_of_free (notNegative : ¬ p.value.toFloat < 0.0)
    (free : collected.Free (target alphabet key)) :
    collected.assign alphabet key p = .ok (collected.put p.value (target alphabet key)) := by
  unfold assign
  rw [weight, if_neg notNegative]
  change (if key.namesOthers then _ else _) = _
  unfold target at free ⊢
  split at free
  next others =>
    have noRemainder : collected.remainder = none := free
    rw [if_pos others, if_pos others, noRemainder]
    rfl
  next notOthers =>
    rw [if_neg notOthers, if_neg notOthers]
    split at free
    next index found =>
      have noWeight : collected.weights[index]?.join = none := free
      rw [found]
      dsimp only
      rw [noWeight]
      rfl
    next => exact free.elim

/-- Any other weight is refused. -/
theorem exists_refusal_of_not_free
    (notFree : ¬ (¬ p.value.toFloat < 0.0 ∧ collected.Free (target alphabet key))) :
    ∃ r, collected.assign alphabet key p = .error r ∧ r.cause.kind = .validation := by
  unfold assign
  rcases weight_cases p with ⟨-, r, refused, kind⟩ | ⟨notNegative, weighed⟩
  · rw [refused]
    exact ⟨r, rfl, kind⟩
  · rw [weighed]
    have taken : ¬ collected.Free (target alphabet key) := fun free => notFree ⟨notNegative, free⟩
    change ∃ r, (if key.namesOthers then _ else _) = _ ∧ _
    unfold target at taken
    split at taken
    next others =>
      have hasRemainder : collected.remainder ≠ none := taken
      rw [if_pos others, if_pos (Option.isSome_iff_ne_none.2 hasRemainder)]
      exact ⟨_, rfl, rfl⟩
    next notOthers =>
      rw [if_neg notOthers]
      split at taken
      next index found =>
        have hasWeight : collected.weights[index]?.join ≠ none := taken
        rw [found]
        exact ⟨_, if_pos (Option.isSome_iff_ne_none.2 hasWeight), rfl⟩
      next missing =>
        rw [missing]
        exact ⟨_, rfl, rfl⟩

/-- A character of a class has a position in the alphabet. -/
theorem lt_of_target {index : Nat} (goes : target alphabet key = .member index) :
    index < alphabet.length := by
  unfold target at goes
  split at goes
  next => cases goes
  next =>
    split at goes
    next found =>
      cases goes
      exact (List.idxOf?_eq_some_iff.1 found).1
    next => cases goes

/-- A weight takes its own target and leaves the others as they are. -/
theorem free_put {t t' : MemberTarget} (free : collected.Free t)
    (within : ∀ index, t = .member index → index < collected.weights.length) (w : Binary64) :
    (collected.put w t).Free t' ↔ collected.Free t' ∧ t ≠ t' := by
  cases t with
  | others => cases t' with | _ => simp [put, Free]
  | member index =>
    have inside := within index rfl
    cases t' with
    | others => simp [put, Free]
    | member index' =>
      by_cases same : index = index'
      · subst same
        simp [put, Free, inside]
      · simp [put, Free, same]
    | missing => simp [Free]
  | missing => exact free.elim

theorem length_weights_put (collected : MemberWeights) (w : Binary64) (t : MemberTarget) :
    (collected.put w t).weights.length = collected.weights.length := by
  cases t with
  | others => rfl
  | member index => exact List.length_set
  | missing => rfl

/-- Weights at different targets are put in any order. -/
theorem put_comm {t t' : MemberTarget} (apart : t ≠ t') (collected : MemberWeights)
    (w w' : Binary64) : (collected.put w t).put w' t' = (collected.put w' t').put w t := by
  cases t with
  | others =>
    cases t' with
    | others => exact absurd rfl apart
    | member => rfl
    | missing => rfl
  | member index =>
    cases t' with
    | others => rfl
    | member index' =>
      have positions : index ≠ index' := fun same => apart (congrArg _ same)
      simp only [put, List.set_comm _ _ positions]
    | missing => rfl
  | missing => cases t' with | _ => rfl

end MemberWeights

/-- A named weight goes to the character of its key, or aside for all other characters. -/
theorem placing_members (alphabet : Text) :
    Placing
      (fun (collected : MemberWeights) (entry : Key × Parameter) =>
        collected.assign alphabet entry.1 entry.2)
      (fun collected => collected.weights.length = alphabet.length)
      (fun collected entry => ¬ entry.2.value.toFloat < 0.0 ∧
        collected.Free (MemberWeights.target alphabet entry.1))
      (fun collected entry =>
        collected.put entry.2.value (MemberWeights.target alphabet entry.1))
      (fun entry => MemberWeights.target alphabet entry.1) where
  accepted accepted := MemberWeights.assign_of_free accepted.1 accepted.2
  refused notAccepted := MemberWeights.exists_refusal_of_not_free notAccepted
  kept := by
    rintro collected ⟨key, p⟩ complete -
    rw [← complete]
    exact MemberWeights.length_weights_put collected p.value _
  accepts_put := by
    rintro collected ⟨key, p⟩ complete ⟨-, free⟩ ⟨key', p'⟩
    have within : ∀ index, MemberWeights.target alphabet key = .member index →
        index < collected.weights.length := by
      -- A weight that was set behind the last character would be lost.
      intro index found
      rw [complete]
      exact MemberWeights.lt_of_target found
    rw [MemberWeights.free_put free within, and_assoc]
  put_comm apart collected := MemberWeights.put_comm apart collected _ _

/-! ### Annotations with their parameters in another order -/

/-- Two annotations have the same name and the same parameters, perhaps in another order; only the
parameters without a key are in the same order. -/
structure Reorders (a b : Annotation) : Prop where
  name : a.name = b.name
  perm : a.parameters.Perm b.parameters
  positional : a.positional = b.positional

/-- A resolution agrees with itself if it is refused only for what a text means. -/
theorem agree_weight (p : Parameter) : Agree (weight p) (weight p) := by
  rcases weight_cases p with ⟨-, r, refused, kind⟩ | ⟨-, weighed⟩
  · rw [refused]
    exact .refused kind kind
  · rw [weighed]
    exact .given _

theorem agree_mapM_weight (ps : List Parameter) : Agree (ps.mapM weight) (ps.mapM weight) := by
  induction ps with
  | nil => exact .given _
  | cons p ps inductionHypothesis =>
    rw [List.mapM_cons]
    exact (agree_weight p).bind fun _ _ => inductionHypothesis.bind fun _ _ => .given _

theorem agree_positionalWeights (size index : Nat) (ps : List Parameter) :
    Agree (positionalWeights size index ps) (positionalWeights size index ps) := by
  induction ps generalizing index with
  | nil => exact .given _
  | cons p ps inductionHypothesis =>
    unfold positionalWeights
    refine (agree_weight p).bind fun value _ => ?_
    split
    next => exact agree_refuse rfl rfl
    next => exact (inductionHypothesis _).bind fun _ _ => .given _

theorem agree_count (kind : Kind) (slots : Slots) (key : UInt8) (fallback : UInt64) :
    Agree (slots.count kind key fallback) (slots.count kind key fallback) := by
  unfold Slots.count
  split
  next => exact .given _
  next =>
    split
    next => exact agree_refuse rfl rfl
    next =>
      split
      next => exact agree_refuse rfl rfl
      next =>
        split
        next => exact .given _
        next => exact agree_refuse rfl rfl
        next => exact agree_refuse rfl rfl

theorem agree_checked (a b : Annotation) (kind : Kind)
    (d : Except Distribution.ParameterError Distribution) :
    Agree (a.checked kind d) (b.checked kind d) := by
  cases d with
  | ok d => exact .given d
  | error error => exact agree_refuse rfl rfl

namespace Reorders

variable {a b : Annotation} (reorders : Reorders a b)

include reorders

theorem named_perm : a.named.Perm b.named := reorders.perm.filterMap _

theorem agree_kind : Agree a.kind b.kind := by
  unfold Annotation.kind
  rw [reorders.name]
  split
  next => exact .given _
  next => exact agree_refuse rfl rfl

theorem binomialSlotKeys_eq : a.binomialSlotKeys = b.binomialSlotKeys := by
  rw [binomialSlotKeys, binomialSlotKeys, reorders.positional]

theorem agree_slots (kind : Kind) (keys : List UInt8) :
    Agree (a.slots kind keys) (b.slots kind keys) := by
  unfold Annotation.slots
  rw [reorders.positional]
  split
  next => exact agree_refuse rfl rfl
  next => exact (placing_slots kind).agree_foldlM trivial reorders.named_perm

theorem agree_constantValue (c : Context) : Agree (a.constantValue c) (b.constantValue c) := by
  refine (reorders.agree_slots _ _).bind fun slots _ => ?_
  refine (agree_count _ slots _ _).bind fun value _ => ?_
  split
  next => exact .given _
  next =>
    split
    next => exact .given _
    next =>
      split
      next => exact agree_refuse rfl rfl
      next => exact agree_refuse rfl rfl

theorem agree_countWeights : Agree a.countWeights b.countWeights := by
  unfold countWeights
  rw [reorders.positional]
  refine (agree_mapM_weight _).bind fun positional _ => ?_
  exact (placing_counts.agree_foldlM trivial reorders.named_perm).bind fun _ _ => .given _

theorem agree_memberWeights (alphabet : Text) :
    Agree (a.memberWeights alphabet) (b.memberWeights alphabet) := by
  unfold memberWeights
  rw [reorders.positional]
  refine (agree_positionalWeights _ _ _).bind fun positional weighed => ?_
  -- The named weights go to what the positional ones, the same in both, leave open.
  have placed := (placing_members alphabet).agree_foldlM
    (b := ⟨positional.map some ++ List.replicate (alphabet.length - positional.length) none, none⟩)
    (length_positional_append_open weighed) reorders.named_perm
  exact placed.bind fun _ _ => .given _

/-- Resolution has one case for each kind. -/
theorem agree_resolve (c : Context) {weights weights' : Resolution (List Binary64)}
    (agree : Agree weights weights') : Agree (a.resolve c weights) (b.resolve c weights') := by
  refine reorders.agree_kind.bind fun kind _ => ?_
  cases kind with
  | constant => exact (reorders.agree_constantValue c).bind fun _ _ => .given _
  | bernoulli =>
    exact (reorders.agree_slots _ _).bind fun slots _ => agree_checked a b _ _
  | binomial =>
    rw [reorders.binomialSlotKeys_eq]
    refine (reorders.agree_slots _ _).bind fun slots _ => ?_
    exact (agree_count _ slots _ _).bind fun trials _ => agree_checked a b _ _
  | geometric =>
    exact (reorders.agree_slots _ _).bind fun slots _ => agree_checked a b _ _
  | zipf =>
    refine (reorders.agree_slots _ _).bind fun slots _ => ?_
    exact (agree_count _ slots _ _).bind fun ranks _ => agree_checked a b _ _
  | categorical => exact agree.bind fun _ _ => agree_checked a b _ _

theorem agree_onRepeat (baseline : UInt64) : Agree (a.onRepeat baseline) (b.onRepeat baseline) :=
  reorders.agree_resolve _ reorders.agree_countWeights

theorem agree_onClass (alphabet : Text) : Agree (a.onClass alphabet) (b.onClass alphabet) :=
  reorders.agree_resolve _ (reorders.agree_memberWeights alphabet)

end Reorders

/-! ### Annotations that were read -/

/-- An annotation that was read means the same whatever the order of its parameters, if only those
without a key keep their order: on every repeat and on every class both annotations give the
same distribution, or both are refused for what they mean. Nothing else comes of them, though
every operation that may fail is called for what it is. -/
theorem meaning_of_perm {finish : Location} {ts : List Token}
    {note : Span (Option Annotation) ts} {a : Annotation} {ps : List Parameter}
    (read : readOptional finish ts = .ok note) (present : note.value = some a)
    (perm : a.parameters.Perm ps) (inOrder : ps.filter (·.key.isNone) = a.positional) :
    let b : Annotation := { a with parameters := ps }
    (∀ baseline, Agree (a.onRepeat baseline) (b.onRepeat baseline) ∧
      Strict.onRepeat a baseline = Strict.refused (a.onRepeat baseline) ∧
      Strict.onRepeat b baseline = Strict.refused (b.onRepeat baseline)) ∧
    ∀ alphabet, Agree (a.onClass alphabet) (b.onClass alphabet) ∧
      Strict.onClass a alphabet = Strict.refused (a.onClass alphabet) ∧
      Strict.onClass b alphabet = Strict.refused (b.onClass alphabet) := by
  intro b
  have reorders : Reorders a b := ⟨rfl, perm, inOrder.symm⟩
  have countable := Strict.countable_of_readOptional read a present
  have countable' : ∀ p ∈ b.parameters, p.Countable :=
    fun p member => countable p (perm.mem_iff.2 member)
  refine ⟨fun baseline => ?_, fun alphabet => ?_⟩
  · exact ⟨reorders.agree_onRepeat baseline, Strict.onRepeat_eq countable baseline,
      Strict.onRepeat_eq countable' baseline⟩
  · exact ⟨reorders.agree_onClass alphabet, Strict.onClass_eq countable alphabet,
      Strict.onClass_eq countable' alphabet⟩

theorem meaning_of_perm_cat :
    let digit (key : Option Key) (d : UInt8) (offset : Nat) : Parameter :=
      .ofNumeral key ⟨false, [d], none, none⟩ ⟨offset, 1, offset + 1⟩
    let one := digit none 0x31 5
    let two := digit (some ⟨0x62, false⟩) 0x32 7
    let three := digit (some ⟨0x63, false⟩) 0x33 11
    let a : Annotation := ⟨ascii "Cat", ⟨0, 1, 1⟩, [one, two, three]⟩
    let b : Annotation := ⟨ascii "Cat", ⟨0, 1, 1⟩, [three, one, two]⟩
    (∃ note : Span _ _, readOptional ⟨15, 1, 16⟩ (Cursor.ofText (ascii "~Cat(1,b=2,c=3)")).scan.1 =
      .ok note ∧ note.value = some a) ∧
    a.parameters.Perm b.parameters ∧ b.positional = a.positional ∧
    Agree (a.onClass (ascii "abc")) (b.onClass (ascii "abc")) ∧
    Agree (a.onRepeat 2) (b.onRepeat 2) := by
  intro digit one two three a b
  have parsed : ((readOptional ⟨15, 1, 16⟩
      (Cursor.ofText (ascii "~Cat(1,b=2,c=3)")).scan.1).toOption.bind (·.value)) = some a := by
    decide +kernel
  have perm : a.parameters.Perm b.parameters := by decide +kernel
  have inOrder : b.positional = a.positional := by decide +kernel
  cases read : readOptional ⟨15, 1, 16⟩ (Cursor.ofText (ascii "~Cat(1,b=2,c=3)")).scan.1 with
  | error r =>
    rw [read] at parsed
    cases parsed
  | ok note =>
    rw [read] at parsed
    have present : note.value = some a := parsed
    obtain ⟨onRepeat, onClass⟩ := meaning_of_perm read present perm inOrder
    exact ⟨⟨note, rfl, present⟩, perm, inOrder, (onClass _).1, (onRepeat _).1⟩

end PatternSampler.Annotation
