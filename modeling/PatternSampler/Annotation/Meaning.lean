/-
Module: PatternSampler.Annotation.Meaning
Purpose: The meaning of an annotation at its place. On a repeat, parameters that are left out
  come from the repeat's baseline; on a class, from the size of its alphabet. Parameters
  without a key fill the slots of a distribution in order, and keys name them; weights are
  addressed by repeat counts or by characters.
Main exports: Annotation.onRepeat, Annotation.onClass
-/
import PatternSampler.Numeral.Count
import PatternSampler.Token.Reader

namespace PatternSampler.Annotation

/-- A resolution gives a result or a refusal. -/
abbrev Resolution := Except Refusal

/-- The kind that an annotation names. -/
def kind (a : Annotation) : Resolution Kind :=
  match Kind.ofName? a.name with
  | some kind => .ok kind
  | none => refuse (.unknownDistribution a.name) a.place

/-- A checked distribution; a refusal of its parameters is reported at the annotation. -/
def checked (a : Annotation) (kind : Kind) (d : Except Distribution.ParameterError Distribution) :
    Resolution Distribution :=
  match d with
  | .ok d => .ok d
  | .error error => refuse (.refusedParameters kind error) a.place

/-! ### Slots -/

/-- The slots of a distribution: their keys and the parameters assigned to them. -/
abbrev Slots := List (UInt8 × Option Parameter)

/-- The parameter in the slot with a key. -/
def Slots.parameter? (slots : Slots) (key : UInt8) : Option Parameter :=
  (List.find? (·.1 = key) slots).bind (·.2)

/-- Puts a named parameter into its slot, which has to exist and to be free. -/
def Slots.assign (kind : Kind) (slots : Slots) (key : Key) (p : Parameter) :
    Resolution Slots :=
  if key.escaped ∨ key.byte ∉ slots.map (·.1) then
    refuse (.unknownParameter kind key) p.place
  else if (slots.parameter? key.byte).isSome then refuse (.repeatedParameter kind key) p.place
  else .ok (slots.map fun slot => if slot.1 = key.byte then (slot.1, some p) else slot)

/-- The slots of an annotation: first the parameters without a key in order, then the named
ones. -/
def slots (a : Annotation) (kind : Kind) (keys : List UInt8) : Resolution Slots :=
  match a.positional.drop keys.length with
  | extra :: _ => refuse (.tooManyParameters kind keys.length) extra.place
  | [] =>
    a.named.foldlM (fun slots (key, p) => slots.assign kind key p)
      (keys.mapIdx fun i key => (key, a.positional[i]?))

/-- The real number in a slot, or what stands in for it. -/
def Slots.real (slots : Slots) (key : UInt8) (fallback : Float) : Binary64 :=
  match slots.parameter? key with
  | some p => p.value
  | none => .ofFloat fallback

/-- The count in a slot, or what stands in for it. A count is integral, is not negative and fits
a word; it is read off its spelling. -/
def Slots.count (kind : Kind) (slots : Slots) (key : UInt8) (fallback : UInt64) :
    Resolution UInt64 :=
  match slots.parameter? key with
  | none => .ok fallback
  | some p =>
    if ¬ p.integral then refuse (.notInteger kind key p.spelling) p.place
    else if p.value.toFloat < 0.0 then refuse (.negativeCount kind key p.spelling) p.place
    else
      match Text.leadingCount p.spelling with
      | .ok count => .ok count
      | .error .tooLarge => refuse (.countOutOfRange kind key p.spelling) p.place
      | .error .noDigits => refuse (.unreadableCount kind key p.spelling) p.place

/-! ### Slot keys -/

/-- The key of a value. -/
def valueKey : UInt8 := 0x76

/-- The key of a probability. -/
def probabilityKey : UInt8 := 0x70

/-- The key of a number of trials. -/
def trialsKey : UInt8 := 0x6E

/-- The key of an exponent. -/
def exponentKey : UInt8 := 0x73

/-- The key of a number of ranks. -/
def ranksKey : UInt8 := 0x6B

/-- The order of the two slots of the binomial distribution: a single parameter without a key
is the probability. -/
def binomialSlotKeys (a : Annotation) : List UInt8 :=
  if 2 ≤ a.positional.length then [trialsKey, probabilityKey] else [probabilityKey, trialsKey]

/-! ### Slotted distributions -/

/-- What an annotation takes from its place: the counts that stand in for those left out, the
offset of a geometric distribution, and on a class the number of positions. -/
structure Context where
  value : UInt64
  trials : UInt64
  offset : UInt64
  ranks : UInt64
  positions : Option Nat
deriving DecidableEq, Repr

/-- The value of a constant. On a class it has to be a position. -/
def constantValue (a : Annotation) (c : Context) : Resolution UInt64 := do
  let slots ← a.slots .constant [valueKey]
  let value ← slots.count .constant valueKey c.value
  match c.positions with
  | none => return value
  | some size =>
    if value.toNat < size then return value
    else
      match slots.parameter? valueKey with
      | some p => refuse (.positionOutside value size p.spelling) p.place
      | none => refuse (.positionOutside value size (ascii "~Const")) a.place

/-- The distribution of an annotation, with the weights of its place for the categorical
kind. -/
def resolve (a : Annotation) (c : Context) (weights : Resolution (List Binary64)) :
    Resolution Distribution := do
  let kind ← a.kind
  match kind with
  | .constant => return .constant (← a.constantValue c)
  | .bernoulli =>
    let slots ← a.slots kind [probabilityKey]
    a.checked kind (Distribution.mkBernoulli (slots.real probabilityKey 1.0))
  | .binomial =>
    let slots ← a.slots kind a.binomialSlotKeys
    let trials ← slots.count kind trialsKey c.trials
    a.checked kind (Distribution.mkBinomial trials (slots.real probabilityKey 1.0))
  | .geometric =>
    let slots ← a.slots kind [probabilityKey]
    a.checked kind (Distribution.mkGeometric (slots.real probabilityKey 0.5) c.offset)
  | .zipf =>
    let slots ← a.slots kind [exponentKey, ranksKey]
    let ranks ← slots.count kind ranksKey c.ranks
    a.checked kind (Distribution.mkZipf (slots.real exponentKey 1.0) ranks)
  | .categorical => a.checked kind (Distribution.mkCategorical (← weights))

/-! ### Weights -/

/-- The value of a weight, which must not be negative. -/
def weight (p : Parameter) : Resolution Binary64 :=
  if p.value.toFloat < 0.0 then refuse (.negativeWeight p.spelling) p.place else .ok p.value

/-- Writes into a list of entries, of which some are open; the list grows as needed. -/
def writeAt {α : Type} (entries : List (Option α)) (index : Nat) (a : α) : List (Option α) :=
  (entries ++ List.replicate (index + 1 - entries.length) none).set index (some a)

/-- Puts the weight of a repeat count in its place. The key is a digit. -/
def assignCount (weights : List (Option Binary64)) (key : Key) (p : Parameter) :
    Resolution (List (Option Binary64)) :=
  if key.escaped ∨ ¬ IsDigit key.byte then refuse (.unknownCount key) p.place
  else do
    let value ← weight p
    let index := (key.byte - 0x30).toNat
    if (weights[index]?.join).isSome then refuse (.repeatedCount index key) p.place
    else return writeAt weights index value

/-- Weights of repeat counts, from zero on. Counts that are passed over weigh nothing. -/
def countWeights (a : Annotation) : Resolution (List Binary64) := do
  let positional ← a.positional.mapM weight
  let weights ← a.named.foldlM (fun weights (key, p) => assignCount weights key p)
    (positional.map some)
  return weights.map (·.getD (.ofFloat 0.0))

/-- The weights of the characters of a class while they are collected, and the weight that is
left for the others. -/
structure MemberWeights where
  weights : List (Option Binary64)
  remainder : Option Binary64

/-- Weights without a key, in the order of the alphabet. There may not be more of them than
characters. -/
def positionalWeights (size : Nat) : Nat → List Parameter → Resolution (List Binary64)
  | _, [] => .ok []
  | index, p :: ps => do
    let value ← weight p
    if size ≤ index then refuse (.tooManyWeights size p.spelling) p.place
    else return value :: (← positionalWeights size (index + 1) ps)

/-- Puts a named weight in the place of its character, or aside as the remaining weight. -/
def MemberWeights.assign (alphabet : Text) (collected : MemberWeights) (key : Key)
    (p : Parameter) : Resolution MemberWeights := do
  let value ← weight p
  if key.namesOthers then
    if collected.remainder.isSome then refuse .repeatedRemainder p.place
    else return { collected with remainder := some value }
  else
    match alphabet.idxOf? key.byte with
    | none => refuse (.notMember key) p.place
    | some index =>
      if (collected.weights[index]?.join).isSome then refuse (.repeatedMember key) p.place
      else return { collected with weights := collected.weights.set index (some value) }

/-- The share of every character without a weight of its own: an equal part of the remaining
weight, or of what the others leave of one. -/
def MemberWeights.share (collected : MemberWeights) : Binary64 :=
  let explicit := collected.weights.foldl (fun sum w => match w with
    | some w => sum + w.toFloat
    | none => sum) 0.0
  let unweighted := collected.weights.countP (·.isNone)
  if unweighted = 0 then .ofFloat 0.0
  else
    let left := 1.0 - explicit
    let pool := collected.remainder.getD (.ofFloat (if 0.0 < left then left else 0.0))
    pool.share unweighted

/-- One weight for each character of an alphabet. -/
def memberWeights (a : Annotation) (alphabet : Text) : Resolution (List Binary64) := do
  let positional ← positionalWeights alphabet.length 0 a.positional
  let weights := positional.map some ++ List.replicate (alphabet.length - positional.length) none
  let collected ← a.named.foldlM (fun collected (key, p) => collected.assign alphabet key p)
    (⟨weights, none⟩ : MemberWeights)
  return collected.weights.map (·.getD collected.share)

/-! ### Resolution -/

/-- The distribution of an annotation on a repeat with a baseline: the number the repeat was
written with, or its minimum. -/
def onRepeat (a : Annotation) (baseline : UInt64) : Resolution Distribution :=
  a.resolve ⟨baseline, baseline, baseline, if baseline < 1 then 1 else baseline, none⟩
    a.countWeights

/-- The distribution of an annotation on a class with an alphabet. -/
def onClass (a : Annotation) (alphabet : Text) : Resolution Distribution :=
  let size := UInt64.ofNat alphabet.length
  a.resolve ⟨0, if size = 0 then 0 else size - 1, 0, size, some alphabet.length⟩
    (a.memberWeights alphabet)

end PatternSampler.Annotation
