/-
Module: PatternSampler.Proofs.Doubles
Purpose: Doubles and their bit patterns. A double is determined by its pattern, a finite one has
  a magnitude below that of infinity, and comparisons with zero can be read off the sign. Doubles
  of one sign are equal only if their patterns are.
  Zeros add up to zero, and doubles below a bound are cut off to words below it.
Main exports: Binary64.toFloat_ofFloat, Binary64.magnitude_ofFloat_lt,
  Binary64.not_toFloat_lt_zero, Binary64.toFloat_lt_zero, Binary64.beq_self_of_isFinite,
  Binary64.beq_toFloat_iff, Binary64.le_iff_beq_of_not_lt,
  Binary64.zero_add_of_zero, Binary64.zero_lt_of_not_le, Binary64.toNat_toUInt64_le
-/
import Mathlib
import PatternSampler.Binary64

namespace PatternSampler.Binary64

open Float.Model (Format UnpackedFloat)
open Float.Model.UnpackedFloat

/-! ### Fields of a pattern -/

theorem toBitVec_ofBitVec (b : BitVec 1) : (Sign.ofBitVec b).toBitVec = b := by
  revert b
  decide

theorem toNat_unpackMantissa (b : BitVec Format.binary64.numBits) :
    (unpackMantissa b).toNat = b.toNat % 2 ^ 52 := by
  simp [unpackMantissa]

theorem toNat_unpackExponent (b : BitVec Format.binary64.numBits) :
    (unpackExponent b).toNat = b.toNat / 2 ^ 52 % 2 ^ 11 := by
  simp [unpackExponent, Nat.shiftRight_eq_div_pow]

theorem toNat_unpackSign (b : BitVec Format.binary64.numBits) :
    (unpackSign b).toNat = b.toNat / 2 ^ 63 := by
  have small : b.toNat < 2 ^ 64 := b.isLt
  simp [unpackSign, Nat.shiftRight_eq_div_pow]
  omega

theorem toNat_packComponents (sign : Sign) (exponent : BitVec 11) (mantissa : BitVec 52) :
    (packComponents Format.binary64 sign exponent mantissa).toNat =
      sign.toBitVec.toNat * 2 ^ 63 + exponent.toNat * 2 ^ 52 + mantissa.toNat := by
  have m : mantissa.toNat < 2 ^ 52 := mantissa.isLt
  have e : exponent.toNat < 2 ^ 11 := exponent.isLt
  simp only [packComponents, BitVec.toNat_append]
  rw [← Nat.shiftLeft_add_eq_or_of_lt m, ← Nat.shiftLeft_add_eq_or_of_lt e]
  simp only [Nat.shiftLeft_eq]
  omega

/-- A pattern is put together from its three fields. -/
theorem packComponents_unpack (b : BitVec Format.binary64.numBits) :
    packComponents Format.binary64 (Sign.ofBitVec (unpackSign b)) (unpackExponent b)
      (unpackMantissa b) = b := by
  apply BitVec.eq_of_toNat_eq
  have small : b.toNat < 2 ^ 64 := b.isLt
  rw [toNat_packComponents, toBitVec_ofBitVec, toNat_unpackSign, toNat_unpackExponent,
    toNat_unpackMantissa]
  omega

/-- A significand without the leading bit is packed behind an exponent of zero. -/
theorem pack_subnormal (sign : Sign) (mantissa : BitVec 52) (positive : 0 < mantissa.toNat) :
    pack Format.binary64 (.finite sign mantissa.toNat (-1074) positive) =
      packComponents Format.binary64 sign 0#11 mantissa := by
  have bits : mantissa.toNat.log2 < 52 := (Nat.log2_lt (by omega)).2 mantissa.isLt
  have notNormal : ¬ mantissa.toNat.log2 + 1 = Format.binary64.mantissaBits := by
    change ¬ mantissa.toNat.log2 + 1 = 53
    omega
  simp only [pack, notNormal, if_false]
  rw [if_neg (by decide), BitVec.ofNat_toNat, BitVec.setWidth_eq]

/-- A significand with the leading bit is packed without it, behind its exponent. -/
theorem pack_normal (sign : Sign) (exponent : BitVec 11) (mantissa : BitVec 52)
    (finite : exponent.toNat < 2047) (positive : 0 < 2 ^ 52 + mantissa.toNat) :
    pack Format.binary64 (.finite sign (2 ^ 52 + mantissa.toNat) (exponent.toNat - 1075) positive) =
      packComponents Format.binary64 sign exponent mantissa := by
  have mantissaLt : mantissa.toNat < 2 ^ 52 := mantissa.isLt
  have bits : (2 ^ 52 + mantissa.toNat).log2 = 52 :=
    (Nat.log2_eq_iff (by omega)).2 ⟨by omega, by omega⟩
  have biased : ((exponent.toNat : Int) - 1075 + Format.binary64.exponentBias +
      Format.binary64.mantissaBitsWithoutImplicit).toNat = exponent.toNat := by
    change ((exponent.toNat : Int) - 1075 + 1023 + 52).toNat = exponent.toNat
    omega
  have inRange : ¬ 2 ^ Format.binary64.exponentBits ≤ exponent.toNat + 1 := by
    change ¬ 2048 ≤ exponent.toNat + 1
    omega
  have withoutLeading : BitVec.ofNat 52 (2 ^ 52 + mantissa.toNat) = mantissa := by
    apply BitVec.eq_of_toNat_eq
    simp only [BitVec.toNat_ofNat]
    omega
  simp only [pack, biased, inRange, if_false, bits]
  rw [if_pos (show 52 + 1 = Format.binary64.mantissaBits from rfl), withoutLeading,
    BitVec.ofNat_toNat, BitVec.setWidth_eq]

theorem toNat_one_append (mantissa : BitVec 52) :
    (1#1 ++ mantissa).toNat = 2 ^ 52 + mantissa.toNat := by
  rw [BitVec.toNat_append, ← Nat.shiftLeft_add_eq_or_of_lt mantissa.isLt, Nat.shiftLeft_eq]
  rfl

/-- Unpacking a pattern and packing it again gives the pattern. -/
theorem pack_unpack {b : BitVec Format.binary64.numBits} (valid : Format.binary64.Valid b) :
    pack Format.binary64 (unpack Format.binary64 b) = b := by
  have fields := packComponents_unpack b
  have exponentLt : (unpackExponent b).toNat < 2 ^ 11 := (unpackExponent b).isLt
  have mantissaLt : (unpackMantissa b).toNat < 2 ^ 52 := (unpackMantissa b).isLt
  simp only [unpack]
  split
  next special =>
    split
    next zero =>
      rw [special, zero] at fields
      exact fields
    next nonzero => exact (valid.eq_packedNaN special nonzero).symm
  next notSpecial =>
    split
    next subnormal =>
      split
      next zero =>
        rw [subnormal, zero] at fields
        exact fields
      next nonzero =>
        rw [subnormal] at fields
        have exponentEq : ((unpackExponent b).toNat : Int) -
            (Format.binary64.exponentBias + Format.binary64.mantissaBitsWithoutImplicit) + 1 =
              -1074 := by
          rw [subnormal]
          rfl
        simp only [exponentEq]
        exact (pack_subnormal _ _ _).trans fields
    next normal =>
      have finite : (unpackExponent b).toNat < 2047 := by
        apply Nat.lt_of_le_of_ne (Nat.le_of_lt_succ exponentLt)
        intro equal
        exact notSpecial (BitVec.eq_of_toNat_eq equal)
      simp only [toNat_one_append]
      exact (pack_normal _ _ _ finite _).trans fields

/-- A double has the pattern it is made from. -/
theorem toFloat_ofFloat (x : Float) : (ofFloat x).toFloat = x := by
  cases x with
  | ofModel model =>
    cases model with
    | mk bits valid =>
      have packed : Float.Model.ofBits bits = ⟨bits, valid⟩ := by
        simp only [Float.Model.ofBits, Float.Model.pack, pack_unpack valid]
      exact congrArg Float.ofModel packed

/-! ### Finite doubles -/

theorem unpackExponent_ne_of_isFinite {b : BitVec Format.binary64.numBits}
    (finite : (unpack Format.binary64 b).isFinite) : unpackExponent b ≠ -1#11 := by
  intro special
  simp only [unpack, special, if_true] at finite
  split at finite
  next => cases finite
  next => cases finite

/-- A finite double has a magnitude below that of infinity. -/
theorem magnitude_ofFloat_lt {x : Float} (finite : x.isFinite) :
    (ofFloat x).magnitude < infinity := by
  have exponentNe := unpackExponent_ne_of_isFinite finite
  have fieldNe : x.toBits.toNat / 2 ^ 52 % 2 ^ 11 ≠ 2047 := by
    intro equal
    exact exponentNe (BitVec.eq_of_toNat_eq ((toNat_unpackExponent _).trans equal))
  change x.toBits.toNat % 2 ^ 63 < 2047 * 2 ^ 52
  omega

/-- A finite double equals itself. -/
theorem beq_self_of_isFinite {x : Float} (finite : x.isFinite) : (x == x) = true := by
  have compared : ∀ u : UnpackedFloat, u.isFinite → u.beq u = true := by
    intro u finite
    cases u with
    | infinity => cases finite
    | notANumber => cases finite
    | zero => rfl
    | finite sign mantissa exponent positive =>
      cases sign <;> simp [UnpackedFloat.beq, UnpackedFloat.compare, Ordering.then]
  exact compared _ finite

/-- A pattern is its magnitude with its sign. -/
theorem ofMagnitude_magnitude (x : Binary64) : ofMagnitude x.isNegative x.magnitude = x := by
  have small := x.bits.toNat_lt
  have sumEq : (x.magnitude + if x.isNegative then 2 ^ 63 else 0) % 2 ^ 64 = x.bits.toNat := by
    cases sign : x.isNegative with
    | true =>
      have large : 2 ^ 63 ≤ x.bits.toNat := of_decide_eq_true sign
      simp only [magnitude, if_true]
      omega
    | false =>
      have below : ¬ 2 ^ 63 ≤ x.bits.toNat := of_decide_eq_false sign
      simp only [magnitude, Bool.false_eq_true, if_false]
      omega
  have bitsEq : (ofMagnitude x.isNegative x.magnitude).bits = x.bits := by
    apply UInt64.toNat_inj.1
    rw [ofMagnitude, UInt64.toNat_ofNat', sumEq]
  exact congrArg Binary64.mk bitsEq

/-! ### Signs -/

theorem unpack_zero : (0.0 : Float).toModel.unpack = .zero .positive := rfl

theorem not_lt_zero_of_unpackSign {b : BitVec Format.binary64.numBits}
    (positive : unpackSign b = 0#1) (s : Sign) :
    ¬ (unpack Format.binary64 b).lt (.zero s) := by
  simp only [unpack, positive, Sign.ofBitVec, if_true]
  split
  next =>
    split
    next => exact Bool.false_ne_true
    next => exact Bool.false_ne_true
  next =>
    split
    next =>
      split
      next => exact Bool.false_ne_true
      next => exact Bool.false_ne_true
    next => exact Bool.false_ne_true

theorem finite_lt_zero (mantissa : Nat) (exponent : Int) (positive : 0 < mantissa) (s : Sign) :
    (UnpackedFloat.finite .negative mantissa exponent positive).lt (.zero s) = true := rfl

/-- A finite pattern with the sign bit is below zero unless it is a zero. -/
theorem lt_zero_of_unpackSign {b : BitVec Format.binary64.numBits}
    (negative : unpackSign b = 1#1) (notSpecial : unpackExponent b ≠ -1#11)
    (nonzero : unpackExponent b = 0#11 → unpackMantissa b ≠ 0#52) (s : Sign) :
    (unpack Format.binary64 b).lt (.zero s) := by
  have signEq : Sign.ofBitVec (unpackSign b) = .negative := by
    rw [negative]
    rfl
  simp only [unpack, signEq]
  split
  next special => exact absurd special notSpecial
  next =>
    split
    next subnormal =>
      split
      next zero => exact absurd zero (nonzero subnormal)
      next => exact finite_lt_zero _ _ _ s
    next => exact finite_lt_zero _ _ _ s

/-- The pattern of the magnitude of a number with a sign. -/
theorem toNat_bits_ofMagnitude {bits : Nat} (negative : Bool) (isNumber : bits ≤ infinity) :
    (ofMagnitude negative bits).bits.toBitVec.toNat = bits + if negative then 2 ^ 63 else 0 := by
  have small : bits < 2 ^ 63 := Nat.lt_of_le_of_lt isNumber (by decide)
  change (bits + if negative then 2 ^ 63 else 0) % 2 ^ 64 = _
  apply Nat.mod_eq_of_lt
  split <;> omega

theorem unpackExponent_ofMagnitude_ne {bits : Nat} (negative : Bool) (finite : bits < infinity) :
    @unpackExponent Format.binary64 (ofMagnitude negative bits).bits.toBitVec ≠ -1#11 := by
  intro special
  have fieldEq := congrArg BitVec.toNat special
  rw [toNat_unpackExponent, toNat_bits_ofMagnitude negative finite.le] at fieldEq
  change _ / 2 ^ 52 % 2 ^ 11 = 2047 at fieldEq
  change bits < 2047 * 2 ^ 52 at finite
  split at fieldEq <;> omega

/-- The pattern of a number is one that doubles have. -/
theorem valid_ofMagnitude {bits : Nat} (negative : Bool) (isNumber : bits ≤ infinity) :
    Format.binary64.Valid (ofMagnitude negative bits).bits.toBitVec := by
  constructor
  intro special nonzero
  rcases Nat.lt_or_eq_of_le isNumber with finite | rfl
  · exact absurd special (unpackExponent_ofMagnitude_ne negative finite)
  · refine absurd (BitVec.eq_of_toNat_eq ?_) nonzero
    rw [toNat_unpackMantissa, toNat_bits_ofMagnitude negative isNumber]
    cases negative <;> rfl

/-- The pattern of a number is that of its double. -/
theorem unpack_toFloat {bits : Nat} (negative : Bool) (isNumber : bits ≤ infinity) :
    (ofMagnitude negative bits).toFloat.toModel.unpack =
      unpack Format.binary64 (ofMagnitude negative bits).bits.toBitVec :=
  congrArg (unpack Format.binary64) (pack_unpack (valid_ofMagnitude negative isNumber))

theorem isFinite_toFloat {bits : Nat} (negative : Bool) (finite : bits < infinity) :
    (ofMagnitude negative bits).toFloat.isFinite := by
  have notSpecial := unpackExponent_ofMagnitude_ne negative finite
  change (ofMagnitude negative bits).toFloat.toModel.unpack.isFinite
  rw [unpack_toFloat negative finite.le]
  simp only [unpack, notSpecial, if_false]
  split
  next =>
    split
    next => rfl
    next => rfl
  next => rfl

/-- A finite double without the sign bit is not below zero. -/
theorem not_toFloat_lt_zero {bits : Nat} (finite : bits < infinity) :
    ¬ (ofMagnitude false bits).toFloat < 0.0 := by
  have positive : @unpackSign Format.binary64 (ofMagnitude false bits).bits.toBitVec = 0#1 := by
    apply BitVec.eq_of_toNat_eq
    rw [toNat_unpackSign, toNat_bits_ofMagnitude false finite.le]
    change bits / 2 ^ 63 = 0
    change bits < 2047 * 2 ^ 52 at finite
    omega
  have below := not_lt_zero_of_unpackSign positive .positive
  rw [← unpack_toFloat false finite.le] at below
  intro less
  apply below
  rw [← unpack_zero]
  exact of_decide_eq_true less

/-- A finite double with the sign bit is below zero unless it is a zero. -/
theorem toFloat_lt_zero {bits : Nat} (nonzero : 0 < bits) (finite : bits < infinity) :
    (ofMagnitude true bits).toFloat < 0.0 := by
  have patternEq := toNat_bits_ofMagnitude true finite.le
  rw [if_pos rfl] at patternEq
  have small : bits < 2 ^ 63 := Nat.lt_of_lt_of_le finite (by decide)
  have negative : @unpackSign Format.binary64 (ofMagnitude true bits).bits.toBitVec = 1#1 := by
    apply BitVec.eq_of_toNat_eq
    rw [toNat_unpackSign, patternEq]
    change (bits + 2 ^ 63) / 2 ^ 63 = 1
    omega
  have notZero (subnormal : @unpackExponent Format.binary64
      (ofMagnitude true bits).bits.toBitVec = 0#11) :
      @unpackMantissa Format.binary64 (ofMagnitude true bits).bits.toBitVec ≠ 0#52 := by
    intro zero
    have exponentEq := congrArg BitVec.toNat subnormal
    have mantissaEq := congrArg BitVec.toNat zero
    rw [toNat_unpackExponent, patternEq] at exponentEq
    rw [toNat_unpackMantissa, patternEq] at mantissaEq
    change (bits + 2 ^ 63) / 2 ^ 52 % 2 ^ 11 = 0 at exponentEq
    change (bits + 2 ^ 63) % 2 ^ 52 = 0 at mantissaEq
    omega
  have below := lt_zero_of_unpackSign negative (unpackExponent_ofMagnitude_ne true finite) notZero
    .positive
  rw [← unpack_toFloat true finite.le, ← unpack_zero] at below
  exact decide_eq_true below

/-! ### Equal doubles -/

/-- Numbers that compare as equal are the same unless both are zeros. -/
theorem eq_or_zeros_of_beq {u v : UnpackedFloat} (equal : u.beq v) :
    u = v ∨ (∃ sign, u = .zero sign) ∧ ∃ sign, v = .zero sign := by
  cases u with
  | notANumber => cases equal
  | zero sign =>
    cases v with
    | notANumber => cases equal
    | zero sign' => exact .inr ⟨⟨sign, rfl⟩, sign', rfl⟩
    | infinity sign' => cases sign' <;> cases equal
    | finite sign' => cases sign' <;> cases equal
  | infinity sign =>
    cases v with
    | infinity sign' => cases sign <;> cases sign' <;> first | exact .inl rfl | cases equal
    | notANumber | zero | finite => cases sign <;> cases equal
  | finite sign m e =>
    cases v with
    | notANumber => cases sign <;> cases equal
    | zero => cases sign <;> cases equal
    | infinity sign' => cases sign <;> cases sign' <;> cases equal
    | finite sign' m' e' =>
      have compared : sign = sign' ∧ (compare e e').then (compare m m') = .eq := by
        cases sign with
        | positive =>
          cases sign' with
          | positive => exact ⟨rfl, Option.some.inj (eq_of_beq equal)⟩
          | negative => cases equal
        | negative =>
          cases sign' with
          | positive => cases equal
          | negative =>
            exact ⟨rfl, Ordering.swap_eq_eq.1 (Option.some.inj (eq_of_beq equal))⟩
      obtain ⟨rfl, ordering⟩ := compared
      rw [Ordering.then_eq_eq, compare_eq_iff_eq, compare_eq_iff_eq] at ordering
      obtain ⟨rfl, rfl⟩ := ordering
      exact .inl rfl

/-- Equality of numbers does not depend on their order. -/
theorem beq_symm {x y : Float} (equal : (x == y) = true) : (y == x) = true := by
  change y.toModel.unpack.beq x.toModel.unpack = true
  change x.toModel.unpack.beq y.toModel.unpack = true at equal
  rcases eq_or_zeros_of_beq equal with same | ⟨⟨sign, zero⟩, sign', zero'⟩
  · rw [same] at equal ⊢
    exact equal
  · rw [zero, zero']
    cases sign <;> cases sign' <;> rfl

/-- A number that is not below another is at most that number exactly if both are equal. -/
theorem le_iff_beq_of_not_lt {x y : Float} (notBelow : ¬ x < y) : x ≤ y ↔ (x == y) = true := by
  have leEq : x ≤ y ↔ ((x.toModel.unpack.compare y.toModel.unpack).any (·.isLE)) = true :=
    decide_eq_true_iff
  have ltEq : x < y ↔ x.toModel.unpack.compare y.toModel.unpack = some .lt :=
    decide_eq_true_iff.trans beq_iff_eq
  rw [ltEq] at notBelow
  rw [leEq]
  change _ ↔ (x.toModel.unpack.compare y.toModel.unpack == some .eq) = true
  generalize x.toModel.unpack.compare y.toModel.unpack = order at notBelow ⊢
  cases order with
  | none => exact ⟨nofun, nofun⟩
  | some order =>
    cases order with
    | lt => exact absurd rfl notBelow
    | eq => exact ⟨fun _ => rfl, fun _ => rfl⟩
    | gt => exact ⟨nofun, nofun⟩

/-- Only the pattern of magnitude zero is a zero. -/
theorem eq_zero_of_unpack {bits : Nat} {negative : Bool} (isNumber : bits ≤ infinity) {sign : Sign}
    (unpacked : unpack Format.binary64 (ofMagnitude negative bits).bits.toBitVec = .zero sign) :
    bits = 0 := by
  have fields : @unpackExponent Format.binary64 (ofMagnitude negative bits).bits.toBitVec = 0#11 ∧
      @unpackMantissa Format.binary64 (ofMagnitude negative bits).bits.toBitVec = 0#52 := by
    simp only [unpack] at unpacked
    split at unpacked
    next =>
      split at unpacked
      next => cases unpacked
      next => cases unpacked
    next =>
      split at unpacked
      next subnormal =>
        split at unpacked
        next zero => exact ⟨subnormal, zero⟩
        next => cases unpacked
      next => cases unpacked
  have patternEq := toNat_bits_ofMagnitude negative isNumber
  have exponentEq := congrArg BitVec.toNat fields.1
  have mantissaEq := congrArg BitVec.toNat fields.2
  rw [toNat_unpackExponent, patternEq] at exponentEq
  rw [toNat_unpackMantissa, patternEq] at mantissaEq
  change _ / 2 ^ 52 % 2 ^ 11 = 0 at exponentEq
  change _ % 2 ^ 52 = 0 at mantissaEq
  change bits ≤ 2047 * 2 ^ 52 at isNumber
  cases negative with
  | false =>
    rw [if_neg Bool.false_ne_true] at exponentEq mantissaEq
    omega
  | true =>
    rw [if_pos rfl] at exponentEq mantissaEq
    omega

/-- Doubles of one sign are equal as numbers if and only if their magnitudes are. -/
theorem beq_toFloat_iff (negative : Bool) {bits bits' : Nat} (isNumber : bits ≤ infinity)
    (finite : bits' < infinity) :
    ((ofMagnitude negative bits).toFloat == (ofMagnitude negative bits').toFloat) = true ↔
      bits = bits' := by
  constructor
  · intro equal
    have compared : (ofMagnitude negative bits).toFloat.toModel.unpack.beq
        (ofMagnitude negative bits').toFloat.toModel.unpack := equal
    rw [unpack_toFloat negative isNumber, unpack_toFloat negative finite.le] at compared
    rcases eq_or_zeros_of_beq compared with same | ⟨⟨sign, zero⟩, sign', zero'⟩
    · have patternEq := congrArg (pack Format.binary64) same
      rw [pack_unpack (valid_ofMagnitude negative isNumber),
        pack_unpack (valid_ofMagnitude negative finite.le)] at patternEq
      have bitsEq := congrArg BitVec.toNat patternEq
      rw [toNat_bits_ofMagnitude negative isNumber,
        toNat_bits_ofMagnitude negative finite.le] at bitsEq
      exact Nat.add_right_cancel bitsEq
    · rw [eq_zero_of_unpack isNumber zero, eq_zero_of_unpack finite.le zero']
  · rintro rfl
    exact beq_self_of_isFinite (isFinite_toFloat negative finite)

/-! ### Zeros -/

/-- A number that is neither above nor below zero is a zero of some sign. -/
theorem exists_unpack_eq_zero {x : Float} (notAbove : x ≤ 0.0) (notBelow : ¬ x < 0.0) :
    ∃ sign, x.toModel.unpack = .zero sign := by
  have atMost : x.toModel.unpack.le (.zero .positive) = true := by
    rw [← unpack_zero]
    exact of_decide_eq_true notAbove
  have atLeast : ¬ x.toModel.unpack.lt (.zero .positive) = true := by
    rw [← unpack_zero]
    exact fun less => notBelow (decide_eq_true less)
  generalize x.toModel.unpack = u at atMost atLeast
  cases u with
  | notANumber => cases atMost
  | infinity sign =>
    cases sign with
    | positive => cases atMost
    | negative => exact absurd rfl atLeast
  | zero sign => exact ⟨sign, rfl⟩
  | finite sign =>
    cases sign with
    | positive => cases atMost
    | negative => exact absurd rfl atLeast

/-- Zero and a zero of either sign are zero. -/
theorem zero_add_of_zero {x : Float} (notAbove : x ≤ 0.0) (notBelow : ¬ x < 0.0) :
    0.0 + x = 0.0 := by
  obtain ⟨sign, zeroEq⟩ := exists_unpack_eq_zero notAbove notBelow
  have sumEq : (0.0 + x).toModel = (0.0 : Float).toModel := by
    change Float.Model.pack (UnpackedFloat.add Format.binary64 (0.0 : Float).toModel.unpack
      x.toModel.unpack) = _
    rw [zeroEq]
    cases sign with
    | positive => rfl
    | negative => rfl
  exact congrArg Float.ofModel sumEq

/-- A finite double is above zero unless it is at most zero. -/
theorem zero_lt_of_not_le {x : Float} (finite : x.isFinite) (notLe : ¬ x ≤ 0.0) : 0.0 < x := by
  have finiteModel : x.toModel.unpack.isFinite := finite
  have notAtMost : ¬ x.toModel.unpack.le (.zero .positive) = true := by
    rw [← unpack_zero]
    exact fun atMost => notLe (decide_eq_true atMost)
  apply decide_eq_true
  change (0.0 : Float).toModel.unpack.lt x.toModel.unpack = true
  rw [unpack_zero]
  generalize x.toModel.unpack = u at finiteModel notAtMost
  cases u with
  | notANumber => cases finiteModel
  | infinity => cases finiteModel
  | zero => exact absurd rfl notAtMost
  | finite sign =>
    cases sign with
    | positive => rfl
    | negative => exact absurd rfl notAtMost

/-! ### Whole numbers -/

/-- A significand has at most 53 bits. -/
theorem mantissa_lt_of_unpack {b : BitVec Format.binary64.numBits} {sign : Sign} {mantissa : Nat}
    {exponent : Int} {positive : 0 < mantissa}
    (unpacked : unpack Format.binary64 b = .finite sign mantissa exponent positive) :
    mantissa < 2 ^ 53 := by
  have mantissaLt : (unpackMantissa b).toNat < 2 ^ 52 := (unpackMantissa b).isLt
  simp only [unpack] at unpacked
  split at unpacked
  next =>
    split at unpacked
    next => cases unpacked
    next => cases unpacked
  next =>
    split at unpacked
    next =>
      split at unpacked
      next => cases unpacked
      next =>
        cases unpacked
        omega
    next =>
      cases unpacked
      rw [toNat_one_append]
      omega

/-- Shifting a significand to the right makes it no greater. -/
theorem mantissa_shiftRight_le (m : ExtendedMantissa) (n : Nat) :
    (m >>> n).mantissa ≤ m.mantissa := by
  change (Nat.repeat ExtendedMantissa.shiftRightOne n m).mantissa ≤ m.mantissa
  induction n with
  | zero => exact Nat.le_refl _
  | succ n inductionHypothesis => exact Nat.le_trans (Nat.div_le_self _ 2) inductionHypothesis

/-- Rounding to a whole number cuts off. -/
theorem roundToInt_le (mantissa : Nat) (exponent : Int) :
    roundToInt .positive mantissa exponent ≤ (mantissa * 2 ^ exponent.toNat : Nat) := by
  unfold roundToInt decreaseExponent shiftToExponent
  dsimp only
  rw [Int.sub_zero, Nat.shiftLeft_eq]
  exact Int.ofNat_le.2 (mantissa_shiftRight_le ⟨mantissa * 2 ^ exponent.toNat, false, false⟩ _)

theorem toNat_ofNatClamp_le (n : Nat) : (UInt64.ofNatClamp n).toNat ≤ n := by
  unfold UInt64.ofNatClamp
  split
  next => exact Nat.le_refl n
  next large =>
    rw [UInt64.toNat_ofNatLT]
    omega

/-- A double below nine quintillions, which is a double itself, is cut off to a word that is not
above it, whether it is finite or not. -/
theorem toNat_toUInt64_le {x : Float} (below : x < 9.0e18) :
    x.toUInt64.toNat ≤ 9 * 10 ^ 18 := by
  have less : x.toModel.unpack.lt (9.0e18 : Float).toModel.unpack = true := of_decide_eq_true below
  have limitEq : (9.0e18 : Float).toModel.unpack =
    .finite .positive 8789062500000000 10 (by decide) := rfl
  rw [limitEq] at less
  refine Nat.le_trans (toNat_ofNatClamp_le _) ?_
  cases unpacked : x.toModel.unpack with
  | notANumber => exact Nat.zero_le _
  | infinity sign =>
    rw [unpacked] at less
    cases sign with
    | positive => cases less
    | negative => exact Nat.zero_le _
  | zero => exact Nat.zero_le _
  | finite sign m e positive =>
    have mantissaLt := mantissa_lt_of_unpack unpacked
    rw [unpacked] at less
    cases sign with
    | negative =>
      have cut : (roundToInt .negative m e).toNat = 0 := Int.toNat_neg_natCast _
      exact Nat.le_trans (Nat.le_of_eq cut) (Nat.zero_le _)
    | positive =>
      have lower : e < 10 ∨ e = 10 ∧ m < 8789062500000000 := by
        have compared : (compare e 10).then (compare m 8789062500000000) = .lt :=
          Option.some.inj (eq_of_beq less)
        rwa [Ordering.then_eq_lt, compare_lt_iff_lt, compare_eq_iff_eq, compare_lt_iff_lt]
          at compared
      have valueLe : m * 2 ^ e.toNat ≤ 9 * 10 ^ 18 := by
        rcases lower with small | ⟨rfl, small⟩
        · have powerLe : 2 ^ e.toNat ≤ 2 ^ 9 := Nat.pow_le_pow_right (by decide) (by omega)
          have product := Nat.mul_le_mul (Nat.le_of_lt mantissaLt) powerLe
          omega
        · change m * 1024 ≤ _
          omega
      have rounded := roundToInt_le m e
      change (roundToInt .positive m e).toNat ≤ _
      omega

end PatternSampler.Binary64
