/-
Module: PatternSampler.Proofs.Engine.Shifts
Purpose: Sums of shifts of a sequence of bits. A number stands for the sum of the shifts by the
  positions of its one bits, that is for a polynomial in the shift with coefficients modulo two.
  The numbers whose sums vanish on a sequence are closed under the steps of the division of
  polynomials, so that their common divisor is one of them.
Main exports: BitSequence, BitSequence.combine, BitSequence.Vanishes, divisor,
  BitSequence.vanishes_divisor
-/
import Mathlib.Data.Nat.Bitwise

namespace PatternSampler

/-- A sequence of bits. -/
abbrev BitSequence := Nat → Bool

namespace BitSequence

variable {b : BitSequence} {p q : Nat}

/-- The sum of the shifts of a sequence by the positions of the one bits of a number. -/
def combine (p : Nat) (b : BitSequence) (k : Nat) : Bool :=
  if p = 0 then false else (p.testBit 0 && b k) ^^ combine (p / 2) b (k + 1)
termination_by p
decreasing_by omega

theorem combine_zero (b : BitSequence) (k : Nat) : combine 0 b k = false := by
  rw [combine, if_pos rfl]

theorem combine_eq (p : Nat) (b : BitSequence) (k : Nat) :
    combine p b k = ((p.testBit 0 && b k) ^^ combine (p / 2) b (k + 1)) := by
  by_cases zero : p = 0
  · rw [zero, combine_zero, Nat.zero_div, combine_zero]
    rfl
  · rw [combine, if_neg zero]

theorem combine_one (b : BitSequence) (k : Nat) : combine 1 b k = b k := by
  rw [combine_eq, show 1 / 2 = 0 from rfl, combine_zero]
  simp

theorem combine_xor (p q : Nat) (b : BitSequence) (k : Nat) :
    combine (p ^^^ q) b k = (combine p b k ^^ combine q b k) := by
  -- The lowest bits are split off from both numbers together.
  induction both : p + q using Nat.strong_induction_on generalizing p q k with
  | _ n inductionHypothesis =>
    by_cases zero : n = 0
    · obtain ⟨rfl, rfl⟩ : p = 0 ∧ q = 0 := by omega
      rw [Nat.xor_self, combine_zero]
      rfl
    · have halves := inductionHypothesis (p / 2 + q / 2) (by omega) (p / 2) (q / 2) (k + 1) rfl
      rw [combine_eq, combine_eq p, combine_eq q, Nat.xor_div_two, halves, Nat.testBit_xor]
      grind

theorem combine_shiftLeft (p n : Nat) (b : BitSequence) (k : Nat) :
    combine (p <<< n) b k = combine p b (k + n) := by
  induction n generalizing k with
  | zero => rfl
  | succ n inductionHypothesis =>
    have half : p <<< (n + 1) / 2 = p <<< n := by
      rw [Nat.shiftLeft_succ]
      omega
    have even : (p <<< (n + 1)).testBit 0 = false := by
      rw [Nat.testBit_shiftLeft]
      rfl
    rw [combine_eq, half, even, inductionHypothesis, Nat.add_right_comm, Nat.add_assoc]
    exact Bool.false_xor _

/-- Nothing comes of a sequence that has come to an end. -/
theorem combine_of_ended {k : Nat} (ended : ∀ j, k ≤ j → b j = false) (p : Nat) :
    combine p b k = false := by
  fun_induction combine p b k with
  | case1 => rfl
  | case2 p k _ inductionHypothesis =>
    rw [ended k (Nat.le_refl k), inductionHypothesis fun j behind => ended j (by omega)]
    simp

/-- The sum of the shifts that a number stands for vanishes. -/
def Vanishes (p : Nat) (b : BitSequence) : Prop := ∀ k, combine p b k = false

theorem Vanishes.xor (first : Vanishes p b) (second : Vanishes q b) : Vanishes (p ^^^ q) b := by
  intro k
  rw [combine_xor, first k, second k]
  rfl

theorem Vanishes.shiftLeft (vanishes : Vanishes p b) (n : Nat) : Vanishes (p <<< n) b := by
  intro k
  rw [combine_shiftLeft]
  exact vanishes (k + n)

end BitSequence

/-! ### Common divisors -/

/-- A common divisor of `f` and `g`, by repeated subtraction of multiples, which is the addition of
shifts: all bits of `f` are below the position `n`, and the highest one bit of `g` is at the
position `m`. `fuel` bounds the number of steps. -/
def divisor : (fuel f n g m : Nat) → Nat
  | 0, _, _, g, _ => g
  | _ + 1, 0, _, g, _ => g
  | _ + 1, _ + 1, 0, g, _ => g
  | fuel + 1, f + 1, n + 1, g, m =>
    bif Nat.beq (((f + 1) >>> n) % 2) 0 then divisor fuel (f + 1) n g m
    else bif Nat.ble m n then divisor fuel ((f + 1) ^^^ (g <<< (n - m))) n g m
    else divisor fuel g (m + 1) (f + 1) n

/-- Where two sums of shifts vanish, their common divisor does. -/
theorem BitSequence.vanishes_divisor {b : BitSequence} (fuel : Nat) {f g : Nat} (n m : Nat)
    (first : Vanishes f b) (second : Vanishes g b) : Vanishes (divisor fuel f n g m) b := by
  fun_induction divisor fuel f n g m with
  | case1 | case2 | case3 => exact second
  | case4 fuel f n g m clear inductionHypothesis => exact inductionHypothesis first second
  | case5 fuel f n g m set below inductionHypothesis =>
    exact inductionHypothesis (first.xor (second.shiftLeft _)) second
  | case6 fuel f n g m set above inductionHypothesis => exact inductionHypothesis second first

end PatternSampler
