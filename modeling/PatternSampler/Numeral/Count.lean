/-
Module: PatternSampler.Numeral.Count
Purpose: Counts read off the front of a spelling: white space, a sign and digits, as far as
  they go. What stands behind the digits is not looked at. Counts are words, and a minus
  sign takes the word off zero.
Main exports: CountError, Text.leadingCount
-/
import PatternSampler.Alphabet

namespace PatternSampler

/-- Why no count can be read. -/
inductive CountError where
  | noDigits
  | tooLarge
deriving DecidableEq, Repr

namespace Text

/-- Whether a text begins with a minus sign, and the text behind its sign, if it has one. -/
def splitSign : Text → Bool × Text
  | 0x2D :: t => (true, t)
  | 0x2B :: t => (false, t)
  | t => (false, t)

/-- The word that a sequence of digits stands for, taken off zero behind a minus sign. -/
def countOf (negative : Bool) (digits : Text) : Except CountError UInt64 :=
  if digits = [] then .error .noDigits
  else if 2 ^ 64 ≤ decimalValue digits then .error .tooLarge
  else .ok (if negative then 0 - UInt64.ofNat (decimalValue digits)
    else UInt64.ofNat (decimalValue digits))

/-- The count at the front of a text. -/
def leadingCount (t : Text) : Except CountError UInt64 :=
  let (negative, unsigned) := splitSign (t.dropWhile (· ∈ Alphabet.whiteSpace))
  countOf negative (unsigned.takeWhile fun b => IsDigit b)

/-- A digit opens neither white space nor a sign. -/
theorem splitSign_of_isDigit {b : UInt8} {t : Text} (h : IsDigit b) :
    splitSign (List.dropWhile (· ∈ Alphabet.whiteSpace) (b :: t)) = (false, b :: t) := by
  have hspace : b ∉ Alphabet.whiteSpace := by
    intro hmem
    simp only [Alphabet.whiteSpace, List.mem_cons, List.not_mem_nil, or_false] at hmem
    rcases hmem with rfl | rfl | rfl | rfl | rfl | rfl <;> exact absurd h (by decide)
  rw [List.dropWhile_cons_of_neg (by simpa using hspace)]
  unfold splitSign
  split
  next heq => cases heq; exact absurd h (by decide)
  next heq => cases heq; exact absurd h (by decide)
  next => rfl

/-- All of a text of digits is taken. -/
theorem takeWhile_isDigit {t : Text} (h : ∀ b ∈ t, IsDigit b) :
    t.takeWhile (fun b => IsDigit b) = t := by
  induction t with
  | nil => rfl
  | cons b t ih =>
    rw [List.takeWhile_cons_of_pos (by simpa using h b (by simp)),
      ih fun c hc => h c (List.mem_cons_of_mem b hc)]

/-- A text of digits is read as the number it stands for. -/
theorem leadingCount_of_isDigit {t : Text} (h : ∀ b ∈ t, IsDigit b) :
    leadingCount t = countOf false t := by
  cases t with
  | nil => rfl
  | cons b t =>
    simp only [leadingCount, splitSign_of_isDigit (h b (by simp))]
    exact congrArg (countOf false) (takeWhile_isDigit h)

end Text

end PatternSampler
