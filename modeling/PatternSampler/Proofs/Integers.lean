/-
Module: PatternSampler.Proofs.Integers
Purpose: Written integers are not altered. Digits, however many and with zeros in front or without,
  are read as the number they stand for or not at all: as a repeat count up to the limit, as a
  parameter that is a count and as the value of a flag up to the last word. What is beyond is
  refused for its size and repeated as it was written.
Main exports: Options.CountsExactly, Options.countsExactly, Text.digits_count_exactly
-/
import PatternSampler.Proofs.Arguments
import PatternSampler.Proofs.Integers.Parameters
import PatternSampler.Proofs.Integers.Repeats

namespace PatternSampler

/-! ### Values of arguments -/

namespace Options

open Arguments

/-- Digits as the value of a flag are read as their number, or refused if it is no word, wherever
the flag stands before the end of flags. -/
structure CountsExactly (digits : Text) : Prop where
  counted : Text.decimalValue digits < 2 ^ 64 →
    ∃ n : UInt64, n.toNat = Text.decimalValue digits ∧ (∀ arg, numberOf arg digits = .ok n) ∧
      ∀ (flag : Flag) (arg : Text) (before after : List Text) (items : List Item),
        flag.IsNumeric → arg ∈ flag.spellings → Reads false before items → .endOfFlags ∉ items →
        ∀ hasPattern o, readArguments false hasPattern o (before ++ arg :: digits :: after) =
          settle hasPattern o items >>= fun read =>
            readArguments false read.2 (read.1.follow [.number flag n]) after
  tooLarge : 2 ^ 64 ≤ Text.decimalValue digits →
    (∀ arg, numberOf arg digits = .error (.valueTooLarge arg digits)) ∧
      ∀ (flag : Flag) (arg : Text) (before after : List Text) (items : List Item),
        flag.IsNumeric → arg ∈ flag.spellings → Reads false before items → .endOfFlags ∉ items →
        (∀ hasPattern o, readArguments false hasPattern o (before ++ arg :: digits :: after) =
          settle hasPattern o items >>= fun _ => .error (.valueTooLarge arg digits)) ∧
        ∃ e : OptionsError, ofArguments (before ++ arg :: digits :: after) = .error e

section Counts

variable {digits : Text}

theorem numberOf_of_le (nonempty : digits ≠ []) (isDigit : ∀ b ∈ digits, IsDigit b)
    (large : 2 ^ 64 ≤ Text.decimalValue digits) (arg : Text) :
    numberOf arg digits = .error (.valueTooLarge arg digits) := by
  have number : Text.number? digits = some (Text.decimalValue digits) :=
    if_pos ⟨nonempty, by simpa using isDigit⟩
  unfold numberOf
  rw [number]
  exact if_neg (Nat.not_lt.2 large)

/-- A flag is refused with its value. -/
theorem assign_of_refused {flag : Flag} {arg value : Text} {e : OptionsError}
    (numeric : flag.IsNumeric) (refused : numberOf arg value = .error e) (o : Options) :
    o.assign flag arg value = .error e := by
  obtain rfl | rfl | rfl := numeric <;> exact bind_of_eq_error refused _

/-- The second pass at a flag behind arguments that do not end flags. -/
theorem readArguments_append_number {flag : Flag} {arg : Text} {before after : List Text}
    {items : List Item} (numeric : flag.IsNumeric) (spelled : arg ∈ flag.spellings)
    (reads : Reads false before items) (noEnd : .endOfFlags ∉ items) (hasPattern : Bool)
    (o : Options) : readArguments false hasPattern o (before ++ arg :: digits :: after) =
      settle hasPattern o items >>= fun read =>
        read.1.assign flag arg digits >>= fun o => readArguments false read.2 o after := by
  rw [readArguments_append reads, decide_eq_false noEnd, Bool.or_false]
  refine congrArg (settle hasPattern o items >>= ·) (funext fun read => ?_)
  exact readArguments_number numeric spelled read.2 read.1 digits after

/-- Digits as the value of a flag are counted exactly. -/
theorem countsExactly (nonempty : digits ≠ []) (isDigit : ∀ b ∈ digits, IsDigit b) :
    CountsExactly digits where
  counted small := by
    have valueEq : (UInt64.ofNat (Text.decimalValue digits)).toNat = Text.decimalValue digits :=
      UInt64.toNat_ofNat_of_lt' small
    have denotes : Denotes digits (UInt64.ofNat (Text.decimalValue digits)) :=
      ⟨nonempty, isDigit, valueEq.symm⟩
    refine ⟨_, valueEq, fun arg => numberOf_eq_ok_iff.2 denotes, ?_⟩
    intro flag arg before after items numeric spelled reads noEnd hasPattern o
    rw [readArguments_append_number numeric spelled reads noEnd]
    refine congrArg (settle hasPattern o items >>= ·) (funext fun read => ?_)
    exact bind_of_eq_ok (assign_of_denotes numeric denotes read.1 arg) _
  tooLarge large := by
    have refused := numberOf_of_le nonempty isDigit large
    refine ⟨refused, fun flag arg before after items numeric spelled reads noEnd => ?_⟩
    have read (hasPattern : Bool) (o : Options) :
        readArguments false hasPattern o (before ++ arg :: digits :: after) =
          settle hasPattern o items >>= fun _ => .error (.valueTooLarge arg digits) := by
      rw [readArguments_append_number numeric spelled reads noEnd]
      refine congrArg (settle hasPattern o items >>= ·) (funext fun read => ?_)
      exact bind_of_eq_error (assign_of_refused numeric (refused arg) read.1) _
    refine ⟨read, ?_⟩
    cases given : ofArguments (before ++ arg :: digits :: after) with
    | error e => exact ⟨e, rfl⟩
    | ok o =>
      obtain ⟨-, hasPattern, accepted, -⟩ := ofArguments_eq_ok_iff.1 given
      rw [read] at accepted
      obtain ⟨-, -, absurd⟩ := exists_of_bind_eq_ok accepted
      cases absurd

end Counts

end Options

/-! ### Digits in all three places -/

/-- Digits, however many, are read as the number they stand for or refused: as a repeat count, as a
parameter that is a count, and as the value of a flag. -/
theorem Text.digits_count_exactly {digits : Text} (nonempty : digits ≠ [])
    (isDigit : ∀ b ∈ digits, IsDigit b) :
    Pattern.CountsExactly digits ∧ Annotation.CountsExactly digits ∧
      Options.CountsExactly digits :=
  ⟨Pattern.countsExactly nonempty isDigit, Annotation.countsExactly nonempty isDigit,
    Options.countsExactly nonempty isDigit⟩

/-- The last word, with two zeros in front, is a parameter and the value of a flag, but no repeat
count. -/
theorem Text.digits_count_exactly_maxWord :
    (∀ b ∈ ascii "0018446744073709551615", IsDigit b) ∧
    maxRepeatCount < Text.decimalValue (ascii "0018446744073709551615") ∧
    Text.decimalValue (ascii "0018446744073709551615") = maxWord.toNat ∧
    Pattern.CountsExactly (ascii "0018446744073709551615") ∧
    Annotation.CountsExactly (ascii "0018446744073709551615") ∧
    Options.CountsExactly (ascii "0018446744073709551615") := by
  have isDigit : ∀ b ∈ ascii "0018446744073709551615", IsDigit b := by decide +kernel
  have counts := Text.digits_count_exactly (by decide) isDigit
  exact ⟨isDigit, by decide +kernel, by decide +kernel, counts⟩

end PatternSampler
