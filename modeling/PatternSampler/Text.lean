/-
Module: PatternSampler.Text
Purpose: Byte texts. Templates and generated strings are sequences of bytes with no
  encoding attached, so a text is a list of bytes. This module holds the ASCII tests on
  bytes, decimal numerals of natural numbers, and the small scans that readers use.
Main exports: natPow, Text, ascii, IsDigit, IsLetter, Text.decimal, Text.decimalValue, Text.upToNul
-/

namespace PatternSampler

/-- Powers of natural numbers are those of the core library, also where others are in scope. -/
@[default_instance 20000]
instance (priority := 20000) natPow : Pow Nat Nat := instPowNat

/-- A text is a sequence of bytes; no encoding is assumed. -/
abbrev Text := List UInt8

/-- The bytes of an ASCII text, one per character. -/
def ascii (s : String) : Text :=
  s.toList.map Char.toUInt8

/-! ### Kinds of bytes -/

/-- An ASCII decimal digit. -/
def IsDigit (b : UInt8) : Prop := 0x30 ≤ b ∧ b ≤ 0x39

/-- An ASCII lower-case letter. -/
def IsLower (b : UInt8) : Prop := 0x61 ≤ b ∧ b ≤ 0x7A

/-- An ASCII upper-case letter. -/
def IsUpper (b : UInt8) : Prop := 0x41 ≤ b ∧ b ≤ 0x5A

/-- An ASCII letter of either case. -/
def IsLetter (b : UInt8) : Prop := IsLower b ∨ IsUpper b

instance (b : UInt8) : Decidable (IsDigit b) := inferInstanceAs (Decidable (_ ∧ _))
instance (b : UInt8) : Decidable (IsLower b) := inferInstanceAs (Decidable (_ ∧ _))
instance (b : UInt8) : Decidable (IsUpper b) := inferInstanceAs (Decidable (_ ∧ _))
instance (b : UInt8) : Decidable (IsLetter b) := inferInstanceAs (Decidable (_ ∨ _))

/-- The lower-case form of an ASCII letter; every other byte stays as it is. -/
def toLower (b : UInt8) : UInt8 :=
  if IsUpper b then b + 0x20 else b

namespace Text

/-- The backslash, which opens an escape. -/
def backslash : UInt8 := 0x5C

/-- The byte that ends a line. -/
def newline : UInt8 := 0x0A

/-- The horizontal tab. -/
def tab : UInt8 := 0x09

/-- The blank. -/
def blank : UInt8 := 0x20

/-- The part of a text before its first NUL byte: what is left of it where a NUL ends a
text. -/
def upToNul (t : Text) : Text :=
  t.takeWhile (· ≠ 0)

/-! ### Decimal numerals -/

/-- The decimal numeral of a number, without leading zeros. -/
def decimal (n : Nat) : Text :=
  (Nat.toDigits 10 n).map Char.toUInt8

/-- The number that a sequence of digit bytes stands for in base ten. The empty sequence
stands for zero. -/
def decimalValue (digits : Text) : Nat :=
  digits.foldl (fun n b => 10 * n + (b - 0x30).toNat) 0

/-- The number of a text that consists of digits only and has at least one. -/
def number? (t : Text) : Option Nat :=
  if t ≠ [] ∧ t.all fun b => IsDigit b then some (decimalValue t) else none

@[simp] theorem decimalValue_nil : decimalValue [] = 0 := rfl

/-- A further digit multiplies what came before by ten. -/
theorem decimalValue_concat (t : Text) (b : UInt8) :
    decimalValue (t ++ [b]) = 10 * decimalValue t + (b - 0x30).toNat := by
  simp [decimalValue]

theorem decimal_ne_nil (n : Nat) : decimal n ≠ [] := by
  simp [decimal, Nat.toDigits_ne_nil]

end Text

end PatternSampler
