/-
Module: PatternSampler.CharClass
Purpose: Character classes. A class is written as a list of members, possibly negated; what
  it stands for is its alphabet, which follows from the members alone and is kept with
  them. A distribution attached to a class draws positions in the alphabet.
Main exports: ClassItem, alphabetOf, CharClass, CharClass.text
-/
import PatternSampler.Alphabet
import PatternSampler.Distribution
import PatternSampler.Token

namespace PatternSampler

/-- One constituent of a class as written. -/
inductive ClassItem where
  /-- A single character. -/
  | literal (b : UInt8)
  /-- A class written as a backslash and a letter. -/
  | shorthand (name : UInt8)
  /-- A class written as `[:name:]`. -/
  | posix (name : Text)
  /-- Any printable character. -/
  | wildcard
deriving DecidableEq, Repr

/-- The characters that a member stands for, in order. Unknown names stand for none. -/
def ClassItem.chars : ClassItem → Text
  | literal b => [b]
  | shorthand name => (Alphabet.shorthand? name).getD []
  | posix name => (Alphabet.posix? name).getD []
  | wildcard => Alphabet.printable

/-- The alphabet of a list of members: their characters in order of first appearance, or for
a negated class the printable characters that none of them stands for. -/
def alphabetOf (members : List ClassItem) (negated : Bool) : Text :=
  let plain := members.foldl (fun alphabet m => Alphabet.insertAll alphabet m.chars) []
  if negated then Alphabet.complement plain else plain

/-- A character class. -/
structure CharClass where
  members : List ClassItem
  negated : Bool
  /-- False for a shorthand class that stands on its own. -/
  bracketed : Bool
  /-- What positions in the alphabet are drawn from; all alike if there is none. -/
  distribution : Option Distribution
  alphabet : Text := alphabetOf members negated
  alphabet_eq : alphabet = alphabetOf members negated := by rfl

/-! ### Text -/

/-- The characters that need a backslash to stand for themselves. -/
def IsReserved (b : UInt8) : Prop := b = Text.backslash ∨ (Mark.ofByte? b).isSome

instance (b : UInt8) : Decidable (IsReserved b) := inferInstanceAs (Decidable (_ ∨ _))

/-- A character written so that it stands for itself. -/
def literalText (b : UInt8) : Text :=
  if IsReserved b then [Text.backslash, b] else [b]

/-- A member as it is written between brackets. -/
def ClassItem.text : ClassItem → Text
  | literal b => literalText b
  | shorthand name => [Text.backslash, name]
  | posix name => ascii "[:" ++ name ++ ascii ":]"
  | wildcard => [0x2E]

namespace CharClass

/-- A class without its distribution. A class of one shorthand that was not bracketed is
written as the shorthand, every other one with brackets. -/
def membersText (c : CharClass) : Text :=
  match c.bracketed, c.members with
  | false, [.shorthand name] => [Text.backslash, name]
  | _, members =>
    (if c.negated then ascii "[^" else ascii "[") ++ members.flatMap ClassItem.text ++ [0x5D]

/-- A class with its distribution, if it has one. -/
def text (c : CharClass) : Text :=
  c.membersText ++ (match c.distribution with | some d => d.text | none => [])

end CharClass

/-! ### Alphabets of classes -/

private theorem nodup_foldl_insertAll (members : List ClassItem) (alphabet : Text)
    (h : alphabet.Nodup) :
    (members.foldl (fun alphabet m => Alphabet.insertAll alphabet m.chars) alphabet).Nodup := by
  induction members generalizing alphabet with
  | nil => exact h
  | cons m members ih => exact ih _ (Alphabet.nodup_insertAll h _)

/-- No character occurs twice in the alphabet of a class. -/
theorem nodup_alphabetOf (members : List ClassItem) (negated : Bool) :
    (alphabetOf members negated).Nodup := by
  unfold alphabetOf
  cases negated with
  | true => exact Alphabet.nodup_complement _
  | false => exact nodup_foldl_insertAll members [] List.nodup_nil

end PatternSampler
