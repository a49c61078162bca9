/-
Module: PatternSampler.Alphabet
Purpose: Alphabets: ordered lists of the bytes that may stand at one position. Positions in
  an alphabet are what distributions draw, so its order matters as much as its members.
  This module holds the printable characters, the named classes, and the two ways
  alphabets are combined: in order of first appearance, and by complement in the
  printable characters.
Main exports: printable, NamedClass, shorthand?, posix?, insertAll, complement
-/
import PatternSampler.Text

namespace PatternSampler.Alphabet

/-- The printable ASCII characters in byte order: what an unrestricted position draws
from, and what a negated class is taken out of. -/
def printable : Text :=
  (List.range 95).map fun i => UInt8.ofNat (0x20 + i)

/-- The ASCII bytes with a property, in byte order. -/
def asciiWhere (keep : UInt8 → Bool) : Text :=
  ((List.range 128).map UInt8.ofNat).filter keep

/-- The six characters that count as white space, the blank first. -/
def whiteSpace : Text := [0x20, 0x09, 0x0A, 0x0D, 0x0C, 0x0B]

/-! ### Named classes -/

/-- The classes that can be named inside a bracketed class as `[:name:]`. -/
inductive NamedClass where
  | alnum | alpha | blank | cntrl | digit | graph | lower
  | print | punct | space | upper | word | xdigit
deriving DecidableEq, Repr

namespace NamedClass

/-- Every named class. -/
def all : List NamedClass :=
  [alnum, alpha, blank, cntrl, digit, graph, lower, print, punct, space, upper, word, xdigit]

/-- The name a class is written with. -/
def name : NamedClass → Text
  | alnum => ascii "alnum"
  | alpha => ascii "alpha"
  | blank => ascii "blank"
  | cntrl => ascii "cntrl"
  | digit => ascii "digit"
  | graph => ascii "graph"
  | lower => ascii "lower"
  | print => ascii "print"
  | punct => ascii "punct"
  | space => ascii "space"
  | upper => ascii "upper"
  | word => ascii "word"
  | xdigit => ascii "xdigit"

/-- The members of a class in the order in which they enter an alphabet. -/
def members : NamedClass → Text
  | alnum => asciiWhere fun b => IsLetter b ∨ IsDigit b
  | alpha => asciiWhere fun b => IsLetter b
  | blank => [0x20, 0x09]
  | cntrl => asciiWhere fun b => b < 0x20 ∨ b = 0x7F
  | digit => asciiWhere fun b => IsDigit b
  | graph => asciiWhere fun b => 0x21 ≤ b ∧ b ≤ 0x7E
  | lower => asciiWhere fun b => IsLower b
  | print => asciiWhere fun b => 0x20 ≤ b ∧ b ≤ 0x7E
  | punct => asciiWhere fun b => (0x21 ≤ b ∧ b ≤ 0x7E) ∧ ¬(IsLetter b ∨ IsDigit b)
  | space => whiteSpace
  | upper => asciiWhere fun b => IsUpper b
  | word => asciiWhere fun b => (IsLetter b ∨ IsDigit b) ∨ b = 0x5F
  | xdigit => asciiWhere fun b =>
      IsDigit b ∨ (0x41 ≤ b ∧ b ≤ 0x46) ∨ (0x61 ≤ b ∧ b ≤ 0x66)

/-- The class with a given name. -/
def ofName? (t : Text) : Option NamedClass :=
  all.find? (·.name = t)

theorem name_of_ofName? {t : Text} {c : NamedClass} (h : ofName? t = some c) : c.name = t := by
  simpa using List.find?_some h

end NamedClass

/-- The members of the class `[:name:]`; none if the name is not known. -/
def posix? (name : Text) : Option Text :=
  (NamedClass.ofName? name).map NamedClass.members

/-- The members of the class written as a backslash and a letter. -/
def shorthand? (name : UInt8) : Option Text :=
  if name = 0x77 then some NamedClass.word.members
  else if name = 0x73 then some whiteSpace
  else if name = 0x64 then some NamedClass.digit.members
  else none

/-! ### Combining alphabets -/

/-- Adds a character at the end of an alphabet unless it is in it already. -/
def insert (alphabet : Text) (b : UInt8) : Text :=
  if b ∈ alphabet then alphabet else alphabet ++ [b]

/-- Adds the characters of a text in order, each where it first appears. -/
def insertAll (alphabet chars : Text) : Text :=
  chars.foldl insert alphabet

/-- The printable characters that are not excluded, in byte order. -/
def complement (excluded : Text) : Text :=
  printable.filter (· ∉ excluded)

@[simp] theorem mem_insert {alphabet : Text} {b c : UInt8} :
    c ∈ insert alphabet b ↔ c ∈ alphabet ∨ c = b := by
  unfold insert
  split
  next h => exact ⟨Or.inl, fun hc => hc.elim id fun e => e ▸ h⟩
  next => simp

theorem nodup_insert {alphabet : Text} (h : alphabet.Nodup) (b : UInt8) :
    (insert alphabet b).Nodup := by
  unfold insert
  split
  next => exact h
  next hb =>
    rw [List.nodup_append]
    refine ⟨h, by simp, ?_⟩
    intro x hx y hy e
    simp at hy
    exact hb (hy ▸ e ▸ hx)

@[simp] theorem mem_insertAll {alphabet chars : Text} {c : UInt8} :
    c ∈ insertAll alphabet chars ↔ c ∈ alphabet ∨ c ∈ chars := by
  induction chars generalizing alphabet with
  | nil => simp [insertAll]
  | cons b chars ih =>
    rw [show insertAll alphabet (b :: chars) = insertAll (insert alphabet b) chars from rfl, ih]
    simp [or_assoc]

/-- Adding characters keeps an alphabet free of repetitions. -/
theorem nodup_insertAll {alphabet : Text} (h : alphabet.Nodup) (chars : Text) :
    (insertAll alphabet chars).Nodup := by
  induction chars generalizing alphabet with
  | nil => exact h
  | cons b chars ih => exact ih (nodup_insert h b)

@[simp] theorem mem_complement {excluded : Text} {c : UInt8} :
    c ∈ complement excluded ↔ c ∈ printable ∧ c ∉ excluded := by
  simp [complement]

theorem nodup_printable : printable.Nodup := by decide

theorem nodup_complement (excluded : Text) : (complement excluded).Nodup :=
  nodup_printable.filter _

end PatternSampler.Alphabet
