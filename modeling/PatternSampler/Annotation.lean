/-
Module: PatternSampler.Annotation
Purpose: Annotations as they are written: `~Name(parameters)`, before their meaning at the
  place where they stand is known. A parameter is a number, with or without a key.
Main exports: Key, Parameter, Annotation
-/
import PatternSampler.Location
import PatternSampler.Numeral

namespace PatternSampler

/-- The key of a named parameter: one character, possibly written with a backslash. -/
structure Key where
  byte : UInt8
  escaped : Bool
deriving DecidableEq, Repr

/-- A key as it is written. -/
def Key.text (k : Key) : Text :=
  if k.escaped then [Text.backslash, k.byte] else [k.byte]

/-- An unescaped point as a key stands for all that no other parameter names. -/
def Key.namesOthers (k : Key) : Bool := k.byte = 0x2E && !k.escaped

/-- One parameter of an annotation: a number with its spelling, which messages repeat and
counts are read off. -/
structure Parameter where
  key : Option Key
  spelling : Text
  value : Binary64
  /-- Whether the number may stand for a count. -/
  integral : Bool
  place : Location
deriving DecidableEq, Repr

/-- The parameter that a numeral stands for. -/
def Parameter.ofNumeral (key : Option Key) (n : Numeral) (place : Location) : Parameter :=
  ⟨key, n.text, n.value, n.integral, place⟩

/-- An annotation; its place is that of the tilde. -/
structure Annotation where
  name : Text
  place : Location
  parameters : List Parameter
deriving DecidableEq, Repr

namespace Annotation

/-- The parameters without a key, in order. -/
def positional (a : Annotation) : List Parameter :=
  a.parameters.filter (·.key.isNone)

/-- The parameters with a key, in order, each with its key. -/
def named (a : Annotation) : List (Key × Parameter) :=
  a.parameters.filterMap fun p => p.key.map (·, p)

end Annotation

end PatternSampler
