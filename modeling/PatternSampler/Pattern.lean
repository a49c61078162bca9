/-
Module: PatternSampler.Pattern
Purpose: Patterns as trees. A tree is built of single characters, wildcards, classes,
  sequences, choices and repeats; every node remembers the offset at which it is written.
  A sequence and a choice have at least two parts: the functions that build them check it.
Main exports: Bounds, Node, ShapeError, Node.mkConcat, Node.mkAlternation, Pattern
-/
import PatternSampler.CharClass

namespace PatternSampler

/-- How often something is repeated. Without a maximum the repeat is unbounded. -/
structure Bounds where
  min : UInt64
  max : Option UInt64
deriving DecidableEq, Repr

namespace Bounds

/-- The bounds that two words stand for: the greatest word is no maximum. -/
def ofWords (min max : UInt64) : Bounds := ⟨min, if max = maxWord then none else some max⟩

/-- The maximum as a word: the greatest word if the repeat is unbounded. -/
def ceiling (b : Bounds) : UInt64 := b.max.getD maxWord

end Bounds

/-- A node of a pattern. -/
inductive Node where
  /-- A fixed character. -/
  | literal (offset : Nat) (b : UInt8)
  /-- Any printable character. -/
  | wildcard (offset : Nat)
  /-- A character of a class. -/
  | charClass (offset : Nat) (c : CharClass)
  /-- Parts one after the other. -/
  | concat (offset : Nat) (children : List Node)
  /-- One of several branches. -/
  | alternation (offset : Nat) (branches : List Node)
  /-- A part repeated; a distribution draws the number of times. -/
  | quantified (offset : Nat) (bounds : Bounds) (distribution : Option Distribution)
      (child : Node)

namespace Node

/-- Where a node begins in the text it was read from. -/
def offset : Node → Nat
  | literal offset _ => offset
  | wildcard offset => offset
  | charClass offset _ => offset
  | concat offset _ => offset
  | alternation offset _ => offset
  | quantified offset _ _ _ => offset

/-- The parts of a node, in order. -/
def children : Node → List Node
  | concat _ children => children
  | alternation _ branches => branches
  | quantified _ _ _ child => [child]
  | _ => []

/-- Whether a node is a sequence. -/
def isConcat : Node → Bool
  | concat .. => true
  | _ => false

/-- Whether a node is a choice. -/
def isAlternation : Node → Bool
  | alternation .. => true
  | _ => false

/-- Whether a node is a repeat. -/
def isQuantified : Node → Bool
  | quantified .. => true
  | _ => false

end Node

/-! ### Building trees -/

/-- Why a tree cannot be built. -/
inductive ShapeError where
  | concatTooShort
  | alternationTooShort
  | missingChild
  | missingRoot
deriving DecidableEq, Repr

/-- The wording of a shape error. -/
def ShapeError.message : ShapeError → Text
  | concatTooShort => ascii "concatenation needs at least two children"
  | alternationTooShort => ascii "alternation needs at least two branches"
  | missingChild => ascii "quantifier needs a child"
  | missingRoot => ascii "pattern needs a root node"

namespace Node

/-- A sequence of at least two parts. -/
def mkConcat (offset : Nat) (children : List Node) : Except ShapeError Node :=
  if 2 ≤ children.length then .ok (concat offset children) else .error .concatTooShort

/-- A choice among at least two branches. -/
def mkAlternation (offset : Nat) (branches : List Node) : Except ShapeError Node :=
  if 2 ≤ branches.length then .ok (alternation offset branches)
  else .error .alternationTooShort

/-- A repeat of a part, which has to be there. -/
def mkQuantified (offset : Nat) (bounds : Bounds) (distribution : Option Distribution)
    (child : Option Node) : Except ShapeError Node :=
  match child with
  | some child => .ok (quantified offset bounds distribution child)
  | none => .error .missingChild

/-- Several parts in sequence; a single part stands for itself. -/
def sequence (offset : Nat) : List Node → Node
  | [child] => child
  | children => concat offset children

/-- A choice among branches; a single branch stands for itself. -/
def choice (offset : Nat) : List Node → Node
  | [branch] => branch
  | branches => alternation offset branches

end Node

/-- A pattern: a tree, whether its text was anchored at either end, and the text it was read
from. -/
structure Pattern where
  root : Node
  startAnchor : Bool
  endAnchor : Bool
  source : Text

/-- A pattern over a tree, which has to be there. -/
def mkPattern (root : Option Node) (startAnchor endAnchor : Bool) (source : Text) :
    Except ShapeError Pattern :=
  match root with
  | some root => .ok ⟨root, startAnchor, endAnchor, source⟩
  | none => .error .missingRoot

end PatternSampler
