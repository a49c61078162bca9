/-
Module: PatternSampler.Pattern.Generation
Purpose: Drawing a string from a pattern. A draw walks the tree from left to right and takes
  words from the source as it meets wildcards, classes, choices and repeats. Trees that no
  text stands for can be at fault; words taken before a fault stay taken.
Main exports: DrawFault, Generation, drawCount, drawPosition, Node.generate,
  Pattern.generate, Pattern.generateMany
-/
import PatternSampler.Distribution.Sample
import PatternSampler.Pattern

namespace PatternSampler

/-- What can be wrong with a tree when a string is drawn from it. -/
inductive DrawFault where
  | invertedBounds (min max : UInt64)
  | emptyAlphabet
deriving DecidableEq, Repr

/-- The wording of a fault. -/
def DrawFault.message : DrawFault → Text
  | invertedBounds min max =>
    ascii "quantifier bounds are inverted: min " ++ Text.decimal min.toNat ++ ascii " > max "
      ++ Text.decimal max.toNat
  | emptyAlphabet => ascii "character class has an empty alphabet"

/-- A draw that may end in a fault. The source stands behind the words taken in either case. -/
abbrev Generation (σ : Type) := ExceptT DrawFault (Draw σ)

/-- The cap on unbounded repeats where none is given. -/
def defaultCap : UInt64 := 32

namespace Generation

variable {σ : Type} [WordSource σ]

/-- The greatest number of times of a repeat: for an unbounded one the cap, or its minimum if
that is greater. -/
def effectiveMax (cap : UInt64) (bounds : Bounds) : UInt64 :=
  match bounds.max with
  | some max => max
  | none => if cap < bounds.min then bounds.min else cap

/-- A value moved between two bounds. -/
def clamp (value low high : UInt64) : UInt64 :=
  if value < low then low else if high < value then high else value

/-- The number of times that a repeat is drawn. A sample outside the bounds is moved to the
nearer one. -/
def drawCount (cap : UInt64) (bounds : Bounds) (distribution : Option Distribution) :
    Generation σ UInt64 :=
  if bounds.ceiling < bounds.min then throw (.invertedBounds bounds.min bounds.ceiling)
  else
    match distribution with
    | none => (Draw.uniformWord bounds.min (effectiveMax cap bounds) : Draw σ UInt64)
    | some d => do
      return clamp (← (d.sample : Draw σ UInt64)) bounds.min (effectiveMax cap bounds)

/-- The position in an alphabet that a sample stands for: ranks count from one, all other
samples from zero, and what lies behind the last position is moved to it. -/
def positionOf (d : Distribution) (sample last : UInt64) : UInt64 :=
  let index := match d with | .zipf _ => sample - 1 | _ => sample
  if last < index then last else index

/-- The position in the alphabet of a class that is drawn. -/
def drawPosition (c : CharClass) : Generation σ UInt64 :=
  if c.alphabet = [] then throw .emptyAlphabet
  else
    let last := UInt64.ofNat c.alphabet.length - 1
    match c.distribution with
    | none => (Draw.uniformWord 0 last : Draw σ UInt64)
    | some d => do return positionOf d (← (d.sample : Draw σ UInt64)) last

/-- A character of an alphabet that is drawn with equal chances. -/
def uniformChar (alphabet : Text) : Generation σ Text := do
  let index ← (Draw.uniformWord 0 (UInt64.ofNat alphabet.length - 1) : Draw σ UInt64)
  return [alphabet.getD index.toNat 0]

/-- What a draw gives when it is made `count` times, behind what it gave before; `made` holds
that in reverse order. -/
def timesAfter {α : Type} (draw : Generation σ α) (made : List α) : Nat → Generation σ (List α)
  | 0 => return made.reverse
  | count + 1 => do timesAfter draw ((← draw) :: made) count

/-- What a draw gives when it is made `count` times, in order. A fault ends it at once. -/
def times {α : Type} (count : UInt64) (draw : Generation σ α) : Generation σ (List α) :=
  timesAfter draw [] count.toNat

end Generation

open Generation

variable {σ : Type} [WordSource σ]

mutual

/-- A string drawn from a node. -/
def Node.generate (cap : UInt64) : Node → Generation σ Text
  | .literal _ b => return [b]
  | .wildcard _ => uniformChar Alphabet.printable
  | .charClass _ c => do return [c.alphabet.getD (← drawPosition c).toNat 0]
  | .concat _ children => Node.generateAll cap children
  | .alternation _ branches => do
    let index ← (Draw.uniformWord 0 (UInt64.ofNat branches.length - 1) : Draw σ UInt64)
    Node.generateNth cap branches index.toNat
  | .quantified _ bounds distribution child => do
    let count ← drawCount cap bounds distribution
    return (← times count (child.generate cap)).flatten

/-- Strings drawn from nodes one after the other, joined. -/
def Node.generateAll (cap : UInt64) : List Node → Generation σ Text
  | [] => return []
  | child :: children => do
    let text ← child.generate cap
    return text ++ (← Node.generateAll cap children)

/-- A string drawn from the node at a position of a list. -/
def Node.generateNth (cap : UInt64) : List Node → Nat → Generation σ Text
  | [], _ => return []
  | branch :: _, 0 => branch.generate cap
  | _ :: branches, index + 1 => Node.generateNth cap branches index

end

namespace Pattern

/-- A string drawn from a pattern. Anchors add nothing to it. -/
def generate (p : Pattern) (cap : UInt64) : Generation σ Text := p.root.generate cap

/-- Several strings drawn from a pattern, one after the other. Limits of memory are not modelled:
the list holds as many strings as are asked for, however many that are. -/
def generateMany (p : Pattern) (cap count : UInt64) : Generation σ (List Text) :=
  times count (p.generate cap)

end Pattern

end PatternSampler
