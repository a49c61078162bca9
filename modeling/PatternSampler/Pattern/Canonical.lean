/-
Module: PatternSampler.Pattern.Canonical
Purpose: The canonical text of a pattern. Parentheses stand only where the tree would
  otherwise be read differently, reserved characters are escaped, repeats take the
  shortest of their spellings, and distributions are written with all parameters.
Main exports: Node.text, Node.textOnto, Pattern.text
-/
import PatternSampler.Pattern

namespace PatternSampler

/-- A text, in parentheses if they are needed. -/
def grouped (needed : Bool) (t : Text) : Text :=
  if needed then 0x28 :: (t ++ [0x29]) else t

/-- The text between the braces of a repeat. -/
def braced (t : Text) : Text := 0x7B :: (t ++ [0x7D])

namespace Bounds

/-- A repeat without a distribution. -/
def text (b : Bounds) : Text :=
  if b.min = 0 ∧ b.max = some 1 then [0x3F]
  else if b.min = 0 ∧ b.max = none then [0x2A]
  else if b.min = 1 ∧ b.max = none then [0x2B]
  else if b.min = b.ceiling then braced (Text.decimal b.min.toNat)
  else
    match b.max with
    | none => braced (Text.decimal b.min.toNat ++ [0x2C])
    | some max => braced (Text.decimal b.min.toNat ++ 0x2C :: Text.decimal max.toNat)

/-- A repeat with a distribution. Without bounds it is written with the single number that the
distribution takes as its baseline: the offset of a geometric one, zero for the others. -/
def textWith (b : Bounds) (d : Distribution) : Text :=
  match b.max with
  | none =>
    if b.min = 0 then
      let baseline := match d with | .geometric _ offset => offset | _ => 0
      braced (Text.decimal baseline.toNat ++ d.text)
    else braced (Text.decimal b.min.toNat ++ 0x2C :: d.text)
  | some max => braced (Text.decimal b.min.toNat ++ 0x2C :: (Text.decimal max.toNat ++ d.text))

/-- A repeat as it is written behind what it repeats. -/
def quantifierText (b : Bounds) (distribution : Option Distribution) : Text :=
  match distribution with
  | none => b.text
  | some d => b.textWith d

end Bounds

mutual

/-- The canonical text of a node. -/
def Node.text : Node → Text
  | .literal _ b => literalText b
  | .wildcard _ => [0x2E]
  | .charClass _ c => c.text
  | .concat _ children => Node.sequenceText children
  | .alternation _ branches => [0x7C].intercalate (Node.branchTexts branches)
  | .quantified _ bounds distribution child =>
    grouped (child.isConcat || child.isAlternation || child.isQuantified) child.text
      ++ bounds.quantifierText distribution

/-- The parts of a sequence one after the other; sequences and choices among them are
grouped. -/
def Node.sequenceText : List Node → Text
  | [] => []
  | child :: children =>
    grouped (child.isConcat || child.isAlternation) child.text ++ Node.sequenceText children

/-- The branches of a choice one by one; choices among them are grouped. -/
def Node.branchTexts : List Node → List Text
  | [] => []
  | branch :: branches => grouped branch.isAlternation branch.text :: Node.branchTexts branches

end

/-! ### Writing in front of a text

Appending the texts of parts copies them once for every level of the tree. The same text is
written without copies from its end to its beginning. -/

mutual

/-- The canonical text of a node in front of another text. -/
def Node.textOnto : Node → Text → Text
  | .literal _ b, rest => literalText b ++ rest
  | .wildcard _, rest => 0x2E :: rest
  | .charClass _ c, rest => c.text ++ rest
  | .concat _ children, rest => Node.sequenceOnto children rest
  | .alternation _ branches, rest => Node.branchesOnto branches rest
  | .quantified _ bounds distribution child, rest =>
    if child.isConcat || child.isAlternation || child.isQuantified then
      0x28 :: child.textOnto (0x29 :: (bounds.quantifierText distribution ++ rest))
    else child.textOnto (bounds.quantifierText distribution ++ rest)

/-- The parts of a sequence in front of another text. -/
def Node.sequenceOnto : List Node → Text → Text
  | [], rest => rest
  | child :: children, rest =>
    if child.isConcat || child.isAlternation then
      0x28 :: child.textOnto (0x29 :: Node.sequenceOnto children rest)
    else child.textOnto (Node.sequenceOnto children rest)

/-- The branches of a choice, separated by bars, in front of another text. -/
def Node.branchesOnto : List Node → Text → Text
  | [], rest => rest
  | branch :: branches, rest =>
    let behind := if branches.isEmpty then rest else 0x7C :: Node.branchesOnto branches rest
    if branch.isAlternation then 0x28 :: branch.textOnto (0x29 :: behind)
    else branch.textOnto behind

end

theorem intercalate_cons_append (bar t : Text) (ts : List Text) (rest : Text) :
    bar.intercalate (t :: ts) ++ rest
      = t ++ (if ts.isEmpty then rest else bar ++ (bar.intercalate ts ++ rest)) := by
  cases ts with
  | nil => simp
  | cons u us => simp

theorem isEmpty_branchTexts (branches : List Node) :
    (Node.branchTexts branches).isEmpty = branches.isEmpty := by
  cases branches with
  | nil => simp [Node.branchTexts]
  | cons branch branches => simp [Node.branchTexts]

mutual

/-- What is written in front of a text is the text of the node. -/
@[simp] theorem Node.textOnto_eq (n : Node) (rest : Text) : n.textOnto rest = n.text ++ rest := by
  cases n with
  | literal offset b => simp [Node.textOnto, Node.text]
  | wildcard offset => simp [Node.textOnto, Node.text]
  | charClass offset c => simp [Node.textOnto, Node.text]
  | concat offset children => simp [Node.textOnto, Node.text, Node.sequenceOnto_eq children rest]
  | alternation offset branches =>
    simp [Node.textOnto, Node.text, Node.branchesOnto_eq branches rest]
  | quantified offset bounds distribution child =>
    rw [Node.textOnto, Node.text, grouped]
    split
    next => simp [Node.textOnto_eq child]
    next => simp [Node.textOnto_eq child]

theorem Node.sequenceOnto_eq (children : List Node) (rest : Text) :
    Node.sequenceOnto children rest = Node.sequenceText children ++ rest := by
  cases children with
  | nil => simp [Node.sequenceOnto, Node.sequenceText]
  | cons child children =>
    rw [Node.sequenceOnto, Node.sequenceText, grouped, Node.sequenceOnto_eq children rest]
    split
    next => simp [Node.textOnto_eq child]
    next => simp [Node.textOnto_eq child]

theorem Node.branchesOnto_eq (branches : List Node) (rest : Text) :
    Node.branchesOnto branches rest = [0x7C].intercalate (Node.branchTexts branches) ++ rest := by
  cases branches with
  | nil => simp [Node.branchesOnto, Node.branchTexts]
  | cons branch branches =>
    rw [Node.branchesOnto, Node.branchTexts, intercalate_cons_append, isEmpty_branchTexts,
      Node.branchesOnto_eq branches rest, grouped]
    split
    next => simp [Node.textOnto_eq branch]
    next => simp [Node.textOnto_eq branch]

end

/-- The canonical text of a pattern with its anchors. -/
def Pattern.text (p : Pattern) : Text :=
  (if p.startAnchor then [0x5E] else []) ++ p.root.textOnto (if p.endAnchor then [0x24] else [])

end PatternSampler
