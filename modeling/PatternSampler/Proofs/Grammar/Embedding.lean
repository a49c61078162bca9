/-
Module: PatternSampler.Proofs.Grammar.Embedding
Purpose: Phrases inside a larger text. Tokens that make up a phrase make up the same phrase when
  they are moved to other places and a closing parenthesis stands behind them; the nodes of
  the tree move along. Two productions look at what follows a phrase, and to both of them a
  closing parenthesis is no different from the end of the text.
Main exports: Token.move, Node.shift, Grammar.embed, Grammar.Derives.embed,
  Grammar.Derives.deepen
-/
import PatternSampler.Proofs.Grammar.Completeness
import PatternSampler.Proofs.Resolution.Places

namespace PatternSampler

/-! ### Moved tokens and shifted trees -/

/-- A token at another place. -/
def Token.move (g : Location → Location) (t : Token) : Token := ⟨t.symbol, g t.place⟩

mutual

/-- A tree with every offset increased. -/
def Node.shift (k : Nat) : Node → Node
  | .literal offset b => .literal (offset + k) b
  | .wildcard offset => .wildcard (offset + k)
  | .charClass offset c => .charClass (offset + k) c
  | .concat offset children => .concat (offset + k) (Node.shiftAll k children)
  | .alternation offset branches => .alternation (offset + k) (Node.shiftAll k branches)
  | .quantified offset bounds distribution child =>
    .quantified (offset + k) bounds distribution (child.shift k)

/-- Trees with every offset increased. -/
def Node.shiftAll (k : Nat) : List Node → List Node
  | [] => []
  | n :: ns => n.shift k :: Node.shiftAll k ns

end

namespace Node

variable (k : Nat)

theorem offset_shift (n : Node) : (n.shift k).offset = n.offset + k := by
  cases n with
  | literal | wildcard | charClass | concat | alternation | quantified => rfl

theorem shift_sequence (offset : Nat) (ns : List Node) :
    (sequence offset ns).shift k = sequence (offset + k) (shiftAll k ns) := by
  match ns with
  | [] => rfl
  | [n] => rfl
  | first :: second :: others => rfl

theorem shift_choice (offset : Nat) (ns : List Node) :
    (choice offset ns).shift k = choice (offset + k) (shiftAll k ns) := by
  match ns with
  | [] => rfl
  | [n] => rfl
  | first :: second :: others => rfl

end Node

namespace Grammar

/-- A form for trees with every offset increased. -/
def Form.shift (k : Nat) : Form → Form
  | .atom n => .atom (n.shift k)
  | .factor n => .factor (n.shift k)
  | .factors ns => .factors (Node.shiftAll k ns)
  | .expression n => .expression (n.shift k)
  | .branches ns => .branches (Node.shiftAll k ns)
  | .alternation n => .alternation (n.shift k)

/-- Tokens at other places with more tokens behind them. -/
def embed (g : Location → Location) (tail ts : List Token) : List Token :=
  ts.map (·.move g) ++ tail

variable {g : Location → Location} {tail ts rest : List Token}

/-- What follows embedded tokens is what followed them, or what follows in the larger text. -/
theorem peekSymbol_embed (ts : List Token) :
    peekSymbol (embed g tail ts) = peekSymbol ts ∨
      peekSymbol (embed g tail ts) = peekSymbol tail := by
  cases ts with
  | nil => exact .inr rfl
  | cons t ts => exact .inl rfl

/-! ### Embedded numbers and annotations -/

theorem Run.embed {p : Symbol → Bool} {bytes : Text} (run : Run p ts bytes rest) :
    Run p (embed g tail ts) bytes (embed g tail rest) := by
  induction run with
  | done rest => exact .done _
  | @more t _ _ _ holds _ inductionHypothesis =>
    exact @Run.more p (t.move g) _ _ _ holds inductionHypothesis

theorem Minus.embed {negative : Bool} (minus : Minus ts negative rest) :
    Minus (embed g tail ts) negative (embed g tail rest) := by
  cases minus with
  | absent => exact .absent _
  | present => exact .present _ _

theorem Mantissa.embed {whole : Text} {fraction : Option Text}
    (mantissa : Mantissa ts whole fraction rest) :
    Mantissa (embed g tail ts) whole fraction (embed g tail rest) := by
  cases mantissa with
  | integer digits nonempty => exact .integer digits.embed nonempty
  | pointed digits nonempty decimals => exact .pointed digits.embed nonempty decimals.embed
  | bare decimals nonempty => exact .bare decimals.embed nonempty

theorem Sign.embed {sign : Text} (signed : Sign ts sign rest) :
    Sign (embed g tail ts) sign (embed g tail rest) := by
  cases signed with
  | absent => exact .absent _
  | minus => exact .minus _ _
  | plus => exact .plus _ _

theorem Power.embed {exponent : Option Exponent} (power : Power ts exponent rest) :
    Power (embed g tail ts) exponent (embed g tail rest) := by
  cases power with
  | absent => exact .absent _
  | present opens signed run nonempty => exact .present opens signed.embed run.embed nonempty

theorem Number.embed {n : Numeral} (number : Number ts n rest) :
    Number (embed g tail ts) n (embed g tail rest) := by
  cases number with
  | intro minus mantissa power => exact .intro minus.embed mantissa.embed power.embed

theorem Argument.embed {p : Parameter} (argument : Argument ts p rest) :
    Argument (embed g tail ts) (p.move g) (embed g tail rest) := by
  cases argument with
  | @positional t _ _ _ number inRange =>
    exact @Argument.positional (t.move g) _ _ _ number.embed inRange
  | named names number inRange => exact .named names number.embed inRange

theorem Arguments.embed {ps : List Parameter} (arguments : Arguments ts ps rest) :
    Arguments (embed g tail ts) (ps.map (·.move g)) (embed g tail rest) := by
  induction arguments with
  | last argument => exact .last argument.embed
  | more argument _ inductionHypothesis => exact .more argument.embed inductionHypothesis

variable (closes : peekSymbol tail = .mark .rightParen)

include closes

theorem ArgumentList.embed {ps : List Parameter} (list : ArgumentList ts ps rest) :
    ArgumentList (embed g tail ts) (ps.map (·.move g)) (embed g tail rest) := by
  cases list with
  | absent noLetter noParen =>
    rcases @peekSymbol_embed g tail ts with same | behind
    · exact .absent (by rw [same]; exact noLetter) (by rw [same]; exact noParen)
    · rw [closes] at behind
      exact .absent (by rw [behind]; decide) (by rw [behind]; decide)
  | empty => exact .empty _ _ _
  | listed arguments => exact .listed arguments.embed

theorem Note.embed {a : Annotation} (note : Note ts a rest) :
    Note (embed g tail ts) (a.move g) (embed g tail rest) := by
  cases note with
  | intro letters nonempty arguments => exact .intro letters.embed nonempty (arguments.embed closes)

/-- An annotation that means something at its place means the same at every other place. -/
theorem Attached.embed {meaning : Annotation → Except Refusal Distribution}
    {d : Option Distribution} (attached : Attached meaning ts d rest)
    (moves : ∀ {a d}, meaning a = .ok d → meaning (a.move g) = .ok d) :
    Attached meaning (embed g tail ts) d (embed g tail rest) := by
  cases attached with
  | absent => exact .absent _
  | present note means => exact .present (note.embed closes) (moves means)

omit closes

/-! ### Embedded classes -/

theorem Member.embed {m : ClassItem} (member : Member ts m rest) :
    Member (embed g tail ts) m (embed g tail rest) := by
  cases member with
  | named letters known => exact .named letters.embed known
  | wildcard => exact .wildcard _ _
  | shorthand => exact .shorthand _ _ _
  | single _ _ notDot notShorthand notLeft notRight notLone =>
    exact .single _ _ notDot notShorthand notLeft notRight notLone

theorem Members.embed {ms : List ClassItem} (members : Members ts ms rest) :
    Members (embed g tail ts) ms (embed g tail rest) := by
  induction members with
  | done => exact .done _
  | more member _ inductionHypothesis => exact .more member.embed inductionHypothesis

include closes

theorem Negation.embed {negated : Bool} (negation : Negation ts negated rest) :
    Negation (embed g tail ts) negated (embed g tail rest) := by
  cases negation with
  | absent noCaret =>
    rcases @peekSymbol_embed g tail ts with same | behind
    · exact .absent (by rw [same]; exact noCaret)
    · rw [closes] at behind
      exact .absent (by rw [behind]; decide)
  | present => exact .present _ _

theorem Class.embed {c : CharClass} (phrase : Class ts c rest) :
    Class (embed g tail ts) c (embed g tail rest) := by
  cases phrase with
  | shorthand inhabited attached =>
    exact .shorthand inhabited (attached.embed closes Annotation.onClass_move_of_ok)
  | bracketed negation listed nonempty inhabited attached =>
    exact .bracketed (negation.embed closes) listed.embed nonempty inhabited
      (attached.embed closes Annotation.onClass_move_of_ok)

omit closes

/-! ### Embedded repeats -/

theorem Count.embed {n : UInt64} (count : Count ts n rest) :
    Count (embed g tail ts) n (embed g tail rest) := by
  cases count with
  | intro run nonempty limited => exact .intro run.embed nonempty limited

theorem Maximum.embed {max : Option UInt64} (maximum : Maximum ts max rest) :
    Maximum (embed g tail ts) max (embed g tail rest) := by
  cases maximum with
  | absent => exact .absent _
  | present count => exact .present count.embed

include closes

theorem Quantifier.embed {r : Repeat} (quantifier : Quantifier ts r rest) :
    Quantifier (embed g tail ts) r (embed g tail rest) := by
  cases quantifier with
  | mark marks attached =>
    exact .mark marks (attached.embed closes Annotation.onRepeat_move_of_ok)
  | exact count => exact .exact count.embed
  | drawn count note means =>
    exact .drawn count.embed (note.embed closes) <| Annotation.onRepeat_move_of_ok means
  | between minimum maximum ordered attached =>
    exact .between minimum.embed maximum.embed ordered
      (attached.embed closes Annotation.onRepeat_move_of_ok)

/-! ### Embedded trees -/

/-- A phrase inside a larger text stands for its tree, shifted by as much as its tokens. -/
theorem Derives.embed {k depth : Nat} {form : Form} (derived : Derives depth form ts rest)
    (shifts : ∀ p, (g p).offset = p.offset + k) :
    Derives depth (form.shift k) (embed g tail ts) (embed g tail rest) := by
  induction derived with
  | literal depth b place rest =>
    have atom := Derives.literal depth b (g place) (Grammar.embed g tail rest)
    rw [shifts] at atom
    exact atom
  | escaped depth b place rest =>
    have atom := Derives.escaped depth b (g place) (Grammar.embed g tail rest)
    rw [shifts] at atom
    exact atom
  | wildcard depth place rest =>
    have atom := Derives.wildcard depth (g place) (Grammar.embed g tail rest)
    rw [shifts] at atom
    exact atom
  | @charClass depth t ts rest c phrase =>
    have atom := @Derives.charClass depth (t.move g) _ _ _ (phrase.embed closes)
    rw [show (t.move g).place.offset = _ from shifts t.place] at atom
    exact atom
  | group _ inductionHypothesis => exact .group inductionHypothesis
  | bare _ inductionHypothesis => exact .bare inductionHypothesis
  | @repeated _ _ _ _ n _ _ quantifier inductionHypothesis =>
    have factor := Derives.repeated inductionHypothesis (quantifier.embed closes)
    rw [Node.offset_shift] at factor
    exact factor
  | lastFactor _ inductionHypothesis => exact .lastFactor inductionHypothesis
  | moreFactors _ _ first others => exact .moreFactors first others
  | @sequence _ t _ _ ns _ inductionHypothesis =>
    have expression := @Derives.sequence _ (t.move g) _ _ _ inductionHypothesis
    rw [show (t.move g).place.offset = _ from shifts t.place, ← Node.shift_sequence] at expression
    exact expression
  | lastBranch _ inductionHypothesis => exact .lastBranch inductionHypothesis
  | moreBranches _ _ first others => exact .moreBranches first others
  | @choice _ t _ _ ns _ inductionHypothesis =>
    have alternation := @Derives.choice _ (t.move g) _ _ _ inductionHypothesis
    rw [show (t.move g).place.offset = _ from shifts t.place, ← Node.shift_choice] at alternation
    exact alternation

omit closes

/-- Groups that are nested less deep may stand where deeper ones may. -/
theorem Derives.deepen {depth depth' : Nat} {form : Form} (derived : Derives depth form ts rest)
    (deeper : depth ≤ depth') : Derives depth' form ts rest := by
  induction derived generalizing depth' with
  | literal _ b place rest => exact .literal depth' b place rest
  | escaped _ b place rest => exact .escaped depth' b place rest
  | wildcard _ place rest => exact .wildcard depth' place rest
  | charClass _ phrase => exact .charClass depth' phrase
  | group _ inductionHypothesis =>
    cases depth' with
    | zero => exact absurd deeper (Nat.not_succ_le_zero _)
    | succ depth' => exact .group (inductionHypothesis (Nat.le_of_succ_le_succ deeper))
  | bare _ inductionHypothesis => exact .bare (inductionHypothesis deeper)
  | repeated _ quantifier inductionHypothesis =>
    exact .repeated (inductionHypothesis deeper) quantifier
  | lastFactor _ inductionHypothesis => exact .lastFactor (inductionHypothesis deeper)
  | moreFactors _ _ first others => exact .moreFactors (first deeper) (others deeper)
  | sequence _ inductionHypothesis => exact .sequence (inductionHypothesis deeper)
  | lastBranch _ inductionHypothesis => exact .lastBranch (inductionHypothesis deeper)
  | moreBranches _ _ first others => exact .moreBranches (first deeper) (others deeper)
  | choice _ inductionHypothesis => exact .choice (inductionHypothesis deeper)

end Grammar

end PatternSampler
