/-
Module: PatternSampler.Proofs.Grammar
Purpose: The grammar of the template language as relations on tokens, independent of the
  readers. A phrase relation `R ts v rest` says that `ts` begins with a phrase that stands
  for `v` and that `rest` follows the phrase, so a relation can speak of what comes next
  where the longest match decides. Every production is one constructor; what a phrase has
  to fulfil beyond its form (limits, alphabets, meanings of annotations) stands among the
  premises of its production.
Main exports: Grammar.Number, Grammar.Note, Grammar.Class, Grammar.Quantifier,
  Grammar.Derives, Grammar.Accepts, Grammar.AcceptsWithin
-/
import PatternSampler.Pattern.Reader

namespace PatternSampler.Grammar

/-! ### Runs of characters -/

/-- Any number of tokens with a property; the phrase stands for their characters. -/
inductive Run (p : Symbol → Bool) : List Token → Text → List Token → Prop where
  | done (rest : List Token) : Run p rest [] rest
  | more {t : Token} {ts rest : List Token} {bytes : Text} (holds : p t.symbol)
      (others : Run p ts bytes rest) : Run p (t :: ts) (t.symbol.value :: bytes) rest

/-! ### Numbers

    number := '-'? (digit+ ('.' digit*)? | '.' digit+) (('e' | 'E') ('+' | '-')? digit+)? -/

/-- An optional minus sign. -/
inductive Minus : List Token → Bool → List Token → Prop where
  | absent (rest : List Token) : Minus rest false rest
  | present (place : Location) (rest : List Token) :
      Minus (⟨.literal 0x2D, place⟩ :: rest) true rest

/-- Digits with an optional point; there is a digit on one side of it. -/
inductive Mantissa : List Token → Text → Option Text → List Token → Prop where
  | integer {ts rest : List Token} {whole : Text} (digits : Run Symbol.isDigit ts whole rest)
      (nonempty : whole ≠ []) : Mantissa ts whole none rest
  | pointed {place : Location} {ts us rest : List Token} {whole fraction : Text}
      (digits : Run Symbol.isDigit ts whole (⟨.mark .dot, place⟩ :: us)) (nonempty : whole ≠ [])
      (decimals : Run Symbol.isDigit us fraction rest) :
      Mantissa ts whole (some fraction) rest
  | bare {place : Location} {ts rest : List Token} {fraction : Text}
      (decimals : Run Symbol.isDigit ts fraction rest) (nonempty : fraction ≠ []) :
      Mantissa (⟨.mark .dot, place⟩ :: ts) [] (some fraction) rest

/-- The optional sign of an exponent. -/
inductive Sign : List Token → Text → List Token → Prop where
  | absent (rest : List Token) : Sign rest [] rest
  | minus (place : Location) (rest : List Token) :
      Sign (⟨.literal 0x2D, place⟩ :: rest) [0x2D] rest
  | plus (place : Location) (rest : List Token) : Sign (⟨.mark .plus, place⟩ :: rest) [0x2B] rest

/-- An optional exponent with at least one digit. -/
inductive Power : List Token → Option Exponent → List Token → Prop where
  | absent (rest : List Token) : Power rest none rest
  | present {letter : UInt8} {place : Location} {ts us rest : List Token} {sign digits : Text}
      (opens : letter = 0x65 ∨ letter = 0x45) (signed : Sign ts sign us)
      (run : Run Symbol.isDigit us digits rest) (nonempty : digits ≠ []) :
      Power (⟨.literal letter, place⟩ :: ts) (some ⟨letter, sign, digits⟩) rest

/-- A number. -/
inductive Number : List Token → Numeral → List Token → Prop where
  | intro {ts us vs rest : List Token} {negative : Bool} {whole : Text} {fraction : Option Text}
      {exponent : Option Exponent} (minus : Minus ts negative us)
      (mantissa : Mantissa us whole fraction vs) (power : Power vs exponent rest) :
      Number ts ⟨negative, whole, fraction, exponent⟩ rest

/-! ### Annotations

    annotation := '~' letter+ ('(' (parameter (',' parameter)*)? ')')?
    parameter  := (key '=')? number
    key        := literal | escaped | '.' -/

/-- The key that a symbol in front of an equals sign stands for. -/
inductive Names : Symbol → Key → Prop where
  | literal (b : UInt8) : Names (.literal b) ⟨b, false⟩
  | escaped (b : UInt8) : Names (.escaped b) ⟨b, true⟩
  | point : Names (.mark .dot) ⟨0x2E, false⟩

/-- A parameter, whose number has to be in the range of doubles. -/
inductive Argument : List Token → Parameter → List Token → Prop where
  | positional {t : Token} {ts rest : List Token} {n : Numeral} (number : Number (t :: ts) n rest)
      (inRange : n.InRange) : Argument (t :: ts) (.ofNumeral none n t.place) rest
  | named {s : Symbol} {place place' : Location} {ts rest : List Token} {key : Key} {n : Numeral}
      (names : Names s key) (number : Number ts n rest) (inRange : n.InRange) :
      Argument (⟨s, place⟩ :: ⟨.mark .equals, place'⟩ :: ts) (.ofNumeral (some key) n place) rest

/-- Parameters separated by commas. -/
inductive Arguments : List Token → List Parameter → List Token → Prop where
  | last {ts rest : List Token} {p : Parameter} (argument : Argument ts p rest) :
      Arguments ts [p] rest
  | more {place : Location} {ts us rest : List Token} {p : Parameter} {ps : List Parameter}
      (argument : Argument ts p (⟨.mark .comma, place⟩ :: us)) (others : Arguments us ps rest) :
      Arguments ts (p :: ps) rest

/-- What stands behind the name of an annotation. Without a parameter list the annotation ends
only where neither a letter nor an opening parenthesis follows. -/
inductive ArgumentList : List Token → List Parameter → List Token → Prop where
  | absent {rest : List Token} (noLetter : ¬ (peekSymbol rest).isLetter)
      (noParen : peekSymbol rest ≠ .mark .leftParen) : ArgumentList rest [] rest
  | empty (place place' : Location) (rest : List Token) :
      ArgumentList (⟨.mark .leftParen, place⟩ :: ⟨.mark .rightParen, place'⟩ :: rest) [] rest
  | listed {place place' : Location} {ts rest : List Token} {ps : List Parameter}
      (arguments : Arguments ts ps (⟨.mark .rightParen, place'⟩ :: rest)) :
      ArgumentList (⟨.mark .leftParen, place⟩ :: ts) ps rest

/-- An annotation. -/
inductive Note : List Token → Annotation → List Token → Prop where
  | intro {place : Location} {ts us rest : List Token} {name : Text} {ps : List Parameter}
      (letters : Run Symbol.isLetter ts name us) (nonempty : name ≠ [])
      (arguments : ArgumentList us ps rest) :
      Note (⟨.mark .tilde, place⟩ :: ts) ⟨name, place, ps⟩ rest

/-- An optional annotation that means something at its place. -/
inductive Attached (meaning : Annotation → Except Refusal Distribution) :
    List Token → Option Distribution → List Token → Prop where
  | absent (rest : List Token) : Attached meaning rest none rest
  | present {ts rest : List Token} {a : Annotation} {d : Distribution} (note : Note ts a rest)
      (means : meaning a = .ok d) : Attached meaning ts (some d) rest

/-! ### Classes

    class  := shorthand annotation? | '[' '^'? member+ ']' annotation?
    member := '[' ':' letter* ':' ']' | any token but '[', ']' and a lone backslash -/

/-- A member of a bracketed class. A named class has to be known. -/
inductive Member : List Token → ClassItem → List Token → Prop where
  | named {p₁ p₂ p₃ p₄ : Location} {ts rest : List Token} {name : Text}
      (letters : Run Symbol.isLetter ts name
        (⟨.literal 0x3A, p₃⟩ :: ⟨.mark .rightBracket, p₄⟩ :: rest))
      (known : (Alphabet.posix? name).isSome) :
      Member (⟨.mark .leftBracket, p₁⟩ :: ⟨.literal 0x3A, p₂⟩ :: ts) (.posix name) rest
  | wildcard (place : Location) (rest : List Token) :
      Member (⟨.mark .dot, place⟩ :: rest) .wildcard rest
  | shorthand (name : UInt8) (place : Location) (rest : List Token) :
      Member (⟨.shorthand name, place⟩ :: rest) (.shorthand name) rest
  | single {s : Symbol} (place : Location) (rest : List Token) (notDot : s ≠ .mark .dot)
      (notShorthand : ∀ name, s ≠ .shorthand name) (notLeft : s ≠ .mark .leftBracket)
      (notRight : s ≠ .mark .rightBracket) (notLone : s ≠ .loneBackslash) :
      Member (⟨s, place⟩ :: rest) (.literal s.value) rest

/-- Any number of members. -/
inductive Members : List Token → List ClassItem → List Token → Prop where
  | done (rest : List Token) : Members rest [] rest
  | more {ts us rest : List Token} {m : ClassItem} {ms : List ClassItem} (member : Member ts m us)
      (others : Members us ms rest) : Members ts (m :: ms) rest

/-- An optional negation sign. A sign that is there is always one. -/
inductive Negation : List Token → Bool → List Token → Prop where
  | absent {rest : List Token} (noCaret : peekSymbol rest ≠ .mark .caret) :
      Negation rest false rest
  | present (place : Location) (rest : List Token) :
      Negation (⟨.mark .caret, place⟩ :: rest) true rest

/-- A class with its annotation. Its alphabet must not be empty, and the annotation has its
meaning over that alphabet. -/
inductive Class : List Token → CharClass → List Token → Prop where
  | shorthand {name : UInt8} {place : Location} {ts rest : List Token} {d : Option Distribution}
      (inhabited : alphabetOf [.shorthand name] false ≠ [])
      (attached : Attached (·.onClass (alphabetOf [.shorthand name] false)) ts d rest) :
      Class (⟨.shorthand name, place⟩ :: ts)
        { members := [.shorthand name], negated := false, bracketed := false, distribution := d }
        rest
  | bracketed {place place' : Location} {ts us vs rest : List Token} {negated : Bool}
      {members : List ClassItem} {d : Option Distribution} (negation : Negation ts negated us)
      (listed : Members us members (⟨.mark .rightBracket, place'⟩ :: vs))
      (nonempty : members ≠ []) (inhabited : alphabetOf members negated ≠ [])
      (attached : Attached (·.onClass (alphabetOf members negated)) vs d rest) :
      Class (⟨.mark .leftBracket, place⟩ :: ts)
        { members, negated, bracketed := true, distribution := d } rest

/-! ### Repeats

    repeat := ('*' | '+' | '?') annotation? | '{' digit+ (',' digit*)? annotation? '}' -/

/-- A repeat count within the limit. -/
inductive Count : List Token → UInt64 → List Token → Prop where
  | intro {ts rest : List Token} {digits : Text} (run : Run Symbol.isDigit ts digits rest)
      (nonempty : digits ≠ []) (limited : Text.decimalValue digits ≤ maxRepeatCount) :
      Count ts (UInt64.ofNat (Text.decimalValue digits)) rest

/-- An optional maximum. -/
inductive Maximum : List Token → Option UInt64 → List Token → Prop where
  | absent (rest : List Token) : Maximum rest none rest
  | present {ts rest : List Token} {max : UInt64} (count : Count ts max rest) :
      Maximum ts (some max) rest

/-- The bounds of the marks that repeat. -/
inductive Marks : Mark → Bounds → Prop where
  | star : Marks .star ⟨0, none⟩
  | plus : Marks .plus ⟨1, none⟩
  | question : Marks .question ⟨0, some 1⟩

/-- A repeat with its annotation, which has its meaning over the minimum. A single number with an
annotation stands for no bounds at all. -/
inductive Quantifier : List Token → Repeat → List Token → Prop where
  | mark {m : Mark} {place : Location} {ts rest : List Token} {bounds : Bounds}
      {d : Option Distribution} (marks : Marks m bounds)
      (attached : Attached (·.onRepeat bounds.min) ts d rest) :
      Quantifier (⟨.mark m, place⟩ :: ts) ⟨bounds, d⟩ rest
  | exact {place place' : Location} {ts rest : List Token} {n : UInt64}
      (count : Count ts n (⟨.mark .rightBrace, place'⟩ :: rest)) :
      Quantifier (⟨.mark .leftBrace, place⟩ :: ts) ⟨⟨n, some n⟩, none⟩ rest
  | drawn {place place' : Location} {ts us rest : List Token} {n : UInt64} {a : Annotation}
      {d : Distribution} (count : Count ts n us)
      (note : Note us a (⟨.mark .rightBrace, place'⟩ :: rest)) (means : a.onRepeat n = .ok d) :
      Quantifier (⟨.mark .leftBrace, place⟩ :: ts) ⟨⟨0, none⟩, some d⟩ rest
  | between {place place' place'' : Location} {ts us vs rest : List Token} {min : UInt64}
      {max : Option UInt64} {d : Option Distribution}
      (minimum : Count ts min (⟨.mark .comma, place'⟩ :: us)) (maximum : Maximum us max vs)
      (ordered : ∀ m ∈ max, min ≤ m)
      (attached : Attached (·.onRepeat min) vs d (⟨.mark .rightBrace, place''⟩ :: rest)) :
      Quantifier (⟨.mark .leftBrace, place⟩ :: ts) ⟨⟨min, max⟩, d⟩ rest

/-! ### Patterns

    pattern     := '^'? alternation '$'? end
    alternation := expression ('|' expression)*
    expression  := factor+
    factor      := atom repeat?
    atom        := literal | escaped | '.' | class | '(' alternation ')' -/

/-- What a phrase of the recursive part of the grammar stands for. -/
inductive Form where
  | atom (n : Node)
  | factor (n : Node)
  | factors (ns : List Node)
  | expression (n : Node)
  | branches (ns : List Node)
  | alternation (n : Node)

/-- The recursive part of the grammar: `Derives depth form ts rest` says that `ts` begins with a
phrase for `form` in which groups are nested at most `depth` deep, and that `rest` follows. -/
inductive Derives : Nat → Form → List Token → List Token → Prop where
  | literal (depth : Nat) (b : UInt8) (place : Location) (rest : List Token) :
      Derives depth (.atom (.literal place.offset b)) (⟨.literal b, place⟩ :: rest) rest
  | escaped (depth : Nat) (b : UInt8) (place : Location) (rest : List Token) :
      Derives depth (.atom (.literal place.offset b)) (⟨.escaped b, place⟩ :: rest) rest
  | wildcard (depth : Nat) (place : Location) (rest : List Token) :
      Derives depth (.atom (.wildcard place.offset)) (⟨.mark .dot, place⟩ :: rest) rest
  | charClass (depth : Nat) {t : Token} {ts rest : List Token} {c : CharClass}
      (phrase : Class (t :: ts) c rest) :
      Derives depth (.atom (.charClass t.place.offset c)) (t :: ts) rest
  | group {depth : Nat} {place place' : Location} {ts rest : List Token} {n : Node}
      (content : Derives depth (.alternation n) ts (⟨.mark .rightParen, place'⟩ :: rest)) :
      Derives (depth + 1) (.atom n) (⟨.mark .leftParen, place⟩ :: ts) rest
  | bare {depth : Nat} {ts rest : List Token} {n : Node} (atom : Derives depth (.atom n) ts rest) :
      Derives depth (.factor n) ts rest
  | repeated {depth : Nat} {ts us rest : List Token} {n : Node} {r : Repeat}
      (atom : Derives depth (.atom n) ts us) (quantifier : Quantifier us r rest) :
      Derives depth (.factor (.quantified n.offset r.bounds r.distribution n)) ts rest
  | lastFactor {depth : Nat} {ts rest : List Token} {n : Node}
      (factor : Derives depth (.factor n) ts rest) : Derives depth (.factors [n]) ts rest
  | moreFactors {depth : Nat} {ts us rest : List Token} {n : Node} {ns : List Node}
      (factor : Derives depth (.factor n) ts us) (others : Derives depth (.factors ns) us rest) :
      Derives depth (.factors (n :: ns)) ts rest
  | sequence {depth : Nat} {t : Token} {ts rest : List Token} {ns : List Node}
      (factors : Derives depth (.factors ns) (t :: ts) rest) :
      Derives depth (.expression (Node.sequence t.place.offset ns)) (t :: ts) rest
  | lastBranch {depth : Nat} {ts rest : List Token} {n : Node}
      (branch : Derives depth (.expression n) ts rest) : Derives depth (.branches [n]) ts rest
  | moreBranches {depth : Nat} {place : Location} {ts us rest : List Token} {n : Node}
      {ns : List Node} (branch : Derives depth (.expression n) ts (⟨.mark .pipe, place⟩ :: us))
      (others : Derives depth (.branches ns) us rest) : Derives depth (.branches (n :: ns)) ts rest
  | choice {depth : Nat} {t : Token} {ts rest : List Token} {ns : List Node}
      (branches : Derives depth (.branches ns) (t :: ts) rest) :
      Derives depth (.alternation (Node.choice t.place.offset ns)) (t :: ts) rest

/-- An optional anchor at the start. -/
inductive StartAnchor : List Token → Bool → List Token → Prop where
  | absent (rest : List Token) : StartAnchor rest false rest
  | present (place : Location) (rest : List Token) :
      StartAnchor (⟨.mark .caret, place⟩ :: rest) true rest

/-- An optional anchor at the end, behind which nothing is left. -/
inductive EndAnchor : List Token → Bool → Prop where
  | absent : EndAnchor [] false
  | present (place : Location) : EndAnchor [⟨.mark .dollar, place⟩] true

/-- The tokens of a whole pattern: its root, and whether it is anchored at either end. Groups are
nested as deep as the language allows. -/
inductive Accepts : List Token → Node → Bool → Bool → Prop where
  | intro {ts us vs : List Token} {root : Node} {startAnchor endAnchor : Bool}
      (atStart : StartAnchor ts startAnchor us)
      (content : Derives maxGroupDepth (.alternation root) us vs)
      (atEnd : EndAnchor vs endAnchor) : Accepts ts root startAnchor endAnchor

/-- The tokens of a whole pattern in which groups are nested at most `depth` deep. -/
inductive AcceptsWithin (depth : Nat) : List Token → Node → Bool → Bool → Prop where
  | intro {ts us vs : List Token} {root : Node} {startAnchor endAnchor : Bool}
      (atStart : StartAnchor ts startAnchor us) (content : Derives depth (.alternation root) us vs)
      (atEnd : EndAnchor vs endAnchor) : AcceptsWithin depth ts root startAnchor endAnchor

/-- A pattern is accepted if its groups are nested as deep as the language allows, or less. -/
theorem accepts_iff_within {ts : List Token} {root : Node} {startAnchor endAnchor : Bool} :
    Accepts ts root startAnchor endAnchor ↔
      AcceptsWithin maxGroupDepth ts root startAnchor endAnchor := by
  constructor
  · rintro ⟨atStart, content, atEnd⟩
    exact .intro atStart content atEnd
  · rintro ⟨atStart, content, atEnd⟩
    exact .intro atStart content atEnd

end PatternSampler.Grammar
