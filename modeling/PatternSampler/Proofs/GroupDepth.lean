/-
Module: PatternSampler.Proofs.GroupDepth
Purpose: How deep groups are nested in a text, counted on its tokens: a group is open from its
  parenthesis on, and the depth is the greatest number of groups that are open at once. The
  parentheses in a class are characters, and those around parameters belong to an annotation,
  so both are passed over. For a text that is a pattern this is the least depth at which the
  grammar derives it.
Main exports: Token.groupDepth, Text.groupDepth, Grammar.Deepens,
  Grammar.exists_deepens_of_derives, Grammar.AcceptsWithin.at_groupDepth
-/
import PatternSampler.Proofs.Grammar.Escapes
import PatternSampler.Proofs.Grammar.Extent

namespace PatternSampler

/-! ### Counting open groups -/

namespace Token

/-- The tokens behind a class that is open. Named classes are open inside it, each with brackets of
its own. -/
def behindClass : (named : Nat) → List Token → List Token
  | _, [] => []
  | named, t :: ts =>
    match t.symbol with
    | .mark .leftBracket => behindClass (named + 1) ts
    | .mark .rightBracket => if named = 0 then ts else behindClass (named - 1) ts
    | _ => behindClass named ts

/-- The tokens behind the parameters of an annotation. -/
def behindParameters (ts : List Token) : List Token :=
  (ts.dropWhile (·.symbol ≠ .mark .rightParen)).tail

/-- The tokens behind the name of an annotation, and its parameters if it has a list of them. -/
def behindNote (ts : List Token) : List Token :=
  match ts.dropWhile (·.symbol.isLetter) with
  | ⟨.mark .leftParen, _⟩ :: us => behindParameters us
  | us => us

theorem length_behindClass_le (named : Nat) (ts : List Token) :
    (behindClass named ts).length ≤ ts.length := by
  fun_induction behindClass named ts with
  | case1 => exact Nat.le_refl _
  | case3 => exact Nat.le_succ _
  | case2 | case4 | case5 => exact Nat.le_succ_of_le ‹_›

theorem length_behindNote_le (ts : List Token) : (behindNote ts).length ≤ ts.length := by
  have letters := (List.dropWhile_suffix (l := ts) (·.symbol.isLetter)).length_le
  unfold behindNote
  split
  next us equal =>
    have parameters := (List.dropWhile_suffix (l := us) (·.symbol ≠ .mark .rightParen)).length_le
    rw [equal, List.length_cons] at letters
    rw [behindParameters, List.length_tail]
    omega
  next => exact letters

/-- The greatest number of groups that are open at once, if so many are open already. -/
def groupDepth (opened : Nat) : List Token → Nat
  | [] => opened
  | t :: ts =>
    match t.symbol with
    | .mark .leftParen => groupDepth (opened + 1) ts
    | .mark .rightParen => max opened (groupDepth (opened - 1) ts)
    | .mark .leftBracket => groupDepth opened (behindClass 0 ts)
    | .mark .tilde => groupDepth opened (behindNote ts)
    | _ => groupDepth opened ts
termination_by ts => ts.length
decreasing_by
  · exact Nat.lt_succ_self _
  · exact Nat.lt_succ_self _
  · exact Nat.lt_succ_of_le (length_behindClass_le 0 ts)
  · exact Nat.lt_succ_of_le (length_behindNote_le ts)
  · exact Nat.lt_succ_self _

theorem le_groupDepth (opened : Nat) (ts : List Token) : opened ≤ groupDepth opened ts := by
  fun_induction groupDepth opened ts with
  | case1 => exact Nat.le_refl _
  | case2 => omega
  | case3 => exact Nat.le_max_left _ _
  | case4 | case5 | case6 => assumption

variable {t : Token} {ts rest : List Token} {place : Location} (opened : Nat)

@[simp] theorem groupDepth_leftParen (ts : List Token) :
    groupDepth opened (⟨.mark .leftParen, place⟩ :: ts) = groupDepth (opened + 1) ts := by
  rw [groupDepth]

@[simp] theorem groupDepth_rightParen (ts : List Token) :
    groupDepth opened (⟨.mark .rightParen, place⟩ :: ts) =
      max opened (groupDepth (opened - 1) ts) := by
  rw [groupDepth]

@[simp] theorem groupDepth_leftBracket (ts : List Token) :
    groupDepth opened (⟨.mark .leftBracket, place⟩ :: ts) =
      groupDepth opened (behindClass 0 ts) := by
  rw [groupDepth]

@[simp] theorem groupDepth_tilde (ts : List Token) :
    groupDepth opened (⟨.mark .tilde, place⟩ :: ts) = groupDepth opened (behindNote ts) := by
  rw [groupDepth]

end Token

/-- A symbol that says nothing about groups: no parenthesis, and neither a class nor an annotation
begins with it. -/
structure Symbol.Inert (s : Symbol) : Prop where
  notLeftParen : s ≠ .mark .leftParen
  notRightParen : s ≠ .mark .rightParen
  notLeftBracket : s ≠ .mark .leftBracket
  notTilde : s ≠ .mark .tilde

theorem Token.groupDepth_of_inert (opened : Nat) {t : Token} (inert : t.symbol.Inert)
    (ts : List Token) : groupDepth opened (t :: ts) = groupDepth opened ts := by
  obtain ⟨notLeftParen, notRightParen, notLeftBracket, notTilde⟩ := inert
  rw [groupDepth]
  split
  next equal => exact absurd equal notLeftParen
  next equal => exact absurd equal notRightParen
  next equal => exact absurd equal notLeftBracket
  next equal => exact absurd equal notTilde
  next => rfl

/-- How deep groups are nested in a text. -/
def Text.groupDepth (s : Text) : Nat := Token.groupDepth 0 (Cursor.ofText s).scan.1

namespace Grammar

variable {ts us rest : List Token}

/-! ### Phrases that are passed over -/

/-- The end of the parameters is the first closing parenthesis. -/
theorem behindParameters_of_between {place : Location}
    (between : Between (· ≠ .mark .rightParen) ts (⟨.mark .rightParen, place⟩ :: rest)) :
    Token.behindParameters ts = rest := by
  obtain ⟨front, rfl, holds⟩ := between
  unfold Token.behindParameters
  rw [List.dropWhile_append_of_pos (by simpa using holds), List.dropWhile_cons_of_neg (by simp),
    List.tail_cons]

theorem ArgumentList.behind {ps : List Parameter} {name : Text}
    (letters : Run Symbol.isLetter ts name us) (list : ArgumentList us ps rest) :
    Token.behindNote ts = rest := by
  have stops : ¬ (peekSymbol us).isLetter := by
    cases list with
    | absent noLetter => exact noLetter
    | empty | listed => exact Bool.false_ne_true
  have dropped : ts.dropWhile (·.symbol.isLetter) = us := (readWhile_of_run letters stops).2
  unfold Token.behindNote
  rw [dropped]
  cases list with
  | absent _ noParen =>
    split
    next => exact absurd rfl noParen
    next => rfl
  | empty => exact behindParameters_of_between (.refl _ _)
  | listed arguments =>
    exact behindParameters_of_between (arguments.between nofun nofun nofun nofun nofun nofun)

/-- A symbol inside of a class that is no bracket leaves it open. -/
theorem behindClass_of_not_bracket (named : Nat) {t : Token}
    (notLeft : t.symbol ≠ .mark .leftBracket) (notRight : t.symbol ≠ .mark .rightBracket)
    (ts : List Token) : Token.behindClass named (t :: ts) = Token.behindClass named ts := by
  rw [Token.behindClass]
  split
  next equal => exact absurd equal notLeft
  next equal => exact absurd equal notRight
  next => rfl

theorem Run.behindClass {name : Text} (letters : Run Symbol.isLetter ts name rest) (named : Nat) :
    Token.behindClass named ts = Token.behindClass named rest := by
  induction letters with
  | done => rfl
  | @more t _ _ _ letter _ inductionHypothesis =>
    have notMark : ∀ m, t.symbol ≠ .mark m := by
      intro m equal
      rw [equal] at letter
      cases letter
    rw [behindClass_of_not_bracket named (notMark _) (notMark _), inductionHypothesis]

theorem Member.behindClass {m : ClassItem} (member : Member ts m rest) :
    Token.behindClass 0 ts = Token.behindClass 0 rest := by
  cases member with
  | named letters =>
    -- The opening bracket and the colon are passed over, and so are the colon and the bracket
    -- that follow the name.
    exact letters.behindClass 1
  | wildcard => rfl
  | shorthand => rfl
  | single _ _ _ _ notLeft notRight => exact behindClass_of_not_bracket 0 notLeft notRight _

theorem Members.behindClass {ms : List ClassItem} (members : Members ts ms rest) :
    Token.behindClass 0 ts = Token.behindClass 0 rest := by
  induction members with
  | done => rfl
  | more member _ inductionHypothesis => rw [member.behindClass, inductionHypothesis]

theorem Negation.behindClass {negated : Bool} (negation : Negation ts negated rest) :
    Token.behindClass 0 ts = Token.behindClass 0 rest := by
  cases negation with
  | absent => rfl
  | present => rfl

/-! ### Phrases with groups -/

/-- In a phrase groups are nested `depth` deep, however many are open around it. -/
def Deepens (depth : Nat) (ts rest : List Token) : Prop :=
  ∀ opened, Token.groupDepth opened ts = max (opened + depth) (Token.groupDepth opened rest)

variable {d d' : Nat}

theorem Deepens.refl (ts : List Token) : Deepens 0 ts ts :=
  fun opened => (Nat.max_eq_right (Token.le_groupDepth opened ts)).symm

theorem Deepens.trans (first : Deepens d ts us) (second : Deepens d' us rest) :
    Deepens (max d d') ts rest := by
  intro opened
  rw [first, second]
  omega

theorem Deepens.cons {t : Token} (inert : t.symbol.Inert) (others : Deepens d ts rest) :
    Deepens d (t :: ts) rest := by
  intro opened
  rw [Token.groupDepth_of_inert opened inert, others]

theorem Deepens.group {place place' : Location}
    (content : Deepens d ts (⟨.mark .rightParen, place'⟩ :: rest)) :
    Deepens (d + 1) (⟨.mark .leftParen, place⟩ :: ts) rest := by
  intro opened
  rw [Token.groupDepth_leftParen, content, Token.groupDepth_rightParen, Nat.add_sub_cancel]
  omega

/-- Without a group a phrase is passed over. -/
theorem Deepens.of_between (between : Between Symbol.Inert ts rest) : Deepens 0 ts rest := by
  obtain ⟨front, rfl, inert⟩ := between
  induction front with
  | nil => exact .refl rest
  | cons t front inductionHypothesis =>
    obtain ⟨first, others⟩ := List.forall_mem_cons.1 inert
    exact .cons first (inductionHypothesis others)

theorem Note.deepens {a : Annotation} (note : Note ts a rest) : Deepens 0 ts rest := by
  cases note with
  | intro letters _ arguments =>
    intro opened
    rw [Token.groupDepth_tilde, arguments.behind letters]
    exact Deepens.refl rest opened

theorem Attached.deepens {meaning : Annotation → Except Refusal Distribution}
    {distribution : Option Distribution} (attached : Attached meaning ts distribution rest) :
    Deepens 0 ts rest := by
  cases attached with
  | absent => exact .refl _
  | present note => exact note.deepens

theorem Class.deepens {c : CharClass} (phrase : Class ts c rest) : Deepens 0 ts rest := by
  cases phrase with
  | shorthand _ attached => exact .cons ⟨nofun, nofun, nofun, nofun⟩ attached.deepens
  | bracketed negation listed _ _ attached =>
    intro opened
    rw [Token.groupDepth_leftBracket, negation.behindClass, listed.behindClass]
    exact attached.deepens opened

theorem Count.deepens {n : UInt64} (count : Count ts n rest) : Deepens 0 ts rest := by
  cases count with
  | intro run =>
    refine .of_between (run.between ?_)
    intro s digit
    cases s with
    | literal b => exact ⟨nofun, nofun, nofun, nofun⟩
    | _ => cases digit

theorem Maximum.deepens {max : Option UInt64} (maximum : Maximum ts max rest) :
    Deepens 0 ts rest := by
  cases maximum with
  | absent => exact .refl _
  | present count => exact count.deepens

theorem Quantifier.deepens {r : Repeat} (quantifier : Quantifier ts r rest) :
    Deepens 0 ts rest := by
  have comma : (Symbol.mark .comma).Inert := ⟨nofun, nofun, nofun, nofun⟩
  have leftBrace : (Symbol.mark .leftBrace).Inert := ⟨nofun, nofun, nofun, nofun⟩
  have rightBrace : (Symbol.mark .rightBrace).Inert := ⟨nofun, nofun, nofun, nofun⟩
  cases quantifier with
  | @mark m _ _ _ _ _ marks attached =>
    have inert : (Symbol.mark m).Inert := by
      cases marks with
      | star | plus | question => exact ⟨nofun, nofun, nofun, nofun⟩
    exact .cons inert attached.deepens
  | exact count => exact .cons leftBrace (count.deepens.trans (.cons rightBrace (.refl _)))
  | drawn count note =>
    exact .cons leftBrace (count.deepens.trans (note.deepens.trans (.cons rightBrace (.refl _))))
  | between minimum maximum _ attached =>
    exact .cons leftBrace (minimum.deepens.trans (.cons comma
      (maximum.deepens.trans (attached.deepens.trans (.cons rightBrace (.refl _))))))

/-- A phrase is derived at the depth at which its groups are nested. -/
theorem exists_deepens_of_derives {depth : Nat} {form : Form}
    (derived : Derives depth form ts rest) :
    ∃ d ≤ depth, Derives d form ts rest ∧ Deepens d ts rest := by
  have atom : ∀ {t : Token} {us : List Token}, t.symbol.Inert → Deepens 0 (t :: us) us :=
    fun inert => .cons inert (.refl _)
  induction derived with
  | literal _ b place rest =>
    exact ⟨0, Nat.zero_le _, .literal 0 b place rest, atom ⟨nofun, nofun, nofun, nofun⟩⟩
  | escaped _ b place rest =>
    exact ⟨0, Nat.zero_le _, .escaped 0 b place rest, atom ⟨nofun, nofun, nofun, nofun⟩⟩
  | wildcard _ place rest =>
    exact ⟨0, Nat.zero_le _, .wildcard 0 place rest, atom ⟨nofun, nofun, nofun, nofun⟩⟩
  | charClass _ phrase => exact ⟨0, Nat.zero_le _, .charClass 0 phrase, phrase.deepens⟩
  | group _ inductionHypothesis =>
    obtain ⟨d, within, content, deepens⟩ := inductionHypothesis
    exact ⟨d + 1, Nat.succ_le_succ within, .group content, deepens.group⟩
  | bare _ inductionHypothesis =>
    obtain ⟨d, within, atom, deepens⟩ := inductionHypothesis
    exact ⟨d, within, .bare atom, deepens⟩
  | repeated _ quantifier inductionHypothesis =>
    obtain ⟨d, within, atom, deepens⟩ := inductionHypothesis
    have both := deepens.trans quantifier.deepens
    rw [Nat.max_zero] at both
    exact ⟨d, within, .repeated atom quantifier, both⟩
  | lastFactor _ inductionHypothesis =>
    obtain ⟨d, within, factor, deepens⟩ := inductionHypothesis
    exact ⟨d, within, .lastFactor factor, deepens⟩
  | moreFactors _ _ first others =>
    obtain ⟨d, within, factor, deepens⟩ := first
    obtain ⟨d', within', factors, deepens'⟩ := others
    exact ⟨max d d', Nat.max_le.2 ⟨within, within'⟩,
      .moreFactors (factor.deepen (Nat.le_max_left _ _)) (factors.deepen (Nat.le_max_right _ _)),
      deepens.trans deepens'⟩
  | sequence _ inductionHypothesis =>
    obtain ⟨d, within, factors, deepens⟩ := inductionHypothesis
    exact ⟨d, within, .sequence factors, deepens⟩
  | lastBranch _ inductionHypothesis =>
    obtain ⟨d, within, branch, deepens⟩ := inductionHypothesis
    exact ⟨d, within, .lastBranch branch, deepens⟩
  | moreBranches _ _ first others =>
    obtain ⟨d, within, branch, deepens⟩ := first
    obtain ⟨d', within', branches, deepens'⟩ := others
    exact ⟨max d d', Nat.max_le.2 ⟨within, within'⟩,
      .moreBranches (branch.deepen (Nat.le_max_left _ _)) (branches.deepen (Nat.le_max_right _ _)),
      deepens.trans (.cons ⟨nofun, nofun, nofun, nofun⟩ deepens')⟩
  | choice _ inductionHypothesis =>
    obtain ⟨d, within, branches, deepens⟩ := inductionHypothesis
    exact ⟨d, within, .choice branches, deepens⟩

/-! ### Whole patterns -/

theorem StartAnchor.deepens {anchored : Bool} (atStart : StartAnchor ts anchored rest) :
    Deepens 0 ts rest := by
  cases atStart with
  | absent => exact .refl _
  | present => exact .cons ⟨nofun, nofun, nofun, nofun⟩ (.refl _)

theorem EndAnchor.deepens {anchored : Bool} (atEnd : EndAnchor ts anchored) : Deepens 0 ts [] := by
  cases atEnd with
  | absent => exact .refl _
  | present => exact .cons ⟨nofun, nofun, nofun, nofun⟩ (.refl _)

/-- The tokens of a pattern are accepted at the depth at which its groups are nested, and at no
lesser one. -/
theorem AcceptsWithin.at_groupDepth {depth : Nat} {root : Node} {startAnchor endAnchor : Bool}
    (accepted : AcceptsWithin depth ts root startAnchor endAnchor) :
    Token.groupDepth 0 ts ≤ depth ∧
      AcceptsWithin (Token.groupDepth 0 ts) ts root startAnchor endAnchor := by
  obtain ⟨atStart, content, atEnd⟩ := accepted
  obtain ⟨d, within, derived, deepens⟩ := exists_deepens_of_derives content
  have depthEq : Token.groupDepth 0 ts = d := by
    have whole := (atStart.deepens.trans (deepens.trans atEnd.deepens)) 0
    simpa [Token.groupDepth] using whole
  rw [depthEq]
  exact ⟨within, .intro atStart derived atEnd⟩

end Grammar

end PatternSampler
