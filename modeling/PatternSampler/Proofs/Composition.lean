/-
Module: PatternSampler.Proofs.Composition
Purpose: Patterns are put together from patterns. Patterns in parentheses, one behind the other,
  are read as the sequence of their trees, with bars between them as the choice among their
  trees, and with a repeat behind it one of them is read as the repeat of its tree. The trees are
  those of the patterns on their own, except that offsets count from the beginning of the
  whole text.
Main exports: Pattern.Groupable, groupsText, Pattern.groupedRoots, Quantifies,
  Pattern.parse_groups
-/
import PatternSampler.Proofs.Grammar.Escapes
import PatternSampler.Proofs.RoundTrip

namespace PatternSampler

/-! ### Texts put together -/

/-- A text may stand between parentheses: it is a pattern without anchors, and groups in it are
nested less deep than they may be. -/
structure Pattern.Groupable (s : Text) (p : Pattern) : Prop where
  read : Pattern.parse s = .ok p
  noStartAnchor : p.startAnchor = false
  noEndAnchor : p.endAnchor = false
  nested : ∃ n, Grammar.Derives (maxGroupDepth - 1) (.alternation n) (Cursor.ofText s).scan.1 []

/-- Texts between parentheses, with a separator from group to group. -/
def groupsText (separator : Text) : List Text → Text
  | [] => []
  | [s] => grouped true s
  | s :: texts => grouped true s ++ (separator ++ groupsText separator texts)

/-- The trees of the texts in groups, of which the first begins at an offset: each is shifted to
behind the parenthesis that opens its group. -/
def Pattern.groupedRoots (separator : Text) (offset : Nat) : List (Text × Pattern) → List Node
  | [] => []
  | (s, p) :: parts =>
    p.root.shift (offset + 1) ::
      Pattern.groupedRoots separator (offset + (grouped true s ++ separator).length) parts

theorem Pattern.length_groupedRoots (separator : Text) (offset : Nat)
    (parts : List (Text × Pattern)) :
    (groupedRoots separator offset parts).length = parts.length := by
  induction parts generalizing offset with
  | nil => rfl
  | cons part parts inductionHypothesis =>
    rw [groupedRoots, List.length_cons, inductionHypothesis, List.length_cons]

/-- Digits stand for a repeat count within the limit. -/
structure CountsAs (digits : Text) (n : UInt64) : Prop where
  nonempty : digits ≠ []
  isDigit : ∀ b ∈ digits, IsDigit b
  value : Text.decimalValue digits = n.toNat
  limited : n.toNat ≤ maxRepeatCount

/-- A text is a repeat without an annotation. -/
inductive Quantifies : Text → Bounds → Prop where
  | mark {m : Mark} {bounds : Bounds} (marks : Grammar.Marks m bounds) : Quantifies [m.byte] bounds
  | exact {digits : Text} {n : UInt64} (count : CountsAs digits n) :
      Quantifies (braced digits) ⟨n, some n⟩
  | atLeast {digits : Text} {n : UInt64} (count : CountsAs digits n) :
      Quantifies (braced (digits ++ [0x2C])) ⟨n, none⟩
  | between {digits digits' : Text} {n m : UInt64} (minimum : CountsAs digits n)
      (maximum : CountsAs digits' m) (ordered : n ≤ m) :
      Quantifies (braced (digits ++ 0x2C :: digits')) ⟨n, some m⟩

namespace Grammar

/-! ### Groups -/

/-- A mark is a token wherever it stands. -/
theorem scan_mark (m : Mark) (u : Text) (place : Location) :
    (Cursor.scan ⟨m.byte :: u, place⟩).1 =
      ⟨.mark m, place⟩ :: (Cursor.scan ⟨u, place.after [m.byte]⟩).1 := by
  have found : Symbol.read? (m.byte :: u) = some (.mark m, u) := Symbol.standing_mark m u
  rw [@Cursor.scan_of_read? ⟨m.byte :: u, place⟩ _ _ found]
  rfl

/-- A text between parentheses is read as its own tokens, embedded between those of the
parentheses. -/
theorem scan_grouped {s : Text} (whole : ∀ t ∈ (Cursor.ofText s).scan.1, t.symbol ≠ .loneBackslash)
    (u : Text) (origin : Location) :
    ∃ place, (Cursor.scan ⟨grouped true s ++ u, origin⟩).1 =
      ⟨.mark .leftParen, origin⟩ :: embed (origin.after [0x28]).behind
        (⟨.mark .rightParen, place⟩ :: (Cursor.scan ⟨u, origin.after (grouped true s)⟩).1)
        (Cursor.ofText s).scan.1 := by
  have wholeThere : ∀ t ∈ (Cursor.scan ⟨s, origin.after [0x28]⟩).1,
      t.symbol ≠ .loneBackslash := by
    rw [Cursor.scan_at]
    intro t member
    obtain ⟨t', member', rfl⟩ := List.mem_map.1 member
    exact whole t' member'
  have opens := scan_mark .leftParen (s ++ 0x29 :: u) origin
  have inside := Cursor.scan_append ⟨s, origin.after [0x28]⟩ (0x29 :: u) wholeThere
  have closing := scan_mark .rightParen u ((origin.after [0x28]).after s)
  have places : origin.after (grouped true s) =
      ((origin.after [0x28]).after s).after [0x29] := by
    rw [← Location.after_append, ← Location.after_append]
    rfl
  refine ⟨(origin.after [0x28]).after s, ?_⟩
  rw [places]
  change (Cursor.scan ⟨0x28 :: ((s ++ [0x29]) ++ u), origin⟩).1 = _
  rw [List.append_assoc]
  refine opens.trans ?_
  congr 1
  refine inside.trans ?_
  rw [Cursor.scan_at]
  exact congrArg (_ ++ ·) closing

/-- The tree of a text that may stand between parentheses. -/
theorem derives_of_groupable {s : Text} {p : Pattern} (groupable : p.Groupable s) :
    Derives (maxGroupDepth - 1) (.alternation p.root) (Cursor.ofText s).scan.1 [] := by
  obtain ⟨read, noStartAnchor, noEndAnchor, n, derived⟩ := groupable
  obtain ⟨accepted, -⟩ := parse_eq_ok_iff.1 read
  have deepened := derived.deepen (Nat.sub_le maxGroupDepth 1)
  have same := accepts_unique accepted (.intro (.absent _) deepened .absent)
  rw [same.1]
  exact derived

/-- A text between parentheses is an atom, whatever follows it. -/
theorem derives_grouped {s : Text} {p : Pattern} (groupable : p.Groupable s) (u : Text)
    (origin : Location) :
    Derives maxGroupDepth (.atom (p.root.shift (origin.offset + 1)))
      (Cursor.scan ⟨grouped true s ++ u, origin⟩).1
      (Cursor.scan ⟨u, origin.after (grouped true s)⟩).1 := by
  have derived := derives_of_groupable groupable
  have whole : ∀ t ∈ (Cursor.ofText s).scan.1, t.symbol ≠ .loneBackslash := by
    obtain ⟨front, tokens, holds⟩ := derived.unbroken
    rw [List.append_nil] at tokens
    rw [tokens]
    exact holds
  obtain ⟨place, tokens⟩ := scan_grouped whole u origin
  have shifts : ∀ p, ((origin.after [0x28]).behind p).offset = p.offset + (origin.offset + 1) := by
    intro p
    rw [← Location.offset_step origin 0x28]
    rfl
  rw [tokens]
  exact .group (derived.embed rfl shifts)

/-- An atom is a sequence by itself. -/
theorem Derives.expression_of_atom {depth : Nat} {n : Node} {ts rest : List Token}
    (atom : Derives depth (.atom n) ts rest) : Derives depth (.expression n) ts rest := by
  obtain ⟨t, us, rfl⟩ := atom.exists_cons
  exact .sequence (.lastFactor (.bare atom))

/-! ### Several groups -/

section Parts

variable {parts : List (Text × Pattern)}

/-- The offset behind a group and a separator. -/
theorem offset_after_grouped (origin : Location) (s separator : Text) :
    ((origin.after (grouped true s)).after separator).offset =
      origin.offset + (grouped true s ++ separator).length := by
  rw [← Location.after_append, Location.offset_after]

theorem derives_factors (nonempty : parts ≠ [])
    (groupable : ∀ part ∈ parts, part.2.Groupable part.1) (origin : Location) :
    Derives maxGroupDepth (.factors (Pattern.groupedRoots [] origin.offset parts))
      (Cursor.scan ⟨groupsText [] (parts.map (·.1)), origin⟩).1 [] := by
  induction parts generalizing origin with
  | nil => exact absurd rfl nonempty
  | cons part parts inductionHypothesis =>
    obtain ⟨first, others⟩ := List.forall_mem_cons.1 groupable
    cases parts with
    | nil =>
      have atom := derives_grouped first [] origin
      rw [List.append_nil, @Cursor.scan_of_nil ⟨[], _⟩ rfl] at atom
      exact .lastFactor (.bare atom)
    | cons next parts =>
      have behind := inductionHypothesis (List.cons_ne_nil _ _) others
        (origin.after (grouped true part.1))
      rw [show (origin.after (grouped true part.1)).offset = _ from
        offset_after_grouped origin part.1 []] at behind
      exact .moreFactors (.bare (derives_grouped first _ origin)) behind

theorem derives_branches (nonempty : parts ≠ [])
    (groupable : ∀ part ∈ parts, part.2.Groupable part.1) (origin : Location) :
    Derives maxGroupDepth (.branches (Pattern.groupedRoots [0x7C] origin.offset parts))
      (Cursor.scan ⟨groupsText [0x7C] (parts.map (·.1)), origin⟩).1 [] := by
  induction parts generalizing origin with
  | nil => exact absurd rfl nonempty
  | cons part parts inductionHypothesis =>
    obtain ⟨first, others⟩ := List.forall_mem_cons.1 groupable
    cases parts with
    | nil =>
      have atom := derives_grouped first [] origin
      rw [List.append_nil, @Cursor.scan_of_nil ⟨[], _⟩ rfl] at atom
      exact .lastBranch atom.expression_of_atom
    | cons next parts =>
      have behind := inductionHypothesis (List.cons_ne_nil _ _) others
        ((origin.after (grouped true part.1)).after [0x7C])
      rw [offset_after_grouped] at behind
      have atom := derives_grouped first
        (0x7C :: groupsText [0x7C] ((next :: parts).map (·.1))) origin
      have bar := scan_mark .pipe (groupsText [0x7C] ((next :: parts).map (·.1)))
        (origin.after (grouped true part.1))
      rw [show Cursor.scan ⟨0x7C :: _, _⟩ = Cursor.scan ⟨Mark.pipe.byte :: _, _⟩ from rfl, bar]
        at atom
      exact .moreBranches atom.expression_of_atom behind

end Parts

/-! ### Repeats -/

theorem spells_countsAs {digits : Text} {n : UInt64} (count : CountsAs digits n) :
    Spells digits fun ts rest => Count ts n rest := by
  obtain ⟨nonempty, isDigit, value, limited⟩ := count
  apply (spells_digits isDigit).mono
  intro ts rest run
  have phrase := Count.intro run nonempty (by rw [value]; exact limited)
  rwa [value, UInt64.ofNat_toNat] at phrase

/-- A minimum and a comma. -/
theorem spells_countsAs_comma {digits : Text} {n : UInt64} (count : CountsAs digits n) :
    Spells (digits ++ [0x2C]) fun ts rest =>
      ∃ place, Count ts n (⟨.mark .comma, place⟩ :: rest) := by
  apply ((spells_countsAs count).append (Spells.mark .comma)).mono
  rintro ts rest ⟨us, minimum, ⟨place, rfl⟩⟩
  exact ⟨place, minimum⟩

theorem spells_quantifies {q : Text} {bounds : Bounds} (quantifies : Quantifies q bounds) :
    Spells q fun ts rest => Quantifier ts ⟨bounds, none⟩ rest := by
  cases quantifies with
  | mark marks => exact spells_marks marks
  | exact count =>
    apply (spells_braced (spells_countsAs count)).mono
    rintro ts rest ⟨place, us, place', rfl, phrase⟩
    exact .exact phrase
  | atLeast count =>
    apply (spells_braced (spells_countsAs_comma count)).mono
    rintro ts rest ⟨place, us, place', rfl, place'', minimum⟩
    exact .between minimum (.absent _) (fun m absent => nomatch absent) (.absent _)
  | between minimum maximum ordered =>
    have both := spells_braced ((spells_countsAs_comma minimum).append (spells_countsAs maximum))
    rw [List.append_assoc] at both
    apply both.mono
    rintro ts rest ⟨place, us, place', rfl, vs, ⟨place'', first⟩, second⟩
    refine .between first (.present second) ?_ (.absent _)
    intro m present
    cases present
    exact ordered

end Grammar

/-! ### Patterns put together -/

namespace Pattern

open Grammar

variable {s : Text} {ns : List Node}

/-- The first token of a text stands at its beginning. -/
theorem place_of_scan_eq_cons {t : Token} {us : List Token}
    (tokens : (Cursor.ofText s).scan.1 = t :: us) : t.place = Location.start := by
  cases found : Symbol.read? s with
  | none =>
    rw [Cursor.scan_of_nil (Symbol.read?_eq_none_iff.1 found)] at tokens
    cases tokens
  | some first =>
    rw [@Cursor.scan_of_read? (Cursor.ofText s) first.1 first.2 found] at tokens
    cases tokens
    rfl

/-- Branches that are derived from all tokens of a text are a choice that the text is read as. -/
theorem parse_of_branches
    (branches : Derives maxGroupDepth (.branches ns) (Cursor.ofText s).scan.1 []) :
    parse s = .ok ⟨Node.choice 0 ns, false, false, s⟩ := by
  obtain ⟨t, us, tokens⟩ := branches.exists_cons
  rw [tokens] at branches
  have alternation := Derives.choice branches
  rw [place_of_scan_eq_cons tokens, ← tokens] at alternation
  exact parse_eq_ok_iff.2 ⟨.intro (.absent _) alternation .absent, rfl⟩

/-- Factors that are derived from all tokens of a text are a sequence that the text is read as. -/
theorem parse_of_factors
    (factors : Derives maxGroupDepth (.factors ns) (Cursor.ofText s).scan.1 []) :
    parse s = .ok ⟨Node.sequence 0 ns, false, false, s⟩ := by
  obtain ⟨t, us, tokens⟩ := factors.exists_cons
  rw [tokens] at factors
  have expression := Derives.sequence factors
  rw [place_of_scan_eq_cons tokens, ← tokens] at expression
  exact parse_of_branches (.lastBranch expression)

/-- A pattern in parentheses with a repeat behind it is read as the repeat of its tree. -/
theorem parse_repeated {q : Text} {p : Pattern} {bounds : Bounds} (groupable : p.Groupable s)
    (quantifies : Quantifies q bounds) :
    parse (grouped true s ++ q) =
      .ok ⟨.quantified (p.root.offset + 1) bounds none (p.root.shift 1), false, false,
        grouped true s ++ q⟩ := by
  have atom := derives_grouped groupable q Location.start
  have quantifier :=
    (spells_quantifies quantifies).scan_at (Location.start.after (grouped true s))
  have read := parse_of_factors (.lastFactor (.repeated atom quantifier))
  rw [Node.offset_shift] at read
  exact read

/-- Patterns in parentheses are read as the sequence of their trees if they follow each other, as
the choice among their trees if bars stand between them, and as the repeat of its tree if
there is one with a repeat behind it. -/
theorem parse_groups :
    (∀ parts : List (Text × Pattern), 2 ≤ parts.length →
      (∀ part ∈ parts, part.2.Groupable part.1) →
      parse (groupsText [] (parts.map (·.1))) =
        .ok ⟨.concat 0 (groupedRoots [] 0 parts), false, false,
          groupsText [] (parts.map (·.1))⟩ ∧
      parse (groupsText [0x7C] (parts.map (·.1))) =
        .ok ⟨.alternation 0 (groupedRoots [0x7C] 0 parts), false, false,
          groupsText [0x7C] (parts.map (·.1))⟩) ∧
    ∀ (s q : Text) (p : Pattern) (bounds : Bounds), p.Groupable s → Quantifies q bounds →
      parse (grouped true s ++ q) =
        .ok ⟨.quantified (p.root.offset + 1) bounds none (p.root.shift 1), false, false,
          grouped true s ++ q⟩ := by
  refine ⟨?_, ?_⟩
  · intro parts several groupable
    have nonempty : parts ≠ [] := List.ne_nil_of_length_pos (Nat.lt_of_succ_lt several)
    constructor
    · have read := parse_of_factors (derives_factors nonempty groupable Location.start)
      rwa [sequence_of_two (by rwa [length_groupedRoots])] at read
    · have read := parse_of_branches (derives_branches nonempty groupable Location.start)
      rwa [choice_of_two (by rwa [length_groupedRoots])] at read
  · exact fun s q p bounds groupable quantifies => parse_repeated groupable quantifies

theorem groupable_star {b : UInt8} (unreserved : ¬ IsReserved b) :
    Groupable [b, 0x2A]
      ⟨.quantified 0 ⟨0, none⟩ none (.literal 0 b), false, false, [b, 0x2A]⟩ :=
  ⟨parse_star unreserved, rfl, rfl, _, derives_star unreserved _⟩

/-- The patterns `(a*)(b*)`, `(a*)|(b*)` and `(a*){2,3}`. -/
theorem parse_groups_star :
    parse (ascii "(a*)(b*)") =
      .ok ⟨.concat 0 [.quantified 1 ⟨0, none⟩ none (.literal 1 0x61),
        .quantified 5 ⟨0, none⟩ none (.literal 5 0x62)], false, false, ascii "(a*)(b*)"⟩ ∧
    parse (ascii "(a*)|(b*)") =
      .ok ⟨.alternation 0 [.quantified 1 ⟨0, none⟩ none (.literal 1 0x61),
        .quantified 6 ⟨0, none⟩ none (.literal 6 0x62)], false, false, ascii "(a*)|(b*)"⟩ ∧
    parse (ascii "(a*)\x7b2,3\x7d") =
      .ok ⟨.quantified 1 ⟨2, some 3⟩ none (.quantified 1 ⟨0, none⟩ none (.literal 1 0x61)),
        false, false, ascii "(a*)\x7b2,3\x7d"⟩ := by
  have first := groupable_star (show ¬ IsReserved 0x61 by decide)
  have second := groupable_star (show ¬ IsReserved 0x62 by decide)
  obtain ⟨several, repeated⟩ := parse_groups
  obtain ⟨sequence, choice⟩ := several [(_, _), (_, _)] (Nat.le_refl 2)
    (List.forall_mem_cons.2 ⟨first, List.forall_mem_cons.2 ⟨second, nofun⟩⟩)
  have two : CountsAs [0x32] 2 :=
    ⟨by decide, List.forall_mem_singleton.2 (by decide), by decide, by decide⟩
  have three : CountsAs [0x33] 3 :=
    ⟨by decide, List.forall_mem_singleton.2 (by decide), by decide, by decide⟩
  have quantified := repeated _ _ _ _ first (.between two three (by decide))
  exact ⟨sequence, choice, quantified⟩

end Pattern

end PatternSampler
