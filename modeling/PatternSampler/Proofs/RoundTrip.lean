/-
Module: PatternSampler.Proofs.RoundTrip
Purpose: Patterns as they are written. The canonical text of a pattern that was read is read
  again, as a pattern with the same anchors and a tree that differs in offsets only. So
  the canonical text of what is read from a canonical text is that text.
Main exports: Node.Written, Grammar.Reads, Grammar.spells_text, Grammar.spells_pattern,
  Pattern.parse_text
-/
import PatternSampler.Proofs.RoundTrip.Class
import PatternSampler.Proofs.RoundTrip.Nesting
import PatternSampler.Proofs.RoundTrip.Repeat
import PatternSampler.Proofs.RoundTrip.Shape

namespace PatternSampler

/-- A node that can be written, its children left aside. -/
def Node.Written : Node → Prop
  | .charClass _ c => c.Written
  | _ => True

namespace Grammar

theorem establishes_written : Establishes Node.Written where
  literal := fun _ _ => trivial
  wildcard := fun _ => trivial
  charClass := fun _ named phrase => written_of_class phrase named
  concat := fun _ _ _ => trivial
  alternation := fun _ _ _ => trivial
  quantified := fun _ _ _ => trivial

/-! ### Phrases for a tree

A text is read as a tree up to offsets. A tree has a form of its own, the tightest one that
its text has without parentheses; every tighter form takes a group, every looser one comes by
itself. -/

/-- A phrase of some form for a tree that matches a given one. -/
def Reads (depth : Nat) (form : Node → Form) (n : Node) : Phrase := fun ts rest =>
  ∃ n', n.Matches (· = ·) n' ∧ Derives depth (form n') ts rest

/-- A phrase of some form for trees that match given ones. -/
def ReadsAll (depth : Nat) (form : List Node → Form) (ns : List Node) : Phrase := fun ts rest =>
  ∃ ns', Node.MatchesAll (· = ·) ns ns' ∧ Derives depth (form ns') ts rest

/-- The form that the text of a node has without parentheses. -/
def ownForm : Node → Node → Form
  | .literal .. | .wildcard _ | .charClass .. => .atom
  | .quantified .. => .factor
  | .concat .. => .expression
  | .alternation .. => .alternation

variable {depth : Nat} {n : Node} {t : Text}

theorem Derives.exists_cons {form : Form} {ts rest : List Token}
    (derived : Derives depth form ts rest) : ∃ t us, ts = t :: us := by
  have opens := derived.opensAtom
  cases ts with
  | nil => cases opens
  | cons t us => exact ⟨t, us, rfl⟩

theorem Class.exists_cons {c : CharClass} {ts rest : List Token} (phrase : Class ts c rest) :
    ∃ t us, ts = t :: us := by
  cases phrase with
  | shorthand => exact ⟨_, _, rfl⟩
  | bracketed => exact ⟨_, _, rfl⟩

theorem reads_factor_of_atom (spells : Spells t (Reads depth .atom n)) :
    Spells t (Reads depth .factor n) := by
  apply spells.mono
  rintro ts rest ⟨n', same, atom⟩
  exact ⟨n', same, .bare atom⟩

theorem reads_expression_of_factor (spells : Spells t (Reads depth .factor n)) :
    Spells t (Reads depth .expression n) := by
  apply spells.mono
  rintro ts rest ⟨n', same, factor⟩
  obtain ⟨t, us, rfl⟩ := factor.exists_cons
  exact ⟨n', same, .sequence (.lastFactor factor)⟩

theorem reads_alternation_of_expression (spells : Spells t (Reads depth .expression n)) :
    Spells t (Reads depth .alternation n) := by
  apply spells.mono
  rintro ts rest ⟨n', same, branch⟩
  obtain ⟨t, us, rfl⟩ := branch.exists_cons
  exact ⟨n', same, .choice (.lastBranch branch)⟩

/-- A text in parentheses is an atom, one level deeper. -/
theorem reads_atom_of_alternation (spells : Spells t (Reads depth .alternation n)) :
    Spells (grouped true t) (Reads (depth + 1) .atom n) := by
  apply ((Spells.mark .leftParen).append (spells.append (Spells.mark .rightParen))).mono
  rintro ts rest ⟨us, ⟨place, rfl⟩, vs, ⟨n', same, content⟩, ⟨place', rfl⟩⟩
  exact ⟨n', same, .group content⟩

/-- Every text of a tree is a choice, if only one among a single branch. -/
theorem reads_alternation_of_own (spells : Spells t (Reads depth (ownForm n) n)) :
    Spells t (Reads depth .alternation n) := by
  cases n with
  | alternation => exact spells
  | concat => exact reads_alternation_of_expression spells
  | quantified => exact reads_alternation_of_expression (reads_expression_of_factor spells)
  | literal =>
    exact reads_alternation_of_expression (reads_expression_of_factor (reads_factor_of_atom spells))
  | wildcard =>
    exact reads_alternation_of_expression (reads_expression_of_factor (reads_factor_of_atom spells))
  | charClass =>
    exact reads_alternation_of_expression (reads_expression_of_factor (reads_factor_of_atom spells))

/-! ### Groups

The text of a part is put in parentheses exactly if its own form is looser than the one that is
called for; then one level of nesting is spent. -/

/-- The text of a node is read back at every depth that its nesting allows. -/
def ReadBack (n : Node) : Prop :=
  ∀ depth, n.nesting ≤ depth → Spells n.text (Reads depth (ownForm n) n)

theorem spells_group (readBack : ReadBack n) (nested : n.nesting + true.toNat ≤ depth) :
    Spells (grouped true n.text) (Reads depth .atom n) := by
  obtain ⟨inner, rfl⟩ : ∃ inner, depth = inner + 1 :=
    ⟨depth - 1, (Nat.sub_add_cancel (Nat.le_trans (Nat.le_add_left 1 _) nested)).symm⟩
  have fits : n.nesting ≤ inner := Nat.le_of_add_le_add_right nested
  exact reads_atom_of_alternation (reads_alternation_of_own (readBack inner fits))

theorem spells_atom (readBack : ReadBack n)
    (nested : n.nesting + (n.isConcat || n.isAlternation || n.isQuantified).toNat ≤ depth) :
    Spells (grouped (n.isConcat || n.isAlternation || n.isQuantified) n.text)
      (Reads depth .atom n) := by
  cases n with
  | concat => exact spells_group readBack nested
  | alternation => exact spells_group readBack nested
  | quantified => exact spells_group readBack nested
  | literal => exact readBack depth nested
  | wildcard => exact readBack depth nested
  | charClass => exact readBack depth nested

theorem spells_factor (readBack : ReadBack n)
    (nested : n.nesting + (n.isConcat || n.isAlternation).toNat ≤ depth) :
    Spells (grouped (n.isConcat || n.isAlternation) n.text) (Reads depth .factor n) := by
  cases n with
  | concat => exact reads_factor_of_atom (spells_group readBack nested)
  | alternation => exact reads_factor_of_atom (spells_group readBack nested)
  | quantified => exact readBack depth nested
  | literal => exact reads_factor_of_atom (readBack depth nested)
  | wildcard => exact reads_factor_of_atom (readBack depth nested)
  | charClass => exact reads_factor_of_atom (readBack depth nested)

theorem spells_expression (readBack : ReadBack n)
    (nested : n.nesting + n.isAlternation.toNat ≤ depth) :
    Spells (grouped n.isAlternation n.text) (Reads depth .expression n) := by
  have ofAtom : ∀ {t : Text}, Spells t (Reads depth .atom n) →
      Spells t (Reads depth .expression n) :=
    fun spells => reads_expression_of_factor (reads_factor_of_atom spells)
  cases n with
  | alternation => exact ofAtom (spells_group readBack nested)
  | concat => exact readBack depth nested
  | quantified => exact reads_expression_of_factor (readBack depth nested)
  | literal => exact ofAtom (readBack depth nested)
  | wildcard => exact ofAtom (readBack depth nested)
  | charClass => exact ofAtom (readBack depth nested)

/-! ### Sequences and choices -/

theorem spells_factors {ns : List Node} (nonempty : ns ≠ []) (readBack : ∀ n ∈ ns, ReadBack n)
    (nested : Node.sequenceNesting ns ≤ depth) :
    Spells (Node.sequenceText ns) (ReadsAll depth .factors ns) := by
  induction ns with
  | nil => exact absurd rfl nonempty
  | cons n ns inductionHypothesis =>
    obtain ⟨firstNested, othersNested⟩ := Nat.max_le.1 nested
    have first := spells_factor (readBack n List.mem_cons_self) firstNested
    unfold Node.sequenceText
    by_cases alone : ns = []
    · subst alone
      apply (first.append Spells.nil).mono
      rintro ts rest ⟨us, ⟨n', same, factor⟩, rfl⟩
      exact ⟨[n'], .cons same .nil, .lastFactor factor⟩
    · have others := inductionHypothesis alone
        (fun n member => readBack n (List.mem_cons_of_mem _ member)) othersNested
      apply (first.append others).mono
      rintro ts rest ⟨us, ⟨n', same, factor⟩, ns', allSame, factors⟩
      exact ⟨n' :: ns', .cons same allSame, .moreFactors factor factors⟩

theorem spells_branches {ns : List Node} (nonempty : ns ≠ []) (readBack : ∀ n ∈ ns, ReadBack n)
    (nested : Node.branchNesting ns ≤ depth) :
    Spells ([0x7C].intercalate (Node.branchTexts ns)) (ReadsAll depth .branches ns) := by
  induction ns with
  | nil => exact absurd rfl nonempty
  | cons n ns inductionHypothesis =>
    obtain ⟨firstNested, othersNested⟩ := Nat.max_le.1 nested
    have first := spells_expression (readBack n List.mem_cons_self) firstNested
    cases ns with
    | nil =>
      rw [Node.branchTexts, Node.branchTexts, List.intercalate_singleton]
      apply first.mono
      rintro ts rest ⟨n', same, branch⟩
      exact ⟨[n'], .cons same .nil, .lastBranch branch⟩
    | cons m ns =>
      have others := inductionHypothesis (List.cons_ne_nil _ _)
        (fun n member => readBack n (List.mem_cons_of_mem _ member)) othersNested
      have textEq : [0x7C].intercalate (Node.branchTexts (n :: m :: ns)) =
          grouped n.isAlternation n.text ++
            ([0x7C] ++ [0x7C].intercalate (Node.branchTexts (m :: ns))) := by
        simp [Node.branchTexts]
      rw [textEq]
      apply (first.append ((Spells.mark .pipe).append others)).mono
      rintro ts rest ⟨us, ⟨n', same, branch⟩, vs, ⟨place, rfl⟩, ns', allSame, branches⟩
      exact ⟨n' :: ns', .cons same allSame, .moreBranches branch branches⟩

theorem sequence_of_two {offset : Nat} {ns : List Node} (several : 2 ≤ ns.length) :
    Node.sequence offset ns = .concat offset ns := by
  unfold Node.sequence
  split
  next => exact absurd several (Nat.not_succ_le_self 1)
  next => rfl

theorem choice_of_two {offset : Nat} {ns : List Node} (several : 2 ≤ ns.length) :
    Node.choice offset ns = .alternation offset ns := by
  unfold Node.choice
  split
  next => exact absurd several (Nat.not_succ_le_self 1)
  next => rfl

/-- Several factors make up a sequence. -/
theorem reads_concat {children : List Node} (offset : Nat) (several : 2 ≤ children.length)
    (spells : Spells t (ReadsAll depth .factors children)) :
    Spells t (Reads depth .expression (.concat offset children)) := by
  apply spells.mono
  rintro ts rest ⟨children', same, factors⟩
  obtain ⟨t, us, rfl⟩ := factors.exists_cons
  have derived := Derives.sequence factors
  rw [sequence_of_two (same.length_eq ▸ several)] at derived
  exact ⟨_, .concat _ _ same, derived⟩

/-- Several branches make up a choice. -/
theorem reads_choice {branches : List Node} (offset : Nat) (several : 2 ≤ branches.length)
    (spells : Spells t (ReadsAll depth .branches branches)) :
    Spells t (Reads depth .alternation (.alternation offset branches)) := by
  apply spells.mono
  rintro ts rest ⟨branches', same, phrase⟩
  obtain ⟨t, us, rfl⟩ := phrase.exists_cons
  have derived := Derives.choice phrase
  rw [choice_of_two (same.length_eq ▸ several)] at derived
  exact ⟨_, .alternation _ _ same, derived⟩

theorem ne_nil_of_two {ns : List Node} (several : 2 ≤ ns.length) : ns ≠ [] :=
  List.ne_nil_of_length_pos (Nat.lt_of_succ_lt several)

/-! ### Trees -/

mutual

/-- The text of a tree that can be written is read back. -/
theorem spells_text (n : Node) (wellFormed : n.All Node.WellFormed) (written : n.All Node.Written) :
    ReadBack n := by
  intro depth nested
  have root := wellFormed.root
  have rootWritten := written.root
  cases n with
  | literal offset b =>
    apply (spells_literalText b).mono
    rintro ts rest ⟨s, place, rfl | rfl, rfl⟩
    · exact ⟨_, .literal _ _ b, .literal depth b place rest⟩
    · exact ⟨_, .literal _ _ b, .escaped depth b place rest⟩
  | wildcard offset =>
    apply (Spells.mark .dot).mono
    rintro ts rest ⟨place, rfl⟩
    exact ⟨_, .wildcard _ _, .wildcard depth place rest⟩
  | charClass offset c =>
    apply (spells_class rootWritten root).mono
    intro ts rest phrase
    obtain ⟨t, us, rfl⟩ := phrase.exists_cons
    exact ⟨_, .charClass _ _ (.refl c), .charClass depth phrase⟩
  | concat offset children =>
    have readBack := spells_texts children (fun child member => wellFormed.child member)
      fun child member => written.child member
    exact reads_concat offset root (spells_factors (ne_nil_of_two root) readBack nested)
  | alternation offset branches =>
    have readBack := spells_texts branches (fun branch member => wellFormed.child member)
      fun branch member => written.child member
    exact reads_choice offset root (spells_branches (ne_nil_of_two root) readBack nested)
  | quantified offset bounds distribution child =>
    obtain ⟨boundsWellFormed, fits⟩ := root
    have readBack := spells_text child (wellFormed.child (List.mem_singleton_self _))
      (written.child (List.mem_singleton_self _))
    have atom := spells_atom readBack nested
    apply (atom.append (spells_repeat boundsWellFormed fits)).mono
    rintro ts rest ⟨us, ⟨child', same, atom⟩, quantifier⟩
    exact ⟨_, .quantified _ _ bounds (rel_refl distribution) same, .repeated atom quantifier⟩

theorem spells_texts (ns : List Node) (wellFormed : ∀ n ∈ ns, n.All Node.WellFormed)
    (written : ∀ n ∈ ns, n.All Node.Written) : ∀ n ∈ ns, ReadBack n := by
  cases ns with
  | nil => exact fun n absent => absurd absent List.not_mem_nil
  | cons n ns =>
    have first := spells_text n (wellFormed n List.mem_cons_self) (written n List.mem_cons_self)
    have others := spells_texts ns (fun m member => wellFormed m (List.mem_cons_of_mem _ member))
      fun m member => written m (List.mem_cons_of_mem _ member)
    exact List.forall_mem_cons.2 ⟨first, others⟩

end

/-! ### Anchors -/

theorem spells_startAnchor (anchored : Bool) :
    Spells (if anchored then [0x5E] else []) fun ts rest => StartAnchor ts anchored rest := by
  cases anchored with
  | false =>
    apply Spells.nil.mono
    rintro ts rest rfl
    exact .absent ts
  | true =>
    apply (Spells.mark .caret).mono
    rintro ts rest ⟨place, rfl⟩
    exact .present place rest

theorem spells_endAnchor (anchored : Bool) :
    Spells (if anchored then [0x24] else []) fun ts rest => rest = [] → EndAnchor ts anchored := by
  cases anchored with
  | false =>
    apply Spells.nil.mono
    rintro ts rest rfl rfl
    exact .absent
  | true =>
    apply (Spells.mark .dollar).mono
    rintro ts rest ⟨place, rfl⟩ rfl
    exact .present place

/-- The canonical text of a pattern that can be written spells its anchors and its tree, within the
depth that the nesting of its parentheses allows. -/
theorem spells_pattern {p : Pattern} (wellFormed : p.root.All Node.WellFormed)
    (written : p.root.All Node.Written) (nested : p.root.nesting ≤ depth) :
    Spells p.text fun ts rest => rest = [] →
      ∃ root, p.root.Matches (· = ·) root ∧
        AcceptsWithin depth ts root p.startAnchor p.endAnchor := by
  have content := reads_alternation_of_own (spells_text p.root wellFormed written _ nested)
  have spells := (spells_startAnchor p.startAnchor).append
    (content.append (spells_endAnchor p.endAnchor))
  unfold Pattern.text
  rw [Node.textOnto_eq]
  apply spells.mono
  rintro ts rest ⟨us, atStart, vs, ⟨root, same, derived⟩, atEnd⟩ ended
  exact ⟨root, same, .intro atStart derived (atEnd ended)⟩

end Grammar

/-! ### Patterns -/

/-- The canonical text of a pattern that was read is read as a pattern with the same anchors and
the same tree, and the canonical text of that pattern is the same again. -/
theorem Pattern.parse_text {s : Text} {p : Pattern} (read : Pattern.parse s = .ok p) :
    ∃ p' : Pattern, Pattern.parse p.text = .ok p' ∧
      p'.startAnchor = p.startAnchor ∧ p'.endAnchor = p.endAnchor ∧
      p.root.Matches Distribution.SameNumbers p'.root ∧ p'.text = p.text := by
  have wellFormed := Pattern.allWellFormed_root read
  have written := Pattern.all_root Grammar.establishes_written read
  have nested : p.root.nesting ≤ maxGroupDepth := by
    obtain ⟨accepted, -⟩ := Grammar.parse_eq_ok_iff.1 read
    cases accepted with
    | intro _ content _ => exact Grammar.nesting_of_derives content
  have content := Grammar.reads_alternation_of_own
    (Grammar.spells_text p.root wellFormed written maxGroupDepth nested)
  have spells := (Grammar.spells_startAnchor p.startAnchor).append
    (content.append (Grammar.spells_endAnchor p.endAnchor))
  rw [← Node.textOnto_eq] at spells
  obtain ⟨us, atStart, vs, ⟨root, same, derived⟩, atEnd⟩ := spells.scan
  refine ⟨⟨root, p.startAnchor, p.endAnchor, p.text⟩, ?_, rfl, rfl, same.as_numbers wellFormed, ?_⟩
  · exact Grammar.parse_eq_ok_iff.2 ⟨.intro atStart derived (atEnd rfl), rfl⟩
  · unfold Pattern.text
    rw [Node.textOnto_eq, Node.textOnto_eq, Node.text_eq_of_matches same]

theorem Pattern.parse_text_star :
    ∃ p p' : Pattern, Pattern.parse [0x61, 0x2A] = .ok p ∧ Pattern.parse p.text = .ok p' ∧
      p.root.Matches Distribution.SameNumbers p'.root ∧ p'.text = p.text := by
  have read := Grammar.parse_star (show ¬ IsReserved 0x61 by decide)
  obtain ⟨p', readAgain, -, -, same, textEq⟩ := Pattern.parse_text read
  exact ⟨_, p', read, readAgain, same, textEq⟩

end PatternSampler
