/-
Module: PatternSampler.Proofs.RoundTrip.Alphabet
Purpose: Texts of classes that were not read from a text. Such a class may combine its members,
  negation and brackets in any way, and its text is that of a class that could have been
  read: with brackets, or a shorthand alone. All of it is kept except the negation of a
  shorthand alone, for which its text has no sign, so the alphabet of every other class is
  that of the class read from its text.
Main exports: CharClass.StandsAlone, CharClass.asWritten, CharClass.text_asWritten,
  CharClass.alphabet_asWritten_eq_iff, CharClass.alphabet_of_parse_text
-/
import PatternSampler.Proofs.RoundTrip

namespace PatternSampler

namespace CharClass

variable {c : CharClass}

/-! ### The class that a text stands for -/

/-- A class without brackets whose only member is a shorthand. -/
def StandsAlone (c : CharClass) : Prop :=
  c.bracketed = false ∧ ∃ name, c.members = [.shorthand name]

/-- The class that the text of a class stands for. A shorthand alone is not negated, and every
other class is bracketed. -/
def asWritten (c : CharClass) : CharClass :=
  match c.bracketed, c.members with
  | false, [.shorthand name] =>
    { members := [.shorthand name], negated := false, bracketed := false,
      distribution := c.distribution }
  | _, members =>
    { members, negated := c.negated, bracketed := true, distribution := c.distribution }

theorem asWritten_of_standsAlone (alone : c.StandsAlone) :
    c.asWritten =
      { members := c.members, negated := false, bracketed := false,
        distribution := c.distribution } := by
  obtain ⟨bracketed, name, members⟩ := alone
  unfold asWritten
  rw [bracketed, members]

theorem membersText_of_standsAlone {name : UInt8} (bracketed : c.bracketed = false)
    (members : c.members = [.shorthand name]) : c.membersText = [Text.backslash, name] := by
  unfold membersText
  rw [bracketed, members]

theorem asWritten_of_not_standsAlone (notAlone : ¬ c.StandsAlone) :
    c.asWritten =
      { members := c.members, negated := c.negated, bracketed := true,
        distribution := c.distribution } := by
  unfold asWritten
  split
  next name bracketed members => exact absurd ⟨bracketed, name, members⟩ notAlone
  next => rfl

theorem membersText_of_not_standsAlone (notAlone : ¬ c.StandsAlone) :
    c.membersText =
      (if c.negated then ascii "[^" else ascii "[") ++ c.members.flatMap ClassItem.text ++
        [0x5D] := by
  unfold membersText
  split
  next name bracketed members => exact absurd ⟨bracketed, name, members⟩ notAlone
  next => rfl

theorem members_asWritten (c : CharClass) : c.asWritten.members = c.members := by
  by_cases alone : c.StandsAlone
  · rw [asWritten_of_standsAlone alone]
  · rw [asWritten_of_not_standsAlone alone]

theorem distribution_asWritten (c : CharClass) : c.asWritten.distribution = c.distribution := by
  by_cases alone : c.StandsAlone
  · rw [asWritten_of_standsAlone alone]
  · rw [asWritten_of_not_standsAlone alone]

theorem standsAlone_asWritten_iff : c.asWritten.StandsAlone ↔ c.StandsAlone := by
  by_cases alone : c.StandsAlone
  · rw [asWritten_of_standsAlone alone]
    exact iff_of_true ⟨rfl, alone.2⟩ alone
  · rw [asWritten_of_not_standsAlone alone]
    exact iff_of_false (fun bracketed => nomatch bracketed.1) alone

/-- A class has the text of the class that its text stands for. -/
theorem text_asWritten (c : CharClass) : c.asWritten.text = c.text := by
  rw [text_eq, text_eq, distribution_asWritten]
  by_cases alone : c.StandsAlone
  · obtain ⟨bracketed, -⟩ := standsAlone_asWritten_iff.2 alone
    obtain ⟨name, members⟩ := alone.2
    rw [membersText_of_standsAlone alone.1 members,
      membersText_of_standsAlone bracketed (c.members_asWritten.trans members)]
  · rw [membersText_of_not_standsAlone alone,
      membersText_of_not_standsAlone (mt standsAlone_asWritten_iff.1 alone),
      asWritten_of_not_standsAlone alone]

/-- The class that a text stands for can be written. -/
theorem written_asWritten (nonempty : c.members ≠ []) (members : ∀ m ∈ c.members, m.Written) :
    c.asWritten.Written where
  nonempty := by
    rw [members_asWritten]
    exact nonempty
  members := by
    rw [members_asWritten]
    exact members
  alone := by
    by_cases alone : c.StandsAlone
    · rw [asWritten_of_standsAlone alone]
      exact fun _ => ⟨rfl, alone.2⟩
    · rw [asWritten_of_not_standsAlone alone]
      exact fun bracketed => nomatch bracketed

/-! ### Alphabets -/

/-- Plain and negated alphabets have no character in common. -/
theorem alphabetOf_ne (members : List ClassItem) (negated : alphabetOf members true ≠ []) :
    alphabetOf members false ≠ alphabetOf members true := by
  intro equal
  obtain ⟨b, present⟩ := List.exists_mem_of_ne_nil _ negated
  have left : b ∈ Alphabet.complement (alphabetOf members false) := present
  rw [Alphabet.mem_complement, equal] at left
  exact left.2 present

theorem alphabet_shorthand_ne_nil {name : UInt8} (known : IsShorthandName name) :
    alphabetOf [.shorthand name] false ≠ [] := by
  obtain rfl | rfl | rfl := known <;> decide +kernel

/-- The class that a text stands for has the same alphabet, unless the negation of a shorthand
alone is lost. -/
theorem alphabet_asWritten_eq_iff (inhabited : c.alphabet ≠ []) :
    c.asWritten.alphabet = c.alphabet ↔ ¬ (c.StandsAlone ∧ c.negated = true) := by
  have resolved := c.asWritten.alphabet_eq
  rw [c.alphabet_eq] at inhabited ⊢
  rw [resolved, members_asWritten]
  by_cases alone : c.StandsAlone
  · rw [asWritten_of_standsAlone alone]
    cases negated : c.negated with
    | false => simp
    | true =>
      rw [negated] at inhabited
      simp [alone, alphabetOf_ne c.members inhabited]
  · rw [asWritten_of_not_standsAlone alone]
    simp [alone]

theorem inhabited_asWritten (members : ∀ m ∈ c.members, m.Written)
    (inhabited : c.alphabet ≠ []) : c.asWritten.alphabet ≠ [] := by
  have resolved := c.asWritten.alphabet_eq
  rw [c.alphabet_eq] at inhabited
  rw [resolved, members_asWritten]
  by_cases alone : c.StandsAlone
  · obtain ⟨bracketed, name, membersEq⟩ := alone
    rw [asWritten_of_standsAlone ⟨bracketed, name, membersEq⟩, membersEq]
    rw [membersEq] at members
    exact alphabet_shorthand_ne_nil (members _ List.mem_cons_self)
  · rw [asWritten_of_not_standsAlone alone]
    exact inhabited

theorem wellFormed_asWritten (members : ∀ m ∈ c.members, m.Written)
    (inhabited : c.alphabet ≠ []) (undistributed : c.distribution = none) :
    c.asWritten.WellFormed := by
  have absent : c.asWritten.distribution = none := by rw [distribution_asWritten, undistributed]
  refine ⟨inhabited_asWritten members inhabited, ?_, c.asWritten.alphabet_eq, ?_, ?_⟩
  · rw [c.asWritten.alphabet_eq]
    exact nodup_alphabetOf _ _
  · rw [absent]
    exact fun d present => nomatch present
  · rw [absent]
    exact fun d present => nomatch present

/-! ### Reading the text of a class -/

theorem all_charClass {P : Node → Prop} {offset : Nat} (holds : P (.charClass offset c)) :
    (Node.charClass offset c).All P :=
  Node.all_of_children holds fun _ absent => absurd absent List.not_mem_nil

/-- The text of a class is read as the class that it stands for. -/
theorem exists_parse_text (offset : Nat) (nonempty : c.members ≠ [])
    (members : ∀ m ∈ c.members, m.Written) (inhabited : c.alphabet ≠ [])
    (undistributed : c.distribution = none) :
    ∃ (p : Pattern) (offset' : Nat) (c' : CharClass),
      Pattern.parse (Node.charClass offset c).text = .ok p ∧ p.root = .charClass offset' c' ∧
      c.asWritten.Matches (· = ·) c' := by
  have spells := @Grammar.spells_pattern maxGroupDepth
    ⟨.charClass offset c.asWritten, false, false, []⟩
    (all_charClass (wellFormed_asWritten members inhabited undistributed))
    (all_charClass (written_asWritten nonempty members)) (Nat.zero_le _)
  have textEq : Pattern.text ⟨.charClass offset c.asWritten, false, false, []⟩ =
      (Node.charClass offset c).text := by
    unfold Pattern.text
    rw [Node.textOnto_eq, Node.text, Node.text, text_asWritten]
    exact List.append_nil _
  obtain ⟨root, same, accepted⟩ := spells.scan rfl
  rw [textEq] at accepted
  cases same with
  | charClass _ offset' sameClass =>
    have read := Grammar.accepts_iff_within.2 accepted
    exact ⟨⟨_, false, false, _⟩, offset', _, Grammar.parse_eq_ok_iff.2 ⟨read, rfl⟩, rfl,
      sameClass⟩

/-- The text of a class is read as a class with the same members, in whatever way the class was
made of them. The alphabet is kept too, unless the class is a negated shorthand without
brackets. -/
theorem alphabet_of_parse_text (offset : Nat) (nonempty : c.members ≠ [])
    (members : ∀ m ∈ c.members, m.Written) (inhabited : c.alphabet ≠ [])
    (undistributed : c.distribution = none) :
    ∃ (p : Pattern) (offset' : Nat) (c' : CharClass),
      Pattern.parse (Node.charClass offset c).text = .ok p ∧ p.root = .charClass offset' c' ∧
      c'.members = c.members ∧
      (c'.alphabet = c.alphabet ↔
        ¬ (c.bracketed = false ∧ c.negated = true ∧ ∃ name, c.members = [.shorthand name])) := by
  obtain ⟨p, offset', c', read, root, same⟩ :=
    exists_parse_text offset nonempty members inhabited undistributed
  refine ⟨p, offset', c', read, root, ?_, ?_⟩
  · rw [← same.members, members_asWritten]
  · rw [← same.alphabet, alphabet_asWritten_eq_iff inhabited]
    unfold StandsAlone
    tauto

/-- All but two characters, capitals and digits: a negated class without brackets whose first member
looks like a negation sign. -/
def othersThanCaret : CharClass where
  members := [.literal 0x5E, .literal 0x5D, .posix (ascii "upper"), .shorthand 0x64]
  negated := true
  bracketed := false
  distribution := none

/-- The class keeps its alphabet: it is written with brackets, and its members are escaped. -/
theorem alphabet_of_parse_text_caret :
    (∀ m ∈ othersThanCaret.members, m.Written) ∧ othersThanCaret.alphabet ≠ [] ∧
    ∃ (p : Pattern) (offset' : Nat) (c' : CharClass),
      Pattern.parse (Node.charClass 3 othersThanCaret).text = .ok p ∧
      p.root = .charClass offset' c' ∧ c'.alphabet = othersThanCaret.alphabet := by
  have members : ∀ m ∈ othersThanCaret.members, m.Written := by
    simp only [othersThanCaret, List.forall_mem_cons, ClassItem.Written]
    exact ⟨trivial, trivial, by decide +kernel, by decide,
      fun _ absent => absurd absent List.not_mem_nil⟩
  have inhabited : othersThanCaret.alphabet ≠ [] := by decide +kernel
  obtain ⟨p, offset', c', read, root, -, kept⟩ :=
    alphabet_of_parse_text 3 (List.cons_ne_nil _ _) members inhabited rfl
  refine ⟨members, inhabited, p, offset', c', read, root, kept.2 ?_⟩
  rintro ⟨-, -, name, single⟩
  cases single

/-- All but digits, as a negated shorthand without brackets. -/
def notDigits : CharClass where
  members := [.shorthand 0x64]
  negated := true
  bracketed := false
  distribution := none

/-- The negation of a shorthand without brackets is lost: what is written for all but digits is
read as digits. -/
theorem negation_lost_digits :
    (∀ m ∈ notDigits.members, m.Written) ∧ notDigits.alphabet ≠ [] ∧
    (Node.charClass 0 notDigits).text = ascii "\\d" ∧
    ∃ (p : Pattern) (offset' : Nat) (c' : CharClass),
      Pattern.parse (Node.charClass 0 notDigits).text = .ok p ∧ p.root = .charClass offset' c' ∧
      c'.alphabet = ascii "0123456789" ∧ c'.alphabet ≠ notDigits.alphabet := by
  have members : ∀ m ∈ notDigits.members, m.Written :=
    List.forall_mem_singleton.2 (show IsShorthandName 0x64 by decide)
  have inhabited : notDigits.alphabet ≠ [] := by decide +kernel
  obtain ⟨p, offset', c', read, root, same⟩ :=
    exists_parse_text 0 (List.cons_ne_nil _ _) members inhabited rfl
  have digits : c'.alphabet = ascii "0123456789" := by
    rw [← same.alphabet]
    decide +kernel
  refine ⟨members, inhabited, rfl, p, offset', c', read, root, digits, ?_⟩
  rw [digits]
  decide +kernel

end CharClass

end PatternSampler
