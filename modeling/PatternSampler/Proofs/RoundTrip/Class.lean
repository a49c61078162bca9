/-
Module: PatternSampler.Proofs.RoundTrip.Class
Purpose: Classes as they are written. A class that is read from a text has members of certain
  shapes only, and the text of a class with such members spells the class again: its
  members are escaped where they have to be, the first of them is never taken for a negation
  sign, and the annotation means the distribution over the alphabet.
Main exports: ClassItem.Written, CharClass.Written, Grammar.written_of_class,
  Grammar.spells_class
-/
import PatternSampler.Proofs.Grammar.Extent
import PatternSampler.Proofs.Invariants
import PatternSampler.Proofs.RoundTrip.Annotation

namespace PatternSampler

/-! ### Members that can be written -/

/-- A member that can stand between brackets: a name among them has to be known. -/
def ClassItem.Written : ClassItem → Prop
  | .literal _ => True
  | .shorthand name => IsShorthandName name
  | .posix name => (Alphabet.posix? name).isSome
  | .wildcard => True

/-- A class that can be written. Without brackets it is a single shorthand. -/
structure CharClass.Written (c : CharClass) : Prop where
  nonempty : c.members ≠ []
  members : ∀ m ∈ c.members, m.Written
  alone : c.bracketed = false → c.negated = false ∧ ∃ name, c.members = [.shorthand name]

/-- The alphabet of a class follows from its members. -/
theorem CharClass.eq_mk (c : CharClass) :
    { members := c.members, negated := c.negated, bracketed := c.bracketed,
      distribution := c.distribution } = c := by
  cases c with
  | mk members negated bracketed distribution alphabet alphabetEq =>
    subst alphabetEq
    rfl

theorem CharClass.text_eq (c : CharClass) :
    c.text = c.membersText ++ c.distribution.elim [] Distribution.text := by
  unfold text
  cases c.distribution with
  | none => rfl
  | some d => rfl

namespace Grammar

theorem written_of_member {ts rest : List Token} {m : ClassItem} (member : Member ts m rest)
    (named : AllNamed ts) : m.Written := by
  cases member with
  | named _ known => exact known
  | wildcard => trivial
  | shorthand name place => exact named _ List.mem_cons_self name rfl
  | single => trivial

theorem written_of_members {ts rest : List Token} {ms : List ClassItem}
    (members : Members ts ms rest) (named : AllNamed ts) : ∀ m ∈ ms, m.Written := by
  induction members with
  | done => exact fun m absent => absurd absent List.not_mem_nil
  | more member _ inductionHypothesis =>
    intro m present
    rcases List.mem_cons.1 present with rfl | others
    · exact written_of_member member named
    · exact inductionHypothesis (named.of_isSuffix member.isSuffix) m others

/-- A class that is read can be written. -/
theorem written_of_class {ts rest : List Token} {c : CharClass} (phrase : Class ts c rest)
    (named : AllNamed ts) : c.Written := by
  cases phrase with
  | @shorthand name =>
    refine ⟨List.cons_ne_nil _ _, ?_, fun _ => ⟨rfl, name, rfl⟩⟩
    intro m present
    rw [List.mem_singleton.1 present]
    exact named _ List.mem_cons_self name rfl
  | bracketed negation listed nonempty =>
    refine ⟨nonempty, ?_, fun bracketed => nomatch bracketed⟩
    apply written_of_members listed
    exact (named.of_isSuffix (List.suffix_cons _ _)).of_isSuffix negation.isSuffix

/-! ### Texts of classes -/

theorem isLetter_of_mem_className (c : Alphabet.NamedClass) : ∀ b ∈ c.name, IsLetter b := by
  cases c <;> decide +kernel

theorem isLetter_of_posix? {name : Text} (known : (Alphabet.posix? name).isSome) :
    ∀ b ∈ name, IsLetter b := by
  unfold Alphabet.posix? at known
  rw [Option.isSome_map] at known
  obtain ⟨c, found⟩ := Option.isSome_iff_exists.1 known
  rw [← Alphabet.NamedClass.name_of_ofName? found]
  exact isLetter_of_mem_className c

/-- The text of a member spells the member, and does not begin with a negation sign. -/
theorem spells_member {m : ClassItem} (written : m.Written) :
    Spells m.text fun ts rest => peekSymbol ts ≠ .mark .caret ∧ Member ts m rest := by
  cases m with
  | literal b =>
    apply (spells_literalText b).mono
    rintro ts rest ⟨s, place, plain | escaped, rfl⟩
    · subst plain
      refine ⟨by simp [peekSymbol], ?_⟩
      exact @Member.single (.literal b) place rest (by simp) (by simp) (by simp) (by simp) (by simp)
    · subst escaped
      refine ⟨by simp [peekSymbol], ?_⟩
      exact @Member.single (.escaped b) place rest (by simp) (by simp) (by simp) (by simp) (by simp)
  | shorthand name =>
    apply (Spells.symbol (Symbol.standing_shorthand written)).mono
    rintro ts rest ⟨place, rfl⟩
    exact ⟨by simp [peekSymbol], .shorthand name place rest⟩
  | posix name =>
    have letters := spells_letters (isLetter_of_posix? written)
    have colon := Spells.literal (show ¬ IsReserved 0x3A by decide)
    have opens := (Spells.mark .leftBracket).append colon
    have closes := colon.append (Spells.mark .rightBracket)
    apply ((opens.append letters).append closes).mono
    rintro ts rest ⟨us, ⟨vs, ⟨ws, ⟨p₁, rfl⟩, ⟨p₂, rfl⟩⟩, run⟩, xs, ⟨p₃, rfl⟩, ⟨p₄, rfl⟩⟩
    exact ⟨by simp [peekSymbol], .named run written⟩
  | wildcard =>
    apply (Spells.mark .dot).mono
    rintro ts rest ⟨place, rfl⟩
    exact ⟨by simp [peekSymbol], .wildcard place rest⟩

/-- The texts of members spell the members, and do not begin with a negation sign. -/
theorem spells_members {ms : List ClassItem} (written : ∀ m ∈ ms, m.Written) :
    Spells (ms.flatMap ClassItem.text) fun ts rest =>
      (ms ≠ [] → peekSymbol ts ≠ .mark .caret) ∧ Members ts ms rest := by
  induction ms with
  | nil =>
    apply Spells.nil.mono
    rintro ts rest rfl
    exact ⟨fun some => absurd rfl some, .done ts⟩
  | cons m ms inductionHypothesis =>
    have first := spells_member (written m List.mem_cons_self)
    have others := inductionHypothesis fun m member => written m (List.mem_cons_of_mem _ member)
    rw [List.flatMap_cons]
    apply (first.append others).mono
    rintro ts rest ⟨us, ⟨noCaret, member⟩, -, members⟩
    exact ⟨fun _ => noCaret, .more member members⟩

/-- The text of a class's distribution, if it has one. -/
theorem spells_attached {alphabet : Text} {d : Option Distribution}
    (remade : ∀ d' ∈ d, d'.remake = .ok d') (fits : ∀ d' ∈ d, d'.FitsClass alphabet.length) :
    Spells (d.elim [] Distribution.text) fun ts rest =>
      Attached (·.onClass alphabet) ts d rest := by
  cases d with
  | none =>
    apply Spells.nil.mono
    rintro ts rest rfl
    exact .absent ts
  | some d =>
    have remadeSome := remade d rfl
    apply (spells_distribution (Distribution.valid_of_remake remadeSome)).mono
    rintro ts rest ⟨a, denotes, note⟩
    have means := Annotation.onClass_of_denotes denotes remadeSome (fits d rfl)
    exact .present note means

/-- The text of a class that can be written spells the class. -/
theorem spells_class {c : CharClass} (written : c.Written) (wellFormed : c.WellFormed) :
    Spells c.text fun ts rest => Class ts c rest := by
  obtain ⟨nonempty, membersWritten, alone⟩ := written
  obtain ⟨inhabited, -, resolved, remade, fits⟩ := wellFormed
  have attached := spells_attached remade fits
  have built := c.eq_mk
  rw [resolved] at inhabited attached
  rw [CharClass.text_eq]
  unfold CharClass.membersText
  cases bracketed : c.bracketed with
  | false =>
    obtain ⟨notNegated, name, membersEq⟩ := alone bracketed
    rw [membersEq] at membersWritten
    rw [membersEq, notNegated] at inhabited attached
    rw [bracketed, membersEq, notNegated] at built
    rw [membersEq]
    have opens := Spells.symbol (Symbol.standing_shorthand (membersWritten _ List.mem_cons_self))
    apply (opens.append attached).mono
    rintro ts rest ⟨us, ⟨place, rfl⟩, note⟩
    rw [← built]
    exact .shorthand inhabited note
  | true =>
    have opens : Spells (if c.negated then ascii "[^" else ascii "[") fun ts rest =>
        peekSymbol rest ≠ .mark .caret →
          ∃ place us, ts = ⟨.mark .leftBracket, place⟩ :: us ∧ Negation us c.negated rest := by
      cases c.negated with
      | true =>
        apply ((Spells.mark .leftBracket).append (Spells.mark .caret)).mono
        rintro ts rest ⟨us, ⟨place, rfl⟩, ⟨place', rfl⟩⟩ -
        exact ⟨place, _, rfl, .present place' rest⟩
      | false =>
        apply (Spells.mark .leftBracket).mono
        rintro ts rest ⟨place, rfl⟩ noCaret
        exact ⟨place, _, rfl, .absent noCaret⟩
    have closes := (opens.append (spells_members membersWritten)).append
      (Spells.mark .rightBracket)
    rw [bracketed] at built
    apply (closes.append attached).mono
    rintro ts rest ⟨us, ⟨vs, ⟨ws, opened, noCaret, members⟩, ⟨place, rfl⟩⟩, note⟩
    obtain ⟨place', xs, rfl, negation⟩ := opened (noCaret nonempty)
    rw [← built]
    exact .bracketed negation members nonempty inhabited note

end Grammar

end PatternSampler
