/-
Module: PatternSampler.Proofs.Acceptance
Purpose: Which texts are patterns: those whose tokens the grammar derives, and no others. A text
  stands for one pattern only, the one that is read from it.
Main exports: Grammar.parse_eq_ok_iff, Grammar.accepts_unique,
  Grammar.exists_parse_iff_accepts
-/
import PatternSampler.Proofs.Grammar.Soundness
import PatternSampler.Proofs.Grammar.Completeness

namespace PatternSampler.Grammar

/-- Tokens are read as a pattern exactly if the grammar derives the pattern from them. -/
theorem ofTokens_eq_ok_iff {source : Text} {finish : Location} {ts : List Token} {p : Pattern} :
    Pattern.ofTokens source finish ts = .ok p ↔
      Accepts ts p.root p.startAnchor p.endAnchor ∧ p.source = source := by
  constructor
  · exact accepts_of_ofTokens
  · rintro ⟨accepted, rfl⟩
    exact ofTokens_of_accepts p.source finish accepted

/-- A text is read as a pattern exactly if the grammar derives the pattern from its tokens. -/
theorem parse_eq_ok_iff {s : Text} {p : Pattern} :
    Pattern.parse s = .ok p ↔
      Accepts (Cursor.ofText s).scan.1 p.root p.startAnchor p.endAnchor ∧ p.source = s :=
  ofTokens_eq_ok_iff

/-- The grammar is not ambiguous: tokens have one tree and one pair of anchors. -/
theorem accepts_unique {ts : List Token} {root root' : Node} {a a' b b' : Bool}
    (first : Accepts ts root a b) (second : Accepts ts root' a' b') :
    root = root' ∧ a = a' ∧ b = b' := by
  have firstRead := ofTokens_of_accepts [] Location.start first
  have secondRead := ofTokens_of_accepts [] Location.start second
  rw [firstRead] at secondRead
  cases secondRead
  exact ⟨rfl, rfl, rfl⟩

/-- A text is a pattern if and only if its tokens derive from the grammar, within its limits and
with every annotation resolved. -/
theorem exists_parse_iff_accepts (s : Text) :
    (∃ p, Pattern.parse s = .ok p) ↔
      ∃ root startAnchor endAnchor,
        Accepts (Cursor.ofText s).scan.1 root startAnchor endAnchor := by
  constructor
  · rintro ⟨p, read⟩
    obtain ⟨accepted, -⟩ := parse_eq_ok_iff.1 read
    exact ⟨p.root, p.startAnchor, p.endAnchor, accepted⟩
  · rintro ⟨root, startAnchor, endAnchor, accepted⟩
    exact ⟨⟨root, startAnchor, endAnchor, s⟩, parse_eq_ok_iff.2 ⟨accepted, rfl⟩⟩

/-- A character that stands for itself with a star behind it is a repeat of that character,
without a group. -/
theorem derives_star {b : UInt8} (unreserved : ¬ IsReserved b) (depth : Nat) :
    Derives depth (.alternation (.quantified 0 ⟨0, none⟩ none (.literal 0 b)))
      (Cursor.ofText [b, 0x2A]).scan.1 [] := by
  have notBackslash : b ≠ Text.backslash := fun equal => unreserved (.inl equal)
  have notMark : Mark.ofByte? b = none := by
    cases found : Mark.ofByte? b with
    | none => rfl
    | some m => exact absurd (.inr (by rw [found]; rfl)) unreserved
  have tokens : (Cursor.ofText [b, 0x2A]).scan.1 =
      [⟨.literal b, Location.start⟩, ⟨.mark .star, Location.start.after [b]⟩] := by
    have first : Symbol.read? [b, 0x2A] = some (.literal b, [0x2A]) := by
      simp [Symbol.read?, notBackslash, Symbol.ofByte, notMark]
    have second : Symbol.read? [0x2A] = some (.mark .star, []) := by decide
    rw [Cursor.scan_of_read? first, Cursor.scan_of_read? second, Cursor.scan_of_nil rfl]
    rfl
  have atom := Derives.literal depth b Location.start
    [⟨.mark .star, Location.start.after [b]⟩]
  have quantifier : Quantifier [⟨.mark .star, Location.start.after [b]⟩] ⟨⟨0, none⟩, none⟩ [] :=
    .mark .star (.absent [])
  have branch := Derives.sequence (.lastFactor (.repeated atom quantifier))
  rw [tokens]
  exact .choice (.lastBranch branch)

theorem parse_star {b : UInt8} (unreserved : ¬ IsReserved b) :
    Pattern.parse [b, 0x2A] =
      .ok ⟨.quantified 0 ⟨0, none⟩ none (.literal 0 b), false, false, [b, 0x2A]⟩ :=
  parse_eq_ok_iff.2 ⟨.intro (.absent _) (derives_star unreserved maxGroupDepth) .absent, rfl⟩

end PatternSampler.Grammar
