/-
Module: PatternSampler.Proofs.Paths
Purpose: How deep the tree of a text is. From the root of a tree to a leaf, every level of nested
  groups adds a choice, a sequence and a repeat at most. So what descends a tree, as drawing and
  writing do, descends no further than the nesting of groups allows, however long the text is.
  Neither do the groups of the canonical text: there is none that the text it was read from did
  not have.
Main exports: Node.Path, Node.PathsWithin, Grammar.pathsWithin_of_derives,
  Grammar.exists_longest_path, Pattern.groupDepth_text_le, Pattern.paths_of_parse
-/
import PatternSampler.Proofs.GroupDepth
import PatternSampler.Proofs.Offsets
import PatternSampler.Proofs.RoundTrip

namespace PatternSampler

/-! ### Paths -/

namespace Node

/-- The nodes on a way from a node to a leaf: each is followed by one of its parts, and the last one
has none. -/
inductive Path : Node → List Node → Prop where
  | leaf {n : Node} (childless : n.children = []) : Path n [n]
  | step {n child : Node} {path : List Node} (member : child ∈ n.children)
      (below : Path child path) : Path n (n :: path)

/-- Every path from a node to a leaf has at most `bound` nodes. -/
def PathsWithin (bound : Nat) (n : Node) : Prop := ∀ path, n.Path path → path.length ≤ bound

variable {n : Node} {ns : List Node} {bound bound' offset : Nat}

theorem PathsWithin.mono (within : n.PathsWithin bound) (wider : bound ≤ bound') :
    n.PathsWithin bound' :=
  fun path isPath => Nat.le_trans (within path isPath) wider

/-- A node adds itself to the paths of its parts. -/
theorem pathsWithin_of_children (below : ∀ child ∈ n.children, child.PathsWithin bound) :
    n.PathsWithin (bound + 1) := by
  intro path isPath
  cases isPath with
  | leaf => exact Nat.le_add_left 1 bound
  | step member isPath => exact Nat.succ_le_succ (below _ member _ isPath)

theorem pathsWithin_of_childless (childless : n.children = []) : n.PathsWithin 1 := by
  refine pathsWithin_of_children ?_
  simp [childless]

theorem pathsWithin_sequence (all : ∀ n ∈ ns, n.PathsWithin bound) :
    (sequence offset ns).PathsWithin (bound + 1) := by
  unfold sequence
  split
  next n => exact (all n (List.mem_singleton_self n)).mono (Nat.le_succ bound)
  next => exact pathsWithin_of_children all

theorem pathsWithin_choice (all : ∀ n ∈ ns, n.PathsWithin bound) :
    (choice offset ns).PathsWithin (bound + 1) := by
  unfold choice
  split
  next n => exact (all n (List.mem_singleton_self n)).mono (Nat.le_succ bound)
  next => exact pathsWithin_of_children all

end Node

namespace Grammar

/-- How many nodes a form without groups can have one above the other: an atom is one node, a repeat
adds one, a sequence another one, and a choice the last one. -/
def Form.layers : Form → Nat
  | .atom _ => 1
  | .factor _ | .factors _ => 2
  | .expression _ | .branches _ => 3
  | .alternation _ => 4

/-- Every level of groups adds a choice, a sequence and a repeat to a path. -/
theorem pathsWithin_of_derives {depth : Nat} {form : Form} {ts rest : List Token}
    (derived : Derives depth form ts rest) :
    ∀ n ∈ form.nodes, n.PathsWithin (3 * depth + form.layers) := by
  have leaf : ∀ {n : Node} {depth : Nat}, n.children = [] → n.PathsWithin (3 * depth + 1) :=
    fun childless => (Node.pathsWithin_of_childless childless).mono (Nat.le_add_left 1 _)
  induction derived with
  | literal => exact List.forall_mem_singleton.2 (leaf rfl)
  | escaped => exact List.forall_mem_singleton.2 (leaf rfl)
  | wildcard => exact List.forall_mem_singleton.2 (leaf rfl)
  | charClass => exact List.forall_mem_singleton.2 (leaf rfl)
  | group _ inductionHypothesis => exact inductionHypothesis
  | bare _ inductionHypothesis =>
    have atom := List.forall_mem_singleton.1 inductionHypothesis
    exact List.forall_mem_singleton.2 (atom.mono (Nat.le_succ _))
  | repeated _ _ inductionHypothesis =>
    exact List.forall_mem_singleton.2 (Node.pathsWithin_of_children inductionHypothesis)
  | lastFactor _ inductionHypothesis => exact inductionHypothesis
  | moreFactors _ _ first others =>
    exact List.forall_mem_cons.2 ⟨List.forall_mem_singleton.1 first, others⟩
  | sequence _ inductionHypothesis =>
    exact List.forall_mem_singleton.2 (Node.pathsWithin_sequence inductionHypothesis)
  | lastBranch _ inductionHypothesis => exact inductionHypothesis
  | moreBranches _ _ first others =>
    exact List.forall_mem_cons.2 ⟨List.forall_mem_singleton.1 first, others⟩
  | choice _ inductionHypothesis =>
    exact List.forall_mem_singleton.2 (Node.pathsWithin_choice inductionHypothesis)

/-- A choice whose first branch is a repeat of an atom and a character puts three nodes above the
atom. -/
theorem Derives.choice_over_atom {depth : Nat} {n : Node} {t : Token} {ts rest : List Token}
    {star next bar last : Location} {b c : UInt8}
    (atom : Derives depth (.atom n) (t :: ts) (⟨.mark .star, star⟩ :: ⟨.literal b, next⟩ ::
      ⟨.mark .pipe, bar⟩ :: ⟨.literal c, last⟩ :: rest)) :
    Derives depth (.alternation (.alternation t.place.offset
      [.concat t.place.offset [.quantified n.offset ⟨0, none⟩ none n, .literal next.offset b],
        .literal last.offset c])) (t :: ts) rest := by
  have repeated : Derives depth (.factor (.quantified n.offset ⟨0, none⟩ none n)) _ _ :=
    .repeated atom (.mark .star (.absent _))
  have first := Derives.sequence (.moreFactors repeated
    (.lastFactor (.bare (.literal depth b next _))))
  have second := Derives.sequence (.lastFactor (.bare (.literal depth c last rest)))
  exact .choice (.moreBranches first (.lastBranch second))

/-- No smaller bound would do: at every depth there are tokens, those of `((a*b|c)*b|c)*b|c` at a
depth of two, with a path of that length. -/
theorem exists_longest_path (depth : Nat) (rest : List Token) :
    ∃ n t ts, Derives depth (.alternation n) (t :: ts) rest ∧
      ∃ path, n.Path path ∧ path.length = 3 * depth + 4 := by
  have first : ∀ {n : Node} {ns : List Node}, n ∈ n :: ns := List.mem_cons_self
  have place := Location.start
  induction depth generalizing rest with
  | zero =>
    have letter := Derives.literal 0 0x61 place (⟨.mark .star, place⟩ :: ⟨.literal 0x62, place⟩ ::
      ⟨.mark .pipe, place⟩ :: ⟨.literal 0x63, place⟩ :: rest)
    exact ⟨_, _, _, letter.choice_over_atom, _,
      .step first (.step first (.step first (.leaf rfl))), rfl⟩
  | succ depth inductionHypothesis =>
    obtain ⟨n, t, ts, content, path, isPath, long⟩ := inductionHypothesis
      (⟨.mark .rightParen, place⟩ :: ⟨.mark .star, place⟩ :: ⟨.literal 0x62, place⟩ ::
        ⟨.mark .pipe, place⟩ :: ⟨.literal 0x63, place⟩ :: rest)
    refine ⟨_, ⟨.mark .leftParen, place⟩, _, (Derives.group content).choice_over_atom, _,
      .step first (.step first (.step first isPath)), ?_⟩
    simp only [List.length_cons]
    omega

end Grammar

/-! ### Texts -/

namespace Pattern

open Grammar

variable {s : Text} {p : Pattern}

/-- A text that is a pattern is accepted at the depth of its groups, which is not too deep. -/
theorem accepts_at_groupDepth (read : parse s = .ok p) :
    s.groupDepth ≤ maxGroupDepth ∧
      AcceptsWithin s.groupDepth (Cursor.ofText s).scan.1 p.root p.startAnchor p.endAnchor :=
  (accepts_iff_within.1 (parse_eq_ok_iff.1 read).1).at_groupDepth

theorem nesting_root_le (read : parse s = .ok p) : p.root.nesting ≤ s.groupDepth := by
  obtain ⟨-, -, content, -⟩ := accepts_at_groupDepth read
  exact nesting_of_derives content

/-- Groups are nested in the canonical text no deeper than its parentheses are. -/
theorem groupDepth_text_le (read : parse s = .ok p) : p.text.groupDepth ≤ p.root.nesting := by
  have spells := spells_pattern (allWellFormed_root read) (all_root establishes_written read)
    (Nat.le_refl p.root.nesting)
  obtain ⟨root, -, accepted⟩ := spells.scan rfl
  exact accepted.at_groupDepth.1

/-- The tree of a text with groups nested at most `d` deep, as all are for some `d` of at most a
thousand, has no path of more than three nodes for each of the levels, the outermost included,
and a leaf. Its canonical text has groups nested at most `d` deep too. -/
theorem paths_of_parse (read : parse s = .ok p) :
    s.groupDepth ≤ maxGroupDepth ∧
    (∀ d, s.groupDepth ≤ d →
      (∀ path, p.root.Path path → path.length ≤ 3 * (d + 1) + 1) ∧ p.text.groupDepth ≤ d) ∧
    ∀ path, p.root.Path path → path.length ≤ 3004 := by
  obtain ⟨limited, -, content, -⟩ := accepts_at_groupDepth read
  have paths : p.root.PathsWithin (3 * s.groupDepth + 4) :=
    pathsWithin_of_derives content p.root (List.mem_singleton_self _)
  refine ⟨limited, ?_, ?_⟩
  · intro d nested
    refine ⟨paths.mono (by omega), ?_⟩
    exact (groupDepth_text_le read).trans ((nesting_root_le read).trans nested)
  · rw [show maxGroupDepth = 1000 from rfl] at limited
    exact paths.mono (by omega)

/-- The tree of `(a*b|c)*b|c` has one level of groups and no path of more than seven nodes, but
one of seven. -/
theorem paths_of_parse_choices :
    ∃ p : Pattern, parse (ascii "(a*b|c)*b|c") = .ok p ∧
      (ascii "(a*b|c)*b|c").groupDepth ≤ 1 ∧
      (∀ path, p.root.Path path → path.length ≤ 7) ∧
      (∃ path, p.root.Path path ∧ path.length = 7) ∧ p.text.groupDepth ≤ 1 := by
  have tokens : (Cursor.ofText (ascii "(a*b|c)*b|c")).scan.1 =
      [⟨.mark .leftParen, ⟨0, 1, 1⟩⟩, ⟨.literal 0x61, ⟨1, 1, 2⟩⟩, ⟨.mark .star, ⟨2, 1, 3⟩⟩,
        ⟨.literal 0x62, ⟨3, 1, 4⟩⟩, ⟨.mark .pipe, ⟨4, 1, 5⟩⟩, ⟨.literal 0x63, ⟨5, 1, 6⟩⟩,
        ⟨.mark .rightParen, ⟨6, 1, 7⟩⟩, ⟨.mark .star, ⟨7, 1, 8⟩⟩, ⟨.literal 0x62, ⟨8, 1, 9⟩⟩,
        ⟨.mark .pipe, ⟨9, 1, 10⟩⟩, ⟨.literal 0x63, ⟨10, 1, 11⟩⟩] := by
    decide +kernel
  obtain ⟨root, accepted, long⟩ : ∃ root,
      Accepts (Cursor.ofText (ascii "(a*b|c)*b|c")).scan.1 root false false ∧
        ∃ path, root.Path path ∧ path.length = 7 := by
    rw [tokens]
    refine ⟨_, .intro (.absent _)
      (.choice_over_atom (.group (.choice_over_atom (.literal 999 _ _ _)))) .absent, ?_⟩
    have first : ∀ {n : Node} {ns : List Node}, n ∈ n :: ns := List.mem_cons_self
    exact ⟨_, .step first (.step first (.step first (.step first (.step first (.step first
      (.leaf rfl)))))), rfl⟩
  have read : parse (ascii "(a*b|c)*b|c") = .ok ⟨root, false, false, ascii "(a*b|c)*b|c"⟩ :=
    parse_eq_ok_iff.2 ⟨accepted, rfl⟩
  have nested : (ascii "(a*b|c)*b|c").groupDepth ≤ 1 := by decide +kernel
  obtain ⟨-, within, -⟩ := paths_of_parse read
  obtain ⟨paths, text⟩ := within 1 nested
  exact ⟨_, read, nested, paths, long, text⟩

end Pattern

end PatternSampler
