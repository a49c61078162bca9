/-
Module: PatternSampler.Proofs.Offsets
Purpose: Offsets locate the nodes of a tree in the text it was read from. A node without parts
  stands at its offset as it is written. No other node begins behind one of its parts, and parts
  that follow each other in a tree follow each other in the text, however deep they are nested: a
  phrase is read from a piece of the text, and every node of its tree begins inside that piece.
Main exports: Node.WrittenAt, Node.Precedes, Node.Located, Node.Placed,
  Grammar.placed_of_derives, Pattern.located_of_parse
-/
import PatternSampler.Proofs.Exceptions.Agreement
import PatternSampler.Proofs.Invariants

namespace PatternSampler

/-! ### Nodes in a text -/

namespace Node

/-- A node without parts is written at its offset: a character as it is or behind a backslash, a
wildcard as a point, and a class as an opening bracket or as its shorthand. -/
def WrittenAt (s : Text) : Node → Prop
  | literal offset b =>
    s[offset]? = some b ∨ s[offset]? = some Text.backslash ∧ s[offset + 1]? = some b
  | wildcard offset => s[offset]? = some Mark.dot.byte
  | charClass offset c =>
    if c.bracketed then s[offset]? = some Mark.leftBracket.byte
    else ∃ name, c.members = [.shorthand name] ∧
      s[offset]? = some Text.backslash ∧ s[offset + 1]? = some name
  | _ => True

/-- Every node of one tree begins before every node of the other. -/
def Precedes (n n' : Node) : Prop :=
  ∀ m m' : Node, m.Within n → m'.Within n' → m.offset < m'.offset

/-- What the offset of a node says about where it stands in a text. -/
structure Located (s : Text) (n : Node) : Prop where
  inside : n.offset < s.length
  notBehind : ∀ child ∈ n.children, n.offset ≤ child.offset
  inOrder : n.children.Pairwise Precedes
  written : n.WrittenAt s

/-- A node stands in the piece of a text that begins where some tokens do and ends where others
begin, which go on to the end of the text. -/
structure Placed (s : Text) (ts rest : List Token) (n : Node) : Prop extends n.Located s where
  notBefore : s.length ≤ n.offset + (Token.lexemes ts).length
  before : n.offset + (Token.lexemes rest).length < s.length

end Node

/-! ### Pieces of a text -/

theorem Token.length_lexemes_cons (t : Token) (ts : List Token) :
    (Token.lexemes (t :: ts)).length = t.lexeme.length + (Token.lexemes ts).length := by
  simp [Token.lexemes]

theorem Token.length_lexemes_le {ts us : List Token} (suffix : us <:+ ts) :
    (Token.lexemes us).length ≤ (Token.lexemes ts).length := by
  obtain ⟨front, rfl⟩ := suffix
  rw [Token.lexemes_append, List.length_append]
  exact Nat.le_add_left _ _

namespace Laid

variable {s : Text} {t : Token} {ts : List Token}

/-- Behind the place of a token there is as much of the text as the tokens from there on take. -/
theorem offset_add_length (laid : Laid s (t :: ts)) :
    t.place.offset + (Token.lexemes (t :: ts)).length = s.length := by
  obtain ⟨front, sourceEq, offsetEq⟩ := laid t ts List.suffix_rfl
  rw [offsetEq, ← List.length_append, ← sourceEq]

/-- The text from the place of a token on is what the tokens from there on are written as. -/
theorem getElem?_offset (laid : Laid s (t :: ts)) (i : Nat) :
    s[t.place.offset + i]? = (t.lexeme ++ Token.lexemes ts)[i]? := by
  obtain ⟨front, sourceEq, offsetEq⟩ := laid t ts List.suffix_rfl
  rw [sourceEq, offsetEq, List.getElem?_append_right (Nat.le_add_right _ _),
    Nat.add_sub_cancel_left]
  rfl

end Laid

namespace Node

variable {s : Text} {t : Token} {ts us rest : List Token} {n n' : Node}

theorem Placed.widen (placed : n.Placed s us rest) (suffix : us <:+ ts) : n.Placed s ts rest where
  toLocated := placed.toLocated
  notBefore := Nat.le_trans placed.notBefore
    (Nat.add_le_add_left (Token.length_lexemes_le suffix) _)
  before := placed.before

theorem Placed.stop (placed : n.Placed s ts us) (suffix : rest <:+ us) : n.Placed s ts rest where
  toLocated := placed.toLocated
  notBefore := placed.notBefore
  before := Nat.lt_of_le_of_lt (Nat.add_le_add_left (Token.length_lexemes_le suffix) _)
    placed.before

theorem All.widen (all : n.All (Placed s us rest)) (suffix : us <:+ ts) :
    n.All (Placed s ts rest) :=
  fun m inside => (all m inside).widen suffix

theorem All.stop (all : n.All (Placed s ts us)) (suffix : rest <:+ us) :
    n.All (Placed s ts rest) :=
  fun m inside => (all m inside).stop suffix

/-- The nodes of one piece of a text begin before those of the next piece. -/
theorem precedes_of_placed (first : n.All (Placed s ts us)) (second : n'.All (Placed s us rest)) :
    n.Precedes n' := by
  intro m m' inside inside'
  have before := (first m inside).before
  have notBefore := (second m' inside').notBefore
  omega

/-- A node without parts stands where its token does. -/
theorem all_placed_of_token (laid : Laid s (t :: ts)) (suffix : rest <:+ ts)
    (nonempty : t.lexeme ≠ []) (childless : n.children = [])
    (offsetEq : n.offset = t.place.offset) (written : n.WrittenAt s) :
    n.All (Placed s (t :: ts) rest) := by
  have atToken := laid.offset_add_length
  have behind := Token.length_lexemes_le suffix
  have some := List.length_pos_iff.2 nonempty
  have lengths := Token.length_lexemes_cons t ts
  rw [← offsetEq] at atToken
  refine all_of_children ?_ ?_
  · exact {
      inside := by omega
      notBehind := by simp [childless]
      inOrder := by simp [childless]
      written := written
      notBefore := by omega
      before := by omega }
  · simp [childless]

end Node

namespace Grammar

variable {s : Text} {ts us rest : List Token}

/-- The nodes that a form stands for, in order. -/
def Form.nodes : Form → List Node
  | .atom n | .factor n | .expression n | .alternation n => [n]
  | .factors ns | .branches ns => ns

/-- A form that is read from a piece of a text: all nodes of its trees stand in that piece, and the
trees follow each other. -/
structure Form.Placed (s : Text) (ts rest : List Token) (form : Form) : Prop where
  nonempty : form.nodes ≠ []
  all : ∀ n ∈ form.nodes, n.All (Node.Placed s ts rest)
  inOrder : form.nodes.Pairwise Node.Precedes

/-- A form of a single node. -/
theorem Form.placed_of_node {form : Form} {n : Node} (alone : form.nodes = [n])
    (all : n.All (Node.Placed s ts rest)) : form.Placed s ts rest where
  nonempty := by simp [alone]
  all := by simpa [alone] using all
  inOrder := by simp [alone]

theorem Form.Placed.node {form : Form} {n : Node} (placed : form.Placed s ts rest)
    (alone : form.nodes = [n]) : n.All (Node.Placed s ts rest) :=
  placed.all n (by simp [alone])

theorem Form.Placed.widen {form : Form} (placed : form.Placed s us rest) (suffix : us <:+ ts) :
    form.Placed s ts rest where
  nonempty := placed.nonempty
  all := fun n member => (placed.all n member).widen suffix
  inOrder := placed.inOrder

/-- A form of a node in front of the nodes of another form, which are read behind it. -/
theorem Form.placed_cons {first others form : Form} {n : Node} (placed : first.Placed s ts us)
    (alone : first.nodes = [n]) (behind : others.Placed s us rest) (suffix : us <:+ ts)
    (suffix' : rest <:+ us) (nodes : form.nodes = n :: others.nodes) : form.Placed s ts rest where
  nonempty := by simp [nodes]
  all := by
    rw [nodes]
    exact List.forall_mem_cons.2 ⟨(placed.node alone).stop suffix',
      fun m member => (behind.all m member).widen suffix⟩
  inOrder := by
    rw [nodes]
    exact List.pairwise_cons.2 ⟨fun m member =>
      Node.precedes_of_placed (placed.node alone) (behind.all m member), behind.inOrder⟩

/-- A node over several trees stands where the first of them may begin. -/
theorem Form.Placed.parent {form : Form} {t : Token} (laid : Laid s (t :: ts))
    (placed : form.Placed s (t :: ts) rest) {n : Node} (children : n.children = form.nodes)
    (offsetEq : n.offset = t.place.offset) (unwritten : n.WrittenAt s) :
    n.Placed s (t :: ts) rest := by
  have atToken := laid.offset_add_length
  rw [← offsetEq] at atToken
  have behind : ∀ child ∈ n.children, n.offset ≤ child.offset := by
    intro child member
    rw [children] at member
    have notBefore := (placed.all child member).root.notBefore
    omega
  obtain ⟨first, member⟩ := List.exists_mem_of_ne_nil _ placed.nonempty
  have firstBehind := behind first (children ▸ member)
  have before := (placed.all first member).root.before
  exact {
    inside := by omega
    notBehind := behind
    inOrder := children ▸ placed.inOrder
    written := unwritten
    notBefore := by omega
    before := by omega }

/-- A class is written as it begins, and it takes a token at least. -/
theorem placed_of_class {t : Token} {c : CharClass} (laid : Laid s (t :: ts))
    (phrase : Class (t :: ts) c rest) :
    (Node.charClass t.place.offset c).All (Node.Placed s (t :: ts) rest) := by
  have suffix : rest <:+ ts := by
    rcases List.suffix_cons_iff.1 phrase.isSuffix with whole | behind
    · exact absurd phrase.length_lt (by simp [whole])
    · exact behind
  have starts := laid.getElem?_offset
  cases phrase with
  | @shorthand name place =>
    refine Node.all_placed_of_token laid suffix (by simp [Token.lexeme, Symbol.lexeme]) rfl rfl ?_
    exact ⟨name, rfl, starts 0, starts 1⟩
  | bracketed =>
    refine Node.all_placed_of_token laid suffix (by simp [Token.lexeme, Symbol.lexeme]) rfl rfl ?_
    exact starts 0

/-- A repeat begins where what it repeats does. -/
theorem placed_quantified {n : Node} {r : Repeat} (all : n.All (Node.Placed s ts us))
    (quantifier : Quantifier us r rest) :
    (Node.quantified n.offset r.bounds r.distribution n).All (Node.Placed s ts rest) := by
  have child := all.stop quantifier.isSuffix
  refine Node.all_of_children ?_ ?_
  · exact {
      inside := child.root.inside
      notBehind := by simp [Node.children, Node.offset]
      inOrder := by simp [Node.children]
      written := trivial
      notBefore := child.root.notBefore
      before := child.root.before }
  · simpa [Node.children] using child

/-- Whatever is read from a piece of a text stands in it. -/
theorem placed_of_derives {depth : Nat} {form : Form} (derived : Derives depth form ts rest)
    (laid : Laid s ts) : form.Placed s ts rest ∧ rest <:+ ts := by
  have next : ∀ {t : Token} {us : List Token}, us <:+ t :: us := List.suffix_cons _ _
  induction derived with
  | literal depth b place rest =>
    have starts := laid.getElem?_offset
    refine ⟨Form.placed_of_node rfl ?_, next⟩
    refine Node.all_placed_of_token laid List.suffix_rfl (by simp [Token.lexeme, Symbol.lexeme]) rfl
      rfl (.inl ?_)
    exact starts 0
  | escaped depth b place rest =>
    have starts := laid.getElem?_offset
    refine ⟨Form.placed_of_node rfl ?_, next⟩
    refine Node.all_placed_of_token laid List.suffix_rfl (by simp [Token.lexeme, Symbol.lexeme]) rfl
      rfl (.inr ⟨?_, ?_⟩)
    · exact starts 0
    · exact starts 1
  | wildcard depth place rest =>
    have starts := laid.getElem?_offset
    refine ⟨Form.placed_of_node rfl ?_, next⟩
    exact Node.all_placed_of_token laid List.suffix_rfl (by simp [Token.lexeme, Symbol.lexeme]) rfl
      rfl (starts 0)
  | charClass depth phrase =>
    exact ⟨Form.placed_of_node rfl (placed_of_class laid phrase), phrase.isSuffix⟩
  | group content inductionHypothesis =>
    obtain ⟨inside, suffix⟩ := inductionHypothesis laid.tail
    refine ⟨Form.placed_of_node rfl ?_, next.trans (suffix.trans next)⟩
    exact ((inside.node rfl).stop next).widen next
  | bare atom inductionHypothesis =>
    obtain ⟨placed, suffix⟩ := inductionHypothesis laid
    exact ⟨Form.placed_of_node rfl (placed.node rfl), suffix⟩
  | repeated atom quantifier inductionHypothesis =>
    obtain ⟨placed, suffix⟩ := inductionHypothesis laid
    exact ⟨Form.placed_of_node rfl (placed_quantified (placed.node rfl) quantifier),
      quantifier.isSuffix.trans suffix⟩
  | lastFactor factor inductionHypothesis =>
    obtain ⟨placed, suffix⟩ := inductionHypothesis laid
    exact ⟨Form.placed_of_node rfl (placed.node rfl), suffix⟩
  | moreFactors factor others first behind =>
    obtain ⟨placed, suffix⟩ := first laid
    obtain ⟨placed', suffix'⟩ := behind (laid.of_isSuffix suffix)
    exact ⟨Form.placed_cons placed rfl placed' suffix suffix' rfl, suffix'.trans suffix⟩
  | sequence factors inductionHypothesis =>
    obtain ⟨placed, suffix⟩ := inductionHypothesis laid
    refine ⟨Form.placed_of_node rfl ?_, suffix⟩
    exact Node.all_sequence placed.nonempty
      (fun _ => placed.parent laid rfl rfl trivial) placed.all
  | lastBranch branch inductionHypothesis =>
    obtain ⟨placed, suffix⟩ := inductionHypothesis laid
    exact ⟨Form.placed_of_node rfl (placed.node rfl), suffix⟩
  | moreBranches branch others first behind =>
    obtain ⟨placed, suffix⟩ := first laid
    obtain ⟨placed', suffix'⟩ := behind (laid.of_isSuffix (next.trans suffix))
    exact ⟨Form.placed_cons placed rfl (placed'.widen next) suffix (suffix'.trans next) rfl,
      suffix'.trans (next.trans suffix)⟩
  | choice branches inductionHypothesis =>
    obtain ⟨placed, suffix⟩ := inductionHypothesis laid
    refine ⟨Form.placed_of_node rfl ?_, suffix⟩
    exact Node.all_choice placed.nonempty
      (fun _ => placed.parent laid rfl rfl trivial) placed.all

end Grammar

/-! ### Trees of texts -/

/-- Every node of the tree of a text stands in the text where its offset says. -/
theorem Pattern.located_of_parse {s : Text} {p : Pattern} (read : Pattern.parse s = .ok p)
    (n : Node) (inside : n.Within p.root) : n.Located s := by
  obtain ⟨accepted, -⟩ := Grammar.parse_eq_ok_iff.1 read
  cases accepted with
  | intro atStart content _ =>
    have laid := (laid_ofText s).of_isSuffix atStart.isSuffix
    obtain ⟨placed, -⟩ := Grammar.placed_of_derives content laid
    exact (placed.node rfl n inside).toLocated

/-- The parts of `a(b|\.)*` begin at their first bytes, the repeat behind the parenthesis. -/
theorem Pattern.located_of_parse_choice :
    ∃ p, Pattern.parse (ascii "a(b|\\.)*") = .ok p ∧ p.root.children.map Node.offset = [0, 2] ∧
      p.root.Within p.root ∧ p.root.Located (ascii "a(b|\\.)*") := by
  have offsets : (Pattern.parse (ascii "a(b|\\.)*")).toOption.map
      (fun p => p.root.children.map Node.offset) = some [0, 2] := by
    decide +kernel
  cases read : Pattern.parse (ascii "a(b|\\.)*") with
  | error r =>
    rw [read] at offsets
    cases offsets
  | ok p =>
    rw [read] at offsets
    exact ⟨p, rfl, Option.some.inj offsets, .self _, Pattern.located_of_parse read _ (.self _)⟩

end PatternSampler
