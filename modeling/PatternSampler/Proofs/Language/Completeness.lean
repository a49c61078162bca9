/-
Module: PatternSampler.Proofs.Language.Completeness
Purpose: Everything that a tree without distributions stands for can be drawn from it. The source
  is an arbitrary stream of raw words. For each string of the language there are finitely
  many words on which the draw gives just this string, and it takes these words and no
  more. Each uniform draw contributes one word: every value of a range has words of its own.
Main exports: Generation.Reaches, Generation.reaches_uniformWord, Node.Plain,
  Node.reaches_generate, Pattern.exists_words_of_mem_language
-/
import PatternSampler.Proofs.Language

namespace PatternSampler

/-- An endless stream of raw words, taken from its front, is a source. -/
instance : WordSource (Stream' UInt64) := ⟨fun s => (s.head, s.tail)⟩

/-! ### Words for values -/

namespace Draw

theorem toNat_threshold {size : UInt64} (notFull : size ≠ 0) :
    (threshold size).toNat = (2 ^ 64 - size.toNat) % size.toNat := by
  have positive : size.toNat ≠ 0 := fun zero => notFull (UInt64.toNat_inj.1 zero)
  have below := size.toNat_lt
  unfold threshold
  rw [UInt64.toNat_mod, UInt64.toNat_sub]
  congr 1
  change (2 ^ 64 - size.toNat + 0) % 2 ^ 64 = _
  rw [Nat.add_zero, Nat.mod_eq_of_lt (by omega)]

/-- Every value below a size is the remainder of a word that is not passed over: of the greatest
word with that remainder. -/
theorem exists_word {size value : UInt64} (within : value < size) :
    ∃ w : UInt64, threshold size ≤ w ∧ w % size = value := by
  have withinNat := UInt64.lt_iff_toNat_lt.1 within
  have notFull : size ≠ 0 := by
    rintro rfl
    exact UInt64.not_lt_zero within
  have sizeLt := size.toNat_lt
  have rounds := Nat.mul_div_le (2 ^ 64 - 1 - value.toNat) size.toNat
  have nextRound := Nat.lt_mul_div_succ (2 ^ 64 - 1 - value.toNat) (Nat.zero_lt_of_lt withinNat)
  rw [Nat.mul_add, Nat.mul_one] at nextRound
  generalize turnsEq : (2 ^ 64 - 1 - value.toNat) / size.toNat = turns at rounds nextRound
  have fits : value.toNat + size.toNat * turns < 2 ^ 64 := by omega
  refine ⟨UInt64.ofNat (value.toNat + size.toNat * turns), ?_, ?_⟩
  · have remainderLe := Nat.mod_le (2 ^ 64 - size.toNat) size.toNat
    rw [UInt64.le_iff_toNat_le, toNat_threshold notFull, UInt64.toNat_ofNat_of_lt' fits]
    omega
  · apply UInt64.toNat_inj.1
    rw [UInt64.toNat_mod, UInt64.toNat_ofNat_of_lt' fits, Nat.add_mul_mod_self_left,
      Nat.mod_eq_of_lt withinNat]

/-- Every value of a range is drawn on some word. -/
theorem exists_uniformWord_eq {low high value : UInt64} (atLeast : low ≤ value)
    (atMost : value ≤ high) :
    ∃ w : UInt64, ∀ s : Stream' UInt64, uniformWord low high (Stream'.cons w s) = (value, s) := by
  have lowLe := UInt64.le_iff_toNat_le.1 atLeast
  have valueLe := UInt64.le_iff_toNat_le.1 atMost
  have highLt := high.toNat_lt
  have sizeEq := toNat_size (UInt64.le_trans atLeast atMost)
  by_cases full : high - low + 1 = 0
  · refine ⟨value, fun s => ?_⟩
    simp only [uniformWord, full, if_true]
    rfl
  · have sizeNe : (high - low + 1).toNat ≠ 0 := fun zero => full (UInt64.toNat_inj.1 zero)
    have within : value - low < high - low + 1 := by
      rw [UInt64.lt_iff_toNat_lt, UInt64.toNat_sub_of_le value low atLeast]
      omega
    obtain ⟨w, notPassed, remainder⟩ := exists_word within
    refine ⟨w, fun s => ?_⟩
    have accepted : wordFrom (threshold (high - low + 1)) (Stream'.cons w s) = (w, s) := by
      have next : word (Stream'.cons w s) = (w, s) := rfl
      unfold wordFrom
      rw [firstFrom?_eq next, if_pos notPassed]
      rfl
    have valueEq : low + (value - low) = value := by
      rw [UInt64.add_comm, UInt64.sub_add_cancel]
    simp only [uniformWord, full, if_false]
    change (low + (wordFrom (threshold (high - low + 1)) (Stream'.cons w s)).1 %
        (high - low + 1),
      (wordFrom (threshold (high - low + 1)) (Stream'.cons w s)).2) = (value, s)
    rw [accepted, remainder, valueEq]

end Draw

/-! ### Values that can be drawn -/

namespace Generation

variable {α β : Type}

/-- A generation can give a value: there are words on which it gives the value, and of which it
leaves none, whatever words follow them. -/
def Reaches (x : Generation (Stream' UInt64) α) (a : α) : Prop :=
  ∃ words : List UInt64, ∀ s : Stream' UInt64, x.run.run (words ++ₛ s) = (.ok a, s)

theorem reaches_pure (a : α) : Reaches (pure a) a := ⟨[], fun _ => rfl⟩

/-- The words for a value and those for what comes behind it follow each other. -/
theorem reaches_bind {x : Generation (Stream' UInt64) α} {f : α → Generation (Stream' UInt64) β}
    {a : α} {b : β} (first : Reaches x a) (next : Reaches (f a) b) : Reaches (x >>= f) b := by
  obtain ⟨words, given⟩ := first
  obtain ⟨words', given'⟩ := next
  refine ⟨words ++ words', fun s => ?_⟩
  rw [Stream'.append_append_stream, run_bind, given]
  exact given' s

theorem reaches_uniformWord {low high value : UInt64} (atLeast : low ≤ value)
    (atMost : value ≤ high) :
    Reaches (liftM (Draw.uniformWord low high : Draw (Stream' UInt64) UInt64)) value := by
  obtain ⟨w, drawn⟩ := Draw.exists_uniformWord_eq atLeast atMost
  refine ⟨[w], fun s => ?_⟩
  change (let outcome := Draw.uniformWord low high (Stream'.cons w s);
    ((.ok outcome.1 : Except DrawFault UInt64), outcome.2)) = (.ok value, s)
  rw [drawn]

/-- Values that can be drawn one by one can be drawn one after the other. -/
theorem reaches_timesAfter {draw : Generation (Stream' UInt64) α} (made : List α) {as : List α}
    (each : ∀ a ∈ as, draw.Reaches a) :
    (timesAfter draw made as.length).Reaches (made.reverse ++ as) := by
  induction as generalizing made with
  | nil =>
    rw [List.append_nil]
    exact reaches_pure _
  | cons a as inductionHypothesis =>
    obtain ⟨first, others⟩ := List.forall_mem_cons.1 each
    have behind := inductionHypothesis (a :: made) others
    rw [List.reverse_cons, List.append_assoc] at behind
    exact reaches_bind first behind

theorem reaches_times {draw : Generation (Stream' UInt64) α} {count : UInt64} {as : List α}
    (lengthEq : as.length = count.toNat) (each : ∀ a ∈ as, draw.Reaches a) :
    (times count draw).Reaches as := by
  unfold times
  rw [← lengthEq]
  exact reaches_timesAfter [] each

/-! ### Counts and positions -/

/-- Without a distribution every count between the bounds can be drawn. -/
theorem reaches_drawCount {cap : UInt64} {bounds : Bounds} {n : Nat}
    (atLeast : bounds.min.toNat ≤ n) (atMost : n ≤ mostTimes cap bounds) :
    Reaches (drawCount cap bounds none) (UInt64.ofNat n) := by
  rw [← toNat_effectiveMax] at atMost
  have toNat := UInt64.toNat_ofNat_of_lt'
    (Nat.lt_of_le_of_lt atMost (effectiveMax cap bounds).toNat_lt)
  have notInverted : ¬ bounds.ceiling < bounds.min := by
    unfold Bounds.ceiling
    unfold effectiveMax at atMost
    cases maxEq : bounds.max with
    | none => exact UInt64.not_lt.2 (Grammar.le_maxWord bounds.min)
    | some max =>
      rw [maxEq] at atMost
      exact UInt64.not_lt.2 (UInt64.le_iff_toNat_le.2 (Nat.le_trans atLeast atMost))
  unfold drawCount
  rw [if_neg notInverted]
  apply reaches_uniformWord
  · rw [UInt64.le_iff_toNat_le, toNat]
    exact atLeast
  · rw [UInt64.le_iff_toNat_le, toNat]
    exact atMost

/-- Every position of a list that words can count can be drawn. -/
theorem reaches_position {size index : Nat} (counted : size ≤ 2 ^ 64) (within : index < size) :
    Reaches (liftM (Draw.uniformWord 0 (UInt64.ofNat size - 1) : Draw (Stream' UInt64) UInt64))
      (UInt64.ofNat index) := by
  apply reaches_uniformWord UInt64.zero_le
  rw [UInt64.le_iff_toNat_le, UInt64.toNat_sub, UInt64.toNat_ofNat', UInt64.toNat_ofNat']
  change index % 2 ^ 64 ≤ (2 ^ 64 - 1 + size % 2 ^ 64) % 2 ^ 64
  omega

/-- Every character of an alphabet can be drawn by its position. -/
theorem exists_position {alphabet : Text} (counted : alphabet.length ≤ 2 ^ 64) {b : UInt8}
    (member : b ∈ alphabet) :
    ∃ index < alphabet.length, alphabet.getD (UInt64.ofNat index).toNat 0 = b := by
  obtain ⟨index, within, found⟩ := List.getElem_of_mem member
  refine ⟨index, within, ?_⟩
  rw [UInt64.toNat_ofNat_of_lt' (Nat.lt_of_lt_of_le within counted),
    List.getD_eq_getElem _ _ within, found]

theorem reaches_uniformChar {alphabet : Text} (counted : alphabet.length ≤ 2 ^ 64) {t : Text}
    (letter : t ∈ Text.letters alphabet) : Reaches (uniformChar alphabet) t := by
  obtain ⟨b, member, rfl⟩ := letter
  obtain ⟨index, within, rfl⟩ := exists_position counted member
  exact reaches_bind (reaches_position counted within) (reaches_pure _)

theorem reaches_drawPosition {c : CharClass} (plain : c.distribution = none)
    (counted : c.alphabet.length ≤ 2 ^ 64) {index : Nat} (within : index < c.alphabet.length) :
    Reaches (drawPosition c) (UInt64.ofNat index) := by
  have inhabited : c.alphabet ≠ [] := List.ne_nil_of_length_pos (Nat.zero_lt_of_lt within)
  unfold drawPosition
  rw [if_neg inhabited, plain]
  exact reaches_position counted within

end Generation

/-! ### Trees -/

/-- A node has no distribution. -/
def Node.Plain : Node → Prop
  | .charClass _ c => c.distribution = none
  | .quantified _ _ distribution _ => distribution = none
  | _ => True

/-- Words can count the branches of a node and the characters of its class. -/
def Node.Counted : Node → Prop
  | .charClass _ c => c.alphabet.length ≤ 2 ^ 64
  | .alternation _ branches => branches.length ≤ 2 ^ 64
  | _ => True

section Trees

open Generation

mutual

/-- Every string of the language of a tree without distributions can be drawn from it. -/
theorem Node.reaches_generate (cap : UInt64) (n : Node) (plain : n.All Node.Plain)
    (counted : n.All Node.Counted) {t : Text} (member : t ∈ n.language cap) :
    Reaches (n.generate cap) t := by
  have plainRoot := plain.root
  have countedRoot := counted.root
  cases n with
  | literal offset b =>
    obtain ⟨c, present, rfl⟩ := member
    rw [List.mem_singleton.1 present]
    exact reaches_pure _
  | wildcard offset => exact reaches_uniformChar (by decide) member
  | charClass offset c =>
    obtain ⟨b, present, rfl⟩ := member
    obtain ⟨index, within, rfl⟩ := exists_position countedRoot present
    exact reaches_bind (reaches_drawPosition plainRoot countedRoot within) (reaches_pure _)
  | concat offset children =>
    exact Node.reaches_generateAll cap children (fun child present => plain.child present)
      (fun child present => counted.child present) member
  | alternation offset branches =>
    obtain ⟨index, within, drawn⟩ :=
      Node.reaches_generateNth cap branches (fun branch present => plain.child present)
        (fun branch present => counted.child present) member
    apply reaches_bind (reaches_position countedRoot within)
    rw [UInt64.toNat_ofNat_of_lt' (Nat.lt_of_lt_of_le within countedRoot)]
    exact drawn
  | quantified offset bounds distribution child =>
    have noDistribution : distribution = none := plainRoot
    subst noDistribution
    obtain ⟨n, atLeast, atMost, repeated⟩ := member
    obtain ⟨texts, rfl, rfl, each⟩ := Language.mem_pow.1 repeated
    have fits : texts.length < 2 ^ 64 := by
      rw [← toNat_effectiveMax] at atMost
      exact Nat.lt_of_le_of_lt atMost (effectiveMax cap bounds).toNat_lt
    have single := List.mem_singleton_self child
    apply reaches_bind (reaches_drawCount atLeast atMost)
    apply reaches_bind (reaches_times (UInt64.toNat_ofNat_of_lt' fits).symm fun t present =>
      Node.reaches_generate cap child (plain.child single) (counted.child single) (each t present))
    exact reaches_pure _

theorem Node.reaches_generateAll (cap : UInt64) (children : List Node)
    (plain : ∀ child ∈ children, child.All Node.Plain)
    (counted : ∀ child ∈ children, child.All Node.Counted) {t : Text}
    (member : t ∈ Node.sequenceLanguage cap children) :
    Reaches (Node.generateAll cap children) t := by
  cases children with
  | nil =>
    rw [(Language.mem_one t).1 member]
    exact reaches_pure _
  | cons child children =>
    obtain ⟨plainFirst, plainOthers⟩ := List.forall_mem_cons.1 plain
    obtain ⟨countedFirst, countedOthers⟩ := List.forall_mem_cons.1 counted
    obtain ⟨u, inFirst, v, inOthers, rfl⟩ := Language.mem_mul.1 member
    apply reaches_bind (Node.reaches_generate cap child plainFirst countedFirst inFirst)
    apply reaches_bind (Node.reaches_generateAll cap children plainOthers countedOthers inOthers)
    exact reaches_pure _

/-- A string of any of several nodes can be drawn from the node at some position. -/
theorem Node.reaches_generateNth (cap : UInt64) (branches : List Node)
    (plain : ∀ branch ∈ branches, branch.All Node.Plain)
    (counted : ∀ branch ∈ branches, branch.All Node.Counted) {t : Text}
    (member : t ∈ Node.choiceLanguage cap branches) :
    ∃ index < branches.length, Reaches (Node.generateNth cap branches index) t := by
  cases branches with
  | nil => exact absurd member (Language.notMem_zero t)
  | cons branch branches =>
    obtain ⟨plainFirst, plainOthers⟩ := List.forall_mem_cons.1 plain
    obtain ⟨countedFirst, countedOthers⟩ := List.forall_mem_cons.1 counted
    rcases (Language.mem_add _ _ t).1 member with inFirst | inOthers
    · have drawn := Node.reaches_generate cap branch plainFirst countedFirst inFirst
      exact ⟨0, Nat.zero_lt_succ _, drawn⟩
    · obtain ⟨index, within, drawn⟩ :=
        Node.reaches_generateNth cap branches plainOthers countedOthers inOthers
      exact ⟨index + 1, Nat.succ_lt_succ within, drawn⟩

end

end Trees

/-! ### Trees that are read

A choice has no more branches than its text has tokens, and an alphabet no more characters than
there are bytes, so words can count them in every text that fits into memory. -/

/-- A choice has at most as many branches as a bound allows. -/
def Node.BranchesWithin (bound : Nat) : Node → Prop
  | .alternation _ branches => branches.length ≤ bound
  | _ => True

namespace Grammar

/-- How many parts a phrase of a form has side by side. -/
def Form.width : Form → Nat
  | .factors ns | .branches ns => ns.length
  | _ => 1

/-- Every part of a phrase takes a token at least, so no choice has more branches than there are
tokens. -/
theorem branchesWithin_of_derives {depth bound : Nat} {form : Form} {ts rest : List Token}
    (derived : Derives depth form ts rest) (fits : ts.length ≤ bound) :
    form.All (Node.BranchesWithin bound) ∧ form.width + rest.length ≤ ts.length := by
  have alone : ∀ {n : Node}, n.children = [] → n.BranchesWithin bound →
      n.All (Node.BranchesWithin bound) := by
    intro n childless root
    refine Node.all_of_children root ?_
    rw [childless]
    exact fun child member => nomatch member
  induction derived with
  | literal => exact ⟨alone rfl trivial, (Nat.add_comm _ _).le⟩
  | escaped => exact ⟨alone rfl trivial, (Nat.add_comm _ _).le⟩
  | wildcard => exact ⟨alone rfl trivial, (Nat.add_comm _ _).le⟩
  | charClass _ phrase =>
    have shorter := phrase.length_lt
    exact ⟨alone rfl trivial, by simp only [Form.width]; omega⟩
  | group _ inductionHypothesis =>
    simp only [List.length_cons, Form.width] at fits inductionHypothesis ⊢
    obtain ⟨inside, shorter⟩ := inductionHypothesis (by omega)
    exact ⟨inside, by omega⟩
  | bare _ inductionHypothesis => exact inductionHypothesis fits
  | repeated _ quantifier inductionHypothesis =>
    obtain ⟨atom, shorter⟩ := inductionHypothesis fits
    have behind := quantifier.isSuffix.length_le
    simp only [Form.width] at shorter ⊢
    refine ⟨Node.all_of_children trivial ?_, by omega⟩
    intro child member
    rw [List.mem_singleton.1 member]
    exact atom
  | lastFactor _ inductionHypothesis =>
    obtain ⟨factor, shorter⟩ := inductionHypothesis fits
    exact ⟨⟨by simp, by simpa [Form.All] using factor⟩, shorter⟩
  | moreFactors _ _ first others =>
    obtain ⟨factor, shorter⟩ := first fits
    simp only [Form.width, List.length_cons] at shorter others ⊢
    obtain ⟨factors, shorter'⟩ := others (by omega)
    exact ⟨⟨by simp, List.forall_mem_cons.2 ⟨factor, factors.2⟩⟩, by omega⟩
  | sequence _ inductionHypothesis =>
    obtain ⟨⟨nonempty, factors⟩, shorter⟩ := inductionHypothesis fits
    have one := List.length_pos_of_ne_nil nonempty
    simp only [Form.width] at shorter ⊢
    exact ⟨Node.all_sequence nonempty (fun _ => trivial) factors, by omega⟩
  | lastBranch _ inductionHypothesis =>
    obtain ⟨branch, shorter⟩ := inductionHypothesis fits
    exact ⟨⟨by simp, by simpa [Form.All] using branch⟩, shorter⟩
  | moreBranches _ _ first others =>
    obtain ⟨branch, shorter⟩ := first fits
    simp only [Form.width, List.length_cons] at shorter others ⊢
    obtain ⟨branches, shorter'⟩ := others (by omega)
    exact ⟨⟨by simp, List.forall_mem_cons.2 ⟨branch, branches.2⟩⟩, by omega⟩
  | choice _ inductionHypothesis =>
    obtain ⟨⟨nonempty, branches⟩, shorter⟩ := inductionHypothesis fits
    have one := List.length_pos_of_ne_nil nonempty
    simp only [Form.width] at shorter ⊢
    exact ⟨Node.all_choice nonempty (fun _ => Nat.le_trans (by omega) fits) branches, by omega⟩

end Grammar

/-- A text has no more tokens than characters. -/
theorem Cursor.length_scan_le (c : Cursor) : c.scan.1.length ≤ c.rest.length := by
  fun_induction scan c with
  | case1 => exact Nat.zero_le _
  | case2 c s rest found tokens finish scanned inductionHypothesis =>
    rw [scanned] at inductionHypothesis
    exact Nat.le_trans (Nat.succ_le_succ inductionHypothesis) (Symbol.length_lt_of_read? found)

/-- An alphabet without repetitions has at most as many characters as there are bytes. -/
theorem length_le_of_nodup {alphabet : Text} (distinct : alphabet.Nodup) :
    alphabet.length ≤ 256 := by
  have values : (alphabet.map UInt8.toNat).Nodup :=
    distinct.map fun _ _ equal => UInt8.toNat_inj.1 equal
  have within : alphabet.map UInt8.toNat ⊆ List.range 256 := by
    intro value member
    obtain ⟨b, -, rfl⟩ := List.mem_map.1 member
    exact List.mem_range.2 b.toNat_lt
  simpa using (values.subperm within).length_le

namespace Pattern

variable {s : Text} {p : Pattern}

/-- Words can count what the tree of a text has side by side, if they can count its
characters. -/
theorem allCounted_root (read : parse s = .ok p) (addressable : s.length < 2 ^ 64) :
    p.root.All Node.Counted := by
  have wellFormed := allWellFormed_root read
  obtain ⟨accepted, -⟩ := Grammar.parse_eq_ok_iff.1 read
  cases accepted with
  | intro atStart content _ =>
    have scanned := Cursor.length_scan_le (Cursor.ofText s)
    have fits := Nat.le_trans atStart.isSuffix.length_le scanned
    obtain ⟨branches, -⟩ := Grammar.branchesWithin_of_derives content fits
    intro m inside
    cases m with
    | charClass offset c =>
      have byteCount := length_le_of_nodup (wellFormed _ inside).distinct
      exact Nat.le_trans byteCount (by decide)
    | alternation offset ns => exact Nat.le_trans (branches _ inside) addressable.le
    | literal | wildcard | concat | quantified => trivial

/-- Every string of the language of a pattern without distributions is drawn on some raw words,
which are just the words that the draw takes. The text is one that a memory with word addresses
holds. -/
theorem exists_words_of_mem_language (read : parse s = .ok p) (plain : p.root.All Node.Plain)
    (addressable : s.length < 2 ^ 64) (cap : UInt64) {t : Text}
    (member : t ∈ p.root.language cap) :
    ∃ words : List UInt64, ∀ source : Stream' UInt64,
      (p.generate cap).run.run (words ++ₛ source) = (.ok t, source) :=
  Node.reaches_generate cap p.root plain (allCounted_root read addressable) member

theorem exists_words_of_mem_language_star :
    ∃ p, parse [0x61, 0x2A] = .ok p ∧ p.root.All Node.Plain ∧
      ([0x61, 0x61] : Text) ∈ p.root.language 32 ∧
      ∃ words : List UInt64, ∀ source : Stream' UInt64,
        (p.generate 32).run.run (words ++ₛ source) = (.ok [0x61, 0x61], source) := by
  have read := Grammar.parse_star (show ¬ IsReserved 0x61 by decide)
  have plain : (Node.quantified 0 ⟨0, none⟩ none (.literal 0 0x61)).All Node.Plain := by
    refine Node.all_of_children rfl fun child member => ?_
    rw [List.mem_singleton.1 member]
    exact Node.all_of_children trivial fun child member => nomatch member
  have letter : ([0x61] : Text) ∈ (Node.literal 0 0x61).language 32 :=
    ⟨0x61, List.mem_singleton_self _, rfl⟩
  have member : ([0x61, 0x61] : Text) ∈
      (Node.quantified 0 ⟨0, none⟩ none (.literal 0 0x61)).language 32 := by
    refine ⟨2, by decide, by decide, ?_⟩
    refine Language.mem_pow.2 ⟨[[0x61], [0x61]], rfl, rfl, ?_⟩
    intro t present
    rcases List.mem_pair.1 present with rfl | rfl
    · exact letter
    · exact letter
  have drawn := exists_words_of_mem_language read plain (by decide) 32 member
  exact ⟨_, read, plain, member, drawn⟩

end Pattern

end PatternSampler
