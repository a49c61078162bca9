/-
Module: PatternSampler.Proofs.Language
Purpose: The strings that a tree stands for, and that nothing else is drawn from it. Whatever
  distributions are attached and whatever words the source delivers, a draw that ends gives
  a string of the language of the tree, and it ends in a fault only if bounds are inverted
  or an alphabet is empty, which no text stands for.
Main exports: Node.language, Node.Shaped, Node.Faultless, Generation.Yields,
  Node.yields_generate, Node.generate_mem_language
-/
import Mathlib
import PatternSampler.Pattern.Generation
import PatternSampler.Random.Engine
import PatternSampler.Proofs.Invariants

namespace PatternSampler

/-! ### Languages -/

/-- The strings of one character of an alphabet. -/
def Text.letters (alphabet : Text) : Language UInt8 := {t | ∃ b ∈ alphabet, t = [b]}

/-- The greatest number of times of a repeat under a cap. -/
def mostTimes (cap : UInt64) (b : Bounds) : Nat :=
  match b.max with
  | none => max cap.toNat b.min.toNat
  | some max => max.toNat

mutual

/-- The strings that a node stands for, unbounded repeats being cut off at a cap. -/
def Node.language (cap : UInt64) : Node → Language UInt8
  | .literal _ b => Text.letters [b]
  | .wildcard _ => Text.letters Alphabet.printable
  | .charClass _ c => Text.letters c.alphabet
  | .concat _ children => Node.sequenceLanguage cap children
  | .alternation _ branches => Node.choiceLanguage cap branches
  | .quantified _ bounds _ child =>
    {t | ∃ n, bounds.min.toNat ≤ n ∧ n ≤ mostTimes cap bounds ∧ t ∈ child.language cap ^ n}

/-- The strings of nodes one after the other. -/
def Node.sequenceLanguage (cap : UInt64) : List Node → Language UInt8
  | [] => 1
  | child :: children => child.language cap * Node.sequenceLanguage cap children

/-- The strings of any of several nodes. -/
def Node.choiceLanguage (cap : UInt64) : List Node → Language UInt8
  | [] => 0
  | branch :: branches => branch.language cap + Node.choiceLanguage cap branches

end

/-! ### Trees that can be drawn from -/

/-- Sequences and choices have the parts that the checked constructors ask for. -/
def Node.HasParts : Node → Prop
  | .concat _ children => 2 ≤ children.length
  | .alternation _ branches => 2 ≤ branches.length
  | _ => True

/-- Every node of a tree has its parts, as in all trees that are built by the checked
constructors. -/
def Node.Shaped (n : Node) : Prop := ∀ m : Node, m.Within n → m.HasParts

/-- A repeat has its bounds in order, and a class has a character. -/
def Node.Drawable : Node → Prop
  | .charClass _ c => c.alphabet ≠ []
  | .quantified _ bounds _ _ => bounds.min ≤ bounds.ceiling
  | _ => True

/-- Every node of a tree can be drawn from without a fault. -/
def Node.Faultless (n : Node) : Prop := ∀ m : Node, m.Within n → m.Drawable

theorem Node.Shaped.child {n child : Node} (shaped : n.Shaped) (member : child ∈ n.children) :
    child.Shaped := @Node.All.child Node.HasParts n child shaped member

theorem Node.Faultless.child {n child : Node} (faultless : n.Faultless)
    (member : child ∈ n.children) : child.Faultless :=
  @Node.All.child Node.Drawable n child faultless member

/-- The checked constructor of sequences keeps trees in shape. -/
theorem Node.shaped_of_mkConcat {offset : Nat} {children : List Node} {n : Node}
    (made : Node.mkConcat offset children = .ok n) (shaped : ∀ child ∈ children, child.Shaped) :
    n.Shaped := by
  unfold Node.mkConcat at made
  split at made
  next enough =>
    cases made
    exact @Node.all_of_children Node.HasParts _ enough shaped
  next => cases made

/-- The checked constructor of choices keeps trees in shape. -/
theorem Node.shaped_of_mkAlternation {offset : Nat} {branches : List Node} {n : Node}
    (made : Node.mkAlternation offset branches = .ok n)
    (shaped : ∀ branch ∈ branches, branch.Shaped) : n.Shaped := by
  unfold Node.mkAlternation at made
  split at made
  next enough =>
    cases made
    exact @Node.all_of_children Node.HasParts _ enough shaped
  next => cases made

/-- Well-formed trees have their parts. -/
theorem Node.shaped_of_wellFormed {n : Node} (all : n.All Node.WellFormed) : n.Shaped := by
  intro m inside
  have wellFormed := all m inside
  cases m with
  | concat => exact wellFormed
  | alternation => exact wellFormed
  | _ => trivial

/-- Well-formed trees can be drawn from without a fault. -/
theorem Node.faultless_of_wellFormed {n : Node} (all : n.All Node.WellFormed) : n.Faultless := by
  intro m inside
  have wellFormed := all m inside
  cases m with
  | charClass => exact CharClass.WellFormed.inhabited wellFormed
  | quantified => exact wellFormed.1.ordered
  | _ => trivial

/-! ### Draws -/

namespace Draw

variable {σ : Type} [WordSource σ]

/-- How many values a range has; none if it is the full range of words. -/
theorem toNat_size {low high : UInt64} (ordered : low ≤ high) :
    (high - low + 1).toNat = (high.toNat - low.toNat + 1) % 2 ^ 64 := by
  rw [UInt64.toNat_add, UInt64.toNat_sub_of_le high low ordered]
  rfl

/-- A uniform word stays between its bounds, whatever words the source delivers. -/
theorem uniformWord_mem {low high : UInt64} (ordered : low ≤ high) (s : σ) :
    low ≤ (uniformWord low high s).1 ∧ (uniformWord low high s).1 ≤ high := by
  have sizeEq := toNat_size ordered
  have lowLe := UInt64.le_iff_toNat_le.1 ordered
  have highLt := high.toNat_lt
  simp only [UInt64.le_iff_toNat_le, uniformWord]
  split
  next full =>
    -- Without a size the range is that of all words, and so every word is in it.
    rw [full] at sizeEq
    have wordLt := (word s).1.toNat_lt
    change 0 = _ at sizeEq
    omega
  next notFull =>
    have sizeNe : (high - low + 1).toNat ≠ 0 := fun zero => notFull (UInt64.toNat_inj.1 zero)
    change low.toNat ≤ (low + (wordFrom (threshold (high - low + 1)) s).1 %
        (high - low + 1)).toNat ∧
      (low + (wordFrom (threshold (high - low + 1)) s).1 %
        (high - low + 1)).toNat ≤ high.toNat
    rw [UInt64.toNat_add, UInt64.toNat_mod]
    have below := Nat.mod_lt (wordFrom (threshold (high - low + 1)) s).1.toNat
      (Nat.pos_of_ne_zero sizeNe)
    omega

end Draw

/-! ### Generations -/

namespace Generation

variable {σ α β : Type}

/-- A generation gives only values with a property, and a fault only if `sound` fails. -/
def Yields (x : Generation σ α) (sound : Prop) (P : α → Prop) : Prop :=
  ∀ s : σ, match (x.run.run s).1 with
    | .ok a => P a
    | .error _ => ¬ sound

theorem yields_pure {sound : Prop} {P : α → Prop} {a : α} (holds : P a) :
    (pure a : Generation σ α).Yields sound P := by
  intro s
  exact holds

theorem yields_throw {sound : Prop} {P : α → Prop} (fault : DrawFault) (unsound : ¬ sound) :
    (throw fault : Generation σ α).Yields sound P := by
  intro s
  exact unsound

theorem yields_draw {sound : Prop} {P : α → Prop} {d : Draw σ α} (holds : ∀ s, P (d s).1) :
    Yields (liftM d : Generation σ α) sound P := by
  intro s
  exact holds s

/-- A computation that may fail and has a state goes on from the state it has come to. -/
theorem run_bind {ε : Type} (x : ExceptT ε (StateM σ) α) (f : α → ExceptT ε (StateM σ) β)
    (s : σ) :
    (x >>= f).run.run s = match x.run.run s with
      | (.ok a, s') => (f a).run.run s'
      | (.error failure, s') => (.error failure, s') := by
  change (match x s with | (result, s') => ExceptT.bindCont f result s') = match x s with
    | (.ok a, s') => f a s'
    | (.error failure, s') => (.error failure, s')
  generalize x s = outcome
  rcases outcome with ⟨failure | a, s'⟩
  · rfl
  · rfl

theorem yields_bind {sound : Prop} {P : α → Prop} {Q : β → Prop} {x : Generation σ α}
    {f : α → Generation σ β} (first : x.Yields sound P)
    (next : ∀ a, P a → (f a).Yields sound Q) : (x >>= f).Yields sound Q := by
  intro s
  have atFirst := first s
  rw [run_bind]
  generalize x.run.run s = outcome at atFirst
  rcases outcome with ⟨fault | a, s'⟩
  · exact atFirst
  · exact next a atFirst s'

theorem Yields.mono {sound : Prop} {P Q : α → Prop} {x : Generation σ α}
    (yields : x.Yields sound P) (implies : ∀ a, P a → Q a) : x.Yields sound Q := by
  intro s
  have atState := yields s
  split
  next a equal =>
    rw [equal] at atState
    exact implies a atState
  next e equal =>
    rw [equal] at atState
    exact atState

/-- Repeated draws give as many values as there are repetitions, all of them as from one draw. -/
theorem yields_timesAfter {sound : Prop} {P : α → Prop} {draw : Generation σ α}
    (each : draw.Yields sound P) (count : Nat) (made : List α) (before : ∀ a ∈ made, P a) :
    (timesAfter draw made count).Yields sound
      fun as => as.length = made.length + count ∧ ∀ a ∈ as, P a := by
  induction count generalizing made with
  | zero => exact yields_pure ⟨by simp, by simpa using before⟩
  | succ count inductionHypothesis =>
    apply yields_bind each
    intro a holds
    apply Yields.mono (inductionHypothesis (a :: made) (List.forall_mem_cons.2 ⟨holds, before⟩))
    rintro as ⟨lengthEq, all⟩
    refine ⟨?_, all⟩
    rw [lengthEq, List.length_cons]
    omega

theorem yields_times {sound : Prop} {P : α → Prop} {draw : Generation σ α}
    (each : draw.Yields sound P) (count : UInt64) :
    (times count draw).Yields sound fun as => as.length = count.toNat ∧ ∀ a ∈ as, P a := by
  apply Yields.mono (yields_timesAfter each count.toNat [] (by simp))
  rintro as ⟨lengthEq, all⟩
  exact ⟨by simpa using lengthEq, all⟩

/-! ### Counts and positions -/

theorem toNat_effectiveMax (cap : UInt64) (bounds : Bounds) :
    (effectiveMax cap bounds).toNat = mostTimes cap bounds := by
  unfold effectiveMax mostTimes
  cases bounds.max with
  | some max => rfl
  | none =>
    by_cases below : cap < bounds.min
    · have belowNat := UInt64.lt_iff_toNat_lt.1 below
      simp only [below, if_true]
      omega
    · have notBelowNat := mt UInt64.lt_iff_toNat_lt.2 below
      simp only [below, if_false]
      omega

/-- Bounds that are in order stay so under every cap. -/
theorem min_le_effectiveMax (cap : UInt64) {bounds : Bounds}
    (ordered : bounds.min ≤ bounds.ceiling) : bounds.min ≤ effectiveMax cap bounds := by
  unfold effectiveMax
  unfold Bounds.ceiling at ordered
  cases maxEq : bounds.max with
  | some max =>
    rw [maxEq] at ordered
    exact ordered
  | none =>
    by_cases below : cap < bounds.min
    · simp only [below, if_true]
      exact UInt64.le_refl _
    · simp only [below, if_false]
      exact UInt64.not_lt.1 below

theorem clamp_mem (value : UInt64) {low high : UInt64} (ordered : low ≤ high) :
    low ≤ clamp value low high ∧ clamp value low high ≤ high := by
  unfold clamp
  split
  next => exact ⟨UInt64.le_refl _, ordered⟩
  next notBelow =>
    split
    next => exact ⟨ordered, UInt64.le_refl _⟩
    next notAbove => exact ⟨UInt64.not_lt.1 notBelow, UInt64.not_lt.1 notAbove⟩

variable [WordSource σ]

/-- A repeat is drawn a number of times between its bounds. -/
theorem yields_drawCount {sound : Prop} (cap : UInt64) (bounds : Bounds)
    (distribution : Option Distribution) (ordered : sound → bounds.min ≤ bounds.ceiling) :
    Yields (drawCount cap bounds distribution : Generation σ UInt64) sound
      fun count => bounds.min.toNat ≤ count.toNat ∧ count.toNat ≤ mostTimes cap bounds := by
  have toNat : ∀ count : UInt64,
      bounds.min ≤ count ∧ count ≤ effectiveMax cap bounds →
      bounds.min.toNat ≤ count.toNat ∧ count.toNat ≤ mostTimes cap bounds := by
    rintro count ⟨atLeast, atMost⟩
    rw [← toNat_effectiveMax]
    exact ⟨UInt64.le_iff_toNat_le.1 atLeast, UInt64.le_iff_toNat_le.1 atMost⟩
  unfold drawCount
  split
  next inverted =>
    apply yields_throw
    intro holds
    exact UInt64.not_lt.2 (ordered holds) inverted
  next notInverted =>
    have between := min_le_effectiveMax cap (UInt64.not_lt.1 notInverted)
    cases distribution with
    | none => exact yields_draw fun s => toNat _ (Draw.uniformWord_mem between s)
    | some d =>
      apply yields_bind (P := fun _ => True) (yields_draw fun _ => trivial)
      intro sample _
      exact yields_pure (toNat _ (clamp_mem sample between))

/-- Positions up to the last one are positions, whatever the size is. -/
theorem toNat_lt_of_le_last {size : Nat} (positive : 0 < size) {index : UInt64}
    (within : index ≤ UInt64.ofNat size - 1) : index.toNat < size := by
  have withinNat := UInt64.le_iff_toNat_le.1 within
  rw [UInt64.toNat_sub, UInt64.toNat_ofNat'] at withinNat
  change index.toNat ≤ (2 ^ 64 - 1 + size % 2 ^ 64) % 2 ^ 64 at withinNat
  omega

theorem positionOf_le (d : Distribution) (sample last : UInt64) :
    positionOf d sample last ≤ last := by
  have limited : ∀ index : UInt64, (if last < index then last else index) ≤ last := by
    intro index
    split
    next => exact UInt64.le_refl last
    next notBehind => exact UInt64.not_lt.1 notBehind
  exact limited _

/-- The position that is drawn for a class is one of its alphabet. -/
theorem yields_drawPosition {sound : Prop} (c : CharClass) (inhabited : sound → c.alphabet ≠ []) :
    Yields (drawPosition c : Generation σ UInt64) sound
      fun index => index.toNat < c.alphabet.length := by
  unfold drawPosition
  split
  next empty =>
    apply yields_throw
    intro holds
    exact inhabited holds empty
  next nonempty =>
    have positive := List.length_pos_iff.2 nonempty
    cases c.distribution with
    | none =>
      apply yields_draw
      intro s
      obtain ⟨-, within⟩ := Draw.uniformWord_mem UInt64.zero_le s
      exact toNat_lt_of_le_last positive within
    | some d =>
      apply yields_bind (P := fun _ => True) (yields_draw fun _ => trivial)
      intro sample _
      exact yields_pure (toNat_lt_of_le_last positive (positionOf_le d sample _))

/-! ### Characters -/

theorem mem_letters_getD {alphabet : Text} {index : Nat} (within : index < alphabet.length) :
    [alphabet.getD index 0] ∈ Text.letters alphabet := by
  refine ⟨alphabet.getD index 0, ?_, rfl⟩
  rw [List.getD_eq_getElem _ _ within]
  exact List.getElem_mem within

theorem yields_uniformChar {sound : Prop} {alphabet : Text} (nonempty : alphabet ≠ []) :
    Yields (uniformChar alphabet : Generation σ Text) sound (· ∈ Text.letters alphabet) := by
  unfold uniformChar
  have positive := List.length_pos_iff.2 nonempty
  apply yields_bind (P := fun index => index ≤ UInt64.ofNat alphabet.length - 1)
  · apply yields_draw
    intro s
    obtain ⟨-, within⟩ := Draw.uniformWord_mem UInt64.zero_le s
    exact within
  intro index within
  exact yields_pure (mem_letters_getD (toNat_lt_of_le_last positive within))

end Generation

/-! ### Trees -/

section Trees

open Generation

variable {σ : Type} [WordSource σ] {shape sound : Prop}

mutual

/-- What is drawn from a tree in shape is in its language, and faultless trees give no fault. -/
theorem Node.yields_generate (cap : UInt64) (n : Node) (shaped : shape → n.Shaped)
    (faultless : sound → n.Faultless) :
    Yields (n.generate cap : Generation σ Text) sound fun t => shape → t ∈ n.language cap := by
  cases n with
  | literal offset b => exact yields_pure fun _ => ⟨b, List.mem_singleton_self b, rfl⟩
  | wildcard offset =>
    apply Yields.mono (yields_uniformChar (by decide))
    exact fun t member _ => member
  | charClass offset c =>
    apply yields_bind (yields_drawPosition c fun holds => faultless holds _ (.self _))
    exact fun index within => yields_pure fun _ => mem_letters_getD within
  | concat offset children =>
    exact Node.yields_generateAll cap children
      (fun holds child member => Node.Shaped.child (shaped holds) member)
      (fun holds child member => Node.Faultless.child (faultless holds) member)
  | alternation offset branches =>
    apply yields_bind (P := fun index => index ≤ UInt64.ofNat branches.length - 1)
    · apply yields_draw
      intro s
      obtain ⟨-, within⟩ := Draw.uniformWord_mem UInt64.zero_le s
      exact within
    intro index within
    have branch := Node.yields_generateNth cap branches index.toNat
      (fun holds child member => Node.Shaped.child (shaped holds) member)
      (fun holds child member => Node.Faultless.child (faultless holds) member)
    apply Yields.mono branch
    intro t drawn holds
    have enough : 2 ≤ branches.length := shaped holds _ (.self _)
    exact drawn holds (toNat_lt_of_le_last (by omega) within)
  | quantified offset bounds distribution child =>
    have member : child ∈ (Node.quantified offset bounds distribution child).children :=
      List.mem_singleton_self child
    have each := Node.yields_generate cap child
      (fun holds => Node.Shaped.child (shaped holds) member)
      (fun holds => Node.Faultless.child (faultless holds) member)
    apply yields_bind (yields_drawCount cap bounds distribution
      fun holds => faultless holds _ (.self _))
    rintro count ⟨atLeast, atMost⟩
    apply yields_bind (yields_times each count)
    rintro texts ⟨lengthEq, drawn⟩
    apply yields_pure
    intro holds
    refine ⟨count.toNat, atLeast, atMost, ?_⟩
    rw [Language.mem_pow]
    exact ⟨texts, rfl, lengthEq, fun t present => drawn t present holds⟩

theorem Node.yields_generateAll (cap : UInt64) (children : List Node)
    (shaped : shape → ∀ child ∈ children, child.Shaped)
    (faultless : sound → ∀ child ∈ children, child.Faultless) :
    Yields (Node.generateAll cap children : Generation σ Text) sound
      fun t => shape → t ∈ Node.sequenceLanguage cap children := by
  cases children with
  | nil => exact yields_pure fun _ => rfl
  | cons child children =>
    have first := Node.yields_generate cap child
      (fun holds => shaped holds child (List.mem_cons_self))
      (fun holds => faultless holds child (List.mem_cons_self))
    have others := Node.yields_generateAll cap children
      (fun holds c member => shaped holds c (List.mem_cons_of_mem _ member))
      (fun holds c member => faultless holds c (List.mem_cons_of_mem _ member))
    apply yields_bind first
    intro t inFirst
    apply yields_bind others
    intro u inOthers
    apply yields_pure
    intro holds
    exact Language.append_mem_mul (inFirst holds) (inOthers holds)

theorem Node.yields_generateNth (cap : UInt64) (branches : List Node) (index : Nat)
    (shaped : shape → ∀ branch ∈ branches, branch.Shaped)
    (faultless : sound → ∀ branch ∈ branches, branch.Faultless) :
    Yields (Node.generateNth cap branches index : Generation σ Text) sound
      fun t => shape → index < branches.length → t ∈ Node.choiceLanguage cap branches := by
  cases branches with
  | nil =>
    apply yields_pure
    intro _ within
    exact absurd within (Nat.not_lt_zero index)
  | cons branch branches =>
    cases index with
    | zero =>
      have first := Node.yields_generate cap branch
        (fun holds => shaped holds branch (List.mem_cons_self))
        (fun holds => faultless holds branch (List.mem_cons_self))
      apply Yields.mono first
      exact fun t drawn holds _ => .inl (drawn holds)
    | succ index =>
      have others := Node.yields_generateNth cap branches index
        (fun holds b member => shaped holds b (List.mem_cons_of_mem _ member))
        (fun holds b member => faultless holds b (List.mem_cons_of_mem _ member))
      apply Yields.mono others
      exact fun t drawn holds within => .inr (drawn holds (Nat.lt_of_succ_lt_succ within))

end

end Trees

/-- What a draw from a tree in shape ends with is a string of the language of the tree. A draw from
a faultless tree ends with a string, and trees that are read from texts are in shape and
faultless. -/
theorem Node.generate_mem_language {σ : Type} [WordSource σ] (cap : UInt64) (s : σ) :
    (∀ n : Node, n.Shaped → ∀ t s',
      (n.generate cap).run.run s = (.ok t, s') → t ∈ n.language cap) ∧
    (∀ n : Node, n.Faultless → ∀ fault s', (n.generate cap).run.run s ≠ (.error fault, s')) ∧
    (∀ text p, Pattern.parse text = .ok p →
      ∃ t s', (p.generate cap).run.run s = (.ok t, s') ∧ t ∈ p.root.language cap) := by
  refine ⟨?_, ?_, ?_⟩
  · intro n shaped t s' drawn
    have yields := @Node.yields_generate σ _ True False cap n (fun _ => shaped) False.elim s
    rw [drawn] at yields
    exact yields trivial
  · intro n faultless fault s' drawn
    have yields := @Node.yields_generate σ _ False True cap n False.elim (fun _ => faultless) s
    rw [drawn] at yields
    exact yields trivial
  · intro text p read
    have all := Pattern.allWellFormed_root read
    have yields := @Node.yields_generate σ _ True True cap p.root
      (fun _ => Node.shaped_of_wellFormed all) (fun _ => Node.faultless_of_wellFormed all) s
    unfold Pattern.generate
    generalize (p.root.generate cap).run.run s = outcome at yields
    rcases outcome with ⟨fault | t, s'⟩
    · exact absurd trivial yields
    · exact ⟨t, s', rfl, yields trivial⟩

theorem Node.generate_mem_language_star :
    ∃ p, Pattern.parse [0x61, 0x2A] = .ok p ∧ p.root.Shaped ∧ p.root.Faultless ∧
      (∃ t s', (p.generate 32).run.run (SeededSource.ofSeed 7) = (.ok t, s') ∧
        t ∈ p.root.language 32) ∧
      (∀ t s', (p.root.generate 32).run.run (SeededSource.ofSeed 7) = (.ok t, s') →
        t ∈ p.root.language 32) ∧
      ∀ fault s', (p.root.generate 32).run.run (SeededSource.ofSeed 7) ≠ (.error fault, s') := by
  have read := Grammar.parse_star (show ¬ IsReserved 0x61 by decide)
  have all := Pattern.allWellFormed_root read
  obtain ⟨inLanguage, noFault, ofText⟩ :=
    Node.generate_mem_language 32 (SeededSource.ofSeed 7)
  have shaped := Node.shaped_of_wellFormed all
  have faultless := Node.faultless_of_wellFormed all
  exact ⟨_, read, shaped, faultless, ofText _ _ read, inLanguage _ shaped, noFault _ faultless⟩

end PatternSampler
