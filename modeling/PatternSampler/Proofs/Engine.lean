/-
Module: PatternSampler.Proofs.Engine
Purpose: The seeded engine gives out a word in the upper half of all words again and again, so
  that no draw from a range goes on without end. The words of the engine are those of a
  recurrence that is linear over bits, and every bit of them is a sum of shifts of the topmost
  bit. If the topmost bit of what is given out were clear from some word on, a second sum of
  shifts would vanish beside the one that the recurrence makes vanish. The two have no more
  than a shift in common, so all words would be zero in the end, and then from the start.
Main exports: Engine.Recurrent, Engine.recurrent_wordAt, Engine.bit_eq_combine, Engine.Alive,
  Engine.alive_ofSeed, Engine.Alive.exists_output, Draw.exists_returns_of_alive
-/
import Mathlib
import PatternSampler.Random.Engine
import PatternSampler.Proofs.Uniformity
import PatternSampler.Proofs.Engine.Shifts

namespace PatternSampler

namespace Engine

/-! ### The ring -/

/-- The word that is renewed next. -/
def current (e : Engine) : UInt64 := e.words.get e.position

/-- The word some places ahead of the one that is renewed next. -/
def ahead (e : Engine) (j : Fin 312) : UInt64 := e.words.get (e.position + j)

/-- The engine after a step. -/
def advance (e : Engine) : Engine := e.next.2

/-- The words of the recurrence, from the one that is renewed next. -/
def wordAt (e : Engine) (k : Nat) : UInt64 := (advance^[k] e).current

theorem ahead_zero (e : Engine) : e.ahead 0 = e.current := by
  unfold ahead
  rw [Fin.add_zero]
  rfl

theorem wordAt_add (e : Engine) (n k : Nat) : (advance^[n] e).wordAt k = e.wordAt (n + k) := by
  unfold wordAt
  rw [Nat.add_comm, Function.iterate_add_apply]

/-- A step renews one word of the ring and changes no other. -/
theorem get_advance (e : Engine) (j : Fin 312) :
    e.advance.words.get (e.position + j) =
      if j = 0 then renew e.current (e.ahead 1) (e.ahead 156) else e.ahead j := by
  have words : e.advance.words =
      e.words.set e.position (renew e.current (e.ahead 1) (e.ahead 156)) := rfl
  rw [words]
  split
  next here =>
    rw [here, Fin.add_zero]
    exact Vector.getElem_set_self e.position.isLt
  next other =>
    have apart : e.position.val ≠ (e.position + j).val := by
      intro same
      exact other (by simpa using Fin.ext same)
    exact Vector.getElem_set_ne e.position.isLt (e.position + j).isLt apart

/-- The ring holds the next words of the recurrence in turn. -/
theorem wordAt_eq_ahead (e : Engine) {j : Nat} (within : j < 312) :
    e.wordAt j = e.ahead ⟨j, within⟩ := by
  induction j generalizing e with
  | zero => exact (ahead_zero e).symm
  | succ j inductionHypothesis =>
    have places :
        e.position + 1 + ⟨j, Nat.lt_of_succ_lt within⟩ = e.position + ⟨j + 1, within⟩ := by
      rw [Fin.ext_iff, Fin.val_add, Fin.val_add, Fin.val_add]
      change ((e.position.val + 1) % 312 + j) % 312 = (e.position.val + (j + 1)) % 312
      omega
    have other : (⟨j + 1, within⟩ : Fin 312) ≠ 0 := by
      simp [Fin.ext_iff]
    calc e.wordAt (j + 1) = e.advance.words.get (e.position + 1 + ⟨j, _⟩) :=
        inductionHypothesis e.advance (Nat.lt_of_succ_lt within)
      _ = e.ahead ⟨j + 1, within⟩ := by rw [places, get_advance, if_neg other]

/-- The word that has been put into the ring is met again after a turn. -/
theorem wordAt_turn (e : Engine) :
    e.wordAt 312 = renew e.current (e.ahead 1) (e.ahead 156) := by
  have places : e.position + 1 + (⟨311, by decide⟩ : Fin 312) = e.position + 0 := by
    rw [add_assoc]
    rfl
  calc e.wordAt 312 = e.advance.words.get (e.position + 1 + ⟨311, by decide⟩) :=
        wordAt_eq_ahead e.advance (by decide)
    _ = renew e.current (e.ahead 1) (e.ahead 156) := by rw [places, get_advance, if_pos rfl]

/-- A step gives out the word that it puts into the ring. -/
theorem next_eq (e : Engine) : e.next = (temper (e.wordAt 312), e.advance) := by
  rw [wordAt_turn]
  rfl

/-- Each word of a sequence is made of three that are up to a turn of the ring before it. -/
def Recurrent (x : Nat → UInt64) : Prop :=
  ∀ k, x (k + 312) = renew (x k) (x (k + 1)) (x (k + 156))

/-- The words of an engine are those of the recurrence. -/
theorem recurrent_wordAt (e : Engine) : Recurrent e.wordAt := by
  intro k
  have following := wordAt_eq_ahead (advance^[k] e) (show 1 < 312 by decide)
  have middle := wordAt_eq_ahead (advance^[k] e) (show 156 < 312 by decide)
  have turn := wordAt_turn (advance^[k] e)
  rw [wordAt_add] at following middle turn
  rw [turn, following, middle]
  rfl

theorem Recurrent.shift {x : Nat → UInt64} (recurrent : Recurrent x) (n : Nat) :
    Recurrent fun k => x (n + k) := by
  intro k
  have turn := recurrent (n + k)
  simpa only [Nat.add_assoc] using turn

/-! ### Bits -/

/-- A bit of each word of a sequence. -/
def bit (x : Nat → UInt64) (i : Nat) : BitSequence := fun k => (x k).toBitVec.getLsbD i

/-- The places of the bits that are turned where the lowest joined bit is set. -/
def tap (i : Nat) : Bool := (0xB5026F5AA96619E9 : UInt64).toBitVec.getLsbD i

/-- A bit of the upper part of each word joined with the lower part of the next. -/
def joinedBit (x : Nat → UInt64) (i k : Nat) : Bool :=
  if 31 ≤ i then bit x i k else bit x i (k + 1)

theorem getLsbD_upper (i : Fin 64) :
    (0xFFFFFFFF80000000 : UInt64).toBitVec.getLsbD i = decide (31 ≤ i.val) := by
  revert i
  decide

theorem getLsbD_lower (i : Fin 64) :
    (0x7FFFFFFF : UInt64).toBitVec.getLsbD i = decide (i.val < 31) := by
  revert i
  decide

/-- The bits of a word that is made of the upper part of one and the lower part of another. -/
theorem getLsbD_joined (c f : UInt64) (i : Nat) :
    ((c &&& 0xFFFFFFFF80000000) ||| (f &&& 0x7FFFFFFF)).toBitVec.getLsbD i =
      if 31 ≤ i then c.toBitVec.getLsbD i else f.toBitVec.getLsbD i := by
  rw [UInt64.toBitVec_or, UInt64.toBitVec_and, UInt64.toBitVec_and, BitVec.getLsbD_or,
    BitVec.getLsbD_and, BitVec.getLsbD_and]
  by_cases within : i < 64
  · rw [getLsbD_upper ⟨i, within⟩, getLsbD_lower ⟨i, within⟩]
    grind
  · simp [BitVec.getLsbD_of_ge _ _ (Nat.not_lt.1 within)]

theorem and_one_eq_zero_iff (w : UInt64) : w &&& 1 = 0 ↔ w.toBitVec.getLsbD 0 = false := by
  rw [← UInt64.toBitVec_inj, UInt64.toBitVec_and]
  change w.toBitVec &&& 1#64 = 0#64 ↔ _
  rw [BitVec.and_one_eq_setWidth_ofBool_getLsbD]
  cases w.toBitVec.getLsbD 0 <;> decide

/-- The recurrence, bit by bit. -/
theorem bit_turn {x : Nat → UInt64} (recurrent : Recurrent x) (i k : Nat) :
    bit x i (k + 312) =
      (bit x i (k + 156) ^^ joinedBit x (i + 1) k ^^ (tap i && joinedBit x 0 k)) := by
  have joinedEq := getLsbD_joined (x k) (x (k + 1))
  unfold bit
  rw [recurrent k]
  unfold renew
  -- The word that is made of two parts is met only by its bits.
  generalize (x k &&& 0xFFFFFFFF80000000) ||| (x (k + 1) &&& 0x7FFFFFFF) = joined at joinedEq ⊢
  have shifted : (joined >>> 1).toBitVec.getLsbD i = joined.toBitVec.getLsbD (i + 1) := by
    simp [Nat.add_comm]
  have added : (if joined &&& 1 = 0 then 0 else 0xB5026F5AA96619E9 : UInt64).toBitVec.getLsbD i =
      (tap i && joined.toBitVec.getLsbD 0) := by
    unfold tap
    simp only [and_one_eq_zero_iff]
    cases joined.toBitVec.getLsbD 0 <;> simp
  unfold joinedBit bit
  rw [UInt64.toBitVec_xor, UInt64.toBitVec_xor, BitVec.getLsbD_xor, BitVec.getLsbD_xor, shifted,
    added, joinedEq, joinedEq]

/-- The topmost bit after tempering. -/
theorem getLsbD_temper (w : UInt64) :
    (temper w).toBitVec.getLsbD 63 =
      (w.toBitVec.getLsbD 63 ^^ w.toBitVec.getLsbD 55 ^^ w.toBitVec.getLsbD 26 ^^
        w.toBitVec.getLsbD 9) := by
  simp [temper, Bool.xor_left_comm]

/-! ### All bits from the topmost

The recurrence gives the next higher bit of the joined words from each bit, and the lowest from the
topmost. So all bits are sums of shifts of the topmost one, up to a delay: a joined bit of the
lower part belongs to the word that follows. -/

/-- The sums of the shifts by a whole and by half a ring of what a number stands for. -/
def timesRing (p : Nat) : Nat := (p <<< 312) ^^^ (p <<< 156)

/-- How far a bit has moved on when it is a sum of shifts of the topmost bit. -/
def delay (i : Nat) : Nat := min (i + 1) 31

/-- The sums of shifts of the topmost bit that are the other bits. -/
def code : Nat → Nat
  | 0 => timesRing 1
  | i + 1 => timesRing (code i) ^^^ (bif tap i then timesRing 1 <<< delay i else 0)

open BitSequence

theorem combine_timesRing (p : Nat) (b : BitSequence) (k : Nat) :
    combine (timesRing p) b k = (combine p b (k + 312) ^^ combine p b (k + 156)) := by
  rw [timesRing, combine_xor, combine_shiftLeft, combine_shiftLeft]

variable {x : Nat → UInt64}

/-- Nothing joins the topmost bit from above, so it tells when the bits of `tap` were turned. -/
theorem joinedBit_zero_eq (recurrent : Recurrent x) (k : Nat) :
    joinedBit x 0 k = combine (timesRing 1) (bit x 63) k := by
  have outside : joinedBit x 64 k = false := BitVec.getLsbD_of_ge _ _ (Nat.le_refl 64)
  have turn := bit_turn recurrent 63 k
  rw [outside, show tap 63 = true from rfl] at turn
  rw [combine_timesRing, combine_one, combine_one, turn]
  grind

/-- Every bit is a sum of shifts of the topmost bit. -/
theorem bit_eq_combine (recurrent : Recurrent x) (i k : Nat) :
    bit x i (k + delay i) = combine (code i) (bit x 63) k := by
  -- From one bit to the next higher, at every place of the sequence at once.
  induction i generalizing k with
  | zero => exact joinedBit_zero_eq recurrent k
  | succ i inductionHypothesis =>
    have moved : joinedBit x (i + 1) (k + delay i) = bit x (i + 1) (k + delay (i + 1)) := by
      unfold joinedBit delay
      by_cases upper : 31 ≤ i + 1
      · rw [if_pos upper, Nat.min_eq_right upper, Nat.min_eq_right (by omega)]
      · rw [if_neg upper, Nat.min_eq_left (by omega), Nat.min_eq_left (by omega)]
        rfl
    have turn := bit_turn recurrent i (k + delay i)
    have whole := inductionHypothesis (k + 312)
    have half := inductionHypothesis (k + 156)
    rw [Nat.add_right_comm] at whole half
    rw [moved, whole, half, joinedBit_zero_eq recurrent] at turn
    have added : combine (bif tap i then timesRing 1 <<< delay i else 0) (bit x 63) k =
        (tap i && combine (timesRing 1) (bit x 63) (k + delay i)) := by
      cases tap i
      · exact combine_zero _ k
      · exact combine_shiftLeft _ _ _ k
    rw [code, combine_xor, combine_timesRing, added, turn]
    grind

/-- The sum of shifts that vanishes on the topmost bit, which is a sum of shifts of itself. -/
def recurrenceCode : Nat := code 63 ^^^ (1 <<< 31)

theorem vanishes_recurrenceCode (recurrent : Recurrent x) : Vanishes recurrenceCode (bit x 63) := by
  intro k
  rw [recurrenceCode, combine_xor, combine_shiftLeft, combine_one, ← bit_eq_combine recurrent]
  exact Bool.xor_self _

/-- The sum of shifts of the topmost bit that is the topmost bit after tempering. -/
def outputCode : Nat := (1 <<< 31) ^^^ code 55 ^^^ (code 26 <<< 4) ^^^ (code 9 <<< 21)

theorem combine_outputCode (recurrent : Recurrent x) (k : Nat) :
    combine outputCode (bit x 63) k = (temper (x (k + 31))).toBitVec.getLsbD 63 := by
  rw [getLsbD_temper, outputCode, combine_xor, combine_xor, combine_xor, combine_shiftLeft,
    combine_shiftLeft, combine_shiftLeft, combine_one, ← bit_eq_combine recurrent,
    ← bit_eq_combine recurrent, ← bit_eq_combine recurrent]
  rfl

/-- What both sums of shifts have in common is a shift alone. Their greatest shifts are 64 and 56
rings, so that they have bits up to the positions 19968 and 17472. -/
theorem divisor_eq :
    Nat.beq (divisor 50000 recurrenceCode 19969 outputCode 17472) (1 <<< 31) = true := by
  decide +kernel

/-- If the topmost bits of all tempered words are clear, all bits are in the end. -/
theorem bit_eq_false_of_clear (recurrent : Recurrent x)
    (clear : ∀ k, (temper (x k)).toBitVec.getLsbD 63 = false) (i : Nat) {k : Nat}
    (late : 62 ≤ k) : bit x i k = false := by
  have output : Vanishes outputCode (bit x 63) := fun k =>
    (combine_outputCode recurrent k).trans (clear (k + 31))
  -- With both sums their common divisor vanishes, and that is the shift by 31 alone.
  have common := vanishes_divisor 50000 19969 17472 (vanishes_recurrenceCode recurrent) output
  rw [Nat.eq_of_beq_eq_true divisor_eq] at common
  have top : ∀ j, 31 ≤ j → bit x 63 j = false := by
    intro j behind
    have shifted := common (j - 31)
    rwa [combine_shiftLeft, combine_one, Nat.sub_add_cancel behind] at shifted
  have delayLe : delay i ≤ 31 := Nat.min_le_right _ _
  calc bit x i k = bit x i (k - delay i + delay i) := by rw [Nat.sub_add_cancel (by omega)]
    _ = combine (code i) (bit x 63) (k - delay i) := bit_eq_combine recurrent i _
    _ = false := combine_of_ended (fun j behind => top j (by omega)) _

/-- A word without bits is zero. -/
theorem word_eq_zero {k : Nat} (bits : ∀ i, bit x i k = false) : x k = 0 := by
  apply UInt64.toBitVec_inj.1
  apply BitVec.eq_of_getLsbD_eq
  intro i _
  exact (bits i).trans BitVec.getLsbD_zero.symm

/-- In front of zeros nothing was joined. -/
theorem joinedBit_eq_false_of_ended (recurrent : Recurrent x) {k : Nat}
    (ended : ∀ j, k + 156 ≤ j → x j = 0) (i : Nat) : joinedBit x i k = false := by
  have bits : ∀ i j, k + 156 ≤ j → bit x i j = false := by
    intro i j behind
    rw [bit, ended j behind]
    exact BitVec.getLsbD_zero
  have lowest : joinedBit x 0 k = false := by
    rw [joinedBit_zero_eq recurrent, combine_timesRing, combine_one, combine_one,
      bits 63 _ (by omega), bits 63 _ (by omega)]
    rfl
  cases i with
  | zero => exact lowest
  | succ i =>
    have turn := bit_turn recurrent i k
    rw [bits i _ (by omega), bits i _ (by omega), lowest] at turn
    simpa using turn.symm

/-- A word in front of zeros is zero, except for the first of all: the lower part of it has gone
into the recurrence with the word before. -/
theorem eq_zero_of_ended (recurrent : Recurrent x) {n : Nat} (ended : ∀ j, n < j → x j = 0) :
    ∀ j, 0 < j → x j = 0 := by
  induction n with
  | zero => exact ended
  | succ n inductionHypothesis =>
    apply inductionHypothesis
    intro j behind
    rcases Nat.lt_or_eq_of_le behind with later | rfl
    · exact ended j later
    · -- The upper part was joined at its own place, and the lower part at the place before.
      apply word_eq_zero
      intro i
      have upper := joinedBit_eq_false_of_ended recurrent (k := n + 1)
        (fun j behind => ended j (by omega)) i
      have lower := joinedBit_eq_false_of_ended recurrent (k := n)
        (fun j behind => ended j (by omega)) i
      unfold joinedBit at upper lower
      grind

/-! ### Seeds -/

/-- The word that the congruential rule puts behind a word of the seed. -/
def spreadFrom (last : UInt64) (i : Nat) : UInt64 :=
  spread * (last ^^^ (last >>> 62)) + UInt64.ofNat i

/-- The first words as far as they are spread out, and the last of them. -/
def seedState (seed : UInt64) (n : Nat) (within : n ≤ 311) : Vector UInt64 312 × UInt64 :=
  Nat.fold n
    (fun i _ (state : Vector UInt64 312 × UInt64) =>
      (state.1.set (i + 1) (spreadFrom state.2 (i + 1)), spreadFrom state.2 (i + 1)))
    (Vector.replicate 312 seed, seed)

theorem seedState_succ (seed : UInt64) {n : Nat} (within : n + 1 ≤ 311) :
    seedState seed (n + 1) within =
      let (words, last) := seedState seed n (Nat.le_of_succ_le within)
      (words.set (n + 1) (spreadFrom last (n + 1)), spreadFrom last (n + 1)) :=
  Nat.fold_succ ..

/-- The words so far are spread out one from the other, and the last of them is at hand. -/
theorem seedState_spread (seed : UInt64) {n : Nat} (within : n ≤ 311) :
    (seedState seed n within).2 = (seedState seed n within).1[n] ∧
      ∀ i (below : i < n), (seedState seed n within).1[i + 1] =
        spreadFrom (seedState seed n within).1[i] (i + 1) := by
  induction n with
  | zero =>
    constructor
    · simp [seedState]
    · intro i below
      exact absurd below (Nat.not_lt_zero i)
  | succ n inductionHypothesis =>
    obtain ⟨lastEq, spreads⟩ := inductionHypothesis (Nat.le_of_succ_le within)
    rw [seedState_succ]
    generalize seedState seed n (Nat.le_of_succ_le within) = state at lastEq spreads
    dsimp only
    constructor
    · rw [Vector.getElem_set_self]
    · intro i below
      rw [Vector.getElem_set_ne _ _ (show n + 1 ≠ i by omega)]
      rcases Nat.lt_or_eq_of_le (Nat.le_of_lt_succ below) with before | rfl
      · rw [Vector.getElem_set_ne _ _ (by omega)]
        exact spreads i before
      · rw [Vector.getElem_set_self, lastEq]

/-- Every word of a seeded engine but the first is spread out from the one before. -/
theorem wordAt_ofSeed_succ (seed : UInt64) {i : Nat} (below : i < 311) :
    (ofSeed seed).wordAt (i + 1) = spreadFrom ((ofSeed seed).wordAt i) (i + 1) := by
  have stored : ∀ {j} (within : j < 312),
      (ofSeed seed).wordAt j = (seedWords seed).get ⟨j, within⟩ := by
    intro j within
    rw [wordAt_eq_ahead _ within]
    exact congrArg (seedWords seed).get (Fin.zero_add _)
  rw [stored (Nat.succ_lt_succ below), stored (Nat.lt_succ_of_lt below)]
  exact (seedState_spread seed (Nat.le_refl 311)).2 i below

/-! ### Engines that do not come to an end -/

/-- An engine is alive if not all of its words are zero, the first one aside: of that one only the
upper part matters, which goes into the words that follow. -/
def Alive (e : Engine) : Prop := ∃ k, 0 < k ∧ e.wordAt k ≠ 0

/-- Seeded engines are alive: if the second word is zero, the third is not. -/
theorem alive_ofSeed (seed : UInt64) : (ofSeed seed).Alive := by
  by_cases second : (ofSeed seed).wordAt 1 = 0
  · refine ⟨2, Nat.two_pos, ?_⟩
    rw [wordAt_ofSeed_succ seed (show 1 < 311 by decide), second]
    decide
  · exact ⟨1, Nat.one_pos, second⟩

/-- Words that are not zero never end. -/
theorem Alive.exists_wordAt_ne_zero {e : Engine} (alive : e.Alive) (n : Nat) :
    ∃ k, n < k ∧ e.wordAt k ≠ 0 := by
  by_contra only
  obtain ⟨k, positive, nonzero⟩ := alive
  have ended : ∀ j, n < j → e.wordAt j = 0 := by
    intro j behind
    by_contra later
    exact only ⟨j, behind, later⟩
  exact nonzero (eq_zero_of_ended (recurrent_wordAt e) ended k positive)

/-- A step leaves an engine alive. -/
theorem Alive.advance {e : Engine} (alive : e.Alive) : e.advance.Alive := by
  obtain ⟨k, behind, nonzero⟩ := alive.exists_wordAt_ne_zero 1
  obtain ⟨j, rfl⟩ := Nat.exists_eq_add_of_lt behind
  refine ⟨j + 1, Nat.succ_pos j, ?_⟩
  have step := wordAt_add e 1 (j + 1)
  rw [Function.iterate_one] at step
  rw [step]
  exact nonzero

/-- An engine that is alive gives out a word with its topmost bit. -/
theorem Alive.exists_output {e : Engine} (alive : e.Alive) :
    ∃ n, 2 ^ 63 ≤ (Engine.advance^[n] e).next.1.toNat := by
  by_contra never
  have clear : ∀ k, (temper (e.wordAt (312 + k))).toBitVec.getLsbD 63 = false := by
    intro k
    apply Bool.eq_false_of_not_eq_true
    intro set
    apply never
    refine ⟨k, ?_⟩
    rw [next_eq, wordAt_add, Nat.add_comm]
    exact Nat.ge_two_pow_of_testBit set
  have late := (recurrent_wordAt e).shift 312
  obtain ⟨k, behind, nonzero⟩ := alive.exists_wordAt_ne_zero (312 + 62)
  apply nonzero
  have ended := word_eq_zero (x := fun k => e.wordAt (312 + k)) (k := k - 312) fun i =>
    bit_eq_false_of_clear late clear i (by omega)
  rwa [Nat.add_sub_cancel' (by omega)] at ended

end Engine

namespace Draw

/-- The search for a word comes to an end on an engine that is alive, for a threshold in the lower
half of all words. -/
theorem exists_firstFrom?_of_alive {s : SeededSource} (alive : s.engine.Alive) {least : UInt64}
    (low : least.toNat < 2 ^ 63) :
    ∃ w s', firstFrom? least s = some (w, s') ∧ s'.engine.Alive := by
  obtain ⟨n, high⟩ := alive.exists_output
  induction n generalizing s with
  | zero =>
    have reached : least ≤ s.engine.next.1 :=
      UInt64.le_iff_toNat_le.2 (Nat.le_trans (Nat.le_of_lt low) high)
    exact ⟨_, _, (firstFrom?_eq rfl).trans (if_pos reached), alive.advance⟩
  | succ n inductionHypothesis =>
    have step : firstFrom? least s = if least ≤ s.engine.next.1
        then some (s.engine.next.1, ⟨s.seed, s.engine.advance⟩)
        else firstFrom? least ⟨s.seed, s.engine.advance⟩ := firstFrom?_eq rfl
    rw [step]
    split
    next => exact ⟨_, _, rfl, alive.advance⟩
    next => exact inductionHypothesis alive.advance high

/-- A draw from a range returns on an engine that is alive, such as a seeded one, and leaves it
alive. -/
theorem exists_returns_of_alive {s : SeededSource} (alive : s.engine.Alive) (low high : UInt64) :
    ∃ v s', Returns low high s v s' ∧ s'.engine.Alive := by
  by_cases full : high - low + 1 = 0
  · exact ⟨_, _, .taken rfl (valueOf?_of_full full _), alive.advance⟩
  · have positive : 0 < (high - low + 1).toNat :=
      Nat.pos_of_ne_zero fun zero => full (UInt64.toNat_inj.1 zero)
    have few := two_mul_mod_lt positive (Nat.le_of_lt (high - low + 1).toNat_lt)
    rw [← toNat_threshold_eq_mod full] at few
    have below : (threshold (high - low + 1)).toNat < 2 ^ 63 := by omega
    obtain ⟨w, s', found, alive'⟩ := exists_firstFrom?_of_alive alive below
    exact ⟨_, s', returns_of_firstFrom? full found, alive'⟩

end Draw

end PatternSampler
