/-
Module: PatternSampler.Proofs.Uniformity
Purpose: Uniform words are unbiased. A draw from a range makes a value of a raw word or passes
  the word over, and it returns the value of the first word that is not passed over. Seen as a
  function of one word, it gives every value of the range for the same number of words, and
  it passes over fewer than half of all words.
Main exports: Draw.valueOf?, Draw.Returns, Draw.returns_iff, Draw.ncard_valueOf?_eq_some,
  Draw.ncard_valueOf?_eq_none, Draw.uniformWord_unbiased
-/
import Mathlib
import PatternSampler.Proofs.Language.Completeness

namespace PatternSampler

/-! ### Counting words -/

/-- Words are counted by their numbers. -/
theorem ncard_words (P : Nat → Prop) [DecidablePred P] :
    {w : UInt64 | P w.toNat}.ncard = Nat.count P (2 ^ 64) := by
  have words : {w : UInt64 | P w.toNat} =
      UInt64.ofNat '' ↑({n ∈ Finset.range (2 ^ 64) | P n} : Finset Nat) := by
    ext w
    simp only [Set.mem_ofPred_eq, Set.mem_image, SetLike.mem_coe, Finset.mem_filter,
      Finset.mem_range]
    constructor
    · intro holds
      exact ⟨w.toNat, ⟨w.toNat_lt, holds⟩, UInt64.ofNat_toNat⟩
    · rintro ⟨n, ⟨within, holds⟩, rfl⟩
      rwa [UInt64.toNat_ofNat_of_lt' within]
  have separate : Set.InjOn UInt64.ofNat
      ↑({n ∈ Finset.range (2 ^ 64) | P n} : Finset Nat) := by
    intro n member m member' equal
    have below : n < 2 ^ 64 := Finset.mem_range.1 (Finset.mem_filter.1 member).1
    have below' : m < 2 ^ 64 := Finset.mem_range.1 (Finset.mem_filter.1 member').1
    rw [← UInt64.toNat_ofNat_of_lt' below, ← UInt64.toNat_ofNat_of_lt' below', equal]
  rw [words, separate.ncard_image, Set.ncard_coe_finset, ← Nat.count_eq_card_filter_range]

/-- The numbers below a total, less its remainder at the front, make whole rounds of a size, and in
each of them every residue occurs once. -/
theorem count_residue {size residue : Nat} (within : residue < size) (total : Nat) :
    Nat.count (fun n => total % size ≤ n ∧ n % size = residue) total = total / size := by
  have positive := Nat.zero_lt_of_lt within
  have remainderLt := Nat.mod_lt total positive
  obtain ⟨behind, parts⟩ : ∃ behind, total = total % size + behind :=
    ⟨_, (Nat.add_sub_of_le (Nat.mod_le total size)).symm⟩
  have residueIff : ∀ n, n % size = residue ↔ n ≡ residue [MOD size] := by
    intro n
    rw [Nat.ModEq, Nat.mod_eq_of_lt within]
  -- All occurrences are those in front of the remainder and those behind it.
  have all : Nat.count (· ≡ residue [MOD size]) total =
      total / size + if residue < total % size then 1 else 0 := by
    rw [Nat.count_modEq_card total positive, Nat.mod_eq_of_lt within]
  have front : Nat.count (· ≡ residue [MOD size]) (total % size) =
      if residue < total % size then 1 else 0 := by
    rw [Nat.count_modEq_card _ positive, Nat.mod_eq_of_lt within, Nat.mod_mod,
      Nat.div_eq_of_lt remainderLt, Nat.zero_add]
  have nothing : Nat.count (fun n => total % size ≤ n ∧ n % size = residue) (total % size) = 0 :=
    Nat.count_iff_forall_not.2 fun n below holds => Nat.not_le.2 below holds.1
  have rest : Nat.count (fun n => total % size ≤ total % size + n ∧
      (total % size + n) % size = residue) behind =
      Nat.count (fun n => total % size + n ≡ residue [MOD size]) behind := by
    congr 1
    funext n
    simp only [Nat.le_add_right, true_and, residueIff]
  have split := Nat.count_add (· ≡ residue [MOD size]) (total % size) behind
  have split' := Nat.count_add (fun n => total % size ≤ n ∧ n % size = residue) (total % size)
    behind
  rw [← parts] at split split'
  omega

/-- The numbers below a bound, among those below a total. -/
theorem count_below {bound total : Nat} (fits : bound ≤ total) :
    Nat.count (· < bound) total = bound := by
  obtain ⟨behind, rfl⟩ := Nat.exists_eq_add_of_le fits
  have front : Nat.count (· < bound) bound = bound :=
    Nat.count_iff_forall.2 fun _ below => below
  have nothing : Nat.count (fun n => bound + n < bound) behind = 0 :=
    Nat.count_iff_forall_not.2 fun n _ below => Nat.not_lt.2 (Nat.le_add_right bound n) below
  rw [Nat.count_add, front, nothing, Nat.add_zero]

/-- A remainder is less than half of what it is left of. -/
theorem two_mul_mod_lt {total size : Nat} (positive : 0 < size) (fits : size ≤ total) :
    2 * (total % size) < total := by
  have remainderLt := Nat.mod_lt total positive
  have rounds : 1 ≤ total / size := (Nat.one_le_div_iff positive).2 fits
  have whole := Nat.mul_le_mul_left size rounds
  have parts := Nat.div_add_mod total size
  omega

namespace Draw

/-! ### One word -/

/-- What a draw from a range makes of a raw word: a value, or nothing if it passes the word
over. -/
def valueOf? (low high w : UInt64) : Option UInt64 :=
  let size := high - low + 1
  if size = 0 then some w
  else if threshold size ≤ w then some (low + w % size) else none

variable {low high : UInt64}

theorem valueOf?_of_full (full : high - low + 1 = 0) (w : UInt64) :
    valueOf? low high w = some w :=
  if_pos full

theorem valueOf?_of_reached (notFull : high - low + 1 ≠ 0) {w : UInt64}
    (reached : threshold (high - low + 1) ≤ w) :
    valueOf? low high w = some (low + w % (high - low + 1)) :=
  (if_neg notFull).trans (if_pos reached)

theorem valueOf?_of_not_reached (notFull : high - low + 1 ≠ 0) {w : UInt64}
    (notReached : ¬ threshold (high - low + 1) ≤ w) : valueOf? low high w = none :=
  (if_neg notFull).trans (if_neg notReached)

/-- The threshold of a range is what is left of all words behind whole rounds of the range. -/
theorem toNat_threshold_eq_mod {size : UInt64} (notFull : size ≠ 0) :
    (threshold size).toNat = 2 ^ 64 % size.toNat := by
  have rounds : 2 ^ 64 = 2 ^ 64 - size.toNat + size.toNat :=
    (Nat.sub_add_cancel (Nat.le_of_lt size.toNat_lt)).symm
  rw [toNat_threshold notFull]
  conv_rhs => rw [rounds, Nat.add_mod_right]

/-- The value that a word is made into, in numbers: there is no overflow in the sum. The full range
is no exception, for it leaves no remainder of all words, and a word is its own residue. -/
theorem valueOf?_eq_some_iff (ordered : low ≤ high) {w v : UInt64} :
    valueOf? low high w = some v ↔ 2 ^ 64 % (high.toNat - low.toNat + 1) ≤ w.toNat ∧
      v.toNat = low.toNat + w.toNat % (high.toNat - low.toNat + 1) := by
  have sizeEq := toNat_size ordered
  have lowLe := UInt64.le_iff_toNat_le.1 ordered
  have highLt := high.toNat_lt
  have wordLt := w.toNat_lt
  generalize countEq : high.toNat - low.toNat + 1 = count at sizeEq ⊢
  by_cases full : high - low + 1 = 0
  · rw [full] at sizeEq
    have countFull : count = 2 ^ 64 := by
      change 0 = _ at sizeEq
      omega
    rw [valueOf?_of_full full, countFull, Nat.mod_self, Nat.mod_eq_of_lt wordLt, Option.some_inj,
      ← UInt64.toNat_inj]
    omega
  · have sizeNe : (high - low + 1).toNat ≠ 0 := fun zero => full (UInt64.toNat_inj.1 zero)
    have countLt : count < 2 ^ 64 := by
      rcases Nat.lt_or_ge count (2 ^ 64) with below | above
      · exact below
      · rw [show count = 2 ^ 64 by omega, Nat.mod_self] at sizeEq
        exact absurd sizeEq sizeNe
    rw [Nat.mod_eq_of_lt countLt] at sizeEq
    have residueLt := Nat.mod_lt w.toNat (show 0 < count by omega)
    have sumEq : (low + w % (high - low + 1)).toNat = low.toNat + w.toNat % count := by
      rw [UInt64.toNat_add, UInt64.toNat_mod, sizeEq]
      exact Nat.mod_eq_of_lt (by omega)
    have thresholdEq := toNat_threshold_eq_mod full
    rw [sizeEq] at thresholdEq
    by_cases reached : threshold (high - low + 1) ≤ w
    · have reachedNat := UInt64.le_iff_toNat_le.1 reached
      rw [valueOf?_of_reached full reached, Option.some_inj, ← UInt64.toNat_inj, sumEq]
      omega
    · have notReachedNat := mt UInt64.le_iff_toNat_le.2 reached
      rw [valueOf?_of_not_reached full reached]
      constructor
      · exact nofun
      · rintro ⟨above, -⟩
        omega

theorem residue_le (ordered : low ≤ high) (w : UInt64) :
    low.toNat + w.toNat % (high.toNat - low.toNat + 1) ≤ high.toNat := by
  have lowLe := UInt64.le_iff_toNat_le.1 ordered
  have residueLt : w.toNat % (high.toNat - low.toNat + 1) < high.toNat - low.toNat + 1 :=
    Nat.mod_lt _ (Nat.succ_pos _)
  omega

/-- A word that is passed over is one of those that whole rounds leave. -/
theorem valueOf?_eq_none_iff (ordered : low ≤ high) {w : UInt64} :
    valueOf? low high w = none ↔ w.toNat < 2 ^ 64 % (high.toNat - low.toNat + 1) := by
  constructor
  · intro passed
    apply Nat.lt_of_not_le
    intro above
    have valueLt := Nat.lt_of_le_of_lt (residue_le ordered w) high.toNat_lt
    have value := (valueOf?_eq_some_iff ordered).2 ⟨above, UInt64.toNat_ofNat_of_lt' valueLt⟩
    exact Option.some_ne_none _ (value.symm.trans passed)
  · intro below
    cases value : valueOf? low high w with
    | none => rfl
    | some v =>
      obtain ⟨above, -⟩ := (valueOf?_eq_some_iff ordered).1 value
      exact absurd below (Nat.not_lt.2 above)

/-- A word is made into a value of the range. -/
theorem mem_of_valueOf? (ordered : low ≤ high) {w v : UInt64}
    (value : valueOf? low high w = some v) : low ≤ v ∧ v ≤ high := by
  obtain ⟨-, valueEq⟩ := (valueOf?_eq_some_iff ordered).1 value
  rw [UInt64.le_iff_toNat_le, UInt64.le_iff_toNat_le, valueEq]
  exact ⟨Nat.le_add_right _ _, residue_le ordered w⟩

/-- Every value of a range is made of the same number of words. -/
theorem ncard_valueOf?_eq_some {v : UInt64} (atLeast : low ≤ v) (atMost : v ≤ high) :
    {w | valueOf? low high w = some v}.ncard = 2 ^ 64 / (high.toNat - low.toNat + 1) := by
  have ordered := UInt64.le_trans atLeast atMost
  have lowLe := UInt64.le_iff_toNat_le.1 atLeast
  have valueLe := UInt64.le_iff_toNat_le.1 atMost
  have within : v.toNat - low.toNat < high.toNat - low.toNat + 1 := by omega
  have words : {w | valueOf? low high w = some v} =
      {w : UInt64 | 2 ^ 64 % (high.toNat - low.toNat + 1) ≤ w.toNat ∧
        w.toNat % (high.toNat - low.toNat + 1) = v.toNat - low.toNat} := by
    ext w
    simp only [Set.mem_ofPred_eq, valueOf?_eq_some_iff ordered]
    omega
  rw [words]
  exact (ncard_words _).trans (count_residue within _)

/-- There are as many words that are passed over as whole rounds leave. -/
theorem ncard_valueOf?_eq_none (ordered : low ≤ high) :
    {w | valueOf? low high w = none}.ncard = 2 ^ 64 % (high.toNat - low.toNat + 1) := by
  have words : {w | valueOf? low high w = none} =
      {w : UInt64 | w.toNat < 2 ^ 64 % (high.toNat - low.toNat + 1)} := by
    ext w
    exact valueOf?_eq_none_iff ordered
  rw [words]
  exact (ncard_words _).trans (count_below (Nat.mod_le _ _))

/-! ### The loop -/

section Loop

variable {σ : Type} [WordSource σ]

/-- The loop of a draw from a range returns: words are passed over as long as nothing is made of
them, and the value of the next one is returned, with the source behind that word. -/
inductive Returns (low high : UInt64) : σ → UInt64 → σ → Prop where
  | taken {s s' : σ} {w v : UInt64} (next : word s = (w, s'))
      (value : valueOf? low high w = some v) : Returns low high s v s'
  | passed {s s' s'' : σ} {w v : UInt64} (next : word s = (w, s'))
      (nothing : valueOf? low high w = none) (later : Returns low high s' v s'') :
      Returns low high s v s''

variable {s s' : σ} {v : UInt64}

/-- A loop that returns has found a word. -/
theorem exists_firstFrom?_of_returns (notFull : high - low + 1 ≠ 0)
    (returned : Returns low high s v s') :
    ∃ w, firstFrom? (threshold (high - low + 1)) s = some (w, s') ∧
      low + w % (high - low + 1) = v := by
  induction returned with
  | @taken s s' w v next value =>
    by_cases reached : threshold (high - low + 1) ≤ w
    · rw [valueOf?_of_reached notFull reached] at value
      refine ⟨w, ?_, Option.some.inj value⟩
      rw [firstFrom?_eq next, if_pos reached]
    · rw [valueOf?_of_not_reached notFull reached] at value
      cases value
  | @passed s s' s'' w v next nothing _ inductionHypothesis =>
    obtain ⟨w', found, valueEq⟩ := inductionHypothesis
    by_cases reached : threshold (high - low + 1) ≤ w
    · rw [valueOf?_of_reached notFull reached] at nothing
      cases nothing
    · refine ⟨w', ?_, valueEq⟩
      rw [firstFrom?_eq next, if_neg reached, found]

/-- A search that finds a word ends a loop. -/
theorem returns_of_firstFrom? (notFull : high - low + 1 ≠ 0) {w : UInt64}
    (found : firstFrom? (threshold (high - low + 1)) s = some (w, s')) :
    Returns low high s (low + w % (high - low + 1)) s' := by
  refine firstFrom?.partial_correctness (threshold (high - low + 1))
    (fun s r => Returns low high s (low + r.1 % (high - low + 1)) r.2) ?_ s (w, s') found
  intro search inductionHypothesis s r step
  obtain ⟨w, s', next⟩ : ∃ w s', word s = (w, s') := ⟨_, _, rfl⟩
  rw [show WordSource.nextWord s = (w, s') from next] at step
  dsimp only at step
  split at step
  next reached =>
    cases step
    exact .taken next (valueOf?_of_reached notFull reached)
  next notReached =>
    exact .passed next (valueOf?_of_not_reached notFull notReached)
      (inductionHypothesis s' r step)

theorem uniformWord_of_full (full : high - low + 1 = 0) : uniformWord low high s = word s := by
  unfold uniformWord
  rw [if_pos full]

theorem uniformWord_of_found (notFull : high - low + 1 ≠ 0) {w : UInt64}
    (found : firstFrom? (threshold (high - low + 1)) s = some (w, s')) :
    uniformWord low high s = (low + w % (high - low + 1), s') := by
  have wordEq : wordFrom (threshold (high - low + 1)) s = (w, s') := by
    unfold wordFrom
    rw [found, Option.getD_some]
  unfold uniformWord
  rw [if_neg notFull]
  change (low + (wordFrom (threshold (high - low + 1)) s).1 % (high - low + 1),
    (wordFrom (threshold (high - low + 1)) s).2) = _
  rw [wordEq]

/-- A draw gives what its loop returns, and the loop returns unless the search for a word has no
end. -/
theorem returns_iff : Returns low high s v s' ↔ uniformWord low high s = (v, s') ∧
    (high - low + 1 ≠ 0 → (firstFrom? (threshold (high - low + 1)) s).isSome) := by
  by_cases full : high - low + 1 = 0
  · rw [uniformWord_of_full full]
    constructor
    · intro returned
      cases returned with
      | taken next value =>
        rw [valueOf?_of_full full] at value
        cases value
        exact ⟨next, fun notFull => absurd full notFull⟩
      | passed _ nothing =>
        rw [valueOf?_of_full full] at nothing
        cases nothing
    · rintro ⟨next, -⟩
      exact .taken next (valueOf?_of_full full v)
  · constructor
    · intro returned
      obtain ⟨w, found, rfl⟩ := exists_firstFrom?_of_returns full returned
      rw [found]
      exact ⟨uniformWord_of_found full found, fun _ => rfl⟩
    · rintro ⟨drawn, ends⟩
      obtain ⟨⟨w, behind⟩, found⟩ := Option.isSome_iff_exists.1 (ends full)
      rw [uniformWord_of_found full found] at drawn
      cases drawn
      exact returns_of_firstFrom? full found

/-- What a loop returns has been made of a word. -/
theorem exists_valueOf?_of_returns (returned : Returns low high s v s') :
    ∃ w, valueOf? low high w = some v := by
  induction returned with
  | taken _ value => exact ⟨_, value⟩
  | passed _ _ _ inductionHypothesis => exact inductionHypothesis

/-- A draw whose loop returns gives a value of the range, and there is no overflow when a word is
made into a value. Every value is made of the same number of words, which is as many as
there are whole rounds of the range, and fewer than half of all words are passed over. -/
theorem uniformWord_unbiased (ordered : low ≤ high) :
    (∀ (s s' : σ) (v : UInt64), Returns low high s v s' →
      uniformWord low high s = (v, s') ∧ low ≤ v ∧ v ≤ high) ∧
    (∀ w v, valueOf? low high w = some v →
      v.toNat = low.toNat + w.toNat % (high.toNat - low.toNat + 1)) ∧
    (∀ v, low ≤ v → v ≤ high →
      {w | valueOf? low high w = some v}.ncard = 2 ^ 64 / (high.toNat - low.toNat + 1)) ∧
    2 * {w | valueOf? low high w = none}.ncard < 2 ^ 64 := by
  refine ⟨?_, ?_, ?_, ?_⟩
  · intro s s' v returned
    obtain ⟨drawn, -⟩ := returns_iff.1 returned
    obtain ⟨w, value⟩ := exists_valueOf?_of_returns returned
    exact ⟨drawn, mem_of_valueOf? ordered value⟩
  · intro w v value
    exact ((valueOf?_eq_some_iff ordered).1 value).2
  · intro v atLeast atMost
    exact ncard_valueOf?_eq_some atLeast atMost
  · have highLt := high.toNat_lt
    rw [ncard_valueOf?_eq_none ordered]
    exact two_mul_mod_lt (Nat.succ_pos _) (by omega)

theorem uniformWord_unbiased_die :
    (1 : UInt64) ≤ 6 ∧
    Returns 1 6 (Stream'.cons 3 (Stream'.const 9)) 4 (Stream'.const (9 : UInt64)) ∧
    uniformWord 1 6 (Stream'.cons 3 (Stream'.const 9)) = (4, Stream'.const (9 : UInt64)) ∧
    {w | valueOf? 1 6 w = some 4}.ncard = 2 ^ 64 / 6 ∧
    2 * {w | valueOf? 1 6 w = none}.ncard < 2 ^ 64 := by
  have ordered : (1 : UInt64) ≤ 6 := by decide
  -- Six values leave four of all words: three is passed over, and nine is not.
  have taken : Returns 1 6 (Stream'.const 9) 4 (Stream'.const (9 : UInt64)) := .taken rfl rfl
  have returned : Returns 1 6 (Stream'.cons 3 (Stream'.const 9)) 4 (Stream'.const (9 : UInt64)) :=
    .passed rfl rfl taken
  obtain ⟨loop, -, fair, few⟩ := uniformWord_unbiased (σ := Stream' UInt64) ordered
  exact ⟨ordered, returned, (loop _ _ _ returned).1, fair 4 (by decide) (by decide), few⟩

end Loop

end Draw

end PatternSampler
