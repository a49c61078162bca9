/-
Module: PatternSampler.Random.Draw
Purpose: Draws from a source of raw 64-bit words. Everything random in this library is a
  function of the words that a source delivers one after the other, so a draw is a state
  computation over any such source: the same definition serves the seeded engine and an
  arbitrary stream of words.
Main exports: WordSource, Draw, word, uniformFraction, firstFrom?, uniformWord, chance
-/

namespace PatternSampler

/-- A source of raw 64-bit words: the next word and the source after it. -/
class WordSource (σ : Type) where
  nextWord : σ → UInt64 × σ

/-- A computation that may take words from a source. -/
abbrev Draw (σ : Type) := StateM σ

namespace Draw

variable {σ : Type} [WordSource σ]

/-- The next raw word. -/
@[inline] def word : Draw σ UInt64 := fun s => WordSource.nextWord s

/-- The double in `[0, 1)` that a word gives: its upper 53 bits as a binary fraction. -/
def unitReal (w : UInt64) : Float := (w >>> 11).toFloat / 9007199254740992.0

/-- A double in `[0, 1)`, made from one word. -/
def uniformFraction : Draw σ Float := do
  return unitReal (← word)

/-- True with a given probability. Probabilities that leave no doubt take no word. -/
def chance (probability : Float) : Draw σ Bool :=
  if probability ≤ 0.0 then return false
  else if 1.0 ≤ probability then return true
  else do return (← uniformFraction) < probability

/-! ### Uniform integers

A range of `size` values is served by the remainder of a word modulo `size`. So that every
value has the same number of words, the lowest `2 ^ 64 % size` words are passed over. -/

/-- The least word that is not passed over for a range of `size` values. -/
def threshold (size : UInt64) : UInt64 := (0 - size) % size

/-- The first word that is not below a threshold, and the source behind it. The search goes on
as long as words are below, so it has no end, and no word is found, if all of them are. -/
def firstFrom? (least : UInt64) (s : σ) : Option (UInt64 × σ) :=
  let (w, s') := WordSource.nextWord s
  if least ≤ w then some (w, s') else by
    -- A call that is applied leaves no trace of its position in the file in the definition.
    apply firstFrom?
    · exact least
    · exact s'
partial_fixpoint

/-- The search for a word takes one step at a time. -/
theorem firstFrom?_eq {s s' : σ} {w least : UInt64} (next : word s = (w, s')) :
    firstFrom? least s = if least ≤ w then some (w, s') else firstFrom? least s' := by
  rw [firstFrom?, show WordSource.nextWord s = (w, s') from next]

/-- The first word that is not below a threshold. The threshold itself stands in for a word that
is never found; a seeded engine always comes to one. -/
def wordFrom (least : UInt64) : Draw σ UInt64 := fun s => (firstFrom? least s).getD (least, s)

/-- A value between `low` and `high`, both included; every value is equally likely. The
full range of words is served by a word as it is. -/
def uniformWord (low high : UInt64) : Draw σ UInt64 :=
  let size := high - low + 1
  if size = 0 then word
  else do return low + (← wordFrom (threshold size)) % size

end Draw

end PatternSampler
