/-
Module: PatternSampler.Random.Engine
Purpose: The seeded engine: the 64-bit Mersenne twister with 312 words of state. Each step
  renews one word of the state in turn and gives it out after tempering, so the engine
  delivers the words of a linear recurrence over bits with period `2 ^ 19937 - 1`.
Main exports: Engine, Engine.ofSeed, Engine.next, SeededSource
-/
import PatternSampler.Random.Draw

namespace PatternSampler

/-- The state of the engine: the last 312 words of the recurrence in a ring, and the place
in the ring that is renewed next. -/
structure Engine where
  words : Vector UInt64 312
  position : Fin 312

namespace Engine

/-- The factor of the congruential rule that spreads a seed. -/
def spread : UInt64 := 6364136223846793005

/-- The first words of the recurrence, spread out from a seed by a congruential rule. -/
def seedWords (seed : UInt64) : Vector UInt64 312 :=
  (Nat.fold 311
    (fun i _ (state : Vector UInt64 312 × UInt64) =>
      let last := state.2
      let w := spread * (last ^^^ (last >>> 62)) + UInt64.ofNat (i + 1)
      (state.1.set (i + 1) w, w))
    (Vector.replicate 312 seed, seed)).1

/-- The engine that starts from a seed. -/
def ofSeed (seed : UInt64) : Engine := ⟨seedWords seed, 0⟩

/-- The word that the recurrence puts in the place of `current`, from the word after it in
the ring and the word half a ring further. -/
def renew (current following middle : UInt64) : UInt64 :=
  let joined := (current &&& 0xFFFFFFFF80000000) ||| (following &&& 0x7FFFFFFF)
  middle ^^^ (joined >>> 1) ^^^ (if joined &&& 1 = 0 then 0 else 0xB5026F5AA96619E9)

/-- Tempering, which mixes the bits of a word before it is given out. -/
def temper (w : UInt64) : UInt64 :=
  let w := w ^^^ ((w >>> 29) &&& 0x5555555555555555)
  let w := w ^^^ ((w <<< 17) &&& 0x71D67FFFEDA60000)
  let w := w ^^^ ((w <<< 37) &&& 0xFFF7EEE000000000)
  w ^^^ (w >>> 43)

/-- Renews one word of the ring and gives it out. -/
def next (e : Engine) : UInt64 × Engine :=
  let i := e.position
  let w := renew e.words[i] e.words[i + 1] e.words[i + 156]
  (temper w, ⟨e.words.set i w, i + 1⟩)

end Engine

/-- A seeded source of words; it remembers its seed. -/
structure SeededSource where
  seed : UInt64
  engine : Engine

namespace SeededSource

/-- The source that starts from a seed. -/
def ofSeed (seed : UInt64) : SeededSource := ⟨seed, Engine.ofSeed seed⟩

/-- The next word of the engine; the seed stays. -/
def next (s : SeededSource) : UInt64 × SeededSource :=
  let (w, engine) := s.engine.next
  (w, { s with engine })

end SeededSource

instance : WordSource SeededSource := ⟨SeededSource.next⟩

end PatternSampler
