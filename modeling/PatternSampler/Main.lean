/-
Module: PatternSampler.Main
Purpose: The command line. Arguments become bytes, a run is made of them, and its texts go to
  the two output streams. The seed of a run that is given none comes from the clock and the
  system's random device.
-/
import PatternSampler.Run

namespace PatternSampler

/-- The bytes of a text as an array, for writing. -/
def toByteArray (t : Text) : ByteArray := ⟨t.toArray⟩

/-- The word with given bytes. -/
def wordOfBytes (bytes : ByteArray) : UInt64 :=
  bytes.toList.foldl (fun w b => (w <<< 8) ||| b.toUInt64) 0

end PatternSampler

open PatternSampler

/-- Runs the program on its arguments. -/
def main (args : List String) : IO UInt32 := do
  let entropy ← IO.getRandomBytes 8
  let ticks ← IO.monoNanosNow
  let seed := wordOfBytes entropy ^^^ UInt64.ofNat ticks
  let result := runArguments (args.map (·.toUTF8.toList)) seed
  let out ← IO.getStdout
  let err ← IO.getStderr
  out.write (toByteArray result.out)
  out.flush
  err.write (toByteArray result.err)
  return result.code
