/-
Module: PatternSampler.Run
Purpose: Runs of the program as functions: from arguments to an exit code and the texts of
  the two output streams. A run reads the pattern once and writes either its canonical text
  or a number of strings, one a line, each of them before the next one is drawn. Error reports
  and the log go to the error stream. Trees are not written out: a run that is asked for one is
  interrupted where it would write it.
Main exports: Outcome, Streams, Running, Options.session, Options.run, runArguments
-/
import PatternSampler.Options
import PatternSampler.Pattern.Canonical
import PatternSampler.Pattern.Reader
import PatternSampler.Random.Engine

namespace PatternSampler

/-- The outcome of a run. -/
structure Outcome where
  code : UInt32
  out : Text
  err : Text
deriving DecidableEq, Repr

/-- The exit code of a run that did what it was asked to. -/
def exitOk : UInt32 := 0

/-- The exit code of a run with arguments that cannot be followed. -/
def exitUsage : UInt32 := 1

/-- The exit code of a run with a pattern that is refused. -/
def exitPattern : UInt32 := 2

/-- A text as a line. -/
def lineText (t : Text) : Text := t ++ [Text.newline]

/-- A message of the log as a line. -/
def logLine (message : Text) : Text := lineText (ascii "[regen] " ++ message)

/-- The line on the error stream about what stops a run. -/
def errorLine (message : Text) : Text := lineText (ascii "Error: " ++ message)

/-! ### Streams -/

/-- What a run has written to its two output streams: the pieces, the last one first. -/
structure Streams where
  outPieces : List Text := []
  errPieces : List Text := []

namespace Streams

/-- The text on the output stream. -/
def out (s : Streams) : Text := s.outPieces.reverse.flatten

/-- The text on the error stream. -/
def err (s : Streams) : Text := s.errPieces.reverse.flatten

end Streams

/-- What can interrupt a run. -/
inductive Interruption where
  /-- A tree is to be written out. -/
  | treeAsked
  /-- No string can be drawn. -/
  | fault (cause : DrawFault)

/-- The wording of an interruption. -/
def Interruption.message : Interruption → Text
  | treeAsked => ascii "trees are not written out"
  | fault cause => cause.message

/-- A part of a run: it may write to the streams, and it may be interrupted. What it has written
until then stays written. -/
abbrev Running (ε : Type) := ExceptT ε (StateM Streams)

namespace Running

variable {ε : Type}

/-- Writes to the output stream. -/
def writeOut (t : Text) : Running ε Unit :=
  modify fun s => { s with outPieces := t :: s.outPieces }

/-- Writes to the error stream. -/
def writeErr (t : Text) : Running ε Unit :=
  modify fun s => { s with errPieces := t :: s.errPieces }

/-- The outcome of a run from its beginning to its end. An interruption is caught and reported. -/
def outcome (session : Running Interruption UInt32) : Outcome :=
  match session.run.run {} with
  | (.ok code, s) => ⟨code, s.out, s.err⟩
  | (.error interruption, s) => ⟨exitUsage, s.out, s.err ++ errorLine interruption.message⟩

end Running

/-- Draws strings from a pattern, one after the other, and writes each of them as a line. -/
def Pattern.writeStrings (p : Pattern) (cap : UInt64) :
    Nat → SeededSource → Running Interruption Unit
  | 0, _ => return
  | count + 1, source =>
    match (p.generate cap).run.run source with
    | (.ok t, source) => do
      Running.writeOut (lineText t)
      p.writeStrings cap count source
    | (.error cause, _) => throw (.fault cause)

/-! ### Runs -/

namespace Options

variable {ε : Type}

/-- Writes a message to the log, if there is one. -/
def log (o : Options) (message : Text) : Running ε Unit :=
  if o.debug then Running.writeErr (logLine message) else return

/-- Logs what is known before the pattern is read. -/
def logOpening (o : Options) : Running ε Unit := do
  o.unknownKeys.forM fun key => o.log (ascii "Ignoring unknown config key: " ++ key)
  o.log (ascii "Parsing pattern: " ++ o.pattern)

/-- What is logged before strings are drawn. -/
def seedMessage (o : Options) (seed : UInt64) : Text :=
  ascii "Seed: " ++ Text.decimal seed.toNat ++ ascii ", count: " ++ Text.decimal o.count.toNat
    ++ ascii ", unbounded cap: " ++ Text.decimal o.cap.toNat

/-- What is logged when all strings are drawn. -/
def closingMessage (o : Options) : Text :=
  ascii "Generated " ++ Text.decimal o.count.toNat ++ ascii " string(s)"

/-- A run from the reading of the pattern on, which gives the pattern or refuses its text. The
result is the exit code. Without a seed among the options the run takes the fallback. -/
def conclude (o : Options) (fallbackSeed : UInt64) :
    Except Refusal Pattern → Running Interruption UInt32
  | .error refusal => do
    Running.writeErr (lineText (refusal.report.render o.pattern))
    return exitPattern
  | .ok p => do
    o.log (ascii "Canonical form: " ++ p.text)
    if o.dumpTree then throw .treeAsked
    else if o.canonical then
      Running.writeOut (lineText p.text)
      return exitOk
    else
      let seed := o.seed.getD fallbackSeed
      o.log (o.seedMessage seed)
      p.writeStrings o.cap o.count.toNat (SeededSource.ofSeed seed)
      o.log o.closingMessage
      return exitOk

/-- A run, which ends with an exit code. -/
def session (o : Options) (fallbackSeed : UInt64) : Running Interruption UInt32 := do
  o.logOpening
  o.conclude fallbackSeed (Pattern.parse o.pattern)

/-- The outcome of a run. -/
def run (o : Options) (fallbackSeed : UInt64) : Outcome := (o.session fallbackSeed).outcome

end Options

/-- How the program is used, under the name it was called by. -/
def usage (program : Text) : Text :=
  [ascii "Usage: " ++ program ++ ascii " [options] <pattern>",
    [],
    ascii "Options:",
    ascii "  -n, --count N       Number of strings to generate (default 1)",
    ascii "  -s, --seed N        Seed for the random source (default: time based)",
    ascii "  -c, --cap N         Cap for unbounded quantifiers (default 32)",
    ascii "      --config FILE   Load options from a JSON file (flags override it)",
    ascii "      --dump-ast      Print the parsed pattern as JSON",
    ascii "      --canonical     Print the canonical form of the pattern",
    ascii "      --debug         Enable debug logging",
    ascii "  -h, --help          Show this help",
    [],
    ascii "Example:",
    ascii "  " ++ program
      ++ ascii " -n 5 -s 42 'id-\\d\x7b4\x7d[abc]~Cat(a=0.5,.=0.5)'"].flatMap lineText

/-- The program: a run with the options that the arguments stand for, or the usage. The name it was
called by is its own unless another one is given. -/
def runArguments (args : List Text) (fallbackSeed : UInt64) (program : Text := ascii "regen") :
    Outcome :=
  if args = [] then ⟨exitUsage, [], usage program⟩
  else
    match Options.ofArguments args with
    | .error e => ⟨exitUsage, [], errorLine e.what ++ usage program⟩
    | .ok o => if o.help then ⟨exitOk, [], usage program⟩ else o.run fallbackSeed

end PatternSampler
