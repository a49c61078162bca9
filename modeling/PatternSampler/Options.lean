/-
Module: PatternSampler.Options
Purpose: The options of a run and the arguments they are given with. Arguments are looked at
  twice: first for a configuration file, which every other option would override, then for
  everything else. Configuration files are not opened: naming one is refused.
Main exports: Options, OptionsError, Flag, configurationPath, Options.ofArguments
-/
import PatternSampler.Pattern.Generation

namespace PatternSampler

/-- What a run is asked to do. -/
structure Options where
  pattern : Text := []
  count : UInt64 := 1
  seed : Option UInt64 := none
  cap : UInt64 := defaultCap
  debug : Bool := false
  dumpTree : Bool := false
  canonical : Bool := false
  help : Bool := false
  configurationPath : Text := []
  /-- Keys of a configuration that mean nothing here. -/
  unknownKeys : List Text := []
deriving DecidableEq, Repr

/-- Why arguments are refused. -/
inductive OptionsError where
  | missingValue (flag : Text)
  | invalidValue (flag value : Text)
  | valueTooLarge (flag value : Text)
  | unknownOption (arg : Text)
  | secondPattern (arg : Text)
  | noPattern
  | unreadableConfig (path : Text)
deriving DecidableEq, Repr

namespace OptionsError

/-- The wording of an error in full. -/
def message : OptionsError → Text
  | missingValue flag => ascii "missing value for " ++ flag
  | invalidValue flag value =>
    ascii "invalid value for " ++ flag ++ ascii ": '" ++ value ++ ascii "'"
  | valueTooLarge flag value =>
    ascii "value for " ++ flag ++ ascii " is too large: " ++ value
  | unknownOption arg => ascii "unknown option: " ++ arg
  | secondPattern arg => ascii "more than one pattern given: '" ++ arg ++ ascii "'"
  | noPattern => ascii "no pattern given"
  | unreadableConfig path => ascii "cannot open config file: " ++ path

/-- The wording of an error as far as its first NUL byte. -/
def what (e : OptionsError) : Text := e.message.upToNul

end OptionsError

/-! ### Flags -/

/-- The options that can be given as arguments. -/
inductive Flag where
  | count | seed | cap | config | dumpTree | canonical | debug | help
deriving DecidableEq, Repr

namespace Flag

/-- The flag that an argument spells. -/
def ofText? (arg : Text) : Option Flag :=
  if arg = ascii "-n" ∨ arg = ascii "--count" then some count
  else if arg = ascii "-s" ∨ arg = ascii "--seed" then some seed
  else if arg = ascii "-c" ∨ arg = ascii "--cap" then some cap
  else if arg = ascii "--config" then some config
  else if arg = ascii "--dump-ast" then some dumpTree
  else if arg = ascii "--canonical" then some canonical
  else if arg = ascii "--debug" then some debug
  else if arg = ascii "-h" ∨ arg = ascii "--help" then some help
  else none

/-- Whether the next argument belongs to a flag. -/
def takesValue : Flag → Bool
  | count | seed | cap | config => true
  | _ => false

end Flag

/-- The argument behind which everything is a pattern. -/
def endOfFlags : Text := ascii "--"

/-- Whether an argument has the form of a flag: a dash and something behind it. -/
def looksLikeFlag : Text → Bool
  | 0x2D :: _ :: _ => true
  | _ => false

/-! ### The two passes -/

/-- The last path that the arguments before the end of flags name for a configuration file. This
pass knows of no other flag that takes a value. -/
def configurationPath (found : Text) : List Text → Except OptionsError Text
  | [] => return found
  | arg :: args =>
    if arg = endOfFlags then return found
    else if Flag.ofText? arg = some .config then
      match args with
      | [] => throw (.missingValue arg)
      | path :: args => configurationPath path args
    else configurationPath found args

/-- The number that the value of a flag stands for. -/
def numberOf (flag value : Text) : Except OptionsError UInt64 :=
  match Text.number? value with
  | none => throw (.invalidValue flag value)
  | some n => if n < 2 ^ 64 then return UInt64.ofNat n else throw (.valueTooLarge flag value)

namespace Options

/-- The options changed by a flag without a value. -/
def switch (o : Options) : Flag → Options
  | .dumpTree => { o with dumpTree := true }
  | .canonical => { o with canonical := true }
  | .debug => { o with debug := true }
  | .help => { o with help := true }
  | _ => o

/-- The options changed by a flag, spelled `arg`, and its value. A configuration path has been
dealt with before. -/
def assign (o : Options) (flag : Flag) (arg value : Text) : Except OptionsError Options :=
  match flag with
  | .count => do return { o with count := ← numberOf arg value }
  | .seed => do return { o with seed := some (← numberOf arg value) }
  | .cap => do return { o with cap := ← numberOf arg value }
  | _ => return o

/-- Reads arguments from left to right into options. `onlyPatterns` holds behind the end of
flags, `hasPattern` once there has been a pattern; the result says whether there was one. -/
def readArguments (onlyPatterns hasPattern : Bool) (o : Options) :
    List Text → Except OptionsError (Options × Bool)
  | [] => return (o, hasPattern)
  | arg :: args =>
    if onlyPatterns || !looksLikeFlag arg then
      if hasPattern then throw (.secondPattern arg)
      else readArguments onlyPatterns true { o with pattern := arg } args
    else if arg = endOfFlags then readArguments true hasPattern o args
    else
      match Flag.ofText? arg with
      | none => throw (.unknownOption arg)
      | some flag =>
        if flag.takesValue then
          match args with
          | [] => if flag = .config then return (o, hasPattern) else throw (.missingValue arg)
          | value :: args => do
            readArguments onlyPatterns hasPattern (← o.assign flag arg value) args
        else readArguments onlyPatterns hasPattern (o.switch flag) args

/-- The options that arguments stand for. There has to be one pattern, unless help is asked
for. -/
def ofArguments (args : List Text) : Except OptionsError Options := do
  let path ← PatternSampler.configurationPath [] args
  if path ≠ [] then throw (.unreadableConfig path)
  let (o, hasPattern) ← readArguments false false {} args
  if hasPattern || o.help then return o else throw .noPattern

end Options

end PatternSampler
