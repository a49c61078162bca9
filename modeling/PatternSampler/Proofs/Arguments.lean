/-
Module: PatternSampler.Proofs.Arguments
Purpose: What arguments stand for. Arguments are looked at twice, and the first time it is not known
  which flags take a value. Still they are followed exactly if they can be read once from left to
  right as flags with their values and patterns, with one pattern and no configuration file: where
  the first look mistakes a value for a flag, the value is none that its flag can have. The
  options are those of the last value of each flag.
Main exports: Arguments.Item, Arguments.Reads, Arguments.Admissible, Options.ofItems,
  Arguments.scanRoles, Options.ofArguments_reads
-/
import PatternSampler.Options
import PatternSampler.Token.Reader

namespace PatternSampler

/-! ### Reading once -/

/-- The spellings of a flag. -/
def Flag.spellings : Flag → List Text
  | count => [ascii "-n", ascii "--count"]
  | seed => [ascii "-s", ascii "--seed"]
  | cap => [ascii "-c", ascii "--cap"]
  | config => [ascii "--config"]
  | dumpTree => [ascii "--dump-ast"]
  | canonical => [ascii "--canonical"]
  | debug => [ascii "--debug"]
  | help => [ascii "-h", ascii "--help"]

/-- The flags whose value is a number. -/
def Flag.IsNumeric (flag : Flag) : Prop := flag = .count ∨ flag = .seed ∨ flag = .cap

/-- The flags without a value. -/
def Flag.IsSwitch (flag : Flag) : Prop :=
  flag = .dumpTree ∨ flag = .canonical ∨ flag = .debug ∨ flag = .help

namespace Arguments

/-- What one argument says, or two of them. -/
inductive Item where
  /-- A flag with a number. -/
  | number (flag : Flag) (n : UInt64)
  /-- The flag for a configuration file, with its path. -/
  | configuration (path : Text)
  /-- A flag without a value. -/
  | switch (flag : Flag)
  /-- The end of flags. -/
  | endOfFlags
  | pattern (t : Text)
deriving DecidableEq, Repr

/-- A text denotes a word: it consists of digits, and the number they stand for is a word. -/
structure Denotes (value : Text) (n : UInt64) : Prop where
  nonempty : value ≠ []
  isDigit : ∀ b ∈ value, IsDigit b
  value_eq : Text.decimalValue value = n.toNat

/-- An argument that is no flag: it is shorter than two bytes or does not begin with a dash. -/
def IsPattern (arg : Text) : Prop := arg.length < 2 ∨ arg.head? ≠ some 0x2D

/-- Arguments read once from left to right. `onlyPatterns` holds behind the end of flags. -/
inductive Reads : (onlyPatterns : Bool) → List Text → List Item → Prop where
  | done {onlyPatterns : Bool} : Reads onlyPatterns [] []
  | pattern {onlyPatterns : Bool} {arg : Text} {args : List Text} {items : List Item}
      (isPattern : onlyPatterns = true ∨ IsPattern arg) (others : Reads onlyPatterns args items) :
      Reads onlyPatterns (arg :: args) (.pattern arg :: items)
  | endOfFlags {args : List Text} {items : List Item} (others : Reads true args items) :
      Reads false (ascii "--" :: args) (.endOfFlags :: items)
  | number {flag : Flag} {arg value : Text} {n : UInt64} {args : List Text} {items : List Item}
      (numeric : flag.IsNumeric) (spelled : arg ∈ flag.spellings) (denotes : Denotes value n)
      (others : Reads false args items) :
      Reads false (arg :: value :: args) (.number flag n :: items)
  | configuration {path : Text} {args : List Text} {items : List Item}
      (others : Reads false args items) :
      Reads false (ascii "--config" :: path :: args) (.configuration path :: items)
  | switch {flag : Flag} {arg : Text} {args : List Text} {items : List Item}
      (isSwitch : flag.IsSwitch) (spelled : arg ∈ flag.spellings)
      (others : Reads false args items) : Reads false (arg :: args) (.switch flag :: items)

/-- The number that an item gives a flag. -/
def Item.number? (flag : Flag) : Item → Option UInt64
  | number flag' n => if flag' = flag then some n else none
  | _ => none

/-- The path of a configuration file that an item names. -/
def Item.path? : Item → Option Text
  | configuration path => some path
  | _ => none

/-- The pattern that an item is. -/
def Item.pattern? : Item → Option Text
  | pattern t => some t
  | _ => none

/-- The last number of a flag. -/
def lastNumber (flag : Flag) (items : List Item) : Option UInt64 :=
  (items.filterMap (·.number? flag)).getLast?

/-- The last path of a configuration file. -/
def lastPath (items : List Item) : Option Text := (items.filterMap Item.path?).getLast?

/-- All patterns, in order. -/
def patterns (items : List Item) : List Text := items.filterMap Item.pattern?

/-- Items that can be followed: at most one of them is a pattern, and there is one unless help is
asked for. The last configuration file has an empty path, if there is any. -/
structure Admissible (items : List Item) : Prop where
  onePattern : (patterns items).length ≤ 1
  patternOrHelp : patterns items ≠ [] ∨ .switch .help ∈ items
  noConfiguration : ∀ path ∈ lastPath items, path = []

/-- What an argument is taken for. -/
inductive Role where
  /-- A flag or the end of flags. -/
  | option
  /-- It belongs to the flag in front of it. -/
  | value
  | other
deriving DecidableEq, Repr

/-- What the arguments of an item are taken for. -/
def Item.roles : Item → List Role
  | number _ _ | configuration _ => [.option, .value]
  | switch _ | endOfFlags => [.option]
  | pattern _ => [.other]

/-- What the first pass takes arguments for. All it knows is the flag for a configuration file and
the end of flags, at which it stops. -/
def scanRoles : List Text → List Role
  | [] => []
  | arg :: args =>
    if arg = PatternSampler.endOfFlags then .option :: args.map fun _ => .other
    else if Flag.ofText? arg = some .config then
      match args with
      | [] => [.option]
      | _ :: args => .option :: .value :: scanRoles args
    else .other :: scanRoles args

/-- The arguments taken for values. -/
def valuesOf (args : List Text) (roles : List Role) : List Text :=
  ((args.zip roles).filter fun taken => taken.2 = .value).map Prod.fst

/-- Two passes take the end of flags and the flag for a configuration file, wherever they stand,
for the same. -/
def Agree : List Text → List Role → List Role → Prop
  | [], [], [] => True
  | arg :: args, role :: roles, role' :: roles' =>
    (arg = ascii "--" ∨ arg = ascii "--config" → role = role') ∧ Agree args roles roles'
  | _, _, _ => False

end Arguments

/-- Options changed by items: each by the last one that is about it. The path of a configuration
file stays. -/
def Options.follow (o : Options) (items : List Arguments.Item) : Options where
  pattern := (Arguments.patterns items).getLast?.getD o.pattern
  count := (Arguments.lastNumber .count items).getD o.count
  seed := (Arguments.lastNumber .seed items).or o.seed
  cap := (Arguments.lastNumber .cap items).getD o.cap
  debug := o.debug || decide (.switch .debug ∈ items)
  dumpTree := o.dumpTree || decide (.switch .dumpTree ∈ items)
  canonical := o.canonical || decide (.switch .canonical ∈ items)
  help := o.help || decide (.switch .help ∈ items)
  configurationPath := o.configurationPath
  unknownKeys := o.unknownKeys

/-- The options that items stand for, the others as they are by default. -/
def Options.ofItems (items : List Arguments.Item) : Options :=
  { ({} : Options).follow items with configurationPath := (Arguments.lastPath items).getD [] }

/-! ### Flags and values -/

/-- Flags are recognised by their spellings, which have the form of flags and do not end them. -/
theorem Flag.of_mem_spellings {flag : Flag} :
    ∀ arg ∈ flag.spellings,
      ofText? arg = some flag ∧ looksLikeFlag arg = true ∧ arg ≠ endOfFlags := by
  cases flag <;> decide

theorem Flag.ofText?_of_mem_spellings {arg : Text} {flag : Flag}
    (spelled : arg ∈ flag.spellings) : ofText? arg = some flag :=
  (of_mem_spellings arg spelled).1

/-- A spelling belongs to one flag. -/
theorem Flag.eq_of_spelled {arg : Text} {flag flag' : Flag} (spelled : arg ∈ flag.spellings)
    (spelled' : arg ∈ flag'.spellings) : flag = flag' := by
  have flagEq := ofText?_of_mem_spellings spelled
  rw [ofText?_of_mem_spellings spelled'] at flagEq
  exact (Option.some.inj flagEq).symm

/-- Flags are recognised by nothing else. -/
theorem Flag.mem_spellings_of_ofText? {arg : Text} {flag : Flag}
    (flagEq : ofText? arg = some flag) : arg ∈ flag.spellings := by
  unfold ofText? at flagEq
  simp only [spellings]
  grind

theorem Flag.spelled_config : ascii "--config" ∈ Flag.config.spellings :=
  List.mem_singleton.mpr rfl

/-- Flags with a value are the one for a configuration file and those with a number. -/
theorem Flag.takesValue_eq_true_iff {flag : Flag} :
    flag.takesValue = true ↔ flag = .config ∨ flag.IsNumeric := by
  cases flag <;> simp [takesValue, IsNumeric]

/-- The other flags are those without a value. -/
theorem Flag.takesValue_eq_false_iff {flag : Flag} : flag.takesValue = false ↔ flag.IsSwitch := by
  cases flag <;> simp [takesValue, IsSwitch]

/-- An argument has the form of a flag unless it is a pattern. -/
theorem looksLikeFlag_eq_false_iff {arg : Text} :
    looksLikeFlag arg = false ↔ Arguments.IsPattern arg := by
  unfold looksLikeFlag Arguments.IsPattern
  split
  next => simp
  next noFlag =>
    refine iff_of_true rfl ?_
    match arg with
    | [] | [_] => exact .inl (by simp)
    | b :: b' :: t =>
      refine .inr fun dash => noFlag b' t ?_
      rw [Option.some.inj dash]

namespace Arguments

/-- A value is accepted for the word that it denotes. -/
theorem numberOf_eq_ok_iff {flag value : Text} {n : UInt64} :
    numberOf flag value = .ok n ↔ Denotes value n := by
  unfold numberOf Text.number?
  constructor
  · intro accepted
    split at accepted
    next => cases accepted
    next v digits =>
      split at digits
      next isDigit =>
        cases digits
        split at accepted
        next small =>
          cases accepted
          refine ⟨isDigit.1, by simpa using isDigit.2, ?_⟩
          rw [UInt64.toNat_ofNat_of_lt' small]
        next => cases accepted
      next => cases digits
  · rintro ⟨nonempty, isDigit, value_eq⟩
    rw [if_pos ⟨nonempty, by simpa using isDigit⟩]
    dsimp only
    rw [value_eq, if_pos n.toNat_lt]
    exact congrArg Except.ok UInt64.ofNat_toNat

end Arguments

/-! ### The first pass -/

/-- An argument that means nothing to the first pass: neither the end of flags nor the flag for a
configuration file. -/
def IsPassedOver (arg : Text) : Prop := arg ≠ endOfFlags ∧ Flag.ofText? arg ≠ some .config

/-- The first pass does not stop at an argument that means nothing to it. -/
theorem configurationPath_cons {arg : Text} (passedOver : IsPassedOver arg) (found : Text)
    (args : List Text) : configurationPath found (arg :: args) = configurationPath found args := by
  rw [configurationPath.eq_def]
  dsimp only
  rw [if_neg passedOver.1, if_neg passedOver.2]

theorem configurationPath_endOfFlags (found : Text) (args : List Text) :
    configurationPath found (endOfFlags :: args) = .ok found := by
  rw [configurationPath.eq_def]
  exact if_pos rfl

/-- The first pass takes what is behind the flag for a configuration file. -/
theorem configurationPath_config (found path : Text) (args : List Text) :
    configurationPath found (ascii "--config" :: path :: args) = configurationPath path args := rfl

/-- The first pass passes over the flags without a value and those with a number. -/
theorem Flag.isPassedOver {arg : Text} {flag : Flag} (spelled : arg ∈ flag.spellings)
    (other : flag.IsNumeric ∨ flag.IsSwitch) : IsPassedOver arg := by
  obtain ⟨flagEq, -, notEnd⟩ := of_mem_spellings arg spelled
  refine ⟨notEnd, ?_⟩
  rw [flagEq]
  rintro ⟨⟩
  revert other
  simp [IsNumeric, IsSwitch]

namespace Arguments

theorem IsPattern.isPassedOver {arg : Text} (isPattern : IsPattern arg) : IsPassedOver arg := by
  have noFlag := looksLikeFlag_eq_false_iff.mpr isPattern
  constructor
  · rintro rfl
    cases noFlag
  · intro flagEq
    rw [(Flag.of_mem_spellings arg (Flag.mem_spellings_of_ofText? flagEq)).2.1] at noFlag
    cases noFlag

/-- The first pass passes over a value that denotes a word, whether it knows that it is one or
not. -/
theorem Denotes.isPassedOver {value : Text} {n : UInt64} (denotes : Denotes value n) :
    IsPassedOver value := by
  have noDash : (0x2D : UInt8) ∉ value := fun dash => absurd (denotes.isDigit _ dash) (by decide)
  constructor
  · rintro rfl
    exact noDash (by decide)
  · intro spelled
    obtain rfl := List.mem_singleton.mp (Flag.mem_spellings_of_ofText? spelled)
    exact noDash (by decide)

/-- An earlier path counts if there is no later one. -/
theorem lastPath_cons (item : Item) (items : List Item) :
    lastPath (item :: items) = (lastPath items).or item.path? := by
  unfold lastPath
  rw [List.filterMap_cons]
  cases item.path? with
  | none => rw [Option.or_none]
  | some path => simp [List.getLast?_cons]

theorem lastPath_cons_of_none {item : Item} (noPath : item.path? = none) (items : List Item) :
    lastPath (item :: items) = lastPath items := by
  rw [lastPath_cons, noPath, Option.or_none]

/-- Behind the end of flags there is nothing but patterns. -/
theorem Reads.eq_map_pattern {args : List Text} {items : List Item}
    (reads : Reads true args items) : items = args.map .pattern := by
  generalize behindEnd : true = onlyPatterns at reads
  induction reads with
  | done => rfl
  | pattern isPattern others inductionHypothesis =>
    rw [List.map_cons, ← inductionHypothesis behindEnd]
  | _ => cases behindEnd

theorem lastPath_map_pattern (args : List Text) : lastPath (args.map .pattern) = none := by
  induction args with
  | nil => rfl
  | cons arg args inductionHypothesis =>
    rw [List.map_cons, lastPath_cons_of_none rfl, inductionHypothesis]

/-- The first pass finds the last path. It passes over the values of other flags one by one, and
stops at none of them. -/
theorem configurationPath_of_reads {args : List Text} {items : List Item}
    (reads : Reads false args items) (found : Text) :
    configurationPath found args = .ok ((lastPath items).getD found) := by
  generalize beforeEnd : false = onlyPatterns at reads
  induction reads generalizing found with
  | done => rfl
  | pattern isPattern others inductionHypothesis =>
    subst beforeEnd
    have isPattern := isPattern.resolve_left Bool.false_ne_true
    rw [configurationPath_cons isPattern.isPassedOver, inductionHypothesis found rfl,
      lastPath_cons_of_none rfl]
  | endOfFlags others =>
    rw [others.eq_map_pattern, lastPath_cons_of_none rfl, lastPath_map_pattern]
    exact configurationPath_endOfFlags found _
  | number numeric spelled denotes others inductionHypothesis =>
    rw [configurationPath_cons (Flag.isPassedOver spelled (.inl numeric)),
      configurationPath_cons denotes.isPassedOver, inductionHypothesis found rfl,
      lastPath_cons_of_none rfl]
  | @configuration path args items others inductionHypothesis =>
    rw [configurationPath_config, inductionHypothesis path rfl, lastPath_cons]
    cases lastPath items with
    | none => rfl
    | some last => rfl
  | switch isSwitch spelled others inductionHypothesis =>
    rw [configurationPath_cons (Flag.isPassedOver spelled (.inr isSwitch)),
      inductionHypothesis found rfl, lastPath_cons_of_none rfl]

end Arguments

/-! ### The second pass -/

namespace Arguments

/-- An earlier number of a flag counts if there is no later one. -/
theorem lastNumber_cons (flag : Flag) (item : Item) (items : List Item) :
    lastNumber flag (item :: items) = (lastNumber flag items).or (item.number? flag) := by
  unfold lastNumber
  rw [List.filterMap_cons]
  cases item.number? flag with
  | none => rw [Option.or_none]
  | some n => simp [List.getLast?_cons]

theorem patterns_cons (item : Item) (items : List Item) :
    patterns (item :: items) = item.pattern?.toList ++ patterns items := by
  unfold patterns
  rw [List.filterMap_cons]
  cases item.pattern? with
  | none => rfl
  | some t => rfl

end Arguments

namespace Options

open Arguments

/-- Items are followed one after another. -/
theorem follow_cons (o : Options) (item : Item) (items : List Item) :
    o.follow (item :: items) = (o.follow [item]).follow items := by
  have number (flag : Flag) : lastNumber flag [item] = item.number? flag := by
    rw [lastNumber_cons]
    rfl
  have pattern : patterns [item] = item.pattern?.toList := by
    rw [patterns_cons]
    exact List.append_nil _
  simp only [follow, lastNumber_cons, number, patterns_cons, pattern, List.getLast?_append,
    Option.getD_or, Option.or_assoc, List.mem_cons, List.not_mem_nil, or_false, Bool.decide_or,
    Bool.or_assoc]

/-- What is read behind items: the options, and whether there has been a pattern, or that there is
a second one. -/
def settle (hasPattern : Bool) (o : Options) (items : List Item) :
    Except OptionsError (Options × Bool) :=
  match hasPattern, patterns items with
  | _, [] => .ok (o.follow items, hasPattern)
  | false, [_] => .ok (o.follow items, true)
  | false, _ :: t :: _ | true, t :: _ => .error (.secondPattern t)

/-- An item that is no pattern is followed, and what is read goes on. -/
theorem settle_cons {item : Item} (noPattern : item.pattern? = none) (hasPattern : Bool)
    (o : Options) (items : List Item) :
    settle hasPattern o (item :: items) = settle hasPattern (o.follow [item]) items := by
  unfold settle
  rw [follow_cons, patterns_cons, noPattern]
  rfl

/-- A first pattern is kept; a second one is refused. -/
theorem settle_pattern (hasPattern : Bool) (o : Options) (t : Text) (items : List Item) :
    settle hasPattern o (.pattern t :: items) =
      if hasPattern then .error (.secondPattern t)
      else settle true { o with pattern := t } items := by
  have step :
      o.follow (.pattern t :: items) = ({ o with pattern := t } : Options).follow items := by
    rw [follow_cons]
    simp [follow, patterns, lastNumber, Item.pattern?, Item.number?]
  have patternsEq : patterns (.pattern t :: items) = t :: patterns items := patterns_cons _ _
  unfold settle
  rw [step, patternsEq]
  cases hasPattern with
  | true => simp
  | false => cases patterns items <;> simp

@[simp] theorem follow_nil (o : Options) : o.follow [] = o := by
  simp [follow, patterns, lastNumber]

@[simp] theorem follow_endOfFlags (o : Options) : o.follow [.endOfFlags] = o := by
  simp [follow, patterns, lastNumber, Item.pattern?, Item.number?]

@[simp] theorem follow_configuration (o : Options) (path : Text) :
    o.follow [.configuration path] = o := by
  simp [follow, patterns, lastNumber, Item.pattern?, Item.number?]

/-- A flag with a value that denotes a word is assigned the word. -/
theorem assign_of_denotes {flag : Flag} {value : Text} {n : UInt64} (numeric : flag.IsNumeric)
    (denotes : Denotes value n) (o : Options) (arg : Text) :
    o.assign flag arg value = .ok (o.follow [.number flag n]) := by
  have accepted : numberOf arg value = .ok n := numberOf_eq_ok_iff.mpr denotes
  obtain rfl | rfl | rfl := numeric <;>
    simp [assign, accepted, follow, patterns, lastNumber, Item.pattern?, Item.number?, bind,
      Except.bind, pure, Except.pure]

/-- A flag without a value is followed by switching it on. -/
theorem switch_eq_follow {flag : Flag} (isSwitch : flag.IsSwitch) (o : Options) :
    o.switch flag = o.follow [.switch flag] := by
  obtain rfl | rfl | rfl | rfl := isSwitch <;>
    simp [switch, follow, patterns, lastNumber, Item.pattern?, Item.number?]

/-- The second pass at a pattern. -/
theorem readArguments_pattern {onlyPatterns : Bool} {arg : Text}
    (isPattern : onlyPatterns = true ∨ IsPattern arg) (hasPattern : Bool) (o : Options)
    (args : List Text) :
    readArguments onlyPatterns hasPattern o (arg :: args) =
      if hasPattern then .error (.secondPattern arg)
      else readArguments onlyPatterns true { o with pattern := arg } args := by
  have taken : (onlyPatterns || !looksLikeFlag arg) = true := by
    simpa [looksLikeFlag_eq_false_iff] using isPattern
  rw [readArguments.eq_def]
  dsimp only
  rw [if_pos taken]
  rfl

/-- The second pass at the end of flags. -/
theorem readArguments_endOfFlags (hasPattern : Bool) (o : Options) (args : List Text) :
    readArguments false hasPattern o (endOfFlags :: args) =
      readArguments true hasPattern o args := by
  rw [readArguments.eq_def]
  dsimp only
  rw [if_neg (by decide), if_pos rfl]

/-- The second pass at a flag. -/
theorem readArguments_flag {arg : Text} {flag : Flag} (spelled : arg ∈ flag.spellings)
    (hasPattern : Bool) (o : Options) (args : List Text) :
    readArguments false hasPattern o (arg :: args) =
      if flag.takesValue then
        match args with
        | [] => if flag = .config then .ok (o, hasPattern) else .error (.missingValue arg)
        | value :: args =>
          o.assign flag arg value >>= fun o => readArguments false hasPattern o args
      else readArguments false hasPattern (o.switch flag) args := by
  obtain ⟨flagEq, form, notEnd⟩ := Flag.of_mem_spellings arg spelled
  rw [readArguments.eq_def]
  dsimp only
  rw [form, if_neg (by decide), if_neg notEnd, flagEq]
  rfl

/-- The second pass at a flag with a number. -/
theorem readArguments_number {flag : Flag} {arg : Text} (numeric : flag.IsNumeric)
    (spelled : arg ∈ flag.spellings) (hasPattern : Bool) (o : Options) (value : Text)
    (args : List Text) :
    readArguments false hasPattern o (arg :: value :: args) =
      o.assign flag arg value >>= fun o => readArguments false hasPattern o args := by
  rw [readArguments_flag spelled, if_pos (Flag.takesValue_eq_true_iff.mpr (.inr numeric))]

/-- The second pass goes over a configuration file. -/
theorem readArguments_config (hasPattern : Bool) (o : Options) (path : Text) (args : List Text) :
    readArguments false hasPattern o (ascii "--config" :: path :: args) =
      readArguments false hasPattern o args := by
  rw [readArguments_flag Flag.spelled_config]
  rfl

/-- The second pass at a flag without a value. -/
theorem readArguments_switch {flag : Flag} {arg : Text} (isSwitch : flag.IsSwitch)
    (spelled : arg ∈ flag.spellings) (hasPattern : Bool) (o : Options) (args : List Text) :
    readArguments false hasPattern o (arg :: args) =
      readArguments false hasPattern (o.follow [.switch flag]) args := by
  have takesNoValue := Bool.eq_false_iff.mp (Flag.takesValue_eq_false_iff.mpr isSwitch)
  rw [readArguments_flag spelled, if_neg takesNoValue, switch_eq_follow isSwitch]

/-- Arguments that can be read once are read by the second pass as what was read stands for, and
from there on it reads what is behind them. -/
theorem readArguments_append {onlyPatterns : Bool} {args : List Text} {items : List Item}
    (reads : Reads onlyPatterns args items) (hasPattern : Bool) (o : Options) (after : List Text) :
    readArguments onlyPatterns hasPattern o (args ++ after) =
      settle hasPattern o items >>= fun read =>
        readArguments (onlyPatterns || decide (.endOfFlags ∈ items)) read.2 read.1 after := by
  induction reads generalizing hasPattern o with
  | @done onlyPatterns =>
    have settled : settle hasPattern o [] = .ok (o, hasPattern) := by
      simp [settle, patterns]
    rw [bind_of_eq_ok settled]
    simp
  | @pattern onlyPatterns arg args items isPattern others inductionHypothesis =>
    rw [settle_pattern, List.cons_append, readArguments_pattern isPattern, inductionHypothesis]
    cases hasPattern with
    | true => rfl
    | false => simp
  | @endOfFlags args items others inductionHypothesis =>
    rw [settle_cons rfl, follow_endOfFlags, List.cons_append]
    refine (readArguments_endOfFlags hasPattern o _).trans ((inductionHypothesis _ _).trans ?_)
    simp
  | number numeric spelled denotes others inductionHypothesis =>
    rw [settle_cons rfl, List.cons_append, List.cons_append, readArguments_number numeric spelled,
      bind_of_eq_ok (assign_of_denotes numeric denotes o _), inductionHypothesis]
    simp
  | configuration others inductionHypothesis =>
    rw [settle_cons rfl, follow_configuration, List.cons_append, List.cons_append,
      readArguments_config, inductionHypothesis]
    simp
  | switch isSwitch spelled others inductionHypothesis =>
    rw [settle_cons rfl, List.cons_append, readArguments_switch isSwitch spelled,
      inductionHypothesis]
    simp

theorem readArguments_of_reads {onlyPatterns : Bool} {args : List Text} {items : List Item}
    (reads : Reads onlyPatterns args items) (hasPattern : Bool) (o : Options) :
    readArguments onlyPatterns hasPattern o args = settle hasPattern o items := by
  have read := readArguments_append reads hasPattern o []
  rw [List.append_nil] at read
  rw [read]
  cases settle hasPattern o items with
  | error e => rfl
  | ok read => rfl

/-- Only a value that denotes a word is assigned to a flag that takes a number. -/
theorem exists_denotes_of_assign {o o' : Options} {flag : Flag} {arg value : Text}
    (numeric : flag.IsNumeric) (assigned : o.assign flag arg value = .ok o') :
    ∃ n, Denotes value n := by
  obtain rfl | rfl | rfl := numeric
  all_goals
    obtain ⟨n, accepted, -⟩ := exists_of_bind_eq_ok assigned
    exact ⟨n, numberOf_eq_ok_iff.mp accepted⟩

/-- An argument is taken for a flag only before the end of flags. -/
theorem beforeEnd_of_flagForm {onlyPatterns flagForm : Bool}
    (isFlag : ¬(onlyPatterns || !flagForm) = true) : onlyPatterns = false := by
  cases onlyPatterns with
  | false => rfl
  | true => exact absurd rfl isFlag

/-- Arguments that neither pass refuses can be read once. The second pass alone would let a flag
for a configuration file go without a path at the end, which the first one does not. -/
theorem exists_reads_of_readArguments {onlyPatterns hasPattern : Bool} {o : Options}
    {args : List Text} {result : Options × Bool} (found : Text)
    (read : readArguments onlyPatterns hasPattern o args = .ok result)
    (scanned : onlyPatterns = false →
      ∃ path, PatternSampler.configurationPath found args = .ok path) :
    ∃ items, Reads onlyPatterns args items := by
  fun_induction readArguments onlyPatterns hasPattern o args generalizing found with
  | case1 => exact ⟨[], .done⟩
  | case2 => cases read
  | case3 onlyPatterns hasPattern o arg args isPattern _ inductionHypothesis =>
    have isPattern : onlyPatterns = true ∨ IsPattern arg := by
      simpa [looksLikeFlag_eq_false_iff] using isPattern
    have scannedBehind (beforeEnd : onlyPatterns = false) :
        ∃ path, PatternSampler.configurationPath found args = .ok path := by
      have isPattern := isPattern.resolve_left (by simp [beforeEnd])
      exact configurationPath_cons isPattern.isPassedOver found args ▸ scanned beforeEnd
    obtain ⟨items, reads⟩ := inductionHypothesis found read scannedBehind
    exact ⟨_, .pattern isPattern reads⟩
  | case4 onlyPatterns hasPattern o args flagForm inductionHypothesis =>
    obtain rfl := beforeEnd_of_flagForm flagForm
    obtain ⟨items, reads⟩ := inductionHypothesis found read nofun
    exact ⟨_, .endOfFlags reads⟩
  | case5 | case7 => cases read
  | case6 onlyPatterns hasPattern o arg flagForm notEnd spelled =>
    obtain rfl := beforeEnd_of_flagForm flagForm
    obtain rfl := List.mem_singleton.mp (Flag.mem_spellings_of_ofText? spelled)
    obtain ⟨path, pathEq⟩ := scanned rfl
    cases pathEq
  | case8 onlyPatterns hasPattern o arg flagForm notEnd flag flagEq takesValue value args
      inductionHypothesis =>
    obtain rfl := beforeEnd_of_flagForm flagForm
    obtain ⟨middle, assigned, readOn⟩ := exists_of_bind_eq_ok read
    have spelled := Flag.mem_spellings_of_ofText? flagEq
    obtain rfl | numeric := Flag.takesValue_eq_true_iff.mp takesValue
    · obtain rfl := List.mem_singleton.mp spelled
      obtain ⟨items, reads⟩ := inductionHypothesis middle value readOn scanned
      exact ⟨_, .configuration reads⟩
    · obtain ⟨n, denotes⟩ := exists_denotes_of_assign numeric assigned
      rw [configurationPath_cons (Flag.isPassedOver spelled (.inl numeric)),
        configurationPath_cons denotes.isPassedOver] at scanned
      obtain ⟨items, reads⟩ := inductionHypothesis middle found readOn scanned
      exact ⟨_, .number numeric spelled denotes reads⟩
  | case9 onlyPatterns hasPattern o arg args flagForm notEnd flag flagEq takesNoValue
      inductionHypothesis =>
    obtain rfl := beforeEnd_of_flagForm flagForm
    have spelled := Flag.mem_spellings_of_ofText? flagEq
    have isSwitch := Flag.takesValue_eq_false_iff.mp (Bool.eq_false_iff.mpr takesNoValue)
    rw [configurationPath_cons (Flag.isPassedOver spelled (.inr isSwitch))] at scanned
    obtain ⟨items, reads⟩ := inductionHypothesis found read scanned
    exact ⟨_, .switch isSwitch spelled reads⟩

/-! ### Both passes -/

/-- Items are settled if there is at most one pattern among them. -/
theorem settle_eq_ok_iff {o o' : Options} {items : List Item} {hasPattern : Bool} :
    settle false o items = .ok (o', hasPattern) ↔
      (patterns items).length ≤ 1 ∧ o' = o.follow items ∧
        hasPattern = decide (patterns items ≠ []) := by
  unfold settle
  cases patterns items with
  | nil => simp [eq_comm]
  | cons t others =>
    cases others with
    | nil => simp [eq_comm]
    | cons t' others => simp

/-- Arguments are followed if the first pass finds no configuration file and the second one a
pattern, or help is asked for. -/
theorem ofArguments_eq_ok_iff {args : List Text} {o : Options} :
    ofArguments args = .ok o ↔
      PatternSampler.configurationPath [] args = .ok [] ∧
        ∃ hasPattern, readArguments false false {} args = .ok (o, hasPattern) ∧
          (hasPattern || o.help) = true := by
  unfold ofArguments
  constructor
  · intro given
    obtain ⟨path, pathEq, behindPath⟩ := exists_of_bind_eq_ok given
    dsimp only at behindPath
    split at behindPath
    next => cases behindPath
    next noPath =>
      obtain rfl := Decidable.not_not.mp noPath
      obtain ⟨⟨o', hasPattern⟩, read, returned⟩ := exists_of_bind_eq_ok behindPath
      dsimp only at returned
      split at returned
      next complete =>
        cases returned
        exact ⟨pathEq, hasPattern, read, complete⟩
      next => cases returned
  · rintro ⟨pathEq, hasPattern, read, complete⟩
    rw [bind_of_eq_ok pathEq]
    dsimp only
    rw [if_neg (Decidable.not_not.mpr rfl), bind_of_eq_ok read]
    exact if_pos complete

/-- Without a configuration file the options of items are the default ones changed by them. -/
theorem ofItems_eq_follow {items : List Item} (noPath : (lastPath items).getD [] = []) :
    ofItems items = ({} : Options).follow items := by
  unfold ofItems
  rw [noPath]
  rfl

/-- Arguments that can be read once are followed if what was read can be. -/
theorem ofArguments_eq_ok_iff_of_reads {args : List Text} {items : List Item}
    (reads : Reads false args items) (o : Options) :
    ofArguments args = .ok o ↔ Admissible items ∧ o = ofItems items := by
  have noPath_iff : (lastPath items).getD [] = [] ↔ ∀ path ∈ lastPath items, path = [] := by
    cases lastPath items <;> simp
  have complete_iff : (decide (patterns items ≠ []) || (({} : Options).follow items).help) = true ↔
      patterns items ≠ [] ∨ .switch .help ∈ items := by
    simp [follow]
  rw [ofArguments_eq_ok_iff, configurationPath_of_reads reads, readArguments_of_reads reads,
    Except.ok.injEq]
  constructor
  · rintro ⟨noPath, hasPattern, settled, complete⟩
    obtain ⟨onePattern, rfl, rfl⟩ := settle_eq_ok_iff.mp settled
    exact ⟨⟨onePattern, complete_iff.mp complete, noPath_iff.mp noPath⟩,
      (ofItems_eq_follow noPath).symm⟩
  · rintro ⟨⟨onePattern, patternOrHelp, noConfiguration⟩, rfl⟩
    have noPath := noPath_iff.mpr noConfiguration
    rw [ofItems_eq_follow noPath]
    exact ⟨noPath, _, settle_eq_ok_iff.mpr ⟨onePattern, rfl, rfl⟩, complete_iff.mpr patternOrHelp⟩

/-- Arguments are followed if they can be read once and what was read can be followed. -/
theorem ofArguments_eq_ok_iff_reads (args : List Text) (o : Options) :
    ofArguments args = .ok o ↔
      ∃ items, Reads false args items ∧ Admissible items ∧ o = ofItems items := by
  constructor
  · intro given
    obtain ⟨pathEq, hasPattern, read, -⟩ := ofArguments_eq_ok_iff.mp given
    obtain ⟨items, reads⟩ := exists_reads_of_readArguments [] read fun _ => ⟨[], pathEq⟩
    exact ⟨items, reads, (ofArguments_eq_ok_iff_of_reads reads o).mp given⟩
  · rintro ⟨items, reads, followed⟩
    exact (ofArguments_eq_ok_iff_of_reads reads o).mpr followed

end Options

/-! ### What the passes take arguments for -/

namespace Arguments

theorem scanRoles_cons {arg : Text} (passedOver : IsPassedOver arg) (args : List Text) :
    scanRoles (arg :: args) = .other :: scanRoles args := by
  rw [scanRoles.eq_def]
  dsimp only
  rw [if_neg passedOver.1, if_neg passedOver.2]

theorem scanRoles_endOfFlags (args : List Text) :
    scanRoles (PatternSampler.endOfFlags :: args) = .option :: args.map fun _ => .other := by
  rw [scanRoles.eq_def]
  exact if_pos rfl

theorem valuesOf_cons_value (arg : Text) (args : List Text) (roles : List Role) :
    valuesOf (arg :: args) (.value :: roles) = arg :: valuesOf args roles := by
  simp [valuesOf]

theorem valuesOf_cons_of_ne {role : Role} (noValue : role ≠ .value) (arg : Text)
    (args : List Text) (roles : List Role) :
    valuesOf (arg :: args) (role :: roles) = valuesOf args roles := by
  simp [valuesOf, noValue]

theorem valuesOf_map_other (args : List Text) : valuesOf args (args.map fun _ => .other) = [] := by
  induction args with
  | nil => rfl
  | cons arg args inductionHypothesis =>
    rw [List.map_cons, valuesOf_cons_of_ne (by decide), inductionHypothesis]

/-- The roles are those of the first pass: what it finds is the last argument that it takes for a
value. -/
theorem eq_last_valuesOf {found path : Text} {args : List Text}
    (scanned : configurationPath found args = .ok path) :
    path = (valuesOf args (scanRoles args)).getLast?.getD found := by
  fun_induction configurationPath found args with
  | case1 =>
    cases scanned
    rfl
  | case2 found args =>
    cases scanned
    rw [scanRoles_endOfFlags, valuesOf_cons_of_ne (by decide), valuesOf_map_other]
    rfl
  | case3 => cases scanned
  | case4 found arg notEnd isConfig value args inductionHypothesis =>
    have roles : scanRoles (arg :: value :: args) = .option :: .value :: scanRoles args := by
      rw [scanRoles.eq_def]
      dsimp only
      rw [if_neg notEnd, if_pos isConfig]
    rw [roles, valuesOf_cons_of_ne (by decide), valuesOf_cons_value, List.getLast?_cons]
    exact inductionHypothesis scanned
  | case5 found arg args notEnd notConfig inductionHypothesis =>
    rw [scanRoles_cons ⟨notEnd, notConfig⟩, valuesOf_cons_of_ne (by decide)]
    exact inductionHypothesis scanned

/-- It does not matter what an argument is taken for that means nothing to the first pass. -/
theorem agree_cons {arg : Text} (passedOver : IsPassedOver arg) (role role' : Role)
    {args : List Text} {roles roles' : List Role} (agree : Agree args roles roles') :
    Agree (arg :: args) (role :: roles) (role' :: roles') := by
  refine ⟨?_, agree⟩
  rintro (rfl | rfl)
  · exact absurd rfl passedOver.1
  · exact absurd rfl passedOver.2

theorem agree_refl : ∀ {args : List Text} {roles : List Role}, args.length = roles.length →
    Agree args roles roles
  | [], [], _ => trivial
  | _ :: _, _ :: _, sameLength => ⟨fun _ => rfl, agree_refl (Nat.succ.inj sameLength)⟩

/-- In arguments that can be read once the first pass takes the end of flags and the flag for a
configuration file for what they are, be it an option or the value of another flag. -/
theorem agree_scanRoles {args : List Text} {items : List Item} (reads : Reads false args items) :
    Agree args (scanRoles args) (items.flatMap Item.roles) := by
  generalize beforeEnd : false = onlyPatterns at reads
  induction reads with
  | done => trivial
  | pattern isPattern others inductionHypothesis =>
    subst beforeEnd
    have passedOver := (isPattern.resolve_left Bool.false_ne_true).isPassedOver
    rw [scanRoles_cons passedOver]
    exact agree_cons passedOver _ _ (inductionHypothesis rfl)
  | @endOfFlags args items others =>
    have roles : items.flatMap Item.roles = args.map fun _ => .other := by
      rw [others.eq_map_pattern, List.flatMap_map]
      exact List.map_eq_flatMap.symm
    rw [List.flatMap_cons, roles]
    exact scanRoles_endOfFlags args ▸ agree_refl (by simp)
  | number numeric spelled denotes others inductionHypothesis =>
    have passedOver := Flag.isPassedOver spelled (.inl numeric)
    rw [scanRoles_cons passedOver, scanRoles_cons denotes.isPassedOver]
    exact agree_cons passedOver _ _ (agree_cons denotes.isPassedOver _ _ (inductionHypothesis rfl))
  | configuration others inductionHypothesis =>
    exact ⟨fun _ => rfl, fun _ => rfl, inductionHypothesis rfl⟩
  | switch isSwitch spelled others inductionHypothesis =>
    have passedOver := Flag.isPassedOver spelled (.inr isSwitch)
    rw [scanRoles_cons passedOver]
    exact agree_cons passedOver _ _ (inductionHypothesis rfl)

/-! ### One reading -/

theorem Denotes.unique {value : Text} {n n' : UInt64} (denotes : Denotes value n)
    (denotes' : Denotes value n') : n = n' :=
  UInt64.toNat_inj.mp (denotes.value_eq.symm.trans denotes'.value_eq)

theorem not_isPattern_endOfFlags : ¬IsPattern PatternSampler.endOfFlags := by
  rw [← looksLikeFlag_eq_false_iff]
  decide

theorem IsPattern.not_spelled {arg : Text} (isPattern : IsPattern arg) (flag : Flag) :
    arg ∉ flag.spellings := by
  intro spelled
  have form := (Flag.of_mem_spellings arg spelled).2.1
  rw [looksLikeFlag_eq_false_iff.mpr isPattern] at form
  exact absurd form Bool.false_ne_true

/-- At a flag arguments are read as the flag with its value, or as the flag if it has none. -/
theorem Reads.of_spelled {flag : Flag} {arg : Text} {args : List Text} {items : List Item}
    (spelled : arg ∈ flag.spellings) (reads : Reads false (arg :: args) items) :
    (flag.IsNumeric ∧ ∃ value n args' items', args = value :: args' ∧ Denotes value n ∧
        items = .number flag n :: items' ∧ Reads false args' items') ∨
      (flag = .config ∧ ∃ path args' items', args = path :: args' ∧
        items = .configuration path :: items' ∧ Reads false args' items') ∨
      flag.IsSwitch ∧ ∃ items', items = .switch flag :: items' ∧ Reads false args items' := by
  cases reads with
  | pattern isPattern =>
    exact absurd spelled ((isPattern.resolve_left Bool.false_ne_true).not_spelled flag)
  | endOfFlags =>
    exact absurd rfl (Flag.of_mem_spellings _ spelled).2.2
  | number numeric spelled' denotes others =>
    obtain rfl := Flag.eq_of_spelled spelled spelled'
    exact .inl ⟨numeric, _, _, _, _, rfl, denotes, rfl, others⟩
  | configuration others =>
    obtain rfl := Flag.eq_of_spelled spelled Flag.spelled_config
    exact .inr (.inl ⟨rfl, _, _, _, rfl, rfl, others⟩)
  | switch isSwitch spelled' others =>
    obtain rfl := Flag.eq_of_spelled spelled spelled'
    exact .inr (.inr ⟨isSwitch, _, rfl, others⟩)

/-- Arguments can be read in one way only. -/
theorem Reads.unique {onlyPatterns : Bool} {args : List Text} {items items' : List Item}
    (reads : Reads onlyPatterns args items) (reads' : Reads onlyPatterns args items') :
    items = items' := by
  induction reads generalizing items' with
  | done =>
    cases reads'
    rfl
  | @pattern onlyPatterns arg args items isPattern others inductionHypothesis =>
    have notSpelled (beforeEnd : onlyPatterns = false) (flag : Flag) : arg ∉ flag.spellings :=
      (isPattern.resolve_left (by simp [beforeEnd])).not_spelled flag
    cases reads' with
    | pattern _ others' => rw [inductionHypothesis others']
    | endOfFlags =>
      exact absurd (isPattern.resolve_left Bool.false_ne_true) not_isPattern_endOfFlags
    | number _ spelled | switch _ spelled => exact absurd spelled (notSpelled rfl _)
    | configuration => exact absurd Flag.spelled_config (notSpelled rfl .config)
  | endOfFlags others inductionHypothesis =>
    cases reads' with
    | pattern isPattern =>
      exact absurd (isPattern.resolve_left Bool.false_ne_true) not_isPattern_endOfFlags
    | endOfFlags others' => rw [inductionHypothesis others']
    | number _ spelled | switch _ spelled =>
      exact absurd rfl (Flag.of_mem_spellings _ spelled).2.2
  | number numeric spelled denotes others inductionHypothesis =>
    obtain ⟨-, value, n, args', items', argsEq, denotes', rfl, others'⟩ | ⟨rfl, -⟩ |
      ⟨isSwitch, -⟩ := reads'.of_spelled spelled
    · cases argsEq
      rw [denotes.unique denotes', inductionHypothesis others']
    · simp [Flag.IsNumeric] at numeric
    · obtain rfl | rfl | rfl := numeric <;> simp [Flag.IsSwitch] at isSwitch
  | configuration others inductionHypothesis =>
    obtain ⟨numeric, -⟩ | ⟨-, path, args', items', argsEq, rfl, others'⟩ | ⟨isSwitch, -⟩ :=
      reads'.of_spelled Flag.spelled_config
    · simp [Flag.IsNumeric] at numeric
    · cases argsEq
      rw [inductionHypothesis others']
    · simp [Flag.IsSwitch] at isSwitch
  | switch isSwitch spelled others inductionHypothesis =>
    obtain ⟨numeric, -⟩ | ⟨rfl, -⟩ | ⟨-, items', rfl, others'⟩ := reads'.of_spelled spelled
    · obtain rfl | rfl | rfl := numeric <;> simp [Flag.IsSwitch] at isSwitch
    · simp [Flag.IsSwitch] at isSwitch
    · rw [inductionHypothesis others']

end Arguments

open Arguments in
/-- Arguments are followed exactly if they can be read once and what is read can be followed, and
the options are those that it stands for; all others are refused. They can be read in one way only,
and then the first pass takes no end of flags and no flag for a configuration file for anything
else than the second one does. -/
theorem Options.ofArguments_reads (args : List Text) :
    (∀ o, ofArguments args = .ok o ↔
      ∃ items, Reads false args items ∧ Admissible items ∧ o = ofItems items) ∧
    ((¬∃ items, Reads false args items ∧ Admissible items) →
      ∃ e : OptionsError, ofArguments args = .error e) ∧
    ∀ items, Reads false args items →
      (∀ items', Reads false args items' → items' = items) ∧
      PatternSampler.configurationPath [] args =
        .ok ((valuesOf args (scanRoles args)).getLast?.getD []) ∧
      Agree args (scanRoles args) (items.flatMap Item.roles) := by
  refine ⟨ofArguments_eq_ok_iff_reads args, ?_, fun items reads => ⟨?_, ?_, agree_scanRoles reads⟩⟩
  · intro notFollowed
    cases given : ofArguments args with
    | error e => exact ⟨e, rfl⟩
    | ok o =>
      obtain ⟨items, reads, admissible, -⟩ := (ofArguments_eq_ok_iff_reads args o).mp given
      exact absurd ⟨items, reads, admissible⟩ notFollowed
  · exact fun items' reads' => reads'.unique reads
  · have scanned := configurationPath_of_reads reads []
    rw [scanned, eq_last_valuesOf scanned]

end PatternSampler
