/-
Module: PatternSampler.Proofs.Runs
Purpose: What a run writes. Each part of a run is described by its result and by the texts it
  adds to the two output streams. A run on a pattern writes the canonical text, or just the
  strings that are drawn from the pattern one after the other, and a run on a refused text
  writes the report. The log changes neither the exit code nor the output, and more strings
  only follow those that fewer begin with.
Main exports: Running.Ends, Pattern.ends_writeStrings, Pattern.prefix_generateMany,
  Options.ends_session_of_refused, Options.ends_session_of_read, Options.session_writes
-/
import PatternSampler.Proofs.RoundTrip.Draws
import PatternSampler.Run

namespace PatternSampler

/-! ### Parts of a run -/

namespace Running

variable {ε α β : Type}

/-- A part of a run is not interrupted: it ends with a result, and has added texts to the
streams. -/
def Ends (part : Running ε α) (a : α) (out err : Text) : Prop :=
  ∀ s : Streams, ∃ s', part.run.run s = (.ok a, s') ∧ s'.out = s.out ++ out ∧ s'.err = s.err ++ err

theorem ends_pure (a : α) : (pure a : Running ε α).Ends a [] [] := by
  intro s
  exact ⟨s, rfl, (List.append_nil _).symm, (List.append_nil _).symm⟩

/-- The texts of parts that follow each other follow each other. -/
theorem Ends.bind {part : Running ε α} {next : α → Running ε β} {a : α} {b : β}
    {out err out' err' : Text} (first : part.Ends a out err) (behind : (next a).Ends b out' err') :
    (part >>= next).Ends b (out ++ out') (err ++ err') := by
  intro s
  obtain ⟨middle, ran, outEq, errEq⟩ := first s
  obtain ⟨last, ranNext, outEq', errEq'⟩ := behind middle
  refine ⟨last, ?_, ?_, ?_⟩
  · rw [Generation.run_bind, ran]
    exact ranNext
  · rw [outEq', outEq, List.append_assoc]
  · rw [errEq', errEq, List.append_assoc]

/-- The same for a part that has no result but what it writes. -/
theorem Ends.andThen {part : Running ε Unit} {next : Running ε β} {b : β}
    {out err out' err' : Text} (first : part.Ends () out err) (behind : next.Ends b out' err') :
    (part >>= fun _ => next).Ends b (out ++ out') (err ++ err') :=
  first.bind behind

theorem ends_writeOut (t : Text) : (writeOut t : Running ε Unit).Ends () t [] := by
  intro s
  refine ⟨{ s with outPieces := t :: s.outPieces }, rfl, ?_, (List.append_nil _).symm⟩
  simp [Streams.out]

theorem ends_writeErr (t : Text) : (writeErr t : Running ε Unit).Ends () [] t := by
  intro s
  refine ⟨{ s with errPieces := t :: s.errPieces }, rfl, (List.append_nil _).symm, ?_⟩
  simp [Streams.err]

/-- A part that is repeated for every item of a list adds the texts of the items in order. -/
theorem ends_forM {part : α → Running ε Unit} {err : α → Text}
    (each : ∀ a, (part a).Ends () [] (err a)) (as : List α) :
    (as.forM part).Ends () [] (as.flatMap err) := by
  induction as with
  | nil => exact ends_pure ()
  | cons a as inductionHypothesis => exact (each a).bind inductionHypothesis

/-- A run that ends with a code has this code and the texts it has written as its outcome. -/
theorem Ends.outcome_eq {session : Running Interruption UInt32} {code : UInt32} {out err : Text}
    (ends : session.Ends code out err) : session.outcome = ⟨code, out, err⟩ := by
  obtain ⟨s, ran, outEq, errEq⟩ := ends {}
  unfold outcome
  rw [ran]
  dsimp only
  rw [outEq, errEq]
  rfl

end Running

/-! ### Strings -/

namespace Generation

variable {σ α : Type} {draw : Generation σ α}

/-- What is made follows what was made before. -/
theorem prefix_timesAfter {made as : List α} {count : Nat} {s s' : σ}
    (drawn : (timesAfter draw made count).run.run s = (.ok as, s')) : made.reverse <+: as := by
  induction count generalizing made s with
  | zero =>
    cases drawn
    exact List.prefix_rfl
  | succ count inductionHypothesis =>
    unfold timesAfter at drawn
    rw [run_bind] at drawn
    generalize draw.run.run s = outcome at drawn
    rcases outcome with ⟨fault | a, middle⟩
    · cases drawn
    · have longer := inductionHypothesis drawn
      rw [List.reverse_cons] at longer
      exact (List.prefix_append _ _).trans longer

/-- What is made in several rounds is made in one. -/
theorem timesAfter_add (draw : Generation σ α) (made : List α) (count more : Nat) :
    timesAfter draw made (count + more) =
      timesAfter draw made count >>= fun as => timesAfter draw as.reverse more := by
  induction count generalizing made with
  | zero =>
    rw [Nat.zero_add, timesAfter, pure_bind, List.reverse_reverse]
  | succ count inductionHypothesis =>
    rw [Nat.succ_add, timesAfter, timesAfter, bind_assoc]
    congr 1
    funext a
    exact inductionHypothesis (a :: made)

end Generation

namespace Pattern

open Generation

variable {p : Pattern} {cap : UInt64}

/-- A greater number of strings begins with the strings of a smaller one. -/
theorem prefix_generateMany {σ : Type} [WordSource σ] {count count' : UInt64} {s s' s'' : σ}
    {strings strings' : List Text} (fewer : count ≤ count')
    (drawn : (p.generateMany cap count).run.run s = (.ok strings, s'))
    (drawn' : (p.generateMany cap count').run.run s = (.ok strings', s'')) :
    strings <+: strings' := by
  obtain ⟨more, countEq⟩ := Nat.exists_eq_add_of_le (UInt64.le_iff_toNat_le.1 fewer)
  unfold generateMany times at drawn drawn'
  rw [countEq, timesAfter_add, run_bind, drawn] at drawn'
  have longer := prefix_timesAfter drawn'
  rwa [List.reverse_reverse] at longer

/-- The strings that are written are those that are drawn behind what was made before. -/
theorem exists_strings_of_timesAfter {made as : List Text} {count : Nat}
    {source source' : SeededSource}
    (drawn : (timesAfter (p.generate cap) made count).run.run source = (.ok as, source')) :
    ∃ strings, as = made.reverse ++ strings ∧
      (p.writeStrings cap count source).Ends () (strings.flatMap lineText) [] := by
  induction count generalizing made source with
  | zero =>
    cases drawn
    exact ⟨[], (List.append_nil _).symm, Running.ends_pure ()⟩
  | succ count inductionHypothesis =>
    unfold timesAfter at drawn
    rw [run_bind] at drawn
    unfold writeStrings
    generalize (p.generate cap).run.run source = outcome at drawn ⊢
    rcases outcome with ⟨fault | t, middle⟩
    · cases drawn
    · obtain ⟨strings, asEq, written⟩ := inductionHypothesis drawn
      refine ⟨t :: strings, ?_, (Running.ends_writeOut (lineText t)).bind written⟩
      rw [asEq, List.reverse_cons, List.append_assoc]
      rfl

/-- What is written is the strings that are drawn, each of them as a line. -/
theorem ends_writeStrings {count : UInt64} {source source' : SeededSource} {strings : List Text}
    (drawn : (p.generateMany cap count).run.run source = (.ok strings, source')) :
    (p.writeStrings cap count.toNat source).Ends () (strings.flatMap lineText) [] := by
  obtain ⟨strings', stringsEq, written⟩ := exists_strings_of_timesAfter drawn
  cases stringsEq
  exact written

end Pattern

/-! ### Runs -/

namespace Options

open Running

variable {ε : Type} (o : Options)

/-- The line of a message in the log. -/
def logged (message : Text) : Text := if o.debug then logLine message else []

/-- What the log says before the pattern is read. -/
def opening : Text :=
  o.unknownKeys.flatMap (fun key => o.logged (ascii "Ignoring unknown config key: " ++ key)) ++
    o.logged (ascii "Parsing pattern: " ++ o.pattern)

theorem logged_eq_nil {o : Options} (quiet : o.debug = false) (message : Text) :
    o.logged message = [] := by
  unfold logged
  rw [quiet]
  rfl

theorem opening_eq_nil {o : Options} (quiet : o.debug = false) : o.opening = [] := by
  unfold opening
  simp only [logged_eq_nil quiet, List.flatMap_eq_nil_iff, implies_true, List.append_nil]

theorem ends_log (message : Text) :
    (o.log message : Running ε Unit).Ends () [] (o.logged message) := by
  unfold log logged
  split
  next => exact ends_writeErr _
  next => exact ends_pure ()

theorem ends_logOpening : (o.logOpening : Running ε Unit).Ends () [] o.opening :=
  (ends_forM (fun _ => ends_log o _) o.unknownKeys).bind (ends_log o _)

variable {o} (fallbackSeed : UInt64)

/-- A run on a text that is refused writes the report. -/
theorem ends_conclude_of_refused (r : Refusal) :
    (o.conclude fallbackSeed (.error r)).Ends exitPattern []
      (lineText (r.report.render o.pattern)) := by
  have ends := (ends_writeErr (ε := Interruption) (lineText (r.report.render o.pattern))).andThen
    (ends_pure exitPattern)
  simp only [List.append_nil] at ends
  exact ends

/-- A run that is to write the canonical text writes it. -/
theorem ends_conclude_of_canonical {p : Pattern} (noTree : o.dumpTree = false)
    (canonical : o.canonical = true) :
    (o.conclude fallbackSeed (.ok p)).Ends exitOk (lineText p.text)
      (o.logged (ascii "Canonical form: " ++ p.text)) := by
  have ends := (ends_log (ε := Interruption) o (ascii "Canonical form: " ++ p.text)).andThen
    ((ends_writeOut (lineText p.text)).andThen (ends_pure exitOk))
  simp only [List.nil_append, List.append_nil] at ends
  unfold conclude
  simpa only [noTree, canonical, Bool.false_eq_true, if_false, if_true] using ends

/-- A run that is to write strings writes those that are drawn from the pattern. -/
theorem ends_conclude_of_strings {p : Pattern} {strings : List Text} {source : SeededSource}
    (noTree : o.dumpTree = false) (notCanonical : o.canonical = false)
    (drawn : (p.generateMany o.cap o.count).run.run
      (SeededSource.ofSeed (o.seed.getD fallbackSeed)) = (.ok strings, source)) :
    (o.conclude fallbackSeed (.ok p)).Ends exitOk (strings.flatMap lineText)
      (o.logged (ascii "Canonical form: " ++ p.text) ++
        (o.logged (o.seedMessage (o.seed.getD fallbackSeed)) ++ o.logged o.closingMessage)) := by
  have closing := (ends_log (ε := Interruption) o o.closingMessage).andThen (ends_pure exitOk)
  have ends := (ends_log o (ascii "Canonical form: " ++ p.text)).andThen
    ((ends_log o (o.seedMessage (o.seed.getD fallbackSeed))).andThen
      ((Pattern.ends_writeStrings drawn).andThen closing))
  simp only [List.nil_append, List.append_nil] at ends
  unfold conclude
  simpa only [noTree, notCanonical, Bool.false_eq_true, if_false] using ends

/-- A run on a pattern that was read writes the canonical text, or the strings that are drawn from
the pattern, and without a log it writes no more than that. -/
theorem ends_conclude_of_read {p : Pattern} (read : Pattern.parse o.pattern = .ok p)
    (noTree : o.dumpTree = false) :
    ∃ strings source err,
      (p.generateMany o.cap o.count).run.run
        (SeededSource.ofSeed (o.seed.getD fallbackSeed)) = (.ok strings, source) ∧
      (o.conclude fallbackSeed (.ok p)).Ends exitOk
        (if o.canonical then lineText p.text else strings.flatMap lineText) err ∧
      (o.debug = false → err = []) := by
  obtain ⟨strings, source, drawn, -⟩ := Pattern.exists_generateMany read o.cap o.count
    (SeededSource.ofSeed (o.seed.getD fallbackSeed))
  cases canonical : o.canonical with
  | true =>
    refine ⟨strings, source, _, drawn, ends_conclude_of_canonical _ noTree canonical, ?_⟩
    intro quiet
    exact logged_eq_nil quiet _
  | false =>
    refine ⟨strings, source, _, drawn, ends_conclude_of_strings _ noTree canonical drawn, ?_⟩
    intro quiet
    simp only [logged_eq_nil quiet, List.append_nil]

/-- A whole run on a text that is refused. -/
theorem ends_session_of_refused {r : Refusal} (refused : Pattern.parse o.pattern = .error r) :
    (o.session fallbackSeed).Ends exitPattern []
      (o.opening ++ lineText (r.report.render o.pattern)) := by
  unfold session
  rw [refused]
  exact (ends_logOpening o).andThen (ends_conclude_of_refused fallbackSeed r)

/-- A whole run on a pattern that was read. -/
theorem ends_session_of_read {p : Pattern} (read : Pattern.parse o.pattern = .ok p)
    (noTree : o.dumpTree = false) :
    ∃ strings source err,
      (p.generateMany o.cap o.count).run.run
        (SeededSource.ofSeed (o.seed.getD fallbackSeed)) = (.ok strings, source) ∧
      (o.session fallbackSeed).Ends exitOk
        (if o.canonical then lineText p.text else strings.flatMap lineText) err ∧
      (o.debug = false → err = []) := by
  obtain ⟨strings, source, err, drawn, concluded, quietErr⟩ :=
    ends_conclude_of_read fallbackSeed read noTree
  refine ⟨strings, source, o.opening ++ err, drawn, ?_, ?_⟩
  · unfold session
    rw [read]
    exact (ends_logOpening o).andThen concluded
  · intro quiet
    rw [opening_eq_nil quiet, quietErr quiet, List.append_nil]

/-! ### Outcomes -/

/-- The log changes neither the exit code nor the output. -/
theorem run_log (noTree : o.dumpTree = false) (debug : Bool) (unknownKeys : List Text) :
    ({ o with debug, unknownKeys }.run fallbackSeed).code = (o.run fallbackSeed).code ∧
      ({ o with debug, unknownKeys }.run fallbackSeed).out = (o.run fallbackSeed).out := by
  unfold run
  cases parsed : Pattern.parse o.pattern with
  | error r =>
    have ends := ends_session_of_refused fallbackSeed parsed
    have ends' := ends_session_of_refused (o := { o with debug, unknownKeys }) fallbackSeed parsed
    rw [ends.outcome_eq, ends'.outcome_eq]
    exact ⟨rfl, rfl⟩
  | ok p =>
    obtain ⟨strings, source, err, drawn, ends, -⟩ :=
      ends_session_of_read fallbackSeed parsed noTree
    obtain ⟨strings', source', err', drawn', ends', -⟩ :=
      ends_session_of_read (o := { o with debug, unknownKeys }) fallbackSeed parsed noTree
    -- Both runs draw from the same pattern, with the same cap and seed.
    cases drawn.symm.trans drawn'
    rw [ends.outcome_eq, ends'.outcome_eq]
    exact ⟨rfl, rfl⟩

/-- More strings only follow those that fewer begin with. -/
theorem prefix_out_of_count_le (noTree : o.dumpTree = false) (notCanonical : o.canonical = false)
    {count : UInt64} (fewer : o.count ≤ count) :
    (o.run fallbackSeed).out <+: ({ o with count }.run fallbackSeed).out := by
  unfold run
  cases parsed : Pattern.parse o.pattern with
  | error r =>
    have ends := ends_session_of_refused fallbackSeed parsed
    have ends' := ends_session_of_refused (o := { o with count }) fallbackSeed parsed
    rw [ends.outcome_eq, ends'.outcome_eq]
  | ok p =>
    obtain ⟨strings, source, err, drawn, ends, -⟩ :=
      ends_session_of_read fallbackSeed parsed noTree
    obtain ⟨strings', source', err', drawn', ends', -⟩ :=
      ends_session_of_read (o := { o with count }) fallbackSeed parsed noTree
    obtain ⟨more, rfl⟩ := Pattern.prefix_generateMany fewer drawn drawn'
    rw [ends.outcome_eq, ends'.outcome_eq]
    simp only [notCanonical, Bool.false_eq_true, if_false, List.flatMap_append]
    exact List.prefix_append _ _

/-- A run with a seed is not interrupted. On a pattern that is read it writes the canonical text, or
the strings that are drawn from the seed, and nothing else if the log is off. On a text that
is refused it writes nothing but the log and the report. The log changes neither the exit code
nor the output, and a greater number of strings begins with the strings of a smaller one. -/
theorem session_writes {seed : UInt64} (seeded : o.seed = some seed)
    (noTree : o.dumpTree = false) :
    (∀ p, Pattern.parse o.pattern = .ok p → ∃ strings source err,
      (p.generateMany o.cap o.count).run.run (SeededSource.ofSeed seed) = (.ok strings, source) ∧
      (o.session fallbackSeed).Ends exitOk
        (if o.canonical then lineText p.text else strings.flatMap lineText) err ∧
      (o.debug = false → err = [])) ∧
    (∀ r, Pattern.parse o.pattern = .error r → ∃ log,
      (o.session fallbackSeed).Ends exitPattern [] (log ++ lineText (r.report.render o.pattern))) ∧
    (∀ debug unknownKeys,
      ({ o with debug, unknownKeys }.run fallbackSeed).code = (o.run fallbackSeed).code ∧
      ({ o with debug, unknownKeys }.run fallbackSeed).out = (o.run fallbackSeed).out) ∧
    (o.canonical = false → ∀ count, o.count ≤ count →
      (o.run fallbackSeed).out <+: ({ o with count }.run fallbackSeed).out) := by
  refine ⟨?_, ?_, ?_, ?_⟩
  · intro p read
    have written := ends_session_of_read fallbackSeed read noTree
    rwa [seeded] at written
  · intro r refused
    exact ⟨o.opening, ends_session_of_refused fallbackSeed refused⟩
  · exact run_log fallbackSeed noTree
  · intro notCanonical count fewer
    exact prefix_out_of_count_le fallbackSeed noTree notCanonical fewer

theorem session_writes_star :
    let o : Options := { pattern := [0x61, 0x2A], seed := some 7 }
    o.seed = some 7 ∧ o.dumpTree = false ∧
    (∃ p, Pattern.parse o.pattern = .ok p ∧ ∃ strings source,
      (p.generateMany 32 1).run.run (SeededSource.ofSeed 7) = (.ok strings, source) ∧
      (o.session 0).Ends exitOk (strings.flatMap lineText) []) ∧
    (o.run 0).out <+: ({ o with count := 3 }.run 0).out := by
  intro o
  have read := Grammar.parse_star (show ¬ IsReserved 0x61 by decide)
  obtain ⟨onRead, -, -, prefixed⟩ := session_writes (o := o) 0 (rfl : o.seed = some 7) rfl
  obtain ⟨strings, source, err, drawn, ends, quiet⟩ := onRead _ read
  rw [quiet rfl] at ends
  exact ⟨rfl, rfl, ⟨_, read, strings, source, drawn, ends⟩, prefixed rfl 3 (by decide)⟩

end Options

end PatternSampler
