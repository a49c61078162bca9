/-
Module: PatternSampler.Proofs.Grammar.Escapes
Purpose: Escapes end where their text ends. No phrase of the grammar takes a lone backslash, so
  a text that is a pattern does not end within an escape: put in front of another text it is
  read as the tokens it is read as alone, and the text behind it as if nothing stood before.
  Only the places differ, by the place at which a text begins.
Main exports: Grammar.Derives.unbroken, Location.behind, Cursor.scan_behind, Cursor.scan_append
-/
import PatternSampler.Proofs.Grammar.Embedding

namespace PatternSampler

namespace Grammar

variable {ts rest : List Token}

/-! ### The symbols of parameters -/

section Parameters

variable {q : Symbol → Prop} (literal : ∀ b, q (.literal b)) (escaped : ∀ b, q (.escaped b))
  (dot : q (.mark .dot)) (plus : q (.mark .plus)) (equals : q (.mark .equals))

include literal escaped dot plus equals

/-- A parameter is a number, perhaps behind a key and an equals sign. -/
theorem Argument.between {p : Parameter} (argument : Argument ts p rest) : Between q ts rest := by
  cases argument with
  | positional number => exact number.between literal dot plus
  | named names number =>
    refine .cons ?_ (.cons equals (number.between literal dot plus))
    cases names with
    | literal b => exact literal b
    | escaped b => exact escaped b
    | point => exact dot

/-- Parameters have commas between them. -/
theorem Arguments.between (comma : q (.mark .comma)) {ps : List Parameter}
    (arguments : Arguments ts ps rest) : Between q ts rest := by
  induction arguments with
  | last argument => exact argument.between literal escaped dot plus equals
  | more argument _ inductionHypothesis =>
    exact (argument.between literal escaped dot plus equals).trans
      (.cons comma inductionHypothesis)

end Parameters

/-! ### Phrases without a lone backslash -/

/-- There is no lone backslash among the tokens in front of an end piece. -/
abbrev Unbroken (ts rest : List Token) : Prop := Between (· ≠ .loneBackslash) ts rest

theorem Run.unbroken {p : Symbol → Bool} {bytes : Text} (run : Run p ts bytes rest)
    (excludes : p .loneBackslash = false) : Unbroken ts rest := by
  refine run.between ?_
  rintro s holds rfl
  rw [excludes] at holds
  cases holds

theorem Arguments.unbroken {ps : List Parameter} (arguments : Arguments ts ps rest) :
    Unbroken ts rest :=
  arguments.between nofun nofun nofun nofun nofun nofun

theorem ArgumentList.unbroken {ps : List Parameter} (list : ArgumentList ts ps rest) :
    Unbroken ts rest := by
  cases list with
  | absent => exact .refl _ _
  | empty => exact .cons nofun (.cons nofun (.refl _ _))
  | listed arguments =>
    exact .cons nofun (arguments.unbroken.trans (.cons nofun (.refl _ _)))

theorem Note.unbroken {a : Annotation} (note : Note ts a rest) : Unbroken ts rest := by
  cases note with
  | intro letters _ arguments =>
    exact .cons nofun ((letters.unbroken rfl).trans arguments.unbroken)

theorem Attached.unbroken {meaning : Annotation → Except Refusal Distribution}
    {d : Option Distribution} (attached : Attached meaning ts d rest) : Unbroken ts rest := by
  cases attached with
  | absent => exact .refl _ _
  | present note => exact note.unbroken

theorem Member.unbroken {m : ClassItem} (member : Member ts m rest) : Unbroken ts rest := by
  cases member with
  | named letters =>
    exact .cons nofun (.cons nofun
      ((letters.unbroken rfl).trans (.cons nofun (.cons nofun (.refl _ _)))))
  | wildcard => exact .cons nofun (.refl _ _)
  | shorthand => exact .cons nofun (.refl _ _)
  | single _ _ _ _ _ _ notLone => exact .cons notLone (.refl _ _)

theorem Members.unbroken {ms : List ClassItem} (members : Members ts ms rest) :
    Unbroken ts rest := by
  induction members with
  | done => exact .refl _ _
  | more member _ inductionHypothesis => exact member.unbroken.trans inductionHypothesis

theorem Negation.unbroken {negated : Bool} (negation : Negation ts negated rest) :
    Unbroken ts rest := by
  cases negation with
  | absent => exact .refl _ _
  | present => exact .cons nofun (.refl _ _)

theorem Class.unbroken {c : CharClass} (phrase : Class ts c rest) : Unbroken ts rest := by
  cases phrase with
  | shorthand _ attached => exact .cons nofun attached.unbroken
  | bracketed negation listed _ _ attached =>
    exact .cons nofun (negation.unbroken.trans
      (listed.unbroken.trans (.cons nofun attached.unbroken)))

theorem Count.unbroken {n : UInt64} (count : Count ts n rest) : Unbroken ts rest := by
  cases count with
  | intro run => exact run.unbroken rfl

theorem Maximum.unbroken {max : Option UInt64} (maximum : Maximum ts max rest) :
    Unbroken ts rest := by
  cases maximum with
  | absent => exact .refl _ _
  | present count => exact count.unbroken

theorem Quantifier.unbroken {r : Repeat} (quantifier : Quantifier ts r rest) :
    Unbroken ts rest := by
  cases quantifier with
  | mark _ attached => exact .cons nofun attached.unbroken
  | exact count => exact .cons nofun (count.unbroken.trans (.cons nofun (.refl _ _)))
  | drawn count note =>
    exact .cons nofun (count.unbroken.trans (note.unbroken.trans (.cons nofun (.refl _ _))))
  | between minimum maximum _ attached =>
    exact .cons nofun (minimum.unbroken.trans (.cons nofun
      (maximum.unbroken.trans (attached.unbroken.trans (.cons nofun (.refl _ _))))))

/-- No phrase takes a lone backslash. -/
theorem Derives.unbroken {depth : Nat} {form : Form} (derived : Derives depth form ts rest) :
    Unbroken ts rest := by
  induction derived with
  | literal | escaped | wildcard => exact .cons nofun (.refl _ _)
  | charClass _ phrase => exact phrase.unbroken
  | group _ inductionHypothesis =>
    exact .cons nofun (inductionHypothesis.trans (.cons nofun (.refl _ _)))
  | bare _ inductionHypothesis => exact inductionHypothesis
  | repeated _ quantifier inductionHypothesis =>
    exact inductionHypothesis.trans quantifier.unbroken
  | lastFactor _ inductionHypothesis => exact inductionHypothesis
  | moreFactors _ _ first others => exact first.trans others
  | sequence _ inductionHypothesis => exact inductionHypothesis
  | lastBranch _ inductionHypothesis => exact inductionHypothesis
  | moreBranches _ _ first others => exact first.trans (.cons nofun others)
  | choice _ inductionHypothesis => exact inductionHypothesis

end Grammar

/-! ### Places in a larger text -/

/-- Where a place of a text lies in a larger text in which that text begins at `origin`. Only on
the first line the columns differ. -/
def Location.behind (origin p : Location) : Location :=
  ⟨p.offset + origin.offset, origin.line + (p.line - 1),
    if p.line = 1 then origin.column + (p.column - 1) else p.column⟩

/-- Lines and columns count from one. -/
def Location.Counted (p : Location) : Prop := 1 ≤ p.line ∧ 1 ≤ p.column

namespace Location

theorem counted_step {p : Location} (counted : p.Counted) (b : UInt8) : (p.step b).Counted := by
  unfold step
  split
  next => exact ⟨Nat.le_add_left 1 _, Nat.le_refl 1⟩
  next => exact ⟨counted.1, Nat.le_add_left 1 _⟩

theorem counted_after {p : Location} (counted : p.Counted) (t : Text) : (p.after t).Counted := by
  induction t generalizing p with
  | nil => exact counted
  | cons b t inductionHypothesis => exact inductionHypothesis (counted_step counted b)

theorem behind_start (origin : Location) : origin.behind start = origin := by
  simp [behind, start]

/-- A larger text is passed through in the same steps. -/
theorem behind_step (origin : Location) {p : Location} (counted : p.Counted) (b : UInt8) :
    origin.behind (p.step b) = (origin.behind p).step b := by
  obtain ⟨lineCounted, columnCounted⟩ := counted
  by_cases newline : b = Text.newline
  · have later : p.line + 1 ≠ 1 := Nat.ne_of_gt (Nat.lt_succ_of_le lineCounted)
    simp only [step, behind, newline, later, if_true, if_false, mk.injEq, and_true]
    omega
  · by_cases first : p.line = 1
    · simp only [step, behind, newline, first, if_true, if_false, mk.injEq, true_and]
      omega
    · simp only [step, behind, newline, first, if_false, mk.injEq, and_true]
      omega

theorem behind_after (origin : Location) {p : Location} (counted : p.Counted) (t : Text) :
    origin.behind (p.after t) = (origin.behind p).after t := by
  induction t generalizing p with
  | nil => rfl
  | cons b t inductionHypothesis =>
    rw [after_cons, inductionHypothesis (counted_step counted b), behind_step origin counted b,
      after_cons]

end Location

/-! ### Tokens in a larger text -/

namespace Cursor

/-- A text is read as the same tokens wherever it begins. -/
theorem scan_behind (origin : Location) (c : Cursor) (counted : c.place.Counted) :
    (Cursor.scan ⟨c.rest, origin.behind c.place⟩).1 = c.scan.1.map (·.move origin.behind) := by
  fun_induction scan c with
  | case1 c ended =>
    have nothing := @scan_of_nil ⟨c.rest, origin.behind c.place⟩ (Symbol.read?_eq_none_iff.1 ended)
    rw [nothing]
    rfl
  | case2 c s rest found tokens finish scanned inductionHypothesis =>
    rw [scanned] at inductionHypothesis
    have others := inductionHypothesis (Location.counted_after counted s.lexeme)
    dsimp only at others
    rw [Location.behind_after origin counted] at others
    have first := @scan_of_read? ⟨c.rest, origin.behind c.place⟩ s rest found
    rw [first, others]
    rfl

theorem scan_at (s : Text) (origin : Location) :
    (Cursor.scan ⟨s, origin⟩).1 = (ofText s).scan.1.map (·.move origin.behind) := by
  have moved := scan_behind origin (ofText s) ⟨Nat.le_refl 1, Nat.le_refl 1⟩
  rwa [show origin.behind (ofText s).place = origin from Location.behind_start origin] at moved

end Cursor

/-- A symbol other than a lone backslash is read off a text whatever follows the text. -/
theorem Symbol.read?_append {t rest : Text} {s : Symbol} (found : read? t = some (s, rest))
    (whole : s ≠ .loneBackslash) (u : Text) : read? (t ++ u) = some (s, rest ++ u) := by
  match t with
  | [] => cases found
  | b :: t =>
    by_cases backslash : b = Text.backslash
    · subst backslash
      match t with
      | [] =>
        cases found
        exact absurd rfl whole
      | e :: t =>
        rw [read?_backslash] at found
        cases found
        exact read?_backslash e _
    · rw [read?_of_ne backslash] at found
      cases found
      exact read?_of_ne backslash _

/-- The tokens of two texts one behind the other, if no escape stretches over both. -/
theorem Cursor.scan_append (c : Cursor) (u : Text)
    (whole : ∀ t ∈ c.scan.1, t.symbol ≠ .loneBackslash) :
    (Cursor.scan ⟨c.rest ++ u, c.place⟩).1 =
      c.scan.1 ++ (Cursor.scan ⟨u, c.place.after c.rest⟩).1 := by
  fun_induction scan c with
  | case1 c ended => simp [Symbol.read?_eq_none_iff.1 ended]
  | case2 c s rest found tokens finish scanned inductionHypothesis =>
    rw [scanned] at inductionHypothesis
    obtain ⟨wholeFirst, wholeOthers⟩ := List.forall_mem_cons.1 whole
    have others := inductionHypothesis wholeOthers
    dsimp only at others
    have readFirst := Symbol.read?_append found wholeFirst u
    have first := @scan_of_read? ⟨c.rest ++ u, c.place⟩ s (rest ++ u) readFirst
    rw [first, others, ← Location.after_append, Symbol.lexeme_append_of_read? found]
    rfl

end PatternSampler
