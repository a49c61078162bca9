/-
Module: PatternSampler.Proofs.Spelling
Purpose: Texts that spell phrases. A symbol stands on its own if its lexeme is read as that
  symbol whatever follows, so a text put together from the lexemes of such symbols is read
  as these symbols again. A text spells a phrase if it is put together in this way and
  tokens with these symbols make up the phrase wherever they are. Phrases that follow each
  other are spelled by the concatenation of their texts.
Main exports: Symbol.Standing, Grammar.Spells, Grammar.Spells.append, Grammar.Spells.scan,
  Grammar.spells_run, Grammar.spells_literalText, Grammar.spells_number, Grammar.spells_count
-/
import PatternSampler.Proofs.Grammar
import PatternSampler.Proofs.NumberText

namespace PatternSampler

/-! ### Symbols that stand on their own -/

namespace Symbol

/-- A symbol is read off its lexeme whatever follows it. -/
def Standing (s : Symbol) : Prop := ∀ rest, read? (s.lexeme ++ rest) = some (s, rest)

theorem standing_mark (m : Mark) : (mark m).Standing := by
  intro rest
  have notBackslash : m.byte ≠ Text.backslash := by cases m <;> decide
  have found : ofByte m.byte = mark m := by
    unfold ofByte
    rw [Mark.ofByte?_eq_some_iff.2 rfl]
  have readFirst := read?_of_ne notBackslash rest
  rw [found] at readFirst
  exact readFirst

theorem standing_literal {b : UInt8} (unreserved : ¬ IsReserved b) : (literal b).Standing := by
  intro rest
  have notBackslash : b ≠ Text.backslash := fun equal => unreserved (.inl equal)
  have found : ofByte b = literal b := by
    unfold ofByte
    split
    next m isMark => exact absurd (.inr (Option.isSome_of_eq_some isMark)) unreserved
    next => rfl
  have readFirst := read?_of_ne notBackslash rest
  rw [found] at readFirst
  exact readFirst

theorem standing_escaped {b : UInt8} (noName : ¬ IsShorthandName b) : (escaped b).Standing := by
  intro rest
  have readFirst := read?_backslash b rest
  rw [ofEscape, if_neg noName] at readFirst
  exact readFirst

theorem standing_shorthand {b : UInt8} (name : IsShorthandName b) : (shorthand b).Standing := by
  intro rest
  have readFirst := read?_backslash b rest
  rw [ofEscape, if_pos name] at readFirst
  exact readFirst

/-- The lexemes of standing symbols are read as these symbols, and what is behind them as if it
stood alone. -/
theorem scan_lexemes {ss : List Symbol} (standing : ∀ s ∈ ss, s.Standing) (behind : Text)
    (place : Location) :
    ∃ ts : List Token, ts.map Token.symbol = ss ∧
      (Cursor.scan ⟨ss.flatMap lexeme ++ behind, place⟩).1 =
        ts ++ (Cursor.scan ⟨behind, place.after (ss.flatMap lexeme)⟩).1 := by
  induction ss generalizing place with
  | nil => exact ⟨[], rfl, rfl⟩
  | cons s ss inductionHypothesis =>
    obtain ⟨first, others⟩ := List.forall_mem_cons.1 standing
    obtain ⟨ts, symbols, tokens⟩ := inductionHypothesis others (place.after s.lexeme)
    have found := first (ss.flatMap lexeme ++ behind)
    rw [← List.append_assoc, ← List.flatMap_cons] at found
    refine ⟨⟨s, place⟩ :: ts, congrArg (s :: ·) symbols, ?_⟩
    rw [Cursor.scan_of_read? found, tokens, List.flatMap_cons, Location.after_append]
    rfl

end Symbol

/-! ### Reserved characters -/

theorem not_isReserved_of_ne {b : UInt8} (notBackslash : b ≠ Text.backslash)
    (notMark : ∀ m : Mark, m.byte ≠ b) : ¬ IsReserved b := by
  rintro (backslash | isMark)
  · exact notBackslash backslash
  · obtain ⟨m, found⟩ := Option.isSome_iff_exists.1 isMark
    exact notMark m (Mark.ofByte?_eq_some_iff.1 found)

theorem not_isReserved_of_isDigit {b : UInt8} (digit : IsDigit b) : ¬ IsReserved b := by
  apply not_isReserved_of_ne
  · rintro rfl
    exact absurd digit (by decide)
  · rintro m rfl
    cases m <;> exact absurd digit (by decide)

theorem not_isReserved_of_isLetter {b : UInt8} (letter : IsLetter b) : ¬ IsReserved b := by
  apply not_isReserved_of_ne
  · rintro rfl
    exact absurd letter (by decide)
  · rintro m rfl
    cases m <;> exact absurd letter (by decide)

theorem not_isShorthandName_of_isReserved {b : UInt8} (reserved : IsReserved b) :
    ¬ IsShorthandName b := by
  rintro (rfl | rfl | rfl)
  · exact absurd reserved (by decide)
  · exact absurd reserved (by decide)
  · exact absurd reserved (by decide)

/-! ### Texts and phrases -/

namespace Grammar

/-- A relation between the tokens from a phrase on and those behind it. -/
abbrev Phrase := List Token → List Token → Prop

/-- A text spells a phrase: it consists of the lexemes of standing symbols, and tokens with these
symbols make up the phrase. -/
def Spells (t : Text) (phrase : Phrase) : Prop :=
  ∃ ss : List Symbol, (∀ s ∈ ss, s.Standing) ∧ ss.flatMap Symbol.lexeme = t ∧
    ∀ ts rest : List Token, ts.map Token.symbol = ss → phrase (ts ++ rest) rest

namespace Spells

variable {t u : Text} {phrase next : Phrase}

theorem mono (spells : Spells t phrase)
    (implies : ∀ ts rest, phrase ts rest → next ts rest) : Spells t next := by
  obtain ⟨ss, standing, lexemes, made⟩ := spells
  exact ⟨ss, standing, lexemes, fun ts rest symbols => implies _ _ (made ts rest symbols)⟩

/-- One phrase behind another is spelled by one text behind the other. -/
theorem append (first : Spells t phrase) (second : Spells u next) :
    Spells (t ++ u) fun ts rest => ∃ us, phrase ts us ∧ next us rest := by
  obtain ⟨ss, standing, rfl, made⟩ := first
  obtain ⟨ss', standing', rfl, made'⟩ := second
  refine ⟨ss ++ ss', ?_, List.flatMap_append, ?_⟩
  · intro s member
    rcases List.mem_append.1 member with left | right
    · exact standing s left
    · exact standing' s right
  · intro ts rest symbols
    obtain ⟨front, back, rfl, frontSymbols, backSymbols⟩ := List.map_eq_append_iff.1 symbols
    refine ⟨back ++ rest, ?_, made' back rest backSymbols⟩
    rw [List.append_assoc]
    exact made front (back ++ rest) frontSymbols

/-- The empty text spells the empty phrase. -/
theorem nil : Spells [] fun ts rest => ts = rest := by
  refine ⟨[], fun s absent => absurd absent List.not_mem_nil, rfl, ?_⟩
  intro ts rest symbols
  rw [List.map_eq_nil_iff.1 symbols, List.nil_append]

/-- The lexeme of a standing symbol spells a single token. -/
theorem symbol {s : Symbol} (standing : s.Standing) :
    Spells s.lexeme fun ts rest => ∃ place, ts = ⟨s, place⟩ :: rest := by
  refine ⟨[s], ?_, List.append_nil _, ?_⟩
  · intro s' member
    rw [List.mem_singleton.1 member]
    exact standing
  · intro ts rest symbols
    obtain ⟨token, tokens, rfl, symbolEq, others⟩ := List.map_eq_cons_iff.1 symbols
    rw [List.map_eq_nil_iff.1 others]
    exact ⟨token.place, by rw [← symbolEq]; rfl⟩

theorem mark (m : Mark) : Spells [m.byte] fun ts rest => ∃ place, ts = ⟨.mark m, place⟩ :: rest :=
  symbol (Symbol.standing_mark m)

theorem literal {b : UInt8} (unreserved : ¬ IsReserved b) :
    Spells [b] fun ts rest => ∃ place, ts = ⟨.literal b, place⟩ :: rest :=
  symbol (Symbol.standing_literal unreserved)

/-- A text that spells a phrase is read as tokens that make up the phrase, wherever it begins and
whatever is behind it. -/
theorem scan_before (spells : Spells t phrase) (behind : Text) (place : Location) :
    phrase (Cursor.scan ⟨t ++ behind, place⟩).1 (Cursor.scan ⟨behind, place.after t⟩).1 := by
  obtain ⟨ss, standing, rfl, made⟩ := spells
  obtain ⟨ts, symbols, tokens⟩ := Symbol.scan_lexemes standing behind place
  rw [tokens]
  exact made ts _ symbols

theorem scan_at (spells : Spells t phrase) (place : Location) :
    phrase (Cursor.scan ⟨t, place⟩).1 [] := by
  have whole := spells.scan_before [] place
  rwa [List.append_nil, @Cursor.scan_of_nil ⟨[], _⟩ rfl] at whole

theorem scan (spells : Spells t phrase) : phrase (Cursor.ofText t).scan.1 [] :=
  spells.scan_at Location.start

end Spells

/-! ### Runs and numbers -/

/-- Unreserved characters spell a run of tokens. -/
theorem spells_run {p : Symbol → Bool} {t : Text}
    (holds : ∀ b ∈ t, ¬ IsReserved b ∧ p (.literal b)) :
    Spells t fun ts rest => Run p ts t rest := by
  induction t with
  | nil =>
    apply Spells.nil.mono
    rintro ts rest rfl
    exact .done ts
  | cons b t inductionHypothesis =>
    obtain ⟨unreserved, first⟩ := holds b List.mem_cons_self
    have others := inductionHypothesis fun c member => holds c (List.mem_cons_of_mem b member)
    apply ((Spells.literal unreserved).append others).mono
    rintro ts rest ⟨us, ⟨place, rfl⟩, run⟩
    exact @Run.more p ⟨.literal b, place⟩ us rest t first run

theorem spells_digits {t : Text} (digits : ∀ b ∈ t, IsDigit b) :
    Spells t fun ts rest => Run Symbol.isDigit ts t rest := by
  apply spells_run
  intro b member
  exact ⟨not_isReserved_of_isDigit (digits b member), decide_eq_true (digits b member)⟩

theorem spells_letters {t : Text} (letters : ∀ b ∈ t, IsLetter b) :
    Spells t fun ts rest => Run Symbol.isLetter ts t rest := by
  apply spells_run
  intro b member
  exact ⟨not_isReserved_of_isLetter (letters b member), decide_eq_true (letters b member)⟩

/-- A character written so that it stands for itself is one token. -/
theorem spells_literalText (b : UInt8) :
    Spells (literalText b) fun ts rest =>
      ∃ s place, (s = .literal b ∨ s = .escaped b) ∧ ts = ⟨s, place⟩ :: rest := by
  unfold literalText
  split
  next reserved =>
    have escaped := Symbol.standing_escaped (not_isShorthandName_of_isReserved reserved)
    apply (Spells.symbol escaped).mono
    rintro ts rest ⟨place, rfl⟩
    exact ⟨_, place, .inr rfl, rfl⟩
  next unreserved =>
    apply (Spells.literal unreserved).mono
    rintro ts rest ⟨place, rfl⟩
    exact ⟨_, place, .inl rfl, rfl⟩

theorem spells_minus (negative : Bool) :
    Spells (Numeral.signText negative) fun ts rest => Minus ts negative rest := by
  cases negative with
  | false =>
    apply Spells.nil.mono
    rintro ts rest rfl
    exact .absent ts
  | true =>
    apply (Spells.literal (show ¬ IsReserved 0x2D by decide)).mono
    rintro ts rest ⟨place, rfl⟩
    exact .present place rest

theorem spells_sign {sign : Text} (known : sign = [0x2D] ∨ sign = [0x2B]) :
    Spells sign fun ts rest => Sign ts sign rest := by
  rcases known with rfl | rfl
  · apply (Spells.literal (show ¬ IsReserved 0x2D by decide)).mono
    rintro ts rest ⟨place, rfl⟩
    exact .minus place rest
  · apply (Spells.mark .plus).mono
    rintro ts rest ⟨place, rfl⟩
    exact .plus place rest

theorem spells_mantissa {whole : Text} {fraction : Option Text} (nonempty : whole ≠ [])
    (wholeDigits : ∀ b ∈ whole, IsDigit b)
    (fractionDigits : ∀ digits ∈ fraction, ∀ b ∈ digits, IsDigit b) :
    Spells (whole ++ Numeral.fractionText fraction)
      fun ts rest => Mantissa ts whole fraction rest := by
  have before := spells_digits wholeDigits
  cases fraction with
  | none =>
    apply (before.append Spells.nil).mono
    rintro ts rest ⟨us, run, rfl⟩
    exact .integer run nonempty
  | some digits =>
    have behind := spells_digits (fractionDigits digits rfl)
    apply (before.append ((Spells.mark .dot).append behind)).mono
    rintro ts rest ⟨us, run, vs, ⟨place, rfl⟩, decimals⟩
    exact .pointed run nonempty decimals

theorem spells_power {exponent : Option Exponent} (spelled : ∀ e ∈ exponent, e.Spelled) :
    Spells (Numeral.exponentText exponent) fun ts rest => Power ts exponent rest := by
  cases exponent with
  | none =>
    apply Spells.nil.mono
    rintro ts rest rfl
    exact .absent ts
  | some e =>
    obtain ⟨letterEq, known, nonempty, digits⟩ := spelled e rfl
    obtain ⟨letter, sign, exponentDigits⟩ := e
    cases letterEq
    have opens := Spells.literal (show ¬ IsReserved 0x65 by decide)
    apply (opens.append ((spells_sign known).append (spells_digits digits))).mono
    rintro ts rest ⟨us, ⟨place, rfl⟩, vs, signed, run⟩
    exact .present (.inl rfl) signed run nonempty

/-- The text of a numeral spells the number. -/
theorem spells_number {n : Numeral} (spelled : n.Spelled) :
    Spells n.text fun ts rest => Number ts n rest := by
  obtain ⟨nonempty, wholeDigits, fractionDigits, exponentSpelled⟩ := spelled
  have mantissa := spells_mantissa nonempty wholeDigits fractionDigits
  have whole := ((spells_minus n.negative).append mantissa).append (spells_power exponentSpelled)
  rw [← List.append_assoc] at whole
  apply whole.mono
  rintro ts rest ⟨us, ⟨vs, minus, parts⟩, power⟩
  exact .intro minus parts power

/-- The numeral of a count within the limit spells the count. -/
theorem spells_count {n : UInt64} (limited : n.toNat ≤ maxRepeatCount) :
    Spells (Text.decimal n.toNat) fun ts rest => Count ts n rest := by
  apply (spells_digits (Text.isDigit_of_mem_decimal n.toNat)).mono
  intro ts rest run
  have value := Text.decimalValue_decimal n.toNat
  have count := Count.intro run (Text.decimal_ne_nil n.toNat) (by rw [value]; exact limited)
  rw [value, UInt64.ofNat_toNat] at count
  exact count

end Grammar

end PatternSampler
