/-
Module: PatternSampler.Proofs.Tokens
Purpose: The tokens of a text are the text cut into pieces, and each of them knows where it stands.
  Nothing is lost, and the last token alone is the stop token. Offsets count the bytes before a
  token, lines count the newlines among these, and columns count the bytes behind the last
  newline. A lone backslash is read only at the end of a text whose last byte is a backslash
  that no other one escapes.
Main exports: Text.lastLine, Text.OpensEscape, Text.EndsInEscape, Location.column_after_start,
  Cursor.place_of_scan, Token.Layout, Cursor.layout_tokens
-/
import Mathlib.Data.List.DropRight
import PatternSampler.Token.Cursor

namespace PatternSampler

/-! ### Columns -/

/-- The part of a text behind its last newline; the whole text if it has none. -/
def Text.lastLine (t : Text) : Text := t.rtakeWhile (· ≠ Text.newline)

namespace Text

@[simp] theorem lastLine_concat_newline (t : Text) : lastLine (t ++ [newline]) = [] :=
  List.rtakeWhile_concat_neg _ _ _ (by simp)

theorem lastLine_concat_of_ne {b : UInt8} (other : b ≠ newline) (t : Text) :
    lastLine (t ++ [b]) = lastLine t ++ [b] :=
  List.rtakeWhile_concat_pos _ _ _ (by simpa using other)

end Text

/-- Columns count the bytes behind the last newline. -/
theorem Location.column_after_start (t : Text) :
    (Location.start.after t).column = 1 + (Text.lastLine t).length := by
  induction t using List.reverseRecOn with
  | nil => rfl
  | append_singleton t b inductionHypothesis =>
    rw [after_append, after_cons, after_nil, step]
    by_cases newline : b = Text.newline
    · subst newline
      rw [if_pos rfl, Text.lastLine_concat_newline]
      rfl
    · rw [if_neg newline, Text.lastLine_concat_of_ne newline, List.length_append]
      dsimp only
      rw [inductionHypothesis]
      rfl

/-! ### Escapes -/

namespace Text

/-- The byte at a position is a backslash that is not itself escaped: the byte before it, if there
is one, is not such a backslash. -/
def OpensEscape (t : Text) : Nat → Prop
  | 0 => t[0]? = some backslash
  | i + 1 => t[i + 1]? = some backslash ∧ ¬ t.OpensEscape i

/-- A text ends with a backslash that is not itself escaped. -/
def EndsInEscape (t : Text) : Prop := ∃ i, i + 1 = t.length ∧ t.OpensEscape i

variable {b : UInt8}

/-- A byte that is no backslash does not matter to the escapes behind it. -/
theorem opensEscape_cons_succ (plain : b ≠ backslash) (t : Text) (i : Nat) :
    OpensEscape (b :: t) (i + 1) ↔ OpensEscape t i := by
  induction i with
  | zero => simp [OpensEscape, plain]
  | succ i inductionHypothesis =>
    change (b :: t)[i + 2]? = some backslash ∧ ¬ OpensEscape (b :: t) (i + 1) ↔
      t[i + 1]? = some backslash ∧ ¬ OpensEscape t i
    rw [inductionHypothesis, List.getElem?_cons_succ]

/-- An escape of two bytes does not matter to the escapes behind it. -/
theorem opensEscape_escape_succ (e : UInt8) (t : Text) (i : Nat) :
    OpensEscape (backslash :: e :: t) (i + 2) ↔ OpensEscape t i := by
  induction i with
  | zero => simp [OpensEscape]
  | succ i inductionHypothesis =>
    change (backslash :: e :: t)[i + 3]? = some backslash ∧
        ¬ OpensEscape (backslash :: e :: t) (i + 2) ↔
      t[i + 1]? = some backslash ∧ ¬ OpensEscape t i
    rw [inductionHypothesis, List.getElem?_cons_succ, List.getElem?_cons_succ]

theorem not_endsInEscape_nil : ¬ EndsInEscape [] := by
  rintro ⟨i, lengthEq, -⟩
  cases lengthEq

theorem endsInEscape_backslash : EndsInEscape [backslash] := ⟨0, rfl, rfl⟩

theorem endsInEscape_cons_of_ne (plain : b ≠ backslash) (t : Text) :
    EndsInEscape (b :: t) ↔ EndsInEscape t := by
  constructor
  · rintro ⟨i, lengthEq, opens⟩
    cases i with
    | zero => exact absurd (Option.some.inj opens) plain
    | succ i => exact ⟨i, Nat.succ.inj lengthEq, (opensEscape_cons_succ plain t i).1 opens⟩
  · rintro ⟨i, lengthEq, opens⟩
    exact ⟨i + 1, congrArg Nat.succ lengthEq, (opensEscape_cons_succ plain t i).2 opens⟩

theorem endsInEscape_escape (e : UInt8) (t : Text) :
    EndsInEscape (backslash :: e :: t) ↔ EndsInEscape t := by
  constructor
  · rintro ⟨i, lengthEq, opens⟩
    match i with
    | 0 => cases lengthEq
    | 1 =>
      -- The second byte may be a backslash, but then the first one escapes it.
      exact absurd rfl opens.2
    | i + 2 =>
      exact ⟨i, Nat.succ.inj (Nat.succ.inj lengthEq), (opensEscape_escape_succ e t i).1 opens⟩
  · rintro ⟨i, lengthEq, opens⟩
    exact ⟨i + 2, congrArg (· + 2) lengthEq, (opensEscape_escape_succ e t i).2 opens⟩

end Text

/-! ### The symbol at the front -/

namespace Symbol

theorem ofByte_ne_stop (b : UInt8) : ofByte b ≠ stop := by
  unfold ofByte
  split
  next => exact nofun
  next => exact nofun

theorem ofByte_ne_loneBackslash (b : UInt8) : ofByte b ≠ loneBackslash := by
  unfold ofByte
  split
  next => exact nofun
  next => exact nofun

theorem ofEscape_ne_stop (e : UInt8) : ofEscape e ≠ stop := by
  unfold ofEscape
  split
  next => exact nofun
  next => exact nofun

theorem ofEscape_ne_loneBackslash (e : UInt8) : ofEscape e ≠ loneBackslash := by
  unfold ofEscape
  split
  next => exact nofun
  next => exact nofun

variable {t rest : Text} {s : Symbol}

theorem Begins.ne_stop (begins : Begins t s rest) : s ≠ stop := by
  cases begins with
  | plain => exact ofByte_ne_stop _
  | escape => exact ofEscape_ne_stop _
  | lone => exact nofun

/-- Behind a lone backslash there is nothing. -/
theorem Begins.eq_nil_of_lone (begins : Begins t loneBackslash rest) : rest = [] := by
  generalize symbolEq : loneBackslash = s at begins
  cases begins with
  | plain => exact absurd symbolEq.symm (ofByte_ne_loneBackslash _)
  | escape => exact absurd symbolEq.symm (ofEscape_ne_loneBackslash _)
  | lone => rfl

/-- A text ends in an escape if it is a lone backslash, or if the text behind its first symbol
does. -/
theorem Begins.endsInEscape_iff (begins : Begins t s rest) :
    t.EndsInEscape ↔ s = loneBackslash ∨ rest.EndsInEscape := by
  cases begins with
  | plain notBackslash rest =>
    rw [Text.endsInEscape_cons_of_ne notBackslash]
    exact (or_iff_right (ofByte_ne_loneBackslash _)).symm
  | escape e rest =>
    rw [Text.endsInEscape_escape]
    exact (or_iff_right (ofEscape_ne_loneBackslash _)).symm
  | lone => exact iff_of_true Text.endsInEscape_backslash (.inl rfl)

end Symbol

/-! ### All tokens -/

namespace Cursor

/-- A token stands behind all that is written before it. -/
theorem place_of_scan {c : Cursor} {before behind : List Token} {t : Token}
    (splits : c.scan.1 = before ++ t :: behind) :
    t.place = c.place.after (Token.lexemes before) := by
  fun_induction scan c generalizing before with
  | case1 => exact absurd splits.symm (List.append_ne_nil_of_right_ne_nil _ (List.cons_ne_nil _ _))
  | case2 c s rest found tokens finish scanned inductionHypothesis =>
    cases before with
    | nil =>
      cases splits
      rfl
    | cons u before =>
      obtain ⟨rfl, others⟩ := List.cons.inj splits
      rw [scanned] at inductionHypothesis
      rw [inductionHypothesis others, Token.lexemes, Token.lexemes, List.flatMap_cons,
        Location.after_append]
      rfl

/-- No token that is scanned is the stop token. -/
theorem ne_stop_of_mem_scan (c : Cursor) : ∀ t ∈ c.scan.1, t.symbol ≠ .stop :=
  forall_mem_scan Symbol.Begins.ne_stop c

/-- A lone backslash is scanned exactly where the text ends in an escape. -/
theorem exists_lone_iff (c : Cursor) :
    (∃ t ∈ c.scan.1, t.symbol = .loneBackslash) ↔ c.rest.EndsInEscape := by
  fun_induction scan c with
  | case1 c atEnd =>
    rw [Symbol.read?_eq_none_iff.1 atEnd]
    exact iff_of_false (by simp) Text.not_endsInEscape_nil
  | case2 c s rest found tokens finish scanned inductionHypothesis =>
    rw [scanned] at inductionHypothesis
    rw [(Symbol.begins_of_read? found).endsInEscape_iff, ← inductionHypothesis]
    exact List.exists_mem_cons_iff _ _ _

/-- Nothing is scanned behind a lone backslash. -/
theorem eq_nil_of_lone {c : Cursor} {before behind : List Token} {t : Token}
    (splits : c.scan.1 = before ++ t :: behind) (lone : t.symbol = .loneBackslash) :
    behind = [] := by
  fun_induction scan c generalizing before with
  | case1 => exact absurd splits.symm (List.append_ne_nil_of_right_ne_nil _ (List.cons_ne_nil _ _))
  | case2 c s rest found tokens finish scanned inductionHypothesis =>
    cases before with
    | nil =>
      cases splits
      have begins := Symbol.begins_of_read? found
      rw [show s = .loneBackslash from lone] at begins
      rw [begins.eq_nil_of_lone, scan_of_nil rfl] at scanned
      cases scanned
      rfl
    | cons u before =>
      obtain ⟨-, others⟩ := List.cons.inj splits
      rw [scanned] at inductionHypothesis
      exact inductionHypothesis others

/-- A lone backslash is the only one. -/
theorem ne_lone_of_mem_before {c : Cursor} {before behind : List Token} {t : Token}
    (splits : c.scan.1 = before ++ t :: behind) :
    ∀ u ∈ before, u.symbol ≠ .loneBackslash := by
  intro u member lone
  obtain ⟨front, between, rfl⟩ := List.append_of_mem member
  rw [List.append_assoc, List.cons_append] at splits
  have nothing := eq_nil_of_lone splits lone
  exact List.append_ne_nil_of_right_ne_nil _ (List.cons_ne_nil _ _) nothing

/-- A token of a text is the stop token at its end, or one that is scanned before it. -/
theorem cases_of_tokens {c : Cursor} {before behind : List Token} {t : Token}
    (splits : c.tokens = before ++ t :: behind) :
    (before = c.scan.1 ∧ t = ⟨.stop, c.scan.2⟩ ∧ behind = []) ∨
      ∃ others, behind = others ++ [⟨.stop, c.scan.2⟩] ∧ c.scan.1 = before ++ t :: others := by
  rcases List.eq_nil_or_concat behind with rfl | ⟨others, last, rfl⟩
  · obtain ⟨scanEq, stopEq⟩ := List.append_inj' splits rfl
    exact .inl ⟨scanEq.symm, (List.singleton_inj.1 stopEq).symm, rfl⟩
  · rw [tokens, List.concat_eq_append, ← List.cons_append, ← List.append_assoc] at splits
    obtain ⟨scanEq, stopEq⟩ := List.append_inj' splits rfl
    exact .inr ⟨others, by rw [List.concat_eq_append, List.singleton_inj.1 stopEq], scanEq⟩

/-- A token of a text stands behind all that is written before it, and so does the stop token. -/
theorem place_of_tokens {c : Cursor} {before behind : List Token} {t : Token}
    (splits : c.tokens = before ++ t :: behind) :
    t.place = c.place.after (Token.lexemes before) := by
  rcases cases_of_tokens splits with ⟨rfl, rfl, -⟩ | ⟨others, -, scanned⟩
  · rw [lexemes_scan]
    exact scan_finish c
  · exact place_of_scan scanned

/-- The stop token is written as nothing, so all tokens together make up the text. -/
theorem lexemes_tokens (c : Cursor) : Token.lexemes c.tokens = c.rest := by
  rw [tokens, Token.lexemes_append, lexemes_scan]
  exact List.append_nil _

end Cursor

/-- How the tokens of a text lie in it. -/
structure Token.Layout (s : Text) (ts : List Token) : Prop where
  lossless : Token.lexemes ts = s
  stops : ∃ before place, ts = before ++ [⟨.stop, place⟩] ∧ ∀ t ∈ before, t.symbol ≠ .stop
  offset : ∀ before t behind, ts = before ++ t :: behind →
    t.place.offset = (Token.lexemes before).length
  line : ∀ t ∈ ts, t.place.line = 1 + (s.take t.place.offset).count Text.newline
  column : ∀ t ∈ ts, t.place.column = 1 + (Text.lastLine (s.take t.place.offset)).length
  loneIff : (∃ t ∈ ts, t.symbol = .loneBackslash) ↔ s.EndsInEscape
  loneLast : ∀ before t behind, ts = before ++ t :: behind → t.symbol = .loneBackslash →
    (∀ u ∈ before, u.symbol ≠ .loneBackslash) ∧ ∃ place, behind = [⟨.stop, place⟩]

namespace Cursor

/-- The place of a token of a text is what its offset says: it lies behind that many bytes. -/
theorem place_eq_after_take {s : Text} {t : Token} (member : t ∈ (ofText s).tokens) :
    t.place = Location.start.after (s.take t.place.offset) := by
  obtain ⟨before, behind, splits⟩ := List.append_of_mem member
  have placeEq : t.place = Location.start.after (Token.lexemes before) := place_of_tokens splits
  have textEq := lexemes_tokens (ofText s)
  rw [splits, Token.lexemes_append] at textEq
  have offsetEq : t.place.offset = (Token.lexemes before).length := by
    rw [placeEq, Location.offset_after]
    exact Nat.zero_add _
  have front : s.take t.place.offset = Token.lexemes before := by
    rw [offsetEq, show s = _ from textEq.symm]
    exact List.take_left
  rw [front, ← placeEq]

/-- The tokens of a text are the text cut into pieces, each with the place where it stands. -/
theorem layout_tokens (s : Text) : Token.Layout s (ofText s).tokens where
  lossless := lexemes_tokens (ofText s)
  stops := ⟨_, _, rfl, ne_stop_of_mem_scan (ofText s)⟩
  offset := by
    intro before t behind splits
    rw [place_of_tokens splits, Location.offset_after]
    exact Nat.zero_add _
  line := by
    intro t member
    conv_lhs => rw [place_eq_after_take member, Location.line_after]
    rfl
  column := by
    intro t member
    conv_lhs => rw [place_eq_after_take member, Location.column_after_start]
  loneIff := by
    refine Iff.trans ?_ (exists_lone_iff (ofText s))
    simp [tokens]
  loneLast := by
    intro before t behind splits lone
    rcases cases_of_tokens splits with ⟨-, rfl, -⟩ | ⟨others, behindEq, scanned⟩
    · cases lone
    · rw [behindEq, eq_nil_of_lone scanned lone]
      exact ⟨ne_lone_of_mem_before scanned, _, rfl⟩

end Cursor

end PatternSampler
