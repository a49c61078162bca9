/-
Module: PatternSampler.Token.Cursor
Purpose: Reading tokens from a text. A cursor is the text that is left and the place where
  it starts; it can be advanced by one token, can look ahead without moving, and can give
  all the tokens that are left. At the end of the text every further token is the stop
  token of that place.
Main exports: Cursor, Cursor.ofText, Cursor.next, Cursor.lookAhead, Cursor.tokens, Cursor.scan
-/
import PatternSampler.Token

namespace PatternSampler

/-- A position in a text that is being read. -/
structure Cursor where
  rest : Text
  place : Location
deriving DecidableEq, Repr

namespace Cursor

/-- The cursor at the beginning of a text. -/
def ofText (t : Text) : Cursor := ⟨t, Location.start⟩

/-- The token at the cursor and the cursor behind it. At the end the token is the stop
token and the cursor stays. -/
def next (c : Cursor) : Token × Cursor :=
  match Symbol.read? c.rest with
  | none => (⟨.stop, c.place⟩, c)
  | some (s, rest) => (⟨s, c.place⟩, ⟨rest, c.place.after s.lexeme⟩)

/-- The token `n` places behind the one at the cursor; the stop token if the text ends before.
The cursor does not move. -/
def lookAhead (c : Cursor) : Nat → Token
  | 0 => c.next.1
  | n + 1 => if c.rest = [] then c.next.1 else c.next.2.lookAhead n

/-- The token at the cursor. -/
def peek (c : Cursor) : Token := c.lookAhead 0

/-- The tokens up to the end of the text, without the stop token, and the place of the
end. -/
def scan (c : Cursor) : List Token × Location :=
  match _h : Symbol.read? c.rest with
  | none => ([], c.place)
  | some (s, rest) =>
    let (tokens, finish) := scan ⟨rest, c.place.after s.lexeme⟩
    (⟨s, c.place⟩ :: tokens, finish)
termination_by c.rest.length
decreasing_by exact Symbol.length_lt_of_read? _h

/-- All tokens from the cursor on; the last one is the stop token. -/
def tokens (c : Cursor) : List Token :=
  c.scan.1 ++ [⟨.stop, c.scan.2⟩]

/-- The cursor at the end of the text. -/
def finish (c : Cursor) : Cursor := ⟨[], c.scan.2⟩

theorem scan_of_nil {c : Cursor} (h : c.rest = []) : c.scan = ([], c.place) := by
  rw [scan]
  split
  next => rfl
  next s rest h' => simp [h, Symbol.read?] at h'

/-- The tokens from a cursor are the one at it and those of the cursor behind it. -/
theorem scan_of_read? {c : Cursor} {s : Symbol} {rest : Text}
    (h : Symbol.read? c.rest = some (s, rest)) :
    c.scan = (⟨s, c.place⟩ :: (Cursor.scan ⟨rest, c.place.after s.lexeme⟩).1,
      (Cursor.scan ⟨rest, c.place.after s.lexeme⟩).2) := by
  rw [scan]
  split
  next h' => simp [h] at h'
  next s' rest' h' =>
    rw [h] at h'
    cases h'
    rfl

/-- The scan loses nothing: the lexemes make up the text. -/
theorem lexemes_scan (c : Cursor) : Token.lexemes c.scan.1 = c.rest := by
  fun_induction scan c with
  | case1 c h => simpa [Token.lexemes] using (Symbol.read?_eq_none_iff.1 h).symm
  | case2 c s rest h tokens finish heq ih =>
    rw [heq] at ih
    simp only [Token.lexemes, List.flatMap_cons, Token.lexeme] at ih ⊢
    rw [ih, Symbol.lexeme_append_of_read? h]

/-- What holds of every symbol that a text can begin with holds of all that are scanned. -/
theorem forall_mem_scan {P : Symbol → Prop}
    (each : ∀ {t rest : Text} {s : Symbol}, Symbol.Begins t s rest → P s) (c : Cursor) :
    ∀ t ∈ c.scan.1, P t.symbol := by
  fun_induction scan c with
  | case1 => exact fun t absent => absurd absent List.not_mem_nil
  | case2 c s rest found tokens finish scanned inductionHypothesis =>
    rw [scanned] at inductionHypothesis
    exact List.forall_mem_cons.2 ⟨each (Symbol.begins_of_read? found), inductionHypothesis⟩

/-- The scan ends at the place behind the whole text. -/
theorem scan_finish (c : Cursor) : c.scan.2 = c.place.after c.rest := by
  fun_induction scan c with
  | case1 c h => simp [Symbol.read?_eq_none_iff.1 h]
  | case2 c s rest h tokens finish heq ih =>
    rw [heq] at ih
    simp only at ih ⊢
    rw [ih, ← Location.after_append, Symbol.lexeme_append_of_read? h]

end Cursor

end PatternSampler
