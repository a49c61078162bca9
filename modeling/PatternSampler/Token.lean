/-
Module: PatternSampler.Token
Purpose: Tokens of the template language. A template is read one character at a time: a
  reserved character is a mark, a backslash makes the next character an escape or one of
  the three shorthand classes, and every other character stands for itself.
Main exports: Mark, Symbol, Symbol.lexeme, Symbol.read?, Symbol.Begins, Token
-/
import PatternSampler.Location

namespace PatternSampler

/-! ### Marks -/

/-- The reserved characters. -/
inductive Mark where
  | pipe | leftParen | rightParen | caret | dollar | dot
  | star | plus | question | leftBrace | rightBrace
  | leftBracket | rightBracket | tilde | comma | equals
deriving DecidableEq, Repr

namespace Mark

/-- The character a mark is written with. -/
def byte : Mark → UInt8
  | pipe => 0x7C
  | leftParen => 0x28
  | rightParen => 0x29
  | caret => 0x5E
  | dollar => 0x24
  | dot => 0x2E
  | star => 0x2A
  | plus => 0x2B
  | question => 0x3F
  | leftBrace => 0x7B
  | rightBrace => 0x7D
  | leftBracket => 0x5B
  | rightBracket => 0x5D
  | tilde => 0x7E
  | comma => 0x2C
  | equals => 0x3D

/-- Every mark. -/
def all : List Mark :=
  [pipe, leftParen, rightParen, caret, dollar, dot, star, plus, question, leftBrace,
    rightBrace, leftBracket, rightBracket, tilde, comma, equals]

/-- The mark that a character is reserved for. -/
def ofByte? (b : UInt8) : Option Mark :=
  all.find? (·.byte == b)

/-- The reserved characters are exactly the spellings of the marks. -/
theorem ofByte?_eq_some_iff {b : UInt8} {m : Mark} : ofByte? b = some m ↔ m.byte = b := by
  constructor
  · intro h
    simpa using List.find?_some h
  · rintro rfl
    cases m <;> rfl

end Mark

/-! ### Symbols -/

/-- What a token says, apart from its place. -/
inductive Symbol where
  /-- An unreserved character, which stands for itself. -/
  | literal (b : UInt8)
  /-- A character after a backslash, which stands for itself. -/
  | escaped (b : UInt8)
  /-- One of the classes written as a backslash and a letter. -/
  | shorthand (b : UInt8)
  /-- A reserved character. -/
  | mark (m : Mark)
  /-- A backslash at the very end of the text, with nothing to escape. -/
  | loneBackslash
  /-- The end of the text. -/
  | stop
deriving DecidableEq, Repr

/-- The letters that name a shorthand class after a backslash: `w`, `s` and `d`. -/
def IsShorthandName (b : UInt8) : Prop := b = 0x77 ∨ b = 0x73 ∨ b = 0x64

instance (b : UInt8) : Decidable (IsShorthandName b) := inferInstanceAs (Decidable (_ ∨ _))

namespace Symbol

/-- The source text of a symbol. -/
def lexeme : Symbol → Text
  | literal b => [b]
  | escaped b => [Text.backslash, b]
  | shorthand b => [Text.backslash, b]
  | mark m => [m.byte]
  | loneBackslash => [Text.backslash]
  | stop => []

/-- The single character that a symbol carries; NUL at the end of the text. -/
def value : Symbol → UInt8
  | literal b => b
  | escaped b => b
  | shorthand b => b
  | mark m => m.byte
  | loneBackslash => Text.backslash
  | stop => 0

/-- The symbol of a character that follows a backslash. -/
def ofEscape (b : UInt8) : Symbol :=
  if IsShorthandName b then shorthand b else escaped b

/-- The symbol of a character that no backslash precedes. -/
def ofByte (b : UInt8) : Symbol :=
  match Mark.ofByte? b with
  | some m => mark m
  | none => literal b

/-- Reads one symbol off the front of a text, with the text that follows it. There is none
only at the end of the text. -/
def read? : Text → Option (Symbol × Text)
  | [] => none
  | b :: rest =>
    if b = Text.backslash then
      match rest with
      | [] => some (loneBackslash, [])
      | e :: rest => some (ofEscape e, rest)
    else some (ofByte b, rest)

/-- An unescaped decimal digit. -/
def isDigit : Symbol → Bool
  | literal b => IsDigit b
  | _ => false

/-- An unescaped letter. -/
def isLetter : Symbol → Bool
  | literal b => IsLetter b
  | _ => false

/-- The marks that open a quantifier: `*`, `+`, `?` and `{`. -/
def opensRepeat : Symbol → Bool
  | mark .star | mark .plus | mark .question | mark .leftBrace => true
  | _ => false

/-- The symbols that an atom can begin with. The lone backslash is among them so that it
is reported where it stands. -/
def opensAtom : Symbol → Bool
  | literal _ | escaped _ | shorthand _ | loneBackslash => true
  | mark .dot | mark .leftBracket | mark .leftParen => true
  | _ => false

@[simp] theorem lexeme_ofEscape (b : UInt8) : (ofEscape b).lexeme = [Text.backslash, b] := by
  unfold ofEscape; split <;> rfl

@[simp] theorem lexeme_ofByte (b : UInt8) : (ofByte b).lexeme = [b] := by
  unfold ofByte
  split
  next m h => simp [lexeme, Mark.ofByte?_eq_some_iff.1 h]
  next => rfl

theorem read?_of_ne {b : UInt8} (notBackslash : b ≠ Text.backslash) (rest : Text) :
    read? (b :: rest) = some (ofByte b, rest) := if_neg notBackslash

theorem read?_backslash (b : UInt8) (rest : Text) :
    read? (Text.backslash :: b :: rest) = some (ofEscape b, rest) := by
  rw [read?, if_pos rfl]

/-- What a text can begin with: a byte that stands for itself or is reserved, an escape of two
bytes, or a backslash that is all of the text. -/
inductive Begins : Text → Symbol → Text → Prop where
  | plain {b : UInt8} (notBackslash : b ≠ Text.backslash) (rest : Text) :
      Begins (b :: rest) (ofByte b) rest
  | escape (e : UInt8) (rest : Text) : Begins (Text.backslash :: e :: rest) (ofEscape e) rest
  | lone : Begins [Text.backslash] loneBackslash []

theorem begins_of_read? {t rest : Text} {s : Symbol} (found : read? t = some (s, rest)) :
    Begins t s rest := by
  match t with
  | [] => cases found
  | b :: u =>
    by_cases backslash : b = Text.backslash
    · subst backslash
      match u with
      | [] =>
        cases found
        exact .lone
      | e :: u =>
        rw [read?_backslash] at found
        cases found
        exact .escape e rest
    · rw [read?_of_ne backslash] at found
      cases found
      exact .plain backslash rest

/-- Reading a symbol splits its lexeme off the text. -/
theorem lexeme_append_of_read? {t rest : Text} {s : Symbol} (h : read? t = some (s, rest)) :
    s.lexeme ++ rest = t := by
  cases begins_of_read? h with
  | plain => simp
  | escape => simp
  | lone => rfl

theorem lexeme_ne_nil_of_read? {t rest : Text} {s : Symbol} (h : read? t = some (s, rest)) :
    s.lexeme ≠ [] := by
  cases begins_of_read? h with
  | plain => simp
  | escape => simp
  | lone => simp [lexeme]

/-- Reading a symbol leaves a shorter text. -/
theorem length_lt_of_read? {t rest : Text} {s : Symbol} (h : read? t = some (s, rest)) :
    rest.length < t.length := by
  have hs := List.length_pos_iff.2 (lexeme_ne_nil_of_read? h)
  rw [← lexeme_append_of_read? h, List.length_append]
  omega

@[simp] theorem read?_eq_none_iff {t : Text} : read? t = none ↔ t = [] := by
  match t with
  | [] => simp [read?]
  | b :: u =>
    simp only [read?]
    split
    next => split <;> simp
    next => simp

end Symbol

/-! ### Tokens -/

/-- A symbol and the place where it is written. -/
structure Token where
  symbol : Symbol
  place : Location
deriving DecidableEq, Repr

/-- The source text of a token. -/
def Token.lexeme (t : Token) : Text := t.symbol.lexeme

/-- The source text of consecutive tokens. -/
def Token.lexemes (ts : List Token) : Text := ts.flatMap Token.lexeme

theorem Token.lexemes_append (ts us : List Token) :
    Token.lexemes (ts ++ us) = Token.lexemes ts ++ Token.lexemes us := List.flatMap_append

end PatternSampler
