/-
Module: PatternSampler.Token.Reader
Purpose: Reading structures from a list of tokens. What is left after reading is always an end
  piece of the tokens there were, and the results of readers say so: a span may have read
  nothing, a step has read at least one token. Loops over steps end for this reason.
Main exports: Span, Step, Reader, peekSymbol, peekPlace, refuse, tokensBetween
-/
import PatternSampler.Refusal

namespace PatternSampler

/-- A value read from the front of a list of tokens, and the tokens left. -/
structure Span (α : Type) (ts : List Token) where
  value : α
  rest : List Token
  isSuffix : rest <:+ ts

/-- A span that has read at least one token. -/
structure Step (α : Type) (ts : List Token) extends Span α ts where
  shorter : rest.length < ts.length

namespace Span

variable {α β : Type} {ts us : List Token}

/-- Nothing read. -/
def stay (a : α) : Span α ts := ⟨a, ts, List.suffix_rfl⟩

/-- The same span with another value. -/
def map (f : α → β) (s : Span α ts) : Span β ts := ⟨f s.value, s.rest, s.isSuffix⟩

/-- A span at an end piece of the tokens, seen from the whole list. -/
def within (h : us <:+ ts) (s : Span α us) : Span α ts :=
  ⟨s.value, s.rest, s.isSuffix.trans h⟩

@[simp] theorem value_stay (a : α) : (stay a : Span α ts).value = a := rfl
@[simp] theorem rest_stay (a : α) : (stay a : Span α ts).rest = ts := rfl
@[simp] theorem value_map (f : α → β) (s : Span α ts) : (s.map f).value = f s.value := rfl
@[simp] theorem rest_map (f : α → β) (s : Span α ts) : (s.map f).rest = s.rest := rfl
@[simp] theorem value_within (h : us <:+ ts) (s : Span α us) : (s.within h).value = s.value := rfl
@[simp] theorem rest_within (h : us <:+ ts) (s : Span α us) : (s.within h).rest = s.rest := rfl

end Span

namespace Step

variable {α β : Type} {t : Token} {ts us rest : List Token}

/-- One token read. -/
def one (a : α) : Step α (t :: us) :=
  ⟨⟨a, us, List.suffix_cons t us⟩, Nat.lt_succ_self _⟩

/-- The same step with another value. -/
def map (f : α → β) (s : Step α ts) : Step β ts := ⟨s.toSpan.map f, s.shorter⟩

/-- A step at an end piece of the tokens, seen from the whole list. -/
def within (h : us <:+ ts) (s : Step α us) : Step α ts :=
  ⟨s.toSpan.within h, Nat.lt_of_lt_of_le s.shorter h.length_le⟩

/-- A step behind the first token, seen from that token. -/
def behind (s : Step α us) : Step α (t :: us) := s.within (List.suffix_cons t us)

/-- A step and a span behind it. -/
def thenSpan (s : Step α ts) (next : Span β s.rest) : Step β ts :=
  ⟨next.within s.isSuffix, Nat.lt_of_le_of_lt next.isSuffix.length_le s.shorter⟩

/-- A step and another one behind it. -/
def thenStep (s : Step α ts) (next : Step β s.rest) : Step β ts := s.thenSpan next.toSpan

/-- A step that goes one token further. -/
def skip (s : Step α ts) (h : s.rest = t :: rest) : Step α ts :=
  s.thenSpan ⟨s.value, rest, h ▸ List.suffix_cons t rest⟩

/-- A token read and a span behind it. -/
def cons (s : Span α us) : Step α (t :: us) := (Step.one ()).thenSpan s

@[simp] theorem value_one (a : α) : (one a : Step α (t :: us)).value = a := rfl
@[simp] theorem rest_one (a : α) : (one a : Step α (t :: us)).rest = us := rfl
@[simp] theorem value_map (f : α → β) (s : Step α ts) : (s.map f).value = f s.value := rfl
@[simp] theorem rest_map (f : α → β) (s : Step α ts) : (s.map f).rest = s.rest := rfl
@[simp] theorem value_within (h : us <:+ ts) (s : Step α us) : (s.within h).value = s.value := rfl
@[simp] theorem rest_within (h : us <:+ ts) (s : Step α us) : (s.within h).rest = s.rest := rfl
@[simp] theorem value_behind (s : Step α us) : (s.behind : Step α (t :: us)).value = s.value := rfl
@[simp] theorem rest_behind (s : Step α us) : (s.behind : Step α (t :: us)).rest = s.rest := rfl
@[simp] theorem value_thenSpan (s : Step α ts) (next : Span β s.rest) :
    (s.thenSpan next).value = next.value := rfl
@[simp] theorem rest_thenSpan (s : Step α ts) (next : Span β s.rest) :
    (s.thenSpan next).rest = next.rest := rfl
@[simp] theorem value_thenStep (s : Step α ts) (next : Step β s.rest) :
    (s.thenStep next).value = next.value := rfl
@[simp] theorem rest_thenStep (s : Step α ts) (next : Step β s.rest) :
    (s.thenStep next).rest = next.rest := rfl
@[simp] theorem value_skip (s : Step α ts) (h : s.rest = t :: rest) :
    (s.skip h).value = s.value := rfl
@[simp] theorem rest_skip (s : Step α ts) (h : s.rest = t :: rest) : (s.skip h).rest = rest := rfl
@[simp] theorem value_cons (s : Span α us) : (cons s : Step α (t :: us)).value = s.value := rfl
@[simp] theorem rest_cons (s : Span α us) : (cons s : Step α (t :: us)).rest = s.rest := rfl

end Step

/-- A reader takes a step or refuses the text. -/
abbrev Reader (α : Type) := (ts : List Token) → Except Refusal (Step α ts)

/-- Refuses for a cause at a place. -/
def refuse {α : Type} (cause : Cause) (place : Location) : Except Refusal α :=
  .error ⟨cause, place⟩

theorem bind_of_eq_ok {ε α β : Type} {x : Except ε α} {a : α} (given : x = .ok a)
    (f : α → Except ε β) : x >>= f = f a := by
  rw [given]
  rfl

theorem bind_of_eq_error {ε α β : Type} {x : Except ε α} {e : ε} (refused : x = .error e)
    (f : α → Except ε β) : x >>= f = .error e := by
  rw [refused]
  rfl

/-- A computation that gives a result gives one at each of its steps. -/
theorem exists_of_bind_eq_ok {ε α β : Type} {x : Except ε α} {f : α → Except ε β} {b : β}
    (bound : x >>= f = .ok b) : ∃ a, x = .ok a ∧ f a = .ok b := by
  cases x with
  | error e => cases bound
  | ok a => exact ⟨a, rfl, bound⟩

/-- The symbol at the front; the stop symbol behind the last token. -/
def peekSymbol (ts : List Token) : Symbol :=
  match ts with
  | t :: _ => t.symbol
  | [] => .stop

/-- The place of the symbol at the front, where `finish` is the end of the text. -/
def peekPlace (finish : Location) (ts : List Token) : Location :=
  match ts with
  | t :: _ => t.place
  | [] => finish

/-- The tokens of a list before an end piece of it. -/
def tokensBetween (ts rest : List Token) : List Token := ts.take (ts.length - rest.length)

/-- The characters of the leading tokens with a property, read as far as it holds. -/
def readWhile (p : Symbol → Bool) (ts : List Token) : Span Text ts :=
  ⟨(ts.takeWhile (p ·.symbol)).map (·.symbol.value), ts.dropWhile (p ·.symbol),
    List.dropWhile_suffix _⟩

section readWhile

variable {p : Symbol → Bool} {t : Token}

@[simp] theorem value_readWhile_nil : (readWhile p []).value = [] := rfl
@[simp] theorem rest_readWhile_nil : (readWhile p []).rest = [] := rfl

theorem value_readWhile_of_pos (holds : p t.symbol) (ts : List Token) :
    (readWhile p (t :: ts)).value = t.symbol.value :: (readWhile p ts).value := by
  simp [readWhile, holds]

theorem rest_readWhile_of_pos (holds : p t.symbol) (ts : List Token) :
    (readWhile p (t :: ts)).rest = (readWhile p ts).rest := by
  simp [readWhile, holds]

theorem value_readWhile_of_neg (fails : ¬ p t.symbol) (ts : List Token) :
    (readWhile p (t :: ts)).value = [] := by
  simp [readWhile, fails]

theorem rest_readWhile_of_neg (fails : ¬ p t.symbol) (ts : List Token) :
    (readWhile p (t :: ts)).rest = t :: ts := by
  simp [readWhile, fails]

end readWhile

end PatternSampler
