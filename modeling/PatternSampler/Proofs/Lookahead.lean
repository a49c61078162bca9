/-
Module: PatternSampler.Proofs.Lookahead
Purpose: Looking ahead agrees with reading. However calls on a cursor are mixed, what it gives are
  the tokens of the whole text, counted from those that were consumed, with the last one for
  all behind it. Looking ahead may read on and go back to the place where the cursor stood:
  that brings the whole cursor back. A reader, which has all tokens before it, sees the same.
Main exports: Cursor.skip, Cursor.tokens_skip, Cursor.readAhead, Token.ahead, Cursor.Call,
  Cursor.Session, Cursor.session_follows_tokens
-/
import PatternSampler.Proofs.Tokens
import PatternSampler.Token.Reader

namespace PatternSampler

namespace Cursor

/-! ### Reading on -/

/-- The cursor behind some tokens. -/
def skip (c : Cursor) : Nat → Cursor
  | 0 => c
  | n + 1 => c.next.2.skip n

theorem skip_add (c : Cursor) (m n : Nat) : c.skip (m + n) = (c.skip m).skip n := by
  induction m generalizing c with
  | zero => rw [Nat.zero_add, skip]
  | succ m inductionHypothesis => rw [Nat.succ_add, skip, skip, inductionHypothesis]

theorem next_of_nil {c : Cursor} (atEnd : c.rest = []) : c.next = (⟨.stop, c.place⟩, c) := by
  unfold next
  rw [Symbol.read?_eq_none_iff.2 atEnd]

theorem next_of_read? {c : Cursor} {s : Symbol} {rest : Text}
    (found : Symbol.read? c.rest = some (s, rest)) :
    c.next = (⟨s, c.place⟩, ⟨rest, c.place.after s.lexeme⟩) := by
  unfold next
  rw [found]

theorem exists_read? {c : Cursor} (notAtEnd : c.rest ≠ []) :
    ∃ s rest, Symbol.read? c.rest = some (s, rest) := by
  cases found : Symbol.read? c.rest with
  | none => exact absurd (Symbol.read?_eq_none_iff.1 found) notAtEnd
  | some front => exact ⟨front.1, front.2, rfl⟩

theorem tokens_of_nil {c : Cursor} (atEnd : c.rest = []) : c.tokens = [c.next.1] := by
  rw [tokens, scan_of_nil atEnd, next_of_nil atEnd]
  rfl

theorem tokens_of_ne_nil {c : Cursor} (notAtEnd : c.rest ≠ []) :
    c.tokens = c.next.1 :: c.next.2.tokens := by
  obtain ⟨s, rest, found⟩ := exists_read? notAtEnd
  rw [tokens, scan_of_read? found, next_of_read? found]
  rfl

theorem tokens_ne_nil (c : Cursor) : c.tokens ≠ [] :=
  List.append_ne_nil_of_right_ne_nil _ (List.cons_ne_nil _ _)

/-- The token at a cursor is the first of its tokens. -/
theorem getElem?_tokens_zero (c : Cursor) : c.tokens[0]? = some c.next.1 := by
  by_cases atEnd : c.rest = []
  · rw [tokens_of_nil atEnd]
    rfl
  · rw [tokens_of_ne_nil atEnd]
    rfl

/-- Behind a token there is one token less, but the last one is never left behind. -/
theorem tokens_next (c : Cursor) :
    c.next.2.tokens = c.tokens.drop (min 1 (c.tokens.length - 1)) := by
  by_cases atEnd : c.rest = []
  · rw [tokens_of_nil atEnd, next_of_nil atEnd, tokens_of_nil atEnd, next_of_nil atEnd]
    rfl
  · have positive := List.length_pos_iff.2 c.next.2.tokens_ne_nil
    rw [tokens_of_ne_nil atEnd, List.length_cons, Nat.add_sub_cancel, Nat.min_eq_left positive]
    rfl

/-- The tokens behind some tokens of a cursor. -/
theorem tokens_skip (c : Cursor) (n : Nat) :
    (c.skip n).tokens = c.tokens.drop (min n (c.tokens.length - 1)) := by
  induction n generalizing c with
  | zero => rw [skip, Nat.zero_min, List.drop_zero]
  | succ n inductionHypothesis =>
    rw [skip, inductionHypothesis, tokens_next, List.drop_drop, List.length_drop]
    congr 1
    omega

/-- The token at a cursor behind some tokens. -/
theorem getElem?_tokens (c : Cursor) (n : Nat) :
    c.tokens[min n (c.tokens.length - 1)]? = some (c.skip n).next.1 := by
  rw [← getElem?_tokens_zero, tokens_skip, List.getElem?_drop, Nat.add_zero]

/-- Looking ahead ends early at the end of the text, where nothing new would come. -/
theorem lookAhead_eq (c : Cursor) (n : Nat) : c.lookAhead n = (c.skip n).next.1 := by
  induction n generalizing c with
  | zero => rfl
  | succ n inductionHypothesis =>
    rw [lookAhead, skip]
    split
    next atEnd =>
      rw [next_of_nil atEnd, ← inductionHypothesis]
      cases n with
      | zero => rw [lookAhead, next_of_nil atEnd]
      | succ n => rw [lookAhead, if_pos atEnd, next_of_nil atEnd]
    next => exact inductionHypothesis _

/-- The end of the text is behind all tokens. -/
theorem finish_eq_skip (c : Cursor) : c.finish = c.skip c.tokens.length := by
  have afterScan : ∀ c : Cursor, (⟨[], c.scan.2⟩ : Cursor) = c.skip c.scan.1.length := by
    intro c
    fun_induction scan c with
    | case1 c atEnd =>
      rw [← Symbol.read?_eq_none_iff.1 atEnd]
      rfl
    | case2 c s rest found tokens finish scanned inductionHypothesis =>
      rw [scanned] at inductionHypothesis
      rw [List.length_cons, skip, next_of_read? found]
      exact inductionHypothesis
  have atEnd : (c.skip c.scan.1.length).rest = [] := by rw [← afterScan]
  rw [finish, tokens, List.length_append, skip_add, afterScan]
  exact (congrArg Prod.snd (next_of_nil atEnd)).symm

/-! ### Going back -/

/-- Reads some tokens and one more, which is given. -/
def readOn : Nat → Cursor → Token × Cursor
  | 0, c => c.next
  | n + 1, c => c.next.2.readOn n

/-- Looks ahead by reading on. Only the place where the cursor stood is kept meanwhile, and the
cursor is put back there. -/
def readAhead (source : Text) (n : Nat) (c : Cursor) : Token × Cursor :=
  let place := c.place
  let (token, _) := c.readOn n
  (token, ⟨source.drop place.offset, place⟩)

theorem readOn_eq (c : Cursor) (n : Nat) : c.readOn n = (c.skip n).next := by
  induction n generalizing c with
  | zero => rfl
  | succ n inductionHypothesis => exact inductionHypothesis _

/-- A cursor stands in a text: what is left is the text behind its place. -/
def StandsIn (source : Text) (c : Cursor) : Prop := c.rest = source.drop c.place.offset

theorem standsIn_ofText (s : Text) : (ofText s).StandsIn s := rfl

theorem StandsIn.next {source : Text} {c : Cursor} (stands : c.StandsIn source) :
    c.next.2.StandsIn source := by
  by_cases atEnd : c.rest = []
  · rw [next_of_nil atEnd]
    exact stands
  · obtain ⟨s, rest, found⟩ := exists_read? atEnd
    have restEq := Symbol.lexeme_append_of_read? found
    rw [next_of_read? found]
    change rest = source.drop (c.place.after s.lexeme).offset
    rw [Location.offset_after, ← List.drop_drop, ← show c.rest = _ from stands, ← restEq,
      List.drop_left]

theorem StandsIn.skip {source : Text} {c : Cursor} (stands : c.StandsIn source) (n : Nat) :
    (c.skip n).StandsIn source := by
  induction n generalizing c with
  | zero => exact stands
  | succ n inductionHypothesis => exact inductionHypothesis stands.next

/-- Looking ahead by reading on gives the token ahead and brings back the whole cursor. -/
theorem readAhead_eq {source : Text} {c : Cursor} (stands : c.StandsIn source) (n : Nat) :
    c.readAhead source n = (c.lookAhead n, c) := by
  rw [readAhead, readOn_eq, lookAhead_eq, ← show c.rest = _ from stands]

end Cursor

/-! ### Readers -/

/-- The token some places behind the first one that a reader has left. Behind the last one it is the
stop token at the end of the text. -/
def Token.ahead (finish : Location) (ts : List Token) (n : Nat) : Token :=
  ⟨peekSymbol (ts.drop n), peekPlace finish (ts.drop n)⟩

/-- A reader that has read some of the tokens of a text sees the next ones as a cursor does. -/
theorem Cursor.ahead_drop (c : Cursor) (k n : Nat) :
    Token.ahead c.finish.place (c.scan.1.drop k) n = (c.skip (k + n)).next.1 := by
  have found := c.getElem?_tokens (k + n)
  rw [Token.ahead, List.drop_drop]
  have lengthEq : c.tokens.length - 1 = c.scan.1.length := by
    rw [tokens, List.length_append]
    rfl
  rw [lengthEq, tokens] at found
  rcases Nat.lt_or_ge (k + n) c.scan.1.length with inside | behind
  · rw [Nat.min_eq_left (Nat.le_of_lt inside), List.getElem?_append_left inside,
      List.getElem?_eq_getElem inside] at found
    rw [← Option.some.inj found, List.drop_eq_getElem_cons inside]
    rfl
  · rw [Nat.min_eq_right behind, List.getElem?_concat_length] at found
    rw [← Option.some.inj found, List.drop_of_length_le behind]
    rfl

/-! ### Sessions -/

namespace Cursor

/-- A call on a cursor. -/
inductive Call where
  | next
  | peek
  | lookAhead (n : Nat)
  | tokens
deriving DecidableEq, Repr

/-- A cursor on which calls are made, and how many tokens they have consumed. -/
structure Session where
  cursor : Cursor
  consumed : Nat
deriving DecidableEq, Repr

namespace Session

/-- The session behind a call. Only the next token and all tokens are consumed; looking ahead reads
on in the text and goes back. -/
def call (source : Text) (session : Session) : Call → Session
  | .next => ⟨session.cursor.next.2, session.consumed + 1⟩
  | .peek => ⟨(session.cursor.readAhead source 0).2, session.consumed⟩
  | .lookAhead n => ⟨(session.cursor.readAhead source n).2, session.consumed⟩
  | .tokens => ⟨session.cursor.finish, session.consumed + session.cursor.tokens.length⟩

/-- The session in which calls were made on a cursor at the beginning of a text. -/
def after (source : Text) (calls : List Call) : Session :=
  calls.foldl (call source) ⟨ofText source, 0⟩

/-- The cursor of a session is behind the tokens that were consumed. -/
def InStep (source : Text) (session : Session) : Prop :=
  session.cursor = (ofText source).skip session.consumed

theorem InStep.standsIn {source : Text} {session : Session} (inStep : session.InStep source) :
    session.cursor.StandsIn source := by
  rw [inStep]
  exact (standsIn_ofText source).skip session.consumed

/-- Every call keeps a session in step. -/
theorem InStep.call {source : Text} {session : Session} (inStep : session.InStep source)
    (call : Call) : (session.call source call).InStep source := by
  have stands := inStep.standsIn
  cases call with
  | next =>
    change session.cursor.next.2 = (ofText source).skip (session.consumed + 1)
    rw [skip_add, ← show session.cursor = _ from inStep]
    rfl
  | peek =>
    change (session.cursor.readAhead source 0).2 = _
    rw [readAhead_eq stands]
    exact inStep
  | lookAhead n =>
    change (session.cursor.readAhead source n).2 = _
    rw [readAhead_eq stands]
    exact inStep
  | tokens =>
    change session.cursor.finish =
      (ofText source).skip (session.consumed + session.cursor.tokens.length)
    rw [skip_add, ← show session.cursor = _ from inStep, finish_eq_skip]

/-- Every run of calls leaves a session in step. -/
theorem inStep_after (source : Text) (calls : List Call) : (after source calls).InStep source := by
  have run : ∀ session : Session, session.InStep source →
      (calls.foldl (Session.call source) session).InStep source := by
    induction calls with
    | nil => exact fun session inStep => inStep
    | cons call calls inductionHypothesis =>
      exact fun session inStep => inductionHypothesis _ (inStep.call call)
  exact run _ rfl

end Session

/-- Behind any calls, with `k` tokens consumed, every further call gives the tokens of the text from
number `k` on, where the last token stands for all behind it. Looking ahead by reading on
leaves the cursor as it was, and a reader that has read `k` tokens sees the same ahead. -/
theorem session_follows_tokens (s : Text) (calls : List Call) :
    let session := Session.after s calls
    let c := session.cursor
    let k := session.consumed
    let ts := (ofText s).tokens
    let last := ts.length - 1
    ts[min k last]? = some c.next.1 ∧
    ts[min k last]? = some c.peek ∧
    (∀ n, ts[min (k + n) last]? = some (c.lookAhead n)) ∧
    c.tokens = ts.drop (min k last) ∧
    (∀ n, c.readAhead s n = (c.lookAhead n, c)) ∧
    ∀ n, Token.ahead (ofText s).finish.place ((ofText s).scan.1.drop k) n = c.lookAhead n := by
  intro session c k ts last
  have inStep : c = (ofText s).skip k := Session.inStep_after s calls
  have ahead : ∀ n, ts[min (k + n) last]? = some (c.lookAhead n) := by
    intro n
    rw [getElem?_tokens, lookAhead_eq, inStep, skip_add]
  refine ⟨ahead 0, ahead 0, ahead, ?_, ?_, ?_⟩
  · rw [inStep]
    exact tokens_skip _ k
  · exact readAhead_eq (Session.inStep_after s calls).standsIn
  · intro n
    rw [ahead_drop, lookAhead_eq, inStep, skip_add]

end Cursor

end PatternSampler
