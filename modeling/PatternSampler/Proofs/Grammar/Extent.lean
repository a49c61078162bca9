/-
Module: PatternSampler.Proofs.Grammar.Extent
Purpose: A phrase is a front piece of the tokens: whatever follows it is an end piece of the
  tokens there were. So what holds of all tokens of a text holds of those behind a phrase;
  above all, that shorthands carry known names.
Main exports: Cursor.named_of_mem_scan, Grammar.AllNamed, Grammar.Class.isSuffix,
  Grammar.Quantifier.isSuffix
-/
import PatternSampler.Proofs.Grammar

namespace PatternSampler

/-! ### Names of shorthands -/

/-- A shorthand carries one of the three names. -/
def Symbol.Named (s : Symbol) : Prop := ∀ name, s = .shorthand name → IsShorthandName name

theorem Symbol.named_ofByte (b : UInt8) : (ofByte b).Named := by
  intro name equal
  unfold ofByte at equal
  split at equal
  next => cases equal
  next => cases equal

theorem Symbol.named_ofEscape (e : UInt8) : (ofEscape e).Named := by
  intro name equal
  unfold ofEscape at equal
  split at equal
  next isName =>
    cases equal
    exact isName
  next => cases equal

theorem Symbol.Begins.named {t rest : Text} {s : Symbol} (begins : Begins t s rest) : s.Named := by
  cases begins with
  | plain => exact named_ofByte _
  | escape => exact named_ofEscape _
  | lone => exact nofun

/-- The tokens of a text have shorthands with known names only. -/
theorem Cursor.named_of_mem_scan (c : Cursor) : ∀ t ∈ c.scan.1, t.symbol.Named :=
  forall_mem_scan Symbol.Begins.named c

namespace Grammar

variable {ts us rest : List Token}

/-! ### Numbers -/

theorem Run.isSuffix {p : Symbol → Bool} {bytes : Text} (run : Run p ts bytes rest) :
    rest <:+ ts := by
  induction run with
  | done => exact List.suffix_rfl
  | more _ _ inductionHypothesis => exact inductionHypothesis.trans (List.suffix_cons _ _)

theorem Minus.isSuffix {negative : Bool} (minus : Minus ts negative rest) : rest <:+ ts := by
  cases minus with
  | absent => exact List.suffix_rfl
  | present => exact List.suffix_cons _ _

theorem Mantissa.isSuffix {whole : Text} {fraction : Option Text}
    (mantissa : Mantissa ts whole fraction rest) : rest <:+ ts := by
  cases mantissa with
  | integer digits => exact digits.isSuffix
  | pointed digits _ decimals =>
    exact decimals.isSuffix.trans ((List.suffix_cons _ _).trans digits.isSuffix)
  | bare decimals => exact decimals.isSuffix.trans (List.suffix_cons _ _)

theorem Sign.isSuffix {sign : Text} (signed : Sign ts sign rest) : rest <:+ ts := by
  cases signed with
  | absent => exact List.suffix_rfl
  | minus => exact List.suffix_cons _ _
  | plus => exact List.suffix_cons _ _

theorem Power.isSuffix {exponent : Option Exponent} (power : Power ts exponent rest) :
    rest <:+ ts := by
  cases power with
  | absent => exact List.suffix_rfl
  | present _ signed run =>
    exact run.isSuffix.trans (signed.isSuffix.trans (List.suffix_cons _ _))

theorem Number.isSuffix {n : Numeral} (number : Number ts n rest) : rest <:+ ts := by
  cases number with
  | intro minus mantissa power =>
    exact power.isSuffix.trans (mantissa.isSuffix.trans minus.isSuffix)

/-! ### Annotations -/

theorem Argument.isSuffix {p : Parameter} (argument : Argument ts p rest) : rest <:+ ts := by
  cases argument with
  | positional number => exact number.isSuffix
  | named _ number =>
    exact number.isSuffix.trans ((List.suffix_cons _ _).trans (List.suffix_cons _ _))

theorem Arguments.isSuffix {ps : List Parameter} (arguments : Arguments ts ps rest) :
    rest <:+ ts := by
  induction arguments with
  | last argument => exact argument.isSuffix
  | more argument _ inductionHypothesis =>
    exact inductionHypothesis.trans ((List.suffix_cons _ _).trans argument.isSuffix)

theorem ArgumentList.isSuffix {ps : List Parameter} (list : ArgumentList ts ps rest) :
    rest <:+ ts := by
  cases list with
  | absent => exact List.suffix_rfl
  | empty => exact (List.suffix_cons _ _).trans (List.suffix_cons _ _)
  | listed arguments =>
    exact (List.suffix_cons _ _).trans (arguments.isSuffix.trans (List.suffix_cons _ _))

theorem Note.isSuffix {a : Annotation} (note : Note ts a rest) : rest <:+ ts := by
  cases note with
  | intro letters _ arguments =>
    exact arguments.isSuffix.trans (letters.isSuffix.trans (List.suffix_cons _ _))

theorem Attached.isSuffix {meaning : Annotation → Except Refusal Distribution}
    {d : Option Distribution} (attached : Attached meaning ts d rest) : rest <:+ ts := by
  cases attached with
  | absent => exact List.suffix_rfl
  | present note => exact note.isSuffix

/-! ### Classes -/

theorem Member.isSuffix {m : ClassItem} (member : Member ts m rest) : rest <:+ ts := by
  cases member with
  | named letters =>
    apply List.IsSuffix.trans _ ((List.suffix_cons _ _).trans (List.suffix_cons _ _))
    exact ((List.suffix_cons _ _).trans (List.suffix_cons _ _)).trans letters.isSuffix
  | wildcard => exact List.suffix_cons _ _
  | shorthand => exact List.suffix_cons _ _
  | single => exact List.suffix_cons _ _

theorem Members.isSuffix {ms : List ClassItem} (members : Members ts ms rest) : rest <:+ ts := by
  induction members with
  | done => exact List.suffix_rfl
  | more member _ inductionHypothesis => exact inductionHypothesis.trans member.isSuffix

theorem Negation.isSuffix {negated : Bool} (negation : Negation ts negated rest) :
    rest <:+ ts := by
  cases negation with
  | absent => exact List.suffix_rfl
  | present => exact List.suffix_cons _ _

theorem Class.isSuffix {c : CharClass} (phrase : Class ts c rest) : rest <:+ ts := by
  cases phrase with
  | shorthand _ attached => exact attached.isSuffix.trans (List.suffix_cons _ _)
  | bracketed negation listed _ _ attached =>
    apply List.IsSuffix.trans _ (List.suffix_cons _ _)
    exact attached.isSuffix.trans
      ((List.suffix_cons _ _).trans (listed.isSuffix.trans negation.isSuffix))

/-- A class takes a token at least. -/
theorem Class.length_lt {c : CharClass} (phrase : Class ts c rest) :
    rest.length < ts.length := by
  cases phrase with
  | shorthand _ attached => exact Nat.lt_succ_of_le attached.isSuffix.length_le
  | bracketed negation listed _ _ attached =>
    have members := (listed.isSuffix.trans negation.isSuffix).length_le
    have behind := attached.isSuffix.length_le
    rw [List.length_cons] at members ⊢
    omega

/-! ### Repeats and anchors -/

theorem Count.isSuffix {n : UInt64} (count : Count ts n rest) : rest <:+ ts := by
  cases count with
  | intro run => exact run.isSuffix

theorem Maximum.isSuffix {max : Option UInt64} (maximum : Maximum ts max rest) : rest <:+ ts := by
  cases maximum with
  | absent => exact List.suffix_rfl
  | present count => exact count.isSuffix

theorem Quantifier.isSuffix {r : Repeat} (quantifier : Quantifier ts r rest) : rest <:+ ts := by
  cases quantifier with
  | mark _ attached => exact attached.isSuffix.trans (List.suffix_cons _ _)
  | exact count => exact (List.suffix_cons _ _).trans (count.isSuffix.trans (List.suffix_cons _ _))
  | drawn count note =>
    apply List.IsSuffix.trans _ (List.suffix_cons _ _)
    exact (List.suffix_cons _ _).trans (note.isSuffix.trans count.isSuffix)
  | between minimum maximum _ attached =>
    apply List.IsSuffix.trans _ (List.suffix_cons _ _)
    apply List.IsSuffix.trans _ minimum.isSuffix
    apply List.IsSuffix.trans _ (List.suffix_cons _ _)
    exact (List.suffix_cons _ _).trans (attached.isSuffix.trans maximum.isSuffix)

theorem StartAnchor.isSuffix {anchored : Bool} (atStart : StartAnchor ts anchored rest) :
    rest <:+ ts := by
  cases atStart with
  | absent => exact List.suffix_rfl
  | present => exact List.suffix_cons _ _

/-! ### Tokens behind a phrase -/

/-- All tokens of a list have known names. -/
def AllNamed (ts : List Token) : Prop := ∀ t ∈ ts, t.symbol.Named

theorem AllNamed.of_isSuffix (named : AllNamed ts) (suffix : rest <:+ ts) :
    AllNamed rest :=
  fun t member => named t (suffix.subset member)

end Grammar

end PatternSampler
