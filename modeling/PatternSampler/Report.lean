/-
Module: PatternSampler.Report
Purpose: Reports of errors in a template text. A report says what is wrong and where, names
  the construct concerned, and can be shown against the text with a caret under the place.
Main exports: Report, Report.headline, Report.what, Report.render
-/
import PatternSampler.Location

namespace PatternSampler

/-- Whether a text breaks the grammar, or is well formed but asks for something impossible. -/
inductive ReportKind where
  | grammar
  | validation
deriving DecidableEq, Repr

/-- How a headline begins. -/
def ReportKind.title : ReportKind → Text
  | grammar => ascii "syntax error"
  | validation => ascii "validation error"

/-- An error in a text: its kind, the message, the construct that was expected or is at fault,
and the place. -/
structure Report where
  kind : ReportKind
  message : Text
  construct : Text
  place : Location
deriving DecidableEq, Repr

/-- The line of a text around an offset, in two parts: before the offset and from it on. An
offset behind the text counts as its end. -/
def lineAround (source : Text) (offset : Nat) : Text × Text :=
  (((source.take offset).reverse.takeWhile (· ≠ Text.newline)).reverse,
    (source.drop offset).takeWhile (· ≠ Text.newline))

namespace Report

/-- The place in words. The line is named only behind the first one. -/
def placeText (p : Location) : Text :=
  (if 1 < p.line then ascii " at line " ++ Text.decimal p.line ++ ascii "," else ascii " at")
    ++ ascii " column " ++ Text.decimal p.column

/-- Kind, place and message in one text. -/
def headline (r : Report) : Text :=
  r.kind.title ++ placeText r.place ++ ascii ": " ++ r.message

/-- The headline as far as its first NUL byte. -/
def what (r : Report) : Text := r.headline.upToNul

/-- What stands above the caret is passed over by blanks; tabs stay tabs, so that the caret
lines up. -/
def padding (t : Text) : Text :=
  t.map fun b => if b = Text.tab then Text.tab else Text.blank

/-- The headline, the line of the source it is about, and a caret under the place. -/
def render (r : Report) (source : Text) : Text :=
  let (before, behind) := lineAround source r.place.offset
  r.what ++ ascii "\n  " ++ before ++ behind ++ ascii "\n  " ++ padding before ++ ascii "^"

end Report

end PatternSampler
