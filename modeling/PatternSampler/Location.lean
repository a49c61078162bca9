/-
Module: PatternSampler.Location
Purpose: Places in a template text: the byte offset together with the line and the column
  that a reader sees. Reading a text moves a location forward byte by byte.
Main exports: Location, Location.start, Location.step, Location.after
-/
import PatternSampler.Text

namespace PatternSampler

/-- A place in a text. Lines and columns count from one, the offset from zero. -/
structure Location where
  offset : Nat
  line : Nat
  column : Nat
deriving DecidableEq, Repr

namespace Location

/-- The place before the first byte. -/
def start : Location := ⟨0, 1, 1⟩

/-- The place after reading one byte: a newline starts the next line, every other byte
moves one column on. -/
def step (p : Location) (b : UInt8) : Location :=
  if b = Text.newline then ⟨p.offset + 1, p.line + 1, 1⟩
  else ⟨p.offset + 1, p.line, p.column + 1⟩

/-- The place after reading a piece of text. -/
def after (p : Location) (t : Text) : Location :=
  t.foldl step p

@[simp] theorem after_nil (p : Location) : p.after [] = p := rfl

@[simp] theorem after_cons (p : Location) (b : UInt8) (t : Text) :
    p.after (b :: t) = (p.step b).after t := rfl

theorem after_append (p : Location) (s t : Text) : p.after (s ++ t) = (p.after s).after t := by
  simp [after]

@[simp] theorem offset_step (p : Location) (b : UInt8) : (p.step b).offset = p.offset + 1 := by
  unfold step; split <;> rfl

/-- Offsets count bytes. -/
theorem offset_after (p : Location) (t : Text) : (p.after t).offset = p.offset + t.length := by
  induction t generalizing p with
  | nil => simp
  | cons b t ih => simp [ih]; omega

/-- Lines count newline bytes. -/
theorem line_after (p : Location) (t : Text) :
    (p.after t).line = p.line + t.count Text.newline := by
  induction t generalizing p with
  | nil => simp
  | cons b t ih =>
    simp only [after_cons, ih, step]
    by_cases h : b = Text.newline
    · simp [h]; omega
    · simp [h]

end Location

end PatternSampler
