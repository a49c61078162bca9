/-
Module: PatternSampler.Proofs.Caret
Purpose: The caret of a report points at the reported place. The line that is shown is found by
  looking for newlines around the offset, while the line and the column of a place were counted
  from the beginning of the text: both name the same line of the text, and the caret stands under
  the byte at the offset, or behind the line where a newline or the end of the text is reported.
Main exports: Text.exists_lines_above, Text.lineStart, Report.renderBySearch,
  Report.renderBySearch_eq, Report.Points, Pattern.points_of_parse
-/
import PatternSampler.Proofs.Refusals

namespace PatternSampler

/-! ### Lines -/

namespace Text

/-- The first line of a text is what stands before its first newline. There are other lines exactly
if there is a newline. -/
theorem exists_lines_below (t : Text) :
    ∃ below, t.splitOn newline = t.takeWhile (· ≠ newline) :: below ∧
      (t.dropWhile (· ≠ newline))[0]? = if below = [] then none else some newline := by
  induction t with
  | nil => exact ⟨[], rfl, rfl⟩
  | cons b t inductionHypothesis =>
    rw [List.splitOn_cons_eq_if_modifyHead]
    by_cases breaks : b = newline
    · exact ⟨t.splitOn newline, by simp [breaks], by simp [breaks, List.splitOn_ne_nil]⟩
    · obtain ⟨below, lines, next⟩ := inductionHypothesis
      exact ⟨below, by simp [breaks, lines], by simpa [breaks] using next⟩

/-- Nothing in front of a line changes nothing. -/
theorem modifyHead_nil_append (lines : List Text) : lines.modifyHead ([] ++ ·) = lines :=
  congrFun List.modifyHead_id lines

/-- The front of a text has as many whole lines as it has newlines. The line in which it ends goes
on with the first line of what is behind it. -/
theorem exists_lines_above (front : Text) :
    ∃ above : List Text, above.length = front.count newline ∧
      front = above.flatMap (· ++ [newline]) ++ lastLine front ∧
      ∀ behind : Text, (front ++ behind).splitOn newline =
        above ++ (behind.splitOn newline).modifyHead (lastLine front ++ ·) := by
  induction front using List.reverseRecOn with
  | nil => exact ⟨[], rfl, rfl, fun behind => (modifyHead_nil_append _).symm⟩
  | append_singleton front b inductionHypothesis =>
    obtain ⟨above, lengthEq, frontEq, splits⟩ := inductionHypothesis
    by_cases breaks : b = newline
    · -- The line in which the front ended is a whole line now.
      subst breaks
      refine ⟨above ++ [lastLine front], by simp [lengthEq], ?_, fun behind => ?_⟩
      · conv_lhs => rw [frontEq]
        simp
      · have split := splits (newline :: behind)
        rw [List.splitOn_cons_eq_if_modifyHead, if_pos (beq_self_eq_true newline)] at split
        rw [List.append_assoc, List.singleton_append, split, lastLine_concat_newline,
          modifyHead_nil_append]
        simp
    · refine ⟨above, by simp [breaks, lengthEq], ?_, fun behind => ?_⟩
      · rw [lastLine_concat_of_ne breaks, ← List.append_assoc, ← frontEq]
      · have split := splits (b :: behind)
        rw [List.splitOn_cons_eq_if_modifyHead, if_neg (by simpa using breaks),
          List.modifyHead_modifyHead] at split
        rw [List.append_assoc, List.singleton_append, split, lastLine_concat_of_ne breaks]
        simp [Function.comp_def]

end Text

/-! ### The line by its positions -/

namespace Text

/-- The position of the last newline at a position or before it, looked for from there backwards. -/
def lastBreak? (t : Text) : Nat → Option Nat
  | 0 => if t[0]? = some newline then some 0 else none
  | i + 1 => if t[i + 1]? = some newline then some (i + 1) else t.lastBreak? i

/-- Where the line around an offset begins. The search begins before the offset, unless there is
nothing before it. -/
def lineStart (t : Text) (offset : Nat) : Nat :=
  match t.lastBreak? (offset - 1) with
  | some i => if i < offset then i + 1 else 0
  | none => 0

/-- Where the line around an offset ends: at the first newline from the offset on, or at the end. -/
def lineEnd (t : Text) (offset : Nat) : Nat := offset + (t.drop offset).findIdx (· = newline)

theorem lastBreak?_of_break {t : Text} {i : Nat} (breaks : t[i]? = some newline) :
    t.lastBreak? i = some i := by
  cases i with
  | zero => exact if_pos breaks
  | succ i => exact if_pos breaks

theorem le_of_lastBreak? {t : Text} {i bound : Nat} (found : t.lastBreak? bound = some i) :
    i ≤ bound := by
  induction bound with
  | zero => grind [lastBreak?]
  | succ bound inductionHypothesis =>
    rw [lastBreak?] at found
    split at found
    next => exact Nat.le_of_eq (Option.some.inj found).symm
    next => exact Nat.le_succ_of_le (inductionHypothesis found)

/-- At the beginning of a text a line begins, even if its first byte is a newline. -/
@[simp] theorem lineStart_zero (t : Text) : t.lineStart 0 = 0 := by
  unfold lineStart
  split <;> simp

theorem lineStart_succ_of_break {t : Text} {offset : Nat} (breaks : t[offset]? = some newline) :
    t.lineStart (offset + 1) = offset + 1 := by
  simp [lineStart, lastBreak?_of_break breaks]

/-- Behind a byte that is no newline the same line goes on. -/
theorem lineStart_succ_of_ne {t : Text} {offset : Nat} (other : t[offset]? ≠ some newline) :
    t.lineStart (offset + 1) = t.lineStart offset := by
  cases offset with
  | zero => simp [lineStart, lastBreak?, other]
  | succ offset =>
    have same : t.lastBreak? (offset + 1) = t.lastBreak? offset := if_neg other
    simp only [lineStart, Nat.add_sub_cancel, same]
    split
    next i found =>
      have near := le_of_lastBreak? found
      rw [if_pos (by omega), if_pos (by omega)]
    next => rfl

/-- The line around an offset begins as many bytes before it as there are behind the last newline
before it. -/
theorem lineStart_add_length {t : Text} {offset : Nat} (within : offset ≤ t.length) :
    t.lineStart offset + (lastLine (t.take offset)).length = offset := by
  induction offset with
  | zero => simp [lastLine]
  | succ offset inductionHypothesis =>
    have here : t[offset]? = some t[offset] := List.getElem?_eq_getElem within
    rw [List.take_succ_eq_append_getElem within]
    by_cases breaks : t[offset] = newline
    · rw [lineStart_succ_of_break (here.trans (congrArg some breaks)), breaks]
      simp
    · have before := inductionHypothesis (Nat.le_of_succ_le within)
      rw [lineStart_succ_of_ne (by simpa [here] using breaks), lastLine_concat_of_ne breaks,
        List.length_append, ← Nat.add_assoc, before]
      rfl

/-- A text around an offset: what stands before the line, as many bytes as the line begins at, then
the two parts of the line, and the rest. -/
theorem exists_parts_around {t : Text} {offset : Nat} (within : offset ≤ t.length) :
    ∃ before, before.length = t.lineStart offset ∧
      t = before ++ (lastLine (t.take offset) ++ t.drop offset) := by
  refine ⟨(t.take offset).rdropWhile (· ≠ newline), ?_, ?_⟩
  · have startAdd := lineStart_add_length within
    have lengths := congrArg List.length
      (List.rdropWhile_append_rtakeWhile (p := (· ≠ newline)) (l := t.take offset))
    rw [List.length_append, List.length_take_of_le within] at lengths
    exact Nat.add_right_cancel (lengths.trans startAdd.symm)
  · conv_lhs => rw [← List.take_append_drop offset t]
    rw [← List.append_assoc, lastLine, List.rdropWhile_append_rtakeWhile]

/-- What is cut out from where the line begins to where it ends are the two parts of the line. -/
theorem take_drop_lineStart {t : Text} {offset : Nat} (within : offset ≤ t.length) :
    (t.drop (t.lineStart offset)).take (t.lineEnd offset - t.lineStart offset) =
      lastLine (t.take offset) ++ (t.drop offset).takeWhile (· ≠ newline) := by
  obtain ⟨before, startEq, parts⟩ := exists_parts_around within
  have startAdd := lineStart_add_length within
  have count : t.lineEnd offset - t.lineStart offset =
      (lastLine (t.take offset)).length + (t.drop offset).findIdx (· = newline) := by
    unfold lineEnd
    omega
  have behindStart : t.drop (t.lineStart offset) = lastLine (t.take offset) ++ t.drop offset := by
    rw [← startEq]
    conv_lhs => rw [parts, List.drop_left]
  rw [count, behindStart, List.take_length_add_append, List.takeWhile_eq_take_findIdx_not]
  simp

/-- The bytes from where the line begins up to the offset, changed one by one, are the first part of
the line changed. -/
theorem map_range'_lineStart {t : Text} {offset : Nat} (within : offset ≤ t.length)
    (f : Option UInt8 → UInt8) :
    (List.range' (t.lineStart offset) (offset - t.lineStart offset)).map (fun i => f t[i]?) =
      (lastLine (t.take offset)).map (f <| some ·) := by
  obtain ⟨before, startEq, parts⟩ := exists_parts_around within
  have startAdd := lineStart_add_length within
  generalize lastLine (t.take offset) = piece at parts startAdd ⊢
  have count : offset - t.lineStart offset = piece.length := by omega
  rw [count, ← startEq, parts]
  apply List.ext_getElem
  · simp
  · intro i _ inside
    have inPiece : i < piece.length := by simpa using inside
    simp [List.getElem?_append_right, List.getElem?_append_left inPiece, inPiece]

end Text

namespace Report

open Text

/-- The headline, the line of the source it is about, and a caret under the place. The line is cut
out from where it begins to where it ends, and the bytes before the offset are looked at one by
one for tabs. -/
def renderBySearch (r : Report) (source : Text) : Text :=
  let offset := min r.place.offset source.length
  let start := source.lineStart offset
  let line := (source.drop start).take (source.lineEnd offset - start)
  let padding := (List.range' start (offset - start)).map fun i =>
    if source[i]? = some tab then tab else blank
  r.what ++ ascii "\n  " ++ line ++ ascii "\n  " ++ padding ++ ascii "^"

/-- An offset behind a text counts as its end. -/
theorem lineAround_min (source : Text) (offset : Nat) :
    lineAround source (min offset source.length) = lineAround source offset := by
  rcases Nat.le_total offset source.length with within | behind
  · rw [Nat.min_eq_left within]
  · simp [lineAround, Nat.min_eq_right behind, List.take_of_length_le behind,
      List.drop_of_length_le behind]

/-- Looking for the line by positions shows what is shown. -/
theorem renderBySearch_eq (r : Report) (source : Text) :
    r.renderBySearch source = r.render source := by
  have within : min r.place.offset source.length ≤ source.length := Nat.min_le_right _ _
  have paddingEq := map_range'_lineStart within fun b => if b = some tab then tab else blank
  simp only [renderBySearch, render]
  rw [← lineAround_min, take_drop_lineStart within, paddingEq]
  simp [lineAround, padding, lastLine, List.rtakeWhile]

/-! ### The caret -/

/-- How a report is shown in the lines of a text, for which `padding` stands in front of the
caret. -/
structure Points (r : Report) (s : Text) (above : List Text) (row padding : Text)
    (below : List Text) : Prop where
  /-- The line that is shown is one of the lines of the text. -/
  lines : s.splitOn newline = above ++ row :: below
  /-- It is the line that the place names. -/
  number : r.place.line = above.length + 1
  /-- The caret is in the column that the place names. -/
  column : r.place.column = padding.length + 1
  inside : padding.length ≤ row.length
  /-- Under a tab there is a tab, and a blank under every other byte. -/
  padded : ∀ i < padding.length, padding[i]? = some (if row[i]? = some tab then tab else blank)
  /-- The caret is as far behind the beginning of the line as the offset is. -/
  offset : r.place.offset = (above.flatMap (· ++ [newline])).length + padding.length
  /-- The byte over the caret is the one at the offset; a newline is at the end of its line. -/
  under : s[r.place.offset]? = (row ++ if below = [] then [] else [newline])[padding.length]?
  shown : r.render s = r.what ++ ascii "\n  " ++ row ++ ascii "\n  " ++ padding ++ ascii "^"
  searched : r.renderBySearch s = r.render s

end Report

/-- A text that is refused is shown with the line of the refusal, and with a caret under the byte it
is about. -/
theorem Pattern.points_of_parse {s : Text} {r : Refusal} (refused : Pattern.parse s = .error r) :
    ∃ above row padding below, r.report.Points s above row padding below := by
  obtain ⟨t, member, placeEq⟩ := Pattern.exists_token_of_parse refused
  have afterFront := Cursor.place_eq_after_take member
  rw [← placeEq] at afterFront
  generalize frontEq : s.take r.place.offset = front at afterFront
  generalize behindEq : s.drop r.place.offset = behind
  have textEq : s = front ++ behind := by
    rw [← frontEq, ← behindEq, List.take_append_drop]
  obtain ⟨above, aboveCount, aboveEq, splits⟩ := Text.exists_lines_above front
  obtain ⟨below, belowEq, next⟩ := Text.exists_lines_below behind
  refine ⟨above, Text.lastLine front ++ behind.takeWhile (· ≠ Text.newline),
    Report.padding (Text.lastLine front), below, ?_⟩
  have paddingLength : (Report.padding (Text.lastLine front)).length =
      (Text.lastLine front).length := List.length_map _
  constructor
  · rw [textEq, splits, belowEq]
    rfl
  · change r.place.line = _
    rw [afterFront, Location.line_after, aboveCount]
    exact Nat.add_comm _ _
  · change r.place.column = _
    rw [afterFront, Location.column_after_start, paddingLength]
    exact Nat.add_comm _ _
  · rw [paddingLength, List.length_append]
    exact Nat.le_add_right _ _
  · intro i inside
    rw [paddingLength] at inside
    simp [Report.padding, inside, List.getElem?_append_left inside]
  · change r.place.offset = _
    rw [paddingLength, ← List.length_append, ← aboveEq, afterFront, Location.offset_after]
    exact Nat.zero_add _
  · change s[r.place.offset]? = _
    have atOffset : s[r.place.offset]? = behind[0]? := by
      rw [← behindEq, List.getElem?_drop, Nat.add_zero]
    rw [atOffset, paddingLength, List.append_assoc, List.getElem?_append_right (Nat.le_refl _),
      Nat.sub_self]
    conv_lhs => rw [← List.takeWhile_append_dropWhile (p := (· ≠ Text.newline)) (l := behind)]
    cases behind.takeWhile (· ≠ Text.newline) with
    | nil =>
      rw [List.nil_append, List.nil_append, next]
      split <;> rfl
    | cons b row => rfl
  · simp only [Report.render, lineAround, Refusal.report, frontEq, behindEq, Text.lastLine,
      List.rtakeWhile, List.append_assoc]
  · exact Report.renderBySearch_eq _ _

/-- In the second line of `a`, a tab and `)`, the caret is indented by the tab. -/
theorem Pattern.points_of_parse_tab :
    ∃ r, Pattern.parse (ascii "a\n\t)\n") = .error r ∧ r.place = ⟨3, 2, 2⟩ ∧
      (∃ above row padding below,
        r.report.Points (ascii "a\n\t)\n") above row padding below) ∧
      r.report.render (ascii "a\n\t)\n") =
        ascii "syntax error at line 2, column 2: unmatched ')'\n  \t)\n  \t^" := by
  have shown : (match Pattern.parse (ascii "a\n\t)\n") with
      | .error r => some (r.place, r.report.render (ascii "a\n\t)\n"))
      | .ok _ => none) =
      some (⟨3, 2, 2⟩, ascii "syntax error at line 2, column 2: unmatched ')'\n  \t)\n  \t^") := by
    decide +kernel
  cases read : Pattern.parse (ascii "a\n\t)\n") with
  | error r =>
    rw [read] at shown
    obtain ⟨placeEq, renderEq⟩ := Prod.mk.inj (Option.some.inj shown)
    exact ⟨r, rfl, placeEq, Pattern.points_of_parse read, renderEq⟩
  | ok p =>
    rw [read] at shown
    cases shown

end PatternSampler
