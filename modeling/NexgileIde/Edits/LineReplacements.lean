import NexgileIde.Edits.LineEdit
import NexgileIde.Edits.StringEdit
import NexgileIde.Edits.TextEdit
import NexgileIde.MergeEditor.ModifiedBaseRange

/-!
# Line replacements and text replacements

A text replacement becomes the replacement of the lines it touches, less the first or the
last one where that line stays as it is. Back in the text, whole lines are replaced with
their line feed, except at the end of the text, where the line feed in front goes with them.
-/
namespace NexgileIde.Edits

open Text TextLength Library
open MergeEditor (LineRange joinLines)

def createLineRange (startLineNumber endLineNumberExclusive : ℤ) : Except TextEditError LineRange :=
  match newLineRange startLineNumber endLineNumberExclusive with
  | some range => .ok range
  | none => .error (.invalidLineRange startLineNumber endLineNumberExclusive)

/-- `newLines[newLines.length - 1] += text` -/
def addToLast (text : Str) : List Str → List Str
  | [] => []
  | [line] => [line ++ text]
  | line :: next :: rest => line :: addToLast text (next :: rest)

namespace LineReplacement

/-- The first line of the range goes if nothing of it is replaced. -/
def dropFirst (startBeforeNewLine : Bool) (survivingLength : ℕ) (startLineNumber : ℤ)
    (newLines : List Str) : ℤ × List Str :=
  if startBeforeNewLine && (newLines.headD []).length = survivingLength then
    (startLineNumber + 1, newLines.tail)
  else (startLineNumber, newLines)

/-- So does the last line. -/
def dropLast (endAfterNewLine : Bool) (survivingLength : ℕ)
    (startLineNumber endLineNumberEx : ℤ) (newLines : List Str) : ℤ × List Str :=
  if newLines.length > 0 ∧ startLineNumber < endLineNumberEx ∧ endAfterNewLine ∧
      (newLines.getLastD []).length = survivingLength then
    (endLineNumberEx - 1, newLines.dropLast)
  else (endLineNumberEx, newLines)

def fromSingleTextEdit (edit : TextReplacement) (initialValue : Str) :
    Except TextEditError LineReplacement := do
  let newLines := splitLines edit.text
  let survivingFirstLineText ← getValueOfRange initialValue
    (.fromPositions ⟨edit.range.startLineNumber, 1⟩ edit.range.getStartPosition)
  let newLines := newLines.modifyHead (survivingFirstLineText ++ ·)
  let editEndLineNumberMaxColumn := getLineLength initialValue edit.range.endLineNumber + 1
  let survivingEndLineText ← getValueOfRange initialValue
    (.fromPositions edit.range.getEndPosition
      ⟨edit.range.endLineNumber, editEndLineNumberMaxColumn⟩)
  let newLines := addToLast survivingEndLineText newLines
  let startBeforeNewLine : Bool :=
    edit.range.startColumn = getLineLength initialValue edit.range.startLineNumber + 1
  let endAfterNewLine : Bool := edit.range.endColumn = 1
  let (startLineNumber, newLines) := dropFirst startBeforeNewLine survivingFirstLineText.length
    edit.range.startLineNumber newLines
  let (endLineNumberEx, newLines) := dropLast endAfterNewLine survivingEndLineText.length
    startLineNumber (edit.range.endLineNumber + 1) newLines
  let lineRange ← createLineRange startLineNumber endLineNumberEx
  return ⟨lineRange, newLines⟩

def toSingleTextEdit (r : LineReplacement) (initialValue : Str) : TextReplacement :=
  if r.newLines.length = 0 then
    let textLen := textLength initialValue
    if r.lineRange.endLineNumberExclusive = textLen.lineCount + 2 then
      let startPos : Position :=
        if r.lineRange.startLineNumber > 1 then
          let startLineNumber := r.lineRange.startLineNumber - 1
          ⟨startLineNumber, getLineLength initialValue startLineNumber + 1⟩
        else ⟨1, 1⟩
      ⟨.fromPositions startPos (textLen.addToPosition ⟨1, 1⟩), []⟩
    else ⟨.new r.lineRange.startLineNumber 1 r.lineRange.endLineNumberExclusive 1, []⟩
  else if r.lineRange.isEmpty then
    let insertionLine := r.lineRange.startLineNumber
    if insertionLine = (textLength initialValue).lineCount + 2 then
      let endLineNumber := insertionLine - 1
      let position : Position := ⟨endLineNumber, getLineLength initialValue endLineNumber + 1⟩
      ⟨.fromPositions position position, r.newLines.flatMap (LineFeed :: ·)⟩
    else
      ⟨.fromPositions ⟨insertionLine, 1⟩ ⟨insertionLine, 1⟩,
        r.newLines.flatMap (· ++ [LineFeed])⟩
  else
    let endLineNumber := r.lineRange.endLineNumberExclusive - 1
    let endLineNumberMaxColumn := getLineLength initialValue endLineNumber + 1
    ⟨.new r.lineRange.startLineNumber 1 endLineNumber endLineNumberMaxColumn,
      joinLines r.newLines⟩

def toSingleEdit (r : LineReplacement) (initialValue : Str) :
    Except BugIndicatingError StringReplacement := do
  let textEdit := r.toSingleTextEdit initialValue
  let range ← getOffsetRange initialValue textEdit.range
  return ⟨range, textEdit.text⟩

end LineReplacement

/-- With `front` in front of it, `old` is turned into `new` by the replacement, which lies
in it. -/
def Splices (r : StringReplacement) (front old new : Str) : Prop :=
  ∃ p m q, old = p ++ (m ++ q) ∧ new = p ++ (r.newText ++ q) ∧
    r.replaceRange.start = (front ++ p).length ∧
    r.replaceRange.endExclusive = (front ++ p ++ m).length

theorem Splices.extend {r : StringReplacement} {front old new x y : Str}
    (h : Splices r (front ++ x) old new) : Splices r front (x ++ (old ++ y)) (x ++ (new ++ y)) := by
  obtain ⟨p, m, q, rfl, rfl, hstart, hend⟩ := h
  exact ⟨x ++ p, m, q ++ y, by simp, by simp, by simpa using hstart, by simpa using hend⟩

/-- Between the end of `u` and its line's end there is nothing. -/
def LineEnds (v : Str) : Prop := v = [] ∨ ∃ w, v = LineFeed :: w

theorem toLineEnd_eq_zero_of_lineEnds {u v : Str} (hcr : CarriageReturn ∉ u) (h : LineEnds v) :
    toLineEnd u.getLast? v = 0 := by
  rcases h with rfl | ⟨w, rfl⟩
  · rfl
  · rw [toLineEnd, if_pos rfl, if_neg]
    intro hlast
    exact hcr (List.mem_of_getLast? hlast)

/-- The last column of a line. -/
theorem lineEnd_position {u v : Str} (hcr : CarriageReturn ∉ u) (h : LineEnds v) :
    (⟨(behind u).lineNumber, getLineLength (u ++ v) (behind u).lineNumber + 1⟩ : Position) =
      behind u := by
  rw [getLineLength_eq, toLineEnd_eq_zero_of_lineEnds hcr h]
  rw [behind_eq]
  simp [add_comm]

/-- A replacement whose range is given by positions of the text. -/
theorem toSingleEdit_of_range {r : LineReplacement} {u w v text : Str} {range : Range}
    (hcr : CarriageReturn ∉ u ++ (w ++ v))
    (hedit : r.toSingleTextEdit (u ++ (w ++ v)) = ⟨range, text⟩)
    (hstart : range.getStartPosition = behind u) (hend : range.getEndPosition = behind (u ++ w)) :
    ∃ e, r.toSingleEdit (u ++ (w ++ v)) = .ok e ∧ Splices e u w text := by
  have hu : CarriageReturn ∉ u := fun h => hcr (List.mem_append_left _ h)
  have hw : CarriageReturn ∉ u ++ w := fun h => hcr (by
    rw [← List.append_assoc]
    exact List.mem_append_left _ h)
  have hrange := getOffsetRange_eq hstart hend (not_seam_of_noCarriageReturn hu (w ++ v))
    (not_seam_of_noCarriageReturn hw v)
  refine ⟨⟨⟨u.length, (u ++ w).length, by simp⟩, text⟩, ?_, [], w, [], by simp, by simp, by simp,
    by simp⟩
  rw [LineReplacement.toSingleEdit, hedit, hrange]
  rfl

theorem joinLines_append_lineFeed {lines : List Str} (h : lines ≠ []) :
    joinLines lines ++ [LineFeed] = lines.flatMap (· ++ [LineFeed]) := by
  induction lines with
  | nil => exact absurd rfl h
  | cons line rest ih =>
    cases rest with
    | nil => simp [joinLines]
    | cons next rest =>
      have hne : next :: rest ≠ [] := List.cons_ne_nil _ _
      rw [joinLines, List.intercalate_cons_of_ne_nil hne, List.flatMap_cons, ← ih hne, joinLines]
      simp

theorem lineFeed_append_joinLines {lines : List Str} (h : lines ≠ []) :
    LineFeed :: joinLines lines = lines.flatMap (LineFeed :: ·) := by
  induction lines with
  | nil => exact absurd rfl h
  | cons line rest ih =>
    cases rest with
    | nil => simp [joinLines]
    | cons next rest =>
      have hne : next :: rest ≠ [] := List.cons_ne_nil _ _
      rw [joinLines, List.intercalate_cons_of_ne_nil hne, List.flatMap_cons, ← ih hne, joinLines]
      simp

theorem behind_lineFeed (u : Str) : behind (u ++ [LineFeed]) = ⟨(behind u).lineNumber + 1, 1⟩ := by
  rw [behind_append, extent_cons_lineFeed]
  simp [addToPosition, zero_def]

theorem behind_lineNumber (u : Str) : (behind u).lineNumber = 1 + (extent u).lineCount := by
  rw [behind_eq]

/-- Where a position has column one, a line starts. -/
theorem atLineStart_of_column {u : Str} {n : ℤ} (h : behind u = ⟨n, 1⟩) : AtLineStart u := by
  rw [← extent_columnCount_eq_zero]
  rw [behind_eq] at h
  have hcolumn := congrArg Position.column h
  simp only at hcolumn
  omega

/-- Lines that are replaced by others. -/
theorem toSingleEdit_lines {front lines rest : Str} {r : LineReplacement}
    (hcr : CarriageReturn ∉ front ++ (lines ++ rest)) (hrest : LineEnds rest)
    (hstart : behind front = ⟨r.lineRange.startLineNumber, 1⟩)
    (hend : r.lineRange.endLineNumberExclusive = (behind (front ++ lines)).lineNumber + 1)
    (hne : r.newLines ≠ []) :
    ∃ e, r.toSingleEdit (front ++ (lines ++ rest)) = .ok e ∧
      Splices e front lines (joinLines r.newLines) := by
  have hlast : CarriageReturn ∉ front ++ lines := fun h => hcr (by
    rw [← List.append_assoc]
    exact List.mem_append_left _ h)
  have hposition := lineEnd_position hlast hrest
  have hendLine : r.lineRange.endLineNumberExclusive - 1 = (behind (front ++ lines)).lineNumber := by
    omega
  have hle := behind_le front lines
  obtain ⟨hrangeStart, hrangeEnd⟩ := Range.new_of_le hle
  have hlines : (behind front).lineNumber ≤ (behind (front ++ lines)).lineNumber := by
    rw [Position.isBeforeOrEqual_iff] at hle
    omega
  have hnotEmpty : r.lineRange.isEmpty = false := by
    rw [hstart] at hlines
    simp only at hlines
    simp only [LineRange.isEmpty, decide_eq_false_iff_not]
    omega
  have hlength : ¬ r.newLines.length = 0 := fun h => hne (List.length_eq_zero_iff.mp h)
  have hedit : r.toSingleTextEdit (front ++ (lines ++ rest)) =
      ⟨.new (behind front).lineNumber (behind front).column (behind (front ++ lines)).lineNumber
        (behind (front ++ lines)).column, joinLines r.newLines⟩ := by
    rw [List.append_assoc] at hposition
    rw [LineReplacement.toSingleTextEdit, if_neg hlength, hnotEmpty]
    simp only [Bool.false_eq_true, if_false, hendLine]
    rw [← hposition, hstart]
  exact toSingleEdit_of_range hcr hedit hrangeStart hrangeEnd

/-- Lines with their line feeds, in front of another line. -/
theorem toSingleEdit_inside {front old rest : Str} {r : LineReplacement}
    (hcr : CarriageReturn ∉ front ++ (old ++ rest))
    (hstart : behind front = ⟨r.lineRange.startLineNumber, 1⟩)
    (hend : behind (front ++ old) = ⟨r.lineRange.endLineNumberExclusive, 1⟩) :
    ∃ e, r.toSingleEdit (front ++ (old ++ rest)) = .ok e ∧
      Splices e front old (r.newLines.flatMap (· ++ [LineFeed])) := by
  have hcount : (textLength (front ++ (old ++ rest))).lineCount =
      (extent (front ++ old)).lineCount + (extent rest).lineCount := by
    rw [textLength_eq, ← List.append_assoc, extent_append, lineCount_add]
  have hendLine := behind_lineNumber (front ++ old)
  rw [hend] at hendLine
  simp only at hendLine
  have hnotLast : r.lineRange.endLineNumberExclusive ≠
      (textLength (front ++ (old ++ rest))).lineCount + 2 := by omega
  have hle := behind_le front old
  obtain ⟨hrangeStart, hrangeEnd⟩ := Range.new_of_le hle
  by_cases hnone : r.newLines = []
  · have hedit : r.toSingleTextEdit (front ++ (old ++ rest)) =
        ⟨.new (behind front).lineNumber (behind front).column (behind (front ++ old)).lineNumber
          (behind (front ++ old)).column, []⟩ := by
      rw [LineReplacement.toSingleTextEdit, hnone, if_pos List.length_nil]
      simp only [if_neg hnotLast]
      rw [hstart, hend]
    rw [hnone, List.flatMap_nil]
    exact toSingleEdit_of_range hcr hedit hrangeStart hrangeEnd
  have hlength : ¬ r.newLines.length = 0 := fun h => hnone (List.length_eq_zero_iff.mp h)
  by_cases hold : old = []
  · subst hold
    have hsame : r.lineRange.startLineNumber = r.lineRange.endLineNumberExclusive := by
      rw [List.append_nil, hstart] at hend
      exact congrArg Position.lineNumber hend
    have hempty : r.lineRange.isEmpty = true := by
      simpa only [LineRange.isEmpty, decide_eq_true_eq] using hsame
    have hedit : r.toSingleTextEdit (front ++ ([] ++ rest)) =
        ⟨.fromPositions (behind front) (behind (front ++ [])),
          r.newLines.flatMap (· ++ [LineFeed])⟩ := by
      rw [LineReplacement.toSingleTextEdit, if_neg hlength, hempty]
      simp only [if_true, if_neg (hsame ▸ hnotLast)]
      rw [List.append_nil, hstart]
    exact toSingleEdit_of_range hcr hedit (Range.fromPositions_start hle)
      (Range.fromPositions_end hle)
  -- the last line feed of the lines stays where it is
  · obtain ⟨lines, rfl⟩ : ∃ lines, old = lines ++ [LineFeed] := by
      rcases atLineStart_of_column hend with hempty | hlast
      · exact absurd (List.append_eq_nil_iff.mp hempty).2 hold
      · rw [List.getLast?_append_of_ne_nil _ hold] at hlast
        exact List.getLast?_eq_some_iff.mp hlast
    rw [← List.append_assoc, behind_lineFeed] at hend
    have hendLine' := congrArg Position.lineNumber hend
    simp only at hendLine'
    rw [List.append_assoc] at hcr ⊢
    obtain ⟨e, he, hsplice⟩ := toSingleEdit_lines hcr (.inr ⟨rest, rfl⟩) hstart hendLine'.symm hnone
    refine ⟨e, he, ?_⟩
    have hextend := @Splices.extend e front lines (joinLines r.newLines) [] [LineFeed]
      (by simpa using hsplice)
    rw [← joinLines_append_lineFeed hnone]
    simpa using hextend

/-- Lines up to the end of the text, with the line feed in front of them. -/
theorem toSingleEdit_atEnd {front old : Str} {r : LineReplacement}
    (hcr : CarriageReturn ∉ front ++ old) (hold : LineEnds old)
    (hstart : r.lineRange.startLineNumber = (behind front).lineNumber + 1)
    (hend : r.lineRange.endLineNumberExclusive = (textLength (front ++ old)).lineCount + 2) :
    ∃ e, r.toSingleEdit (front ++ old) = .ok e ∧
      Splices e front old (r.newLines.flatMap (LineFeed :: ·)) := by
  have hfront : CarriageReturn ∉ front := fun h => hcr (List.mem_append_left _ h)
  have hposition := lineEnd_position hfront hold
  have hline := behind_lineNumber front
  have hstartLine : r.lineRange.startLineNumber - 1 = (behind front).lineNumber := by omega
  have hle := behind_le front old
  by_cases hnone : r.newLines = []
  · have hafter : r.lineRange.startLineNumber > 1 := by omega
    have hedit : r.toSingleTextEdit (front ++ (old ++ [])) =
        ⟨.fromPositions (behind front) (behind (front ++ old)), []⟩ := by
      rw [List.append_nil, LineReplacement.toSingleTextEdit, hnone, if_pos List.length_nil]
      simp only [if_pos hend, if_pos hafter, hstartLine, hposition]
      rw [textLength_eq]
      rfl
    have hsingle := toSingleEdit_of_range (by simpa using hcr) hedit
      (Range.fromPositions_start hle) (Range.fromPositions_end hle)
    rw [hnone, List.flatMap_nil]
    simpa using hsingle
  have hlength : ¬ r.newLines.length = 0 := fun h => hnone (List.length_eq_zero_iff.mp h)
  rcases hold with rfl | ⟨lines, rfl⟩
  · rw [List.append_nil] at hend hposition
    have hinsertion : r.lineRange.startLineNumber = (textLength front).lineCount + 2 := by
      rw [textLength_eq]
      omega
    have hempty : r.lineRange.isEmpty = true := by
      simp only [LineRange.isEmpty, decide_eq_true_eq]
      omega
    have hedit : r.toSingleTextEdit (front ++ ([] ++ [])) =
        ⟨.fromPositions (behind front) (behind (front ++ [])),
          r.newLines.flatMap (LineFeed :: ·)⟩ := by
      rw [List.append_nil, List.append_nil, LineReplacement.toSingleTextEdit, if_neg hlength, hempty]
      simp only [if_true, if_pos hinsertion, hstartLine, hposition]
    have hsingle := toSingleEdit_of_range (by simpa using hcr) hedit
      (Range.fromPositions_start hle) (Range.fromPositions_end hle)
    simpa using hsingle
  -- the line feed in front of the lines stays where it is
  · have hfeed := behind_lineFeed front
    have hendLine : r.lineRange.endLineNumberExclusive =
        (behind (front ++ [LineFeed] ++ lines)).lineNumber + 1 := by
      rw [hend, textLength_eq, behind_lineNumber]
      simp only [List.append_assoc, List.singleton_append]
      ring
    obtain ⟨e, he, hsplice⟩ := @toSingleEdit_lines (front ++ [LineFeed]) lines [] r
      (by simpa using hcr) (.inl rfl) (by rw [hfeed, hstart]) hendLine hnone
    refine ⟨e, by simpa using he, ?_⟩
    have hextend := @Splices.extend e front lines (joinLines r.newLines) [LineFeed] [] hsplice
    rw [← lineFeed_append_joinLines hnone]
    simpa using hextend

end NexgileIde.Edits
