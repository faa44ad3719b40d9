import NexgileIde.Edits.LineReplacements

/-!
# The lines a text replacement touches

A replacement in the middle of lines is widened to whole lines, of which an untouched first
or last one is left out again. In each case the replacement of the remaining lines does to
the text what the text replacement did, with the line breaks of the new text made line feeds.
-/
namespace NexgileIde.Edits

open Text TextLength
open MergeEditor (LineRange joinLines)

theorem joinLines_cons (line : Str) (rest : List Str) :
    joinLines (line :: rest) = line ++ rest.flatMap (LineFeed :: ·) := by
  cases rest with
  | nil => simp [joinLines]
  | cons next rest =>
    have hne : next :: rest ≠ [] := List.cons_ne_nil _ _
    rw [joinLines, List.intercalate_cons_of_ne_nil hne, ← lineFeed_append_joinLines hne, joinLines]
    simp

theorem joinLines_concat (lines : List Str) (line : Str) :
    joinLines (lines ++ [line]) = lines.flatMap (· ++ [LineFeed]) ++ line := by
  have hfeed := @joinLines_append_lineFeed (lines ++ [line]) (by simp)
  rw [List.flatMap_append, List.flatMap_singleton, ← List.append_assoc] at hfeed
  exact List.append_cancel_right hfeed

theorem splitLines_ne_nil (text : Str) : splitLines text ≠ [] := by
  induction text with
  | nil => simp [splitLines]
  | cons c text ih =>
    rw [splitLines_cons]
    split_ifs
    · simp
    · exact ih
    · intro h
      exact ih (by simpa using congrArg List.length h)

theorem joinLines_modifyHead (text : Str) {lines : List Str} (h : lines ≠ []) :
    joinLines (lines.modifyHead (text ++ ·)) = text ++ joinLines lines := by
  cases lines with
  | nil => exact absurd rfl h
  | cons line rest => rw [List.modifyHead_cons, joinLines_cons, joinLines_cons, List.append_assoc]

theorem addToLast_concat (text : Str) (lines : List Str) (line : Str) :
    addToLast text (lines ++ [line]) = lines ++ [line ++ text] := by
  induction lines with
  | nil => rfl
  | cons first lines ih =>
    cases lines with
    | nil => rfl
    | cons next lines =>
      rw [List.cons_append, List.cons_append, addToLast, ← List.cons_append, ih]
      rfl

/-- The new lines, with what survives of the first and the last line. -/
def widened (a b text : Str) : List Str := addToLast b ((splitLines text).modifyHead (a ++ ·))

theorem widened_ne_nil (a b text : Str) : widened a b text ≠ [] := by
  have hne := splitLines_ne_nil text
  unfold widened
  cases hlines : splitLines text with
  | nil => exact absurd hlines hne
  | cons line rest =>
    rw [List.modifyHead_cons]
    cases rest <;> simp [addToLast]

theorem widened_last (a b text : Str) :
    ∃ lines line, widened a b text = lines ++ [line ++ b] ∧
      joinLines (lines ++ [line]) = a ++ joinLines (splitLines text) := by
  have hne : (splitLines text).modifyHead (a ++ ·) ≠ [] := by
    intro h
    exact splitLines_ne_nil text (by simpa using congrArg List.length h)
  have hsplit := List.dropLast_append_getLast hne
  refine ⟨_, _, by rw [widened, ← hsplit, addToLast_concat], ?_⟩
  rw [hsplit, joinLines_modifyHead a (splitLines_ne_nil text)]

theorem joinLines_widened (a b text : Str) :
    joinLines (widened a b text) = a ++ (joinLines (splitLines text) ++ b) := by
  obtain ⟨lines, line, hwidened, hjoin⟩ := widened_last a b text
  rw [joinLines_concat] at hjoin
  rw [hwidened, joinLines_concat, ← List.append_assoc, hjoin, List.append_assoc]

theorem widened_head (a b text : Str) : ∃ line rest, widened a b text = (a ++ line) :: rest := by
  unfold widened
  cases hlines : splitLines text with
  | nil => exact absurd hlines (splitLines_ne_nil text)
  | cons line rest =>
    cases rest with
    | nil => exact ⟨line ++ b, [], by simp [addToLast]⟩
    | cons next rest => exact ⟨line, _, by rw [List.modifyHead_cons, addToLast]⟩

/-- What dropping the first line can do. -/
theorem dropFirst_cases (before : Bool) (a b text : Str) (startLine : ℤ) :
    LineReplacement.dropFirst before a.length startLine (widened a b text) =
        (startLine, widened a b text) ∨
      before = true ∧ ∃ rest, widened a b text = a :: rest ∧
        LineReplacement.dropFirst before a.length startLine (widened a b text) =
          (startLine + 1, rest) := by
  obtain ⟨line, rest, hlines⟩ := widened_head a b text
  rw [hlines]
  unfold LineReplacement.dropFirst
  split_ifs with h
  · rw [Bool.and_eq_true, decide_eq_true_eq] at h
    have hline : line = [] := by simpa using h.2
    right
    exact ⟨h.1, rest, by simp [hline], rfl⟩
  · left
    rfl

/-- What dropping the last line can do. -/
theorem dropLast_cases (after : Bool) (b line : Str) (startLine endLineEx : ℤ) (lines : List Str) :
    LineReplacement.dropLast after b.length startLine endLineEx (lines ++ [line ++ b]) =
        (endLineEx, lines ++ [line ++ b]) ∨
      startLine < endLineEx ∧ after = true ∧ line = [] ∧
        LineReplacement.dropLast after b.length startLine endLineEx (lines ++ [line ++ b]) =
          (endLineEx - 1, lines) := by
  unfold LineReplacement.dropLast
  split_ifs with h
  · obtain ⟨-, hlt, hafter, hlast⟩ := h
    have hline : line = [] := by simpa using hlast
    right
    exact ⟨hlt, hafter, hline, by simp⟩
  · left
    rfl

theorem dropLast_nil (after : Bool) (survivingLength : ℕ) (startLine endLineEx : ℤ) :
    LineReplacement.dropLast after survivingLength startLine endLineEx [] = (endLineEx, []) := by
  simp [LineReplacement.dropLast]

/-- A replacement of `old` in a text, with what stands in front of it and behind it in the
lines it touches. -/
structure Window (edit : TextReplacement) (front a old b rest : Str) : Prop where
  noCarriageReturn : CarriageReturn ∉ front ++ (a ++ (old ++ (b ++ rest)))
  column_front : (behind front).column = 1
  noLineFeed_before : LineFeed ∉ a
  noLineFeed_after : LineFeed ∉ b
  lineEnds : LineEnds rest
  start_eq : edit.range.getStartPosition = behind (front ++ a)
  end_eq : edit.range.getEndPosition = behind (front ++ (a ++ old))

namespace Window

variable {edit : TextReplacement} {front a old b rest : Str}

theorem lineNumber_append {u v : Str} (h : LineFeed ∉ v) :
    (behind (u ++ v)).lineNumber = (behind u).lineNumber := by
  rw [behind_append, addToPosition_lineNumber, extent_of_noLineFeed h]
  simp

theorem behind_front (w : Window edit front a old b rest) :
    behind front = ⟨edit.range.startLineNumber, 1⟩ := by
  have hstart := congrArg Position.lineNumber w.start_eq
  rw [lineNumber_append w.noLineFeed_before] at hstart
  have hcolumn := w.column_front
  cases hfront : behind front with
  | mk lineNumber column =>
    rw [hfront] at hstart hcolumn
    exact Position.mk.injEq .. ▸ ⟨hstart.symm, hcolumn⟩

theorem endLineNumber_eq (w : Window edit front a old b rest) :
    edit.range.endLineNumber = (behind (front ++ (a ++ (old ++ b)))).lineNumber := by
  have hend := congrArg Position.lineNumber w.end_eq
  have hb := @lineNumber_append (front ++ (a ++ old)) b w.noLineFeed_after
  have hassoc : front ++ (a ++ old) ++ b = front ++ (a ++ (old ++ b)) := by simp
  rw [hassoc] at hb
  rw [hb]
  exact hend

theorem noCR_left (w : Window edit front a old b rest) {u v : Str}
    (h : front ++ (a ++ (old ++ (b ++ rest))) = u ++ v) : CarriageReturn ∉ u :=
  fun hmem => w.noCarriageReturn (h ▸ List.mem_append_left _ hmem)

theorem firstText (w : Window edit front a old b rest) :
    getValueOfRange (front ++ (a ++ (old ++ (b ++ rest))))
      (.fromPositions ⟨edit.range.startLineNumber, 1⟩ edit.range.getStartPosition) = .ok a := by
  have hle := behind_le front a
  have hassoc : front ++ (a ++ (old ++ (b ++ rest))) = front ++ a ++ (old ++ (b ++ rest)) := by simp
  rw [← w.behind_front, w.start_eq]
  exact getValueOfRange_eq (Range.fromPositions_start hle) (Range.fromPositions_end hle)
    (not_seam_of_noCarriageReturn (w.noCR_left rfl) _)
    (not_seam_of_noCarriageReturn (w.noCR_left hassoc) _)

theorem lastText (w : Window edit front a old b rest) :
    getValueOfRange (front ++ (a ++ (old ++ (b ++ rest))))
      (.fromPositions edit.range.getEndPosition ⟨edit.range.endLineNumber,
        getLineLength (front ++ (a ++ (old ++ (b ++ rest)))) edit.range.endLineNumber + 1⟩) =
      .ok b := by
  have hassoc : front ++ (a ++ (old ++ (b ++ rest))) = front ++ (a ++ old) ++ (b ++ rest) := by simp
  have hassoc' : front ++ (a ++ (old ++ (b ++ rest))) = front ++ (a ++ (old ++ b)) ++ rest := by simp
  have hlast : front ++ (a ++ (old ++ b)) = front ++ (a ++ old) ++ b := by simp
  have hposition := lineEnd_position (w.noCR_left hassoc') w.lineEnds
  rw [← hassoc', ← w.endLineNumber_eq, hlast] at hposition
  have hle := behind_le (front ++ (a ++ old)) b
  rw [hposition, w.end_eq, hassoc]
  exact getValueOfRange_eq (Range.fromPositions_start hle) (Range.fromPositions_end hle)
    (not_seam_of_noCarriageReturn (w.noCR_left hassoc) _)
    (not_seam_of_noCarriageReturn (hlast ▸ w.noCR_left hassoc') _)

theorem lineEnds_of_toLineEnd {previous : Option CodeUnit} {v : Str} (hcr : CarriageReturn ∉ v)
    (h : toLineEnd previous v = 0) : LineEnds v := by
  cases v with
  | nil => exact .inl rfl
  | cons c v =>
    by_cases hc : c = LineFeed
    · exact .inr ⟨v, by rw [hc]⟩
    · have hseam : ¬ Seam [c] v :=
        not_seam_of_noCarriageReturn (fun hmem => hcr (by simp_all)) v
      have hnonneg := toLineEnd_nonneg hseam
      rw [List.getLast?_singleton] at hnonneg
      rw [toLineEnd, if_neg hc] at h
      omega

/-- An edit that starts behind the last column of its line starts in front of a line feed. -/
theorem lineEnds_of_startColumn (w : Window edit front a old b rest)
    (h : edit.range.startColumn =
      getLineLength (front ++ (a ++ (old ++ (b ++ rest)))) edit.range.startLineNumber + 1) :
    LineEnds (old ++ (b ++ rest)) := by
  have hassoc : front ++ (a ++ (old ++ (b ++ rest))) = front ++ a ++ (old ++ (b ++ rest)) := by simp
  have hlength := getLineLength_eq (front ++ a) (old ++ (b ++ rest))
  have hline : (behind (front ++ a)).lineNumber = edit.range.startLineNumber := by
    rw [← w.start_eq]
    rfl
  have hcolumn : edit.range.startColumn = 1 + (extent (front ++ a)).columnCount := by
    have hstart := congrArg Position.column w.start_eq
    rw [behind_eq] at hstart
    exact hstart
  rw [hline, ← hassoc] at hlength
  have hcr : CarriageReturn ∉ old ++ (b ++ rest) := fun hmem => w.noCarriageReturn (by
    rw [hassoc]
    exact List.mem_append_right _ hmem)
  exact lineEnds_of_toLineEnd hcr (by omega : toLineEnd (front ++ a).getLast? _ = 0)

theorem behind_end (w : Window edit front a old b rest) (h : edit.range.endColumn = 1) :
    behind (front ++ (a ++ old)) = ⟨edit.range.endLineNumber, 1⟩ := by
  rw [← w.end_eq, ← h]
  rfl

end Window

theorem createLineRange_of_le {startLine endLineEx : ℤ} (h : startLine ≤ endLineEx) :
    createLineRange startLine endLineEx = .ok ⟨startLine, endLineEx, h⟩ := by
  rw [createLineRange, newLineRange_of_le h]

/-- What the replacement of some of the lines has to do. -/
def Window.Spliced (edit : TextReplacement) (front a old b rest : Str) (r : LineReplacement) :
    Prop :=
  ∃ e, r.toSingleEdit (front ++ (a ++ (old ++ (b ++ rest)))) = .ok e ∧
    Splices e front (a ++ (old ++ (b ++ rest.take 1)))
      (a ++ (joinLines (splitLines edit.text) ++ (b ++ rest.take 1)))

namespace Window

variable {edit : TextReplacement} {front a old b rest : Str}

theorem spliced_all (w : Window edit front a old b rest)
    (h : edit.range.startLineNumber ≤ edit.range.endLineNumber + 1) :
    Spliced edit front a old b rest
      ⟨⟨edit.range.startLineNumber, edit.range.endLineNumber + 1, h⟩,
        widened a b edit.text⟩ := by
  have hassoc : front ++ (a ++ (old ++ (b ++ rest))) = front ++ (a ++ (old ++ b) ++ rest) := by simp
  have hcr := w.noCarriageReturn
  unfold Spliced
  rw [hassoc] at hcr ⊢
  obtain ⟨e, he, hsplice⟩ := @toSingleEdit_lines front (a ++ (old ++ b)) rest
    ⟨⟨edit.range.startLineNumber, edit.range.endLineNumber + 1, h⟩, widened a b edit.text⟩
    hcr w.lineEnds w.behind_front (congrArg (· + 1) w.endLineNumber_eq) (widened_ne_nil a b edit.text)
  have hextend := @Splices.extend e front _ _ [] (rest.take 1) (by simpa using hsplice)
  rw [joinLines_widened] at hextend
  exact ⟨e, he, by simpa using hextend⟩

theorem spliced_dropLast (w : Window edit front a old b rest) (hcolumn : edit.range.endColumn = 1)
    {lines : List Str} (hlines : widened a b edit.text = lines ++ [b])
    (h : edit.range.startLineNumber ≤ edit.range.endLineNumber) :
    Spliced edit front a old b rest
      ⟨⟨edit.range.startLineNumber, edit.range.endLineNumber, h⟩, lines⟩ := by
  have hassoc : front ++ (a ++ (old ++ (b ++ rest))) = front ++ (a ++ old ++ (b ++ rest)) := by simp
  have hcr := w.noCarriageReturn
  have hjoin := joinLines_widened a b edit.text
  rw [hlines, joinLines_concat] at hjoin
  unfold Spliced
  rw [hassoc] at hcr ⊢
  obtain ⟨e, he, hsplice⟩ := @toSingleEdit_inside front (a ++ old) (b ++ rest)
    ⟨⟨edit.range.startLineNumber, edit.range.endLineNumber, h⟩, lines⟩ hcr w.behind_front
    (w.behind_end hcolumn)
  have hextend := @Splices.extend e front _ _ [] (b ++ rest.take 1) (by simpa using hsplice)
  refine ⟨e, he, ?_⟩
  have hnew : [] ++ (lines.flatMap (· ++ [LineFeed]) ++ (b ++ rest.take 1)) =
      a ++ (joinLines (splitLines edit.text) ++ (b ++ rest.take 1)) := by
    rw [List.nil_append, ← List.append_assoc, hjoin]
    simp
  rw [hnew] at hextend
  simpa using hextend

theorem startLineNumber_eq (w : Window edit front a old b rest) :
    (behind (front ++ a)).lineNumber = edit.range.startLineNumber := by
  rw [← w.start_eq]
  rfl

/-- The line behind the first one starts behind its line feed. -/
theorem behind_firstLine (w : Window edit front a old b rest) :
    behind (front ++ (a ++ [LineFeed])) = ⟨edit.range.startLineNumber + 1, 1⟩ := by
  rw [← List.append_assoc, behind_lineFeed, w.startLineNumber_eq]

theorem spliced_dropFirst (w : Window edit front a old b rest)
    (hbefore : LineEnds (old ++ (b ++ rest))) {lines : List Str}
    (hlines : widened a b edit.text = a :: lines)
    (h : edit.range.startLineNumber + 1 ≤ edit.range.endLineNumber + 1) :
    Spliced edit front a old b rest
      ⟨⟨edit.range.startLineNumber + 1, edit.range.endLineNumber + 1, h⟩, lines⟩ := by
  have hjoin := joinLines_widened a b edit.text
  have hcr := w.noCarriageReturn
  have hendLine := w.endLineNumber_eq
  rw [hlines] at hjoin
  unfold Spliced
  rcases w.lineEnds with rfl | ⟨rest, rfl⟩
  · have hassoc : front ++ (a ++ (old ++ (b ++ []))) = front ++ a ++ (old ++ b) := by simp
    rw [hassoc] at hcr ⊢
    have hlast : edit.range.endLineNumber + 1 =
        (textLength (front ++ a ++ (old ++ b))).lineCount + 2 := by
      rw [textLength_eq, hendLine, behind_lineNumber, ← List.append_assoc front a (old ++ b)]
      ring
    obtain ⟨e, he, hsplice⟩ := @toSingleEdit_atEnd (front ++ a) (old ++ b)
      ⟨⟨edit.range.startLineNumber + 1, edit.range.endLineNumber + 1, h⟩, lines⟩ hcr
      (by simpa using hbefore) (by rw [w.startLineNumber_eq]) hlast
    have hextend := @Splices.extend e front _ _ a [] hsplice
    rw [List.append_nil (List.flatMap _ _), ← joinLines_cons, hjoin] at hextend
    exact ⟨e, he, by simpa using hextend⟩
  · obtain ⟨below, hbelow⟩ : ∃ below, old ++ (b ++ [LineFeed]) = LineFeed :: below := by
      rcases hbefore with hnil | ⟨below, hbelow⟩
      · simp at hnil
      · cases old with
        | nil =>
          cases b with
          | nil => exact ⟨[], rfl⟩
          | cons c b =>
            obtain rfl : c = LineFeed := by simpa using (List.cons.inj hbelow).1
            exact absurd (List.mem_cons_self ..) w.noLineFeed_after
        | cons c old =>
          obtain rfl : c = LineFeed := by simpa using (List.cons.inj hbelow).1
          exact ⟨_, rfl⟩
    have hassoc : front ++ (a ++ (old ++ (b ++ LineFeed :: rest))) =
        front ++ (a ++ [LineFeed]) ++ (below ++ rest) := by
      have hsplit : old ++ (b ++ LineFeed :: rest) = old ++ (b ++ [LineFeed]) ++ rest := by simp
      rw [hsplit, hbelow]
      simp
    have hendBehind : behind (front ++ (a ++ [LineFeed]) ++ below) =
        ⟨edit.range.endLineNumber + 1, 1⟩ := by
      have hsame : front ++ (a ++ [LineFeed]) ++ below =
          front ++ (a ++ (old ++ b)) ++ [LineFeed] := by
        have hcut := congrArg (front ++ a ++ ·) hbelow
        simpa using hcut.symm
      rw [hsame, behind_lineFeed, ← hendLine]
    rw [hassoc] at hcr ⊢
    obtain ⟨e, he, hsplice⟩ := @toSingleEdit_inside (front ++ (a ++ [LineFeed])) below rest
      ⟨⟨edit.range.startLineNumber + 1, edit.range.endLineNumber + 1, h⟩, lines⟩ hcr
      w.behind_firstLine hendBehind
    have hextend := @Splices.extend e front _ _ (a ++ [LineFeed]) [] hsplice
    have hnew : a ++ [LineFeed] ++ (lines.flatMap (· ++ [LineFeed]) ++ []) =
        a ++ (joinLines (splitLines edit.text) ++ (b ++ [LineFeed])) := by
      have hfeed := joinLines_append_lineFeed (List.cons_ne_nil a lines)
      rw [hjoin] at hfeed
      simpa using hfeed.symm
    rw [hnew] at hextend
    refine ⟨e, he, ?_⟩
    have hold : a ++ (old ++ (b ++ [LineFeed])) = a ++ [LineFeed] ++ (below ++ []) := by
      rw [hbelow]
      simp
    simpa [hold] using hextend

theorem spliced_dropBoth (w : Window edit front a old b rest)
    (hbefore : LineEnds (old ++ (b ++ rest))) (hcolumn : edit.range.endColumn = 1)
    {lines : List Str} (hlines : widened a b edit.text = a :: (lines ++ [b]))
    (h : edit.range.startLineNumber + 1 ≤ edit.range.endLineNumber) :
    Spliced edit front a old b rest
      ⟨⟨edit.range.startLineNumber + 1, edit.range.endLineNumber, h⟩, lines⟩ := by
  have hjoin := joinLines_widened a b edit.text
  have hcr := w.noCarriageReturn
  have hend := w.behind_end hcolumn
  rw [hlines, ← List.cons_append, joinLines_concat] at hjoin
  obtain ⟨below, rfl⟩ : ∃ below, old = LineFeed :: below := by
    cases old with
    | nil =>
      rw [List.append_nil] at hend
      have hline := w.startLineNumber_eq
      rw [hend] at hline
      simp only at hline
      omega
    | cons c old =>
      rcases hbefore with hnil | ⟨below, hbelow⟩
      · cases hnil
      · obtain rfl : c = LineFeed := by simpa using (List.cons.inj hbelow).1
        exact ⟨old, rfl⟩
  have hassoc : front ++ (a ++ (LineFeed :: below ++ (b ++ rest))) =
      front ++ (a ++ [LineFeed]) ++ (below ++ (b ++ rest)) := by simp
  have hsame : front ++ (a ++ LineFeed :: below) = front ++ (a ++ [LineFeed]) ++ below := by simp
  unfold Spliced
  rw [hsame] at hend
  rw [hassoc] at hcr ⊢
  obtain ⟨e, he, hsplice⟩ := @toSingleEdit_inside (front ++ (a ++ [LineFeed])) below (b ++ rest)
    ⟨⟨edit.range.startLineNumber + 1, edit.range.endLineNumber, h⟩, lines⟩ hcr
    w.behind_firstLine hend
  have hextend := @Splices.extend e front _ _ (a ++ [LineFeed]) (b ++ rest.take 1) hsplice
  have hnew : a ++ [LineFeed] ++ (lines.flatMap (· ++ [LineFeed]) ++ (b ++ rest.take 1)) =
      a ++ (joinLines (splitLines edit.text) ++ (b ++ rest.take 1)) := by
    have hmore := congrArg (· ++ rest.take 1) hjoin
    simpa using hmore
  rw [hnew] at hextend
  exact ⟨e, he, by simpa using hextend⟩

/-- The conversion, with the two lines that may be dropped decided. -/
theorem fromSingleTextEdit_eq (w : Window edit front a old b rest) {startLine endLine : ℤ}
    {first lines : List Str} (h : startLine ≤ endLine)
    (hfirst : LineReplacement.dropFirst
      (edit.range.startColumn = getLineLength (front ++ (a ++ (old ++ (b ++ rest))))
        edit.range.startLineNumber + 1) a.length edit.range.startLineNumber
      (widened a b edit.text) = (startLine, first))
    (hlast : LineReplacement.dropLast (edit.range.endColumn = 1) b.length startLine
      (edit.range.endLineNumber + 1) first = (endLine, lines)) :
    LineReplacement.fromSingleTextEdit edit (front ++ (a ++ (old ++ (b ++ rest)))) =
      .ok ⟨⟨startLine, endLine, h⟩, lines⟩ := by
  rw [widened] at hfirst
  rw [LineReplacement.fromSingleTextEdit, w.firstText]
  simp only [w.lastText, liftM, monadLift, MonadLift.monadLift, Except.mapError, bind, Except.bind,
    pure, Except.pure, hfirst, hlast, createLineRange_of_le h]

/-- The line replacement of a text replacement stays within the lines that are touched, and
does to them what the text replacement does. -/
theorem fromSingleTextEdit_spec (w : Window edit front a old b rest) :
    ∃ r : LineReplacement, LineReplacement.fromSingleTextEdit edit
        (front ++ (a ++ (old ++ (b ++ rest)))) = .ok r ∧
      edit.range.startLineNumber ≤ r.lineRange.startLineNumber ∧
      r.lineRange.endLineNumberExclusive ≤ edit.range.endLineNumber + 1 ∧
      Spliced edit front a old b rest r := by
  have hle : edit.range.startLineNumber ≤ edit.range.endLineNumber := by
    have := edit.range.start_le_end
    omega
  obtain ⟨lines, line, hwidened, -⟩ := widened_last a b edit.text
  rcases dropFirst_cases (edit.range.startColumn =
      getLineLength (front ++ (a ++ (old ++ (b ++ rest)))) edit.range.startLineNumber + 1)
      a b edit.text edit.range.startLineNumber with hfirst | ⟨hbefore, first, hdrop, hfirst⟩
  · have hall := dropLast_cases (edit.range.endColumn = 1) b line edit.range.startLineNumber
      (edit.range.endLineNumber + 1) lines
    rw [← hwidened] at hall
    rcases hall with hlast | ⟨-, hafter, rfl, hlast⟩
    · exact ⟨_, w.fromSingleTextEdit_eq (by omega) hfirst hlast, le_rfl, le_rfl, w.spliced_all _⟩
    · rw [add_sub_cancel_right] at hlast
      refine ⟨_, w.fromSingleTextEdit_eq hle hfirst hlast, le_rfl, by simp, ?_⟩
      exact w.spliced_dropLast (by simpa using hafter) hwidened hle
  · have hlineEnds := w.lineEnds_of_startColumn (by simpa using hbefore)
    have hafterFirst : edit.range.startLineNumber + 1 ≤ edit.range.endLineNumber + 1 := by omega
    cases lines with
    | nil =>
      rw [List.nil_append] at hwidened
      obtain rfl : first = [] := by
        rw [hwidened] at hdrop
        exact (List.cons.inj hdrop).2.symm
      have hlast := dropLast_nil (edit.range.endColumn = 1) b.length
        (edit.range.startLineNumber + 1) (edit.range.endLineNumber + 1)
      refine ⟨_, w.fromSingleTextEdit_eq hafterFirst hfirst hlast, by simp, le_rfl, ?_⟩
      exact w.spliced_dropFirst hlineEnds hdrop hafterFirst
    | cons head lines =>
      obtain ⟨rfl, rfl⟩ : head = a ∧ first = lines ++ [line ++ b] := by
        rw [hwidened, List.cons_append] at hdrop
        exact ⟨(List.cons.inj hdrop).1, (List.cons.inj hdrop).2.symm⟩
      rcases dropLast_cases (edit.range.endColumn = 1) b line (edit.range.startLineNumber + 1)
          (edit.range.endLineNumber + 1) lines with hlast | ⟨hlt, hafter, rfl, hlast⟩
      · refine ⟨_, w.fromSingleTextEdit_eq hafterFirst hfirst hlast, by simp, le_rfl, ?_⟩
        exact w.spliced_dropFirst hlineEnds hdrop hafterFirst
      · rw [add_sub_cancel_right] at hlast
        have hafterBoth : edit.range.startLineNumber + 1 ≤ edit.range.endLineNumber := by omega
        refine ⟨_, w.fromSingleTextEdit_eq hafterBoth hfirst hlast, by simp, by simp, ?_⟩
        exact w.spliced_dropBoth hlineEnds (by simpa using hafter) hdrop hafterBoth

end Window

end NexgileIde.Edits
