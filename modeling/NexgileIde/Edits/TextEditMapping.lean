import NexgileIde.Edits.TextEditInverse

/-!
# Mapping positions through a text edit

`mapPosition` adds up how lines and columns move. A range of several lines that is replaced
by a single line forgets the column it starts at, and one replaced by several lines forgets
the column it ends at, so that the result may lag behind the place the position has in the
edited text.
-/
namespace NexgileIde.Edits

open Text TextLength

namespace TextEdit

/-- The loop of `mapPosition`; a position inside a replaced range is mapped to a range. -/
def mapPositionLoop (position : Position) (lineDelta curLine columnDeltaInCurLine : ℤ) :
    List TextReplacement → Except TextEditError (Position ⊕ Range)
  | [] => return .inl ⟨position.lineNumber + lineDelta, position.column +
      if position.lineNumber + lineDelta = curLine then columnDeltaInCurLine else 0⟩
  | replacement :: rest =>
    let start := replacement.range.getStartPosition
    if position.isBeforeOrEqual start then
      return .inl ⟨position.lineNumber + lineDelta, position.column +
        if position.lineNumber + lineDelta = curLine then columnDeltaInCurLine else 0⟩
    else
      let stop := replacement.range.getEndPosition
      let len := ofText replacement.text
      if position.isBefore stop then do
        let startPos : Position := ⟨start.lineNumber + lineDelta, start.column +
          if start.lineNumber + lineDelta = curLine then columnDeltaInCurLine else 0⟩
        let range ← rangeFromPositions startPos (len.addToPosition startPos)
        return .inr range
      else
        let columnDelta := if start.lineNumber + lineDelta ≠ curLine then 0 else columnDeltaInCurLine
        let lineDelta := lineDelta + (len.lineCount -
          (replacement.range.endLineNumber - replacement.range.startLineNumber))
        let columnDelta :=
          if len.lineCount = 0 then
            if stop.lineNumber ≠ start.lineNumber then
              columnDelta + (len.columnCount - (stop.column - 1))
            else columnDelta + (len.columnCount - (stop.column - start.column))
          else len.columnCount
        mapPositionLoop position lineDelta (stop.lineNumber + lineDelta) columnDelta rest

def mapPosition (e : TextEdit) (position : Position) : Except TextEditError (Position ⊕ Range) :=
  mapPositionLoop position 0 0 0 e.replacements

/-- By how many columns the end of a replacement is computed too far to the left, when its
start is by `lag` columns. -/
def lagBehind (lag : ℤ) (r : TextReplacement) : ℤ :=
  if LineFeed ∈ r.text then lastLinePairs r.text - (r.range.endColumn - 1)
  else
    lag + (if r.range.startLineNumber = r.range.endLineNumber then 0 else r.range.startColumn - 1) +
      lastLinePairs r.text

/-- By how many columns `mapPosition` comes out too far to the left. The last range ends in
the line `lastLine`, where it lags by `lag` columns. -/
def lagFrom (position : Position) (lastLine lag : ℤ) : List TextReplacement → ℤ
  | [] => if position.lineNumber = lastLine then lag else 0
  | r :: rest =>
    if position.isBeforeOrEqual r.range.getStartPosition then
      if position.lineNumber = lastLine then lag else 0
    else
      lagFrom position r.range.endLineNumber
        (lagBehind (if r.range.startLineNumber = lastLine then lag else 0) r) rest

def lag (e : TextEdit) (position : Position) : ℤ := lagFrom position 0 0 e.replacements

/-- How much the replacements that start before a position move it. -/
def shiftBefore (doc : Str) (position : Position) (rs : List TextReplacement) : ℤ :=
  ((rs.filter fun r => r.range.getStartPosition.isBefore position).map fun r =>
    (r.text.length : ℤ) -
      (getOffset doc r.range.getEndPosition - getOffset doc r.range.getStartPosition)).sum

end TextEdit

/-- Between `u` and `v` a line ends, a `\r` in front of the line feed not counted. -/
def AtLineEnd (u v : Str) : Prop :=
  ¬ Seam u v ∧ (v = [] ∨ v.head? = some LineFeed) ∨ [CarriageReturn, LineFeed] <+: v

/-- Whether a position that lags by `lag` columns has the offset between `u` and `v`: either
it does not lag and the offset has a position, or it is clamped to the end of the line at
which the offset is. -/
def Found (u v : Str) (lag : ℤ) : Prop :=
  lag = 0 ∧ ¬ Seam u v ∨ lag < 0 ∧ AtLineEnd u v ∨ 0 < lag ∧ AtLineStart u

theorem toLineEnd_eq_neg_one {u v : Str} : toLineEnd u.getLast? v = -1 ↔ Seam u v := by
  constructor
  · intro h
    by_contra hseam
    have := toLineEnd_nonneg hseam
    omega
  · exact toLineEnd_of_seam

theorem toLineEnd_eq_zero {u v : Str} : toLineEnd u.getLast? v = 0 ↔ AtLineEnd u v := by
  unfold AtLineEnd
  cases v with
  | nil => simp [toLineEnd, Seam]
  | cons c v =>
    by_cases hc : c = LineFeed
    · subst hc
      simp [toLineEnd, Seam]
    · have hnext := @toLineEnd_eq_neg_one [c] v
      rw [List.getLast?_singleton] at hnext
      have hiff : toLineEnd u.getLast? (c :: v) = 0 ↔ Seam [c] v := by
        rw [toLineEnd, if_neg hc, ← hnext]
        omega
      rw [hiff]
      cases v with
      | nil => simp [Seam, hc]
      | cons d v => simp [Seam, hc, eq_comm]

/-- The offset of a position that lags. -/
theorem getOffset_eq_iff_found (u v : Str) (lag : ℤ) :
    getOffset (u ++ v) ⟨(behind u).lineNumber, (behind u).column + -lag⟩ = u.length ↔
      Found u v lag := by
  have hle := neg_columnCount_le u v
  have hseam : -1 ≤ toLineEnd u.getLast? v := by
    by_cases h : Seam u v
    · rw [toLineEnd_of_seam h]
    · have := toLineEnd_nonneg h
      omega
  rw [getOffset_shifted, Found, ← toLineEnd_eq_neg_one, ← toLineEnd_eq_zero,
    ← extent_columnCount_eq_zero]
  omega

/-- A position behind the last range lags while it is in the line that range ends in. -/
theorem carry_lagging {front newFront : Str} {firstLine lineDelta columnDelta lastLine lag : ℤ}
    (hcarries : Carries firstLine lineDelta columnDelta (behind front)
      ⟨(behind newFront).lineNumber, (behind newFront).column + -lag⟩)
    (hlast : lastLine = (behind front).lineNumber ∨ lag = 0) (x : Str) :
    carry firstLine lineDelta columnDelta (behind (front ++ x)) =
      ⟨(behind (newFront ++ x)).lineNumber, (behind (newFront ++ x)).column +
        -(if (behind (front ++ x)).lineNumber = lastLine then lag else 0)⟩ := by
  have hx := hcarries (extent x)
  have hline := addToPosition_lineNumber (extent x) (behind front)
  rw [← behind_append] at hx hline
  rw [hx, behind_append newFront]
  unfold addToPosition
  rcases hlast with rfl | rfl
  · split_ifs with h1 h2 h2
    · simp only [Position.mk.injEq, true_and]
      ring
    · omega
    · omega
    · simp
  · split_ifs <;> simp

/-- Without a line feed in the text, the column behind it is in the line the range starts in. -/
theorem column_lagBehind {startLine startColumn endLine endColumn shift column lagging : ℤ}
    {count pairs total : ℤ} (hcolumn : startColumn + shift = column + -lagging)
    (htotal : count + pairs = total) :
    (if endLine ≠ startLine then shift + (count - (endColumn - 1))
      else shift + (count - (endColumn - startColumn))) =
    column + total + -(lagging + (if startLine = endLine then 0 else startColumn - 1) + pairs) -
      endColumn := by
  by_cases hsame : endLine = startLine
  · rw [if_neg (by simpa using hsame), if_pos hsame.symm]
    omega
  · rw [if_pos hsame, if_neg (Ne.symm hsame)]
    omega

/-- The deltas behind a replacement carry positions from its end, with its lag. -/
theorem carries_lagBehind {front newFront gap old : Str} {r : TextReplacement}
    {curLine lineDelta columnDelta lastLine lag : ℤ}
    (hcarries : Carries (curLine - lineDelta) lineDelta columnDelta (behind front)
      ⟨(behind newFront).lineNumber, (behind newFront).column + -lag⟩)
    (hlast : lastLine = (behind front).lineNumber ∨ lag = 0)
    (hstart : r.range.getStartPosition = behind (front ++ gap))
    (hend : r.range.getEndPosition = behind (front ++ gap ++ old)) :
    Carries r.range.endLineNumber
      (lineDelta + ((ofText r.text).lineCount - (r.range.endLineNumber - r.range.startLineNumber)))
      (if (ofText r.text).lineCount = 0 then
        if r.range.endLineNumber ≠ r.range.startLineNumber then
          (if r.range.startLineNumber + lineDelta ≠ curLine then 0 else columnDelta) +
            ((ofText r.text).columnCount - (r.range.endColumn - 1))
        else
          (if r.range.startLineNumber + lineDelta ≠ curLine then 0 else columnDelta) +
            ((ofText r.text).columnCount - (r.range.endColumn - r.range.startColumn))
      else (ofText r.text).columnCount)
      (behind (front ++ gap ++ old))
      ⟨(behind (newFront ++ gap ++ r.text)).lineNumber,
        (behind (newFront ++ gap ++ r.text)).column +
          -TextEdit.lagBehind (if r.range.startLineNumber = lastLine then lag else 0) r⟩ := by
  have hcarry := carry_lagging hcarries hlast gap
  rw [← hstart] at hcarry
  simp only [carry, Range.getStartPosition, Position.mk.injEq] at hcarry
  obtain ⟨hline, hcolumn⟩ := hcarry
  have hnew := behind_append (newFront ++ gap) r.text
  have hcount := ofText_lineCount r.text
  have hcolumns := ofText_columnCount r.text
  have hfeed := @extent_lineCount_eq_zero r.text
  have hzero : (if r.range.startLineNumber + lineDelta ≠ curLine then (0 : ℤ) else columnDelta) =
      if r.range.startLineNumber = curLine - lineDelta then columnDelta else 0 := by
    split_ifs <;> omega
  rw [← hend, hzero]
  refine carries_of_eq ?_ ?_
  · rw [hnew]
    simp only [addToPosition_lineNumber, Range.getEndPosition]
    omega
  · rw [hnew]
    unfold addToPosition TextEdit.lagBehind
    simp only [Range.getEndPosition]
    by_cases h0 : (extent r.text).lineCount = 0
    · rw [if_pos (hcount.trans h0), if_pos h0, if_neg (hfeed.mp h0)]
      simp only
      exact column_lagBehind hcolumn (by omega)
    · rw [if_neg (by omega), if_neg h0, if_pos (by_contra fun h => h0 (hfeed.mpr h))]
      simp only
      omega

/-- A position in front of all replacements is not moved by them. -/
theorem shiftBefore_eq_zero {doc : Str} {p : Position} {rs : List TextReplacement}
    (h : ∀ r ∈ rs, r.range.getStartPosition.isBefore p = false) :
    TextEdit.shiftBefore doc p rs = 0 := by
  have hnone : rs.filter (fun r => r.range.getStartPosition.isBefore p) = [] := by
    rw [List.filter_eq_nil_iff]
    intro r hr
    rw [h r hr]
    simp
  rw [TextEdit.shiftBefore, hnone]
  rfl

theorem shiftBefore_cons {doc : Str} {p : Position} {r : TextReplacement}
    {rs : List TextReplacement} (h : r.range.getStartPosition.isBefore p) :
    TextEdit.shiftBefore doc p (r :: rs) = r.text.length - (getOffset doc r.range.getEndPosition -
      getOffset doc r.range.getStartPosition) + TextEdit.shiftBefore doc p rs := by
  simp [TextEdit.shiftBefore, h]

theorem mapped_eq_carry (p : Position) (curLine lineDelta columnDelta : ℤ) :
    (⟨p.lineNumber + lineDelta, p.column +
      if p.lineNumber + lineDelta = curLine then columnDelta else 0⟩ : Position) =
        carry (curLine - lineDelta) lineDelta columnDelta p := by
  unfold carry
  have hiff : p.lineNumber + lineDelta = curLine ↔ p.lineNumber = curLine - lineDelta := by omega
  simp only [hiff]

/-- The loop finds the place between `u` and `v` of the new text, up to the lag. -/
theorem mapPositionLoop_eq {front rest new newFront x y : Str} {rs : List TextReplacement}
    {curLine lineDelta columnDelta lastLine lag : ℤ}
    (h : Rewrites front rs rest new) (hrest : rest = x ++ y)
    (hinside : ∀ r ∈ rs, ¬ (r.range.getStartPosition.isBefore (behind (front ++ x)) ∧
      (behind (front ++ x)).isBefore r.range.getEndPosition))
    (hcarries : Carries (curLine - lineDelta) lineDelta columnDelta (behind front)
      ⟨(behind newFront).lineNumber, (behind newFront).column + -lag⟩)
    (hlast : lastLine = (behind front).lineNumber ∨ lag = 0) :
    ∃ u v, newFront ++ new = u ++ v ∧
      (u.length : ℤ) = newFront.length + x.length +
        TextEdit.shiftBefore (front ++ rest) (behind (front ++ x)) rs ∧
      TextEdit.mapPositionLoop (behind (front ++ x)) lineDelta curLine columnDelta rs =
        .ok (.inl ⟨(behind u).lineNumber, (behind u).column +
          -TextEdit.lagFrom (behind (front ++ x)) lastLine lag rs⟩) := by
  induction h generalizing newFront x curLine lineDelta columnDelta lastLine lag with
  | nil front rest =>
    refine ⟨newFront ++ x, y, by rw [hrest, List.append_assoc], ?_, ?_⟩
    · rw [shiftBefore_eq_zero (fun r hr => absurd hr List.not_mem_nil)]
      simp
    · rw [TextEdit.mapPositionLoop, TextEdit.lagFrom, mapped_eq_carry,
        carry_lagging hcarries hlast]
      rfl
  | @cons front rest new r rs gap old hstart hend hgapSeam hendSeam htail ih =>
    have hassoc : front ++ (gap ++ (old ++ rest)) = front ++ gap ++ old ++ rest := by simp
    by_cases hle : (behind (front ++ x)).isBeforeOrEqual r.range.getStartPosition
    · have hsplit : front ++ x ++ y = front ++ gap ++ (old ++ rest) := by
        rw [List.append_assoc, ← hrest, List.append_assoc]
      obtain ⟨w, hgap, -⟩ := exists_gap hsplit (by rwa [← hstart])
      rw [List.append_assoc, List.append_cancel_left_eq] at hgap
      subst hgap
      have hlater : ∀ r' ∈ r :: rs,
          r'.range.getStartPosition.isBefore (behind (front ++ x)) = false := by
        intro r' hr'
        obtain ⟨w', hw'⟩ : ∃ w', r'.range.getStartPosition = behind (front ++ x ++ w') := by
          rcases List.mem_cons.mp hr' with rfl | hr'
          · exact ⟨w, by rw [hstart, List.append_assoc]⟩
          · obtain ⟨w', hw'⟩ := htail.start_behind r' hr'
            exact ⟨w ++ (old ++ w'), by rw [hw']; simp⟩
        have hbehind := behind_le (front ++ x) w'
        rw [Position.isBeforeOrEqual_eq_not] at hbehind
        rw [hw']
        simpa using hbehind
      refine ⟨newFront ++ x, w ++ (r.text ++ new), by simp, ?_, ?_⟩
      · rw [shiftBefore_eq_zero hlater]
        simp
      · rw [TextEdit.mapPositionLoop, TextEdit.lagFrom, if_pos hle, if_pos hle, mapped_eq_carry,
          carry_lagging hcarries hlast]
        rfl
    · have hbefore : r.range.getStartPosition.isBefore (behind (front ++ x)) := by
        rw [Position.isBeforeOrEqual_eq_not] at hle
        simpa using hle
      have hnotInside : ¬ (behind (front ++ x)).isBefore r.range.getEndPosition :=
        fun h => hinside r (List.mem_cons_self ..) ⟨hbefore, h⟩
      have hendLe : (behind (front ++ gap ++ old)).isBeforeOrEqual (behind (front ++ x)) := by
        rw [Position.isBeforeOrEqual_eq_not, ← hend]
        simpa using hnotInside
      have hsplit : front ++ gap ++ old ++ rest = front ++ x ++ y := by
        rw [← hassoc, hrest, List.append_assoc]
      obtain ⟨x', hx, hrest'⟩ := exists_gap hsplit hendLe
      have hx' : x = gap ++ (old ++ x') := by
        rw [List.append_assoc, List.append_assoc] at hx
        exact List.append_cancel_left hx
      have hcarries' := carries_lagBehind hcarries hlast hstart hend
      have hlast' : r.range.endLineNumber = (behind (front ++ gap ++ old)).lineNumber := by
        rw [← hend]
        rfl
      obtain ⟨u, v, hnew, hlen, hloop⟩ := ih hrest'
        (fun r' hr' => by
          rw [← hx]
          exact hinside r' (List.mem_cons_of_mem _ hr'))
        (by rw [add_sub_cancel_right]; exact hcarries') (.inl hlast')
      rw [← hx] at hlen hloop
      refine ⟨u, v, by rw [← hnew]; simp, ?_, ?_⟩
      · have hfilter : TextEdit.shiftBefore (front ++ gap ++ old ++ rest) (behind (front ++ x))
            (r :: rs) = r.text.length - ((front ++ gap ++ old).length - (front ++ gap).length) +
              TextEdit.shiftBefore (front ++ gap ++ old ++ rest) (behind (front ++ x)) rs := by
          have hdocStart := getOffset_behind hgapSeam
          rw [← List.append_assoc] at hdocStart
          rw [shiftBefore_cons hbefore, hstart, hend, getOffset_behind hendSeam, hdocStart]
        rw [hassoc, hfilter, hlen, hx']
        simp only [List.length_append]
        push_cast
        ring
      · rw [TextEdit.mapPositionLoop, TextEdit.lagFrom, if_neg hle, if_neg hle]
        simp only [if_neg hnotInside]
        exact hloop

/-- The offset of a position and what the replacements before it add. -/
def TextEdit.shiftedOffset (e : TextEdit) (doc : Str) (p : Position) : ℤ :=
  getOffset doc p + shiftBefore doc p e.replacements

/-- A position outside the replaced ranges is mapped to the place it has in the edited text
exactly when it does not lag behind that place, or lags out of the line on its side. -/
theorem TextEdit.mapPosition_offset_iff (e : TextEdit) (doc : Str) (p : Position)
    (hvalid : e.Valid doc) (hsafe : Safe doc) (hp : validatePosition doc p = p)
    (hinside : ∀ r ∈ e.replacements,
      ¬ (r.range.getStartPosition.isBefore p ∧ p.isBefore r.range.getEndPosition)) :
    ∃ edited, e.apply doc = .ok edited ∧
      ((∃ q, e.mapPosition p = .ok (.inl q) ∧ getOffset edited q = e.shiftedOffset doc p) ↔
        Found (edited.take (e.shiftedOffset doc p).toNat)
          (edited.drop (e.shiftedOffset doc p).toNat) (e.lag p)) := by
  obtain ⟨edited, hrewrites⟩ := hvalid.exists_rewrites
  obtain ⟨x, y, hdoc, rfl, hseam⟩ := exists_behind hp
  obtain ⟨u, v, hedited, hlen, hloop⟩ := @mapPositionLoop_eq [] doc edited [] x y e.replacements
    0 0 0 0 0 hrewrites hdoc hinside (by simpa using carries_start) (.inr rfl)
  rw [List.nil_append] at hedited hlen hloop
  have hoffset : getOffset doc (behind x) = x.length := by
    rw [hdoc]
    exact getOffset_behind hseam
  have hshifted : e.shiftedOffset doc (behind x) = u.length := by
    rw [TextEdit.shiftedOffset, hoffset, hlen]
    simp
  have hmap : e.mapPosition (behind x) =
      .ok (.inl ⟨(behind u).lineNumber, (behind u).column + -e.lag (behind x)⟩) := hloop
  refine ⟨edited, TextEdit.apply_eq hrewrites hsafe, ?_⟩
  rw [hshifted, hmap, Int.toNat_natCast, hedited, List.take_left, List.drop_left,
    ← getOffset_eq_iff_found]
  constructor
  · rintro ⟨q, hq, hfound⟩
    cases hq
    exact hfound
  · intro hfound
    exact ⟨_, rfl, hfound⟩

theorem TextEdit.mapPosition_offset_joined_lines :
    ∃ edited, (TextEdit.mk [⟨.new 1 1 2 1, ascii "xy"⟩]).apply (ascii "a\nbc") = .ok edited ∧
      ((∃ q, (TextEdit.mk [⟨.new 1 1 2 1, ascii "xy"⟩]).mapPosition ⟨2, 2⟩ = .ok (.inl q) ∧
          getOffset edited q =
            (TextEdit.mk [⟨.new 1 1 2 1, ascii "xy"⟩]).shiftedOffset (ascii "a\nbc") ⟨2, 2⟩) ↔
        Found (edited.take ((TextEdit.mk [⟨.new 1 1 2 1, ascii "xy"⟩]).shiftedOffset
            (ascii "a\nbc") ⟨2, 2⟩).toNat)
          (edited.drop ((TextEdit.mk [⟨.new 1 1 2 1, ascii "xy"⟩]).shiftedOffset
            (ascii "a\nbc") ⟨2, 2⟩).toNat)
          ((TextEdit.mk [⟨.new 1 1 2 1, ascii "xy"⟩]).lag ⟨2, 2⟩)) :=
  TextEdit.mapPosition_offset_iff _ _ _ ⟨by decide, by decide, by decide⟩ (by decide)
    (by decide) (by decide)

/-- The line break behind `b` deleted: the start of the second line is mapped in front of `b`. -/
theorem TextEdit.mapPosition_forgets_column :
    let e : TextEdit := ⟨[⟨.new 1 2 2 1, []⟩]⟩
    e.Valid (ascii "b\n") ∧ validatePosition (ascii "b\n") ⟨2, 1⟩ = ⟨2, 1⟩ ∧
      (∀ r ∈ e.replacements, ¬ (r.range.getStartPosition.isBefore ⟨2, 1⟩ ∧
        Position.isBefore ⟨2, 1⟩ r.range.getEndPosition)) ∧
      e.apply (ascii "b\n") = .ok (ascii "b") ∧ e.mapPosition ⟨2, 1⟩ = .ok (.inl ⟨1, 1⟩) ∧
        getOffset (ascii "b") ⟨1, 1⟩ = 0 ∧ e.shiftedOffset (ascii "b\n") ⟨2, 1⟩ = 1 :=
  ⟨⟨by decide, by decide, by decide⟩, by decide⟩

end NexgileIde.Edits
