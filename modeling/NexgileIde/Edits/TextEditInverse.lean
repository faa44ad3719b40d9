import NexgileIde.Edits.TextEdit

/-!
# Undoing a text edit

`getNewRanges` carries positions of the old text to the new one: behind the last range it
keeps the distance to that range's end. The ranges are those of the texts as long as no
text ends in a line with surrogate pairs, which `TextLength.ofText` counts once.
-/
namespace NexgileIde.Edits

open Text TextLength

/-- Where a position lies when the lines behind the last range are moved by `lineOffset`
and the columns of its last line by `columnOffset`. -/
def carry (lastLine lineOffset columnOffset : ℤ) (p : Position) : Position :=
  ⟨p.lineNumber + lineOffset, p.column + if p.lineNumber = lastLine then columnOffset else 0⟩

/-- Every position behind `old` is carried to the same distance behind `new`. -/
def Carries (lastLine lineOffset columnOffset : ℤ) (old new : Position) : Prop :=
  ∀ len : TextLength, carry lastLine lineOffset columnOffset (len.addToPosition old) =
    len.addToPosition new

theorem carries_start : Carries 0 0 0 ⟨1, 1⟩ ⟨1, 1⟩ := by
  intro len
  simp [carry]

theorem carries_of_eq {old new : Position} {lineOffset columnOffset : ℤ}
    (hline : lineOffset = new.lineNumber - old.lineNumber)
    (hcolumn : columnOffset = new.column - old.column) :
    Carries old.lineNumber lineOffset columnOffset old new := by
  intro len
  subst hline hcolumn
  unfold carry addToPosition
  split_ifs with h h' h'
  · simp only [Position.mk.injEq]
    omega
  · exact absurd rfl h'
  · simp only at h'
    omega
  · simp only [Position.mk.injEq]
    omega

namespace TextEdit

theorem occupiedFrom_le (start delta : ℤ) (r : TextReplacement) :
    start + delta ≤ start + delta + r.text.length := by omega

/-- The offset ranges of the texts in the edited text; the replacements before have moved
them by `delta`. -/
def occupiedFrom (doc : Str) (delta : ℤ) : List TextReplacement → List OffsetRange
  | [] => []
  | r :: rest =>
    let start := getOffset doc r.range.getStartPosition
    let replacedLength := getOffset doc r.range.getEndPosition - start
    ⟨start + delta, start + delta + r.text.length, occupiedFrom_le start delta r⟩ ::
      occupiedFrom doc (delta + (r.text.length - replacedLength)) rest

def occupied (e : TextEdit) (doc : Str) : List OffsetRange := occupiedFrom doc 0 e.replacements

/-- The code unit that follows in the edited text behind a replacement that ends at a
position: one of a text put in there, else the next one of the old text. -/
def nextUnit (doc : Str) (position : Position) : List TextReplacement → Option CodeUnit
  | [] => doc[(getOffset doc position).toNat]?
  | r :: rest =>
    if r.range.getStartPosition = position then
      r.text.head?.or (nextUnit doc r.range.getEndPosition rest)
    else doc[(getOffset doc position).toNat]?

/-- The last line of no text has a surrogate pair, and no text ends with the `\r` of a
`\r\n` of the edited text. -/
def LocatableFrom (doc : Str) : List TextReplacement → Prop
  | [] => True
  | r :: rest =>
    lastLinePairs r.text = 0 ∧
      ¬ (r.text.getLast? = some CarriageReturn ∧
        nextUnit doc r.range.getEndPosition rest = some LineFeed) ∧
      LocatableFrom doc rest

def Locatable (e : TextEdit) (doc : Str) : Prop := LocatableFrom doc e.replacements

end TextEdit

theorem getElem_getOffset {u v : Str} (h : ¬ Seam u v) :
    (u ++ v)[(getOffset (u ++ v) (behind u)).toNat]? = v.head? := by
  rw [getOffset_behind h, Int.toNat_natCast, List.getElem?_append_right le_rfl, Nat.sub_self,
    List.head?_eq_getElem?]

theorem nextUnit_eq {front rest new : Str} {rs : List TextReplacement}
    (h : Rewrites front rs rest new) (hseam : ¬ Seam front rest) :
    TextEdit.nextUnit (front ++ rest) (behind front) rs = new.head? := by
  induction h with
  | nil front rest => exact getElem_getOffset hseam
  | @cons front rest new r rs gap old hstart hend hgapSeam hendSeam _ ih =>
    have hassoc : front ++ (gap ++ (old ++ rest)) = front ++ gap ++ old ++ rest := by simp
    have hempty : behind (front ++ gap) = behind front ↔ gap = [] := eq_comm.trans behind_eq_iff
    rw [TextEdit.nextUnit, hstart, hend]
    split_ifs with hgap
    · rw [hempty] at hgap
      subst hgap
      rw [hassoc, ih hendSeam]
      simp [List.head?_append]
    · rw [hempty] at hgap
      rw [getElem_getOffset hseam, List.head?_append_of_ne_nil _ hgap,
        List.head?_append_of_ne_nil _ hgap]

/-- In its last line, the position `ofText` computes is behind by the pairs of that line. -/
theorem ofText_addToPosition (u text : Str) :
    (ofText text).addToPosition (behind u) =
      ⟨(behind (u ++ text)).lineNumber,
        (behind (u ++ text)).column + -(lastLinePairs text : ℤ)⟩ := by
  have hline := ofText_lineCount text
  have hcolumn := ofText_columnCount text
  rw [behind_append]
  unfold addToPosition
  rw [hline]
  split_ifs
  · simp only [Position.mk.injEq, true_and]
    push_cast [← hcolumn]
    ring
  · simp only [Position.mk.injEq, true_and]
    push_cast [← hcolumn]
    ring

theorem lastLinePairs_le (u text : Str) :
    lastLinePairs text ≤ (extent (u ++ text)).columnCount := by
  have hcolumn := ofText_columnCount text
  rw [extent_append, add_def]
  split_ifs
  · simp only
    omega
  · simp only
    omega

/-- The end of a text is found at its offset just when the last line of the text has no
pair and no `\r\n` is cut there. -/
theorem getOffset_textEnd (u text v : Str) :
    getOffset (u ++ text ++ v) ((ofText text).addToPosition (behind u)) = ((u ++ text).length : ℕ) ↔
      lastLinePairs text = 0 ∧ ¬ Seam (u ++ text) v := by
  have hle := lastLinePairs_le u text
  rw [ofText_addToPosition, getOffset_shifted]
  by_cases hseam : Seam (u ++ text) v
  · rw [toLineEnd_of_seam hseam]
    have hneg := neg_columnCount_le (u ++ text) v
    rw [toLineEnd_of_seam hseam] at hneg
    constructor
    · intro h
      omega
    · rintro ⟨-, h⟩
      exact absurd hseam h
  · have hend := toLineEnd_nonneg hseam
    constructor
    · intro h
      exact ⟨by omega, hseam⟩
    · rintro ⟨h, -⟩
      omega

theorem create_eq_ok_iff {start stop : ℤ} {r : OffsetRange} :
    OffsetRange.create start stop = .ok r ↔ start = r.start ∧ stop = r.endExclusive := by
  unfold OffsetRange.create
  constructor
  · intro h
    split_ifs at h
    cases h
    exact ⟨rfl, rfl⟩
  · rintro ⟨rfl, rfl⟩
    rw [dif_pos r.le]

/-- A gap of a text without carriage returns cuts no `\r\n`. -/
theorem not_seam_gap {front gap new : Str} (hgap : CarriageReturn ∉ gap)
    (h : ¬ Seam front (gap ++ new)) : ¬ Seam (front ++ gap) new := by
  rcases gap.eq_nil_or_concat with rfl | ⟨gap', c, rfl⟩
  · simpa using h
  · rintro ⟨hlast, -⟩
    rw [List.concat_eq_append] at hgap
    rw [List.concat_eq_append, ← List.append_assoc, List.getLast?_concat] at hlast
    rw [Option.some_inj.mp hlast] at hgap
    simp at hgap

/-- Whether a `\r\n` is cut behind a text depends on that text, if none is cut before it. -/
theorem seam_text_iff {front text new : Str} (h : ¬ Seam front (text ++ new)) :
    Seam (front ++ text) new ↔
      text.getLast? = some CarriageReturn ∧ new.head? = some LineFeed := by
  rcases text.eq_nil_or_concat with rfl | ⟨text', c, rfl⟩
  · simpa [Seam] using h
  · simp only [Seam, List.concat_eq_append, ← List.append_assoc, List.getLast?_concat]

/-- The start of a new range is the place of the text it is for. -/
theorem newRangeStart_eq {front newFront gap : Str} {r : TextReplacement}
    {lastLine lineOffset columnOffset : ℤ}
    (hcarries : Carries lastLine lineOffset columnOffset (behind front) (behind newFront))
    (hstart : r.range.getStartPosition = behind (front ++ gap)) :
    (⟨r.range.startLineNumber + lineOffset, r.range.startColumn +
      if r.range.startLineNumber = lastLine then columnOffset else 0⟩ : Position) =
        behind (newFront ++ gap) := by
  have hcarry := hcarries (extent gap)
  rw [← behind_append, ← behind_append, ← hstart] at hcarry
  exact hcarry

/-- Behind a range whose end is the end of its text, positions are carried from there. -/
theorem carries_newRange {front newFront gap old : Str} {r : TextReplacement}
    (hend : r.range.getEndPosition = behind (front ++ gap ++ old))
    (hpairs : lastLinePairs r.text = 0) :
    Carries r.range.endLineNumber
      (((ofText r.text).createRange (behind (newFront ++ gap))).endLineNumber -
        r.range.endLineNumber)
      (((ofText r.text).createRange (behind (newFront ++ gap))).endColumn - r.range.endColumn)
      (behind (front ++ gap ++ old)) (behind (newFront ++ gap ++ r.text)) := by
  have hnew := createRange_end (ofText r.text) (behind (newFront ++ gap))
  rw [ofText_eq hpairs, ← behind_append] at hnew
  rw [← hend, ← hnew, ofText_eq hpairs]
  exact carries_of_eq rfl rfl

/-- The new ranges are those of the texts just when every text can be located. -/
theorem newRanges_exact_iff {front rest new newFront : Str} {rs : List TextReplacement}
    {lastLine lineOffset columnOffset : ℤ}
    (h : Rewrites front rs rest new) (hcr : CarriageReturn ∉ front ++ rest)
    (hseam : ¬ Seam newFront new)
    (hcarries : Carries lastLine lineOffset columnOffset (behind front) (behind newFront)) :
    (TextEdit.getNewRangesLoop lastLine lineOffset columnOffset rs).map
        (getOffsetRange (newFront ++ new)) =
      (TextEdit.occupiedFrom (front ++ rest) (newFront.length - front.length) rs).map .ok ↔
      TextEdit.LocatableFrom (front ++ rest) rs := by
  induction h generalizing newFront lastLine lineOffset columnOffset with
  | nil front rest =>
    simp [TextEdit.getNewRangesLoop, TextEdit.occupiedFrom, TextEdit.LocatableFrom]
  | @cons front rest new r rs gap old hstart hend hgapSeam hendSeam _ ih =>
    have hassoc : front ++ (gap ++ (old ++ rest)) = front ++ gap ++ old ++ rest := by simp
    have hassocGap : front ++ (gap ++ (old ++ rest)) = front ++ gap ++ (old ++ rest) := by simp
    have hassocNew : newFront ++ (gap ++ (r.text ++ new)) = newFront ++ gap ++ r.text ++ new := by
      simp
    have hgapcr : CarriageReturn ∉ gap := fun hmem => hcr (by simp [hmem])
    have hstartNew := not_seam_gap hgapcr hseam
    have hstartOffset : getOffset (newFront ++ gap ++ r.text ++ new) (behind (newFront ++ gap)) =
        (newFront ++ gap).length := by
      rw [List.append_assoc]
      exact getOffset_behind hstartNew
    have hdocStart : getOffset (front ++ gap ++ old ++ rest) (behind (front ++ gap)) =
        (front ++ gap).length := by
      rw [List.append_assoc]
      exact getOffset_behind hgapSeam
    have hdocEnd := getOffset_behind hendSeam
    have hlen : (front ++ gap).length ≤ (front ++ gap ++ old).length := by simp
    have hhead : getOffsetRange (newFront ++ gap ++ r.text ++ new)
        ((ofText r.text).createRange (behind (newFront ++ gap))) =
          .ok ⟨(front ++ gap).length + (newFront.length - front.length),
            (front ++ gap).length + (newFront.length - front.length) + r.text.length, by omega⟩ ↔
        lastLinePairs r.text = 0 ∧ ¬ (r.text.getLast? = some CarriageReturn ∧
          TextEdit.nextUnit (front ++ gap ++ old ++ rest) (behind (front ++ gap ++ old)) rs =
            some LineFeed) := by
      rw [getOffsetRange, createRange_start, createRange_end, hstartOffset, create_eq_ok_iff,
        nextUnit_eq ‹_› hendSeam, ← seam_text_iff hstartNew, ← getOffset_textEnd]
      simp only [List.length_append]
      push_cast
      constructor
      · rintro ⟨-, h⟩
        linarith
      · intro h
        constructor
        · ring
        · linarith
    rw [TextEdit.getNewRangesLoop, TextEdit.occupiedFrom, TextEdit.LocatableFrom,
      newRangeStart_eq hcarries hstart, List.map_cons, List.map_cons, List.cons.injEq, hassoc,
      hassocNew]
    simp only [hstart, hend, hdocStart, hdocEnd]
    rw [hhead, and_assoc]
    refine and_congr_right fun hpairs => and_congr_right fun hcut => ?_
    have hcutSeam : ¬ Seam (newFront ++ gap ++ r.text) new := by
      rwa [seam_text_iff hstartNew, ← nextUnit_eq ‹_› hendSeam]
    have hih := ih (by rwa [← hassoc]) hcutSeam (carries_newRange hend hpairs)
    have hdelta : ((newFront ++ gap ++ r.text).length : ℤ) - (front ++ gap ++ old).length =
        newFront.length - front.length +
          (r.text.length - ((front ++ gap ++ old).length - (front ++ gap).length)) := by
      simp only [List.length_append]
      push_cast
      ring
    rw [hdelta] at hih
    exact hih

/-- With every text located, the inverse divides the new text as the edit divides the old. -/
theorem exists_inverse {front rest new newFront : Str} {rs : List TextReplacement}
    {lastLine lineOffset columnOffset : ℤ}
    (h : Rewrites front rs rest new) (hcr : CarriageReturn ∉ front ++ rest)
    (hseam : ¬ Seam newFront new)
    (hcarries : Carries lastLine lineOffset columnOffset (behind front) (behind newFront))
    (hlocatable : TextEdit.LocatableFrom (front ++ rest) rs) :
    ∃ undo, TextEdit.inverseLoop (front ++ rest) rs
        (TextEdit.getNewRangesLoop lastLine lineOffset columnOffset rs) = .ok undo ∧
      Rewrites newFront undo new rest := by
  induction h generalizing newFront lastLine lineOffset columnOffset with
  | nil front rest => exact ⟨[], rfl, .nil newFront rest⟩
  | @cons front rest new r rs gap old hstart hend hgapSeam hendSeam _ ih =>
    have hassoc : front ++ (gap ++ (old ++ rest)) = front ++ gap ++ old ++ rest := by simp
    have hgapcr : CarriageReturn ∉ gap := fun hmem => hcr (by simp [hmem])
    have hstartNew := not_seam_gap hgapcr hseam
    rw [hassoc] at hcr hlocatable ⊢
    obtain ⟨hpairs, hcut, hrest⟩ := hlocatable
    have hcutSeam : ¬ Seam (newFront ++ gap ++ r.text) new := by
      rwa [seam_text_iff hstartNew, ← nextUnit_eq ‹_› hendSeam, ← hend]
    obtain ⟨undo, hundo, hrewrites⟩ := ih hcr hcutSeam (carries_newRange hend hpairs) hrest
    have hvalue := getValueOfRange_eq hstart hend hgapSeam hendSeam
    rw [← List.append_assoc] at hvalue
    have hnewEnd := createRange_end (ofText r.text) (behind (newFront ++ gap))
    rw [ofText_eq hpairs, ← behind_append] at hnewEnd
    rw [TextEdit.getNewRangesLoop, newRangeStart_eq hcarries hstart, TextEdit.inverseLoop, hvalue]
    simp only [bind, Except.bind, pure, Except.pure, hundo]
    refine ⟨_, rfl, .cons gap r.text (createRange_start _ _) ?_ hstartNew hcutSeam hrewrites⟩
    rwa [ofText_eq hpairs]

/-- An edit of a text without carriage returns is undone, and each new range is the one its
text occupies, exactly when every text can be located in the edited text. -/
theorem TextEdit.inverse_undoes_iff (e : TextEdit) (doc : Str) (hcr : CarriageReturn ∉ doc)
    (hvalid : e.Valid doc) (hsafe : Safe doc) :
    ∃ edited, e.apply doc = .ok edited ∧ (Safe edited →
      ((∃ undo, e.inverse doc = .ok undo ∧ undo.apply edited = .ok doc) ∧
        e.getNewRanges.map (getOffsetRange edited) = (e.occupied doc).map .ok ↔
          e.Locatable doc)) := by
  obtain ⟨edited, hrewrites⟩ := hvalid.exists_rewrites
  refine ⟨edited, TextEdit.apply_eq hrewrites hsafe, fun hsafe' => ?_⟩
  have hseam : ¬ Seam [] edited := by simp [Seam]
  have hranges := newRanges_exact_iff hrewrites hcr hseam carries_start
  rw [sub_self] at hranges
  constructor
  · rintro ⟨-, hoffsets⟩
    exact hranges.mp hoffsets
  · intro hlocatable
    refine ⟨?_, hranges.mpr hlocatable⟩
    obtain ⟨undo, hundo, hback⟩ := exists_inverse hrewrites hcr hseam carries_start hlocatable
    refine ⟨⟨undo⟩, ?_, TextEdit.apply_eq hback hsafe'⟩
    rw [List.nil_append] at hundo
    rw [TextEdit.inverse, TextEdit.getNewRanges, hundo]
    rfl

theorem TextEdit.inverse_undoes_two_lines :
    ∃ edited, (TextEdit.mk [⟨.new 1 2 2 1, ascii "xy"⟩]).apply (ascii "ab\nc") = .ok edited ∧
      (Safe edited →
        ((∃ undo, (TextEdit.mk [⟨.new 1 2 2 1, ascii "xy"⟩]).inverse (ascii "ab\nc") = .ok undo ∧
            undo.apply edited = .ok (ascii "ab\nc")) ∧
          (TextEdit.mk [⟨.new 1 2 2 1, ascii "xy"⟩]).getNewRanges.map (getOffsetRange edited) =
            ((TextEdit.mk [⟨.new 1 2 2 1, ascii "xy"⟩]).occupied (ascii "ab\nc")).map .ok ↔
          (TextEdit.mk [⟨.new 1 2 2 1, ascii "xy"⟩]).Locatable (ascii "ab\nc"))) :=
  TextEdit.inverse_undoes_iff _ _ (by decide) ⟨by decide, by decide, by decide⟩ (by decide)

/-- A surrogate pair put into the empty text: the inverse takes out one half of it. -/
theorem TextEdit.inverse_leaves_half_pair :
    let e : TextEdit := ⟨[⟨.new 1 1 1 1, [0xD83D, 0xDE00]⟩]⟩
    e.Valid [] ∧ e.apply [] = .ok [0xD83D, 0xDE00] ∧
      ∃ undo, e.inverse [] = .ok undo ∧ undo.apply [0xD83D, 0xDE00] = .ok [0xDE00] ∧
        e.getNewRanges.map (getOffsetRange [0xD83D, 0xDE00]) ≠ (e.occupied []).map .ok :=
  ⟨⟨by decide, by decide, by decide⟩, by decide, ⟨[⟨.new 1 1 1 2, []⟩]⟩, by decide⟩

end NexgileIde.Edits
