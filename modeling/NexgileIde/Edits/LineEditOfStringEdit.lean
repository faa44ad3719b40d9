import NexgileIde.Base.Arrays
import NexgileIde.Edits.LineEditRun
import NexgileIde.Library.Results

/-!
# Line edits of string edits

A string edit is turned into a line edit by way of the positions of its offsets. This works
with any text, also where the offsets lie behind its end: positions keep the order of the
offsets, ranges keep it in the text, and the lines of a group end before those of the next.
-/
namespace NexgileIde.Base

variable {T : Type} {array : List T} {p q : T → Bool}

theorem findLastIdxLoop_mem (fuel : ℕ) {i j : ℕ} (h : i ≤ j) :
    i ≤ findLastIdxLoop array p fuel i j ∧ findLastIdxLoop array p fuel i j ≤ j := by
  induction fuel generalizing i j with
  | zero => exact ⟨le_rfl, h⟩
  | succ fuel ih =>
    unfold findLastIdxLoop
    simp only
    split_ifs with hlt
    · obtain ⟨hle, hge⟩ := ih (show (i + j) / 2 + 1 ≤ j by omega)
      exact ⟨by omega, hge⟩
    · obtain ⟨hle, hge⟩ := ih (show i ≤ (i + j) / 2 by omega)
      exact ⟨hle, by omega⟩
    · exact ⟨le_rfl, h⟩

/-- The search goes no less far for a weaker property. -/
theorem findLastIdxLoop_mono (hpq : ∀ x, p x → q x) (fuel : ℕ) {i j : ℕ} (h : i ≤ j) :
    findLastIdxLoop array p fuel i j ≤ findLastIdxLoop array q fuel i j := by
  induction fuel generalizing i j with
  | zero => exact le_rfl
  | succ fuel ih =>
    unfold findLastIdxLoop
    simp only
    split_ifs with hlt hp hq hq
    · exact ih (by omega)
    · obtain ⟨hsome, htrue⟩ := (Option.any_eq_true_iff_get _ _).1 hp
      exact absurd ((Option.any_eq_true_iff_get _ _).2 ⟨hsome, hpq _ htrue⟩) hq
    · have hle := (@findLastIdxLoop_mem T array p fuel i ((i + j) / 2) (by omega)).2
      have hge := (@findLastIdxLoop_mem T array q fuel ((i + j) / 2 + 1) j (by omega)).1
      omega
    · exact ih (by omega)
    · exact le_rfl

theorem findLastIdxMonotonous_mono (hpq : ∀ x, p x → q x) :
    findLastIdxMonotonous array p ≤ findLastIdxMonotonous array q := by
  have hle := @findLastIdxLoop_mono T array p q hpq array.length 0 array.length (Nat.zero_le _)
  unfold findLastIdxMonotonous
  omega

end NexgileIde.Base

namespace NexgileIde.Text

open TextLength

namespace Position

theorem isBeforeOrEqual_trans {a b c : Position} (h : a.isBeforeOrEqual b)
    (h' : b.isBeforeOrEqual c) : a.isBeforeOrEqual c := by
  rw [isBeforeOrEqual_iff] at *
  omega

end Position

/-- The position of an offset, which is at least 0. -/
def getPosition (text : Str) (offset : ℤ) : Position :=
  let idx := Base.findLastIdxMonotonous (lineStartOffsetByLineIdx text) fun i => i ≤ offset
  let lineNumber := idx + 1
  ⟨lineNumber, offset - ofLine (lineStartOffsetByLineIdx text) lineNumber + 1⟩

theorem getPosition_mono (text : Str) {a b : ℤ} (h : a ≤ b) :
    (getPosition text a).isBeforeOrEqual (getPosition text b) := by
  have hle := @Base.findLastIdxMonotonous_mono ℕ (lineStartOffsetByLineIdx text)
    (fun i => (i : ℤ) ≤ a) (fun i => (i : ℤ) ≤ b) (by
      intro i hi
      rw [decide_eq_true_eq] at *
      omega)
  rw [Position.isBeforeOrEqual_iff]
  unfold getPosition
  simp only
  rcases hle.lt_or_eq with hlt | heq
  · left
    omega
  · right
    rw [heq]
    exact ⟨rfl, by omega⟩

theorem getLineLength_nonneg {text : Str} {lineNumber : ℤ} (h : 1 ≤ lineNumber)
    (h' : lineNumber ≤ (textLength text).lineCount + 1) : 0 ≤ getLineLength text lineNumber := by
  rw [textLength_eq] at h'
  obtain ⟨u, v, rfl, hu⟩ := @exists_lineStart text (lineNumber - 1).toNat (by omega)
  have hline : (behind u).lineNumber = lineNumber := by
    rw [behind_eq, hu]
    simp only
    omega
  have hlength := getLineLength_eq u v
  have hle := neg_columnCount_le u v
  rw [hline] at hlength
  omega

theorem validatePosition_validatePosition (text : Str) (p : Position) :
    validatePosition text (validatePosition text p) = validatePosition text p := by
  have hlast := @getLineLength_nonneg text ((textLength text).lineCount + 1) (by omega) le_rfl
  have hfirst := @getLineLength_nonneg text 1 le_rfl (by omega)
  have hline := @getLineLength_nonneg text p.lineNumber
  unfold validatePosition
  simp only
  split_ifs <;> first | rfl | (simp only [Position.mk.injEq] at *; omega)

theorem validatePosition_mono (text : Str) {p q : Position} (h : p.isBeforeOrEqual q) :
    (validatePosition text p).isBeforeOrEqual (validatePosition text q) := by
  have hlast := @getLineLength_nonneg text ((textLength text).lineCount + 1) (by omega) le_rfl
  have hfirst := @getLineLength_nonneg text 1 le_rfl (by omega)
  have hp := @getLineLength_nonneg text p.lineNumber
  have hq := @getLineLength_nonneg text q.lineNumber
  have hpLast : p.lineNumber = (textLength text).lineCount + 1 → getLineLength text p.lineNumber =
      getLineLength text ((textLength text).lineCount + 1) := fun h => by rw [h]
  have hpq : p.lineNumber = q.lineNumber →
      getLineLength text p.lineNumber = getLineLength text q.lineNumber := fun h => by rw [h]
  rw [Position.isBeforeOrEqual_iff] at *
  unfold validatePosition
  simp only
  split_ifs <;> try dsimp only
  all_goals omega

/-- Offsets keep the order of positions. -/
theorem getOffset_mono (text : Str) {p q : Position} (h : p.isBeforeOrEqual q) :
    getOffset text p ≤ getOffset text q := by
  have hvalidated : ∀ r, getOffset text r = getOffset text (validatePosition text r) := by
    intro r
    unfold getOffset
    rw [validatePosition_validatePosition]
  obtain ⟨u, v, htext, hu, hseam⟩ := exists_behind (validatePosition_validatePosition text p)
  obtain ⟨u', v', htext', hu', hseam'⟩ := exists_behind (validatePosition_validatePosition text q)
  have hmono := validatePosition_mono text h
  rw [← hu, ← hu'] at hmono
  rw [hvalidated p, hvalidated q, ← hu, ← hu']
  have hleft : getOffset text (behind u) = u.length := by
    rw [htext]
    exact getOffset_behind hseam
  have hright : getOffset text (behind u') = u'.length := by
    rw [htext']
    exact getOffset_behind hseam'
  rw [hleft, hright]
  by_contra hlt
  obtain ⟨w, rfl⟩ : u' <+: u :=
    List.prefix_of_prefix_length_le ⟨v', htext'.symm⟩ ⟨v, htext.symm⟩ (by omega)
  have hw : extent w ≠ 0 := by
    rw [Ne, extent_eq_zero_iff]
    rintro rfl
    simp at hlt
  have hbefore := isBefore_addToPosition hw (behind u')
  rw [← behind_append] at hbefore
  rw [Position.isBeforeOrEqual_eq_not, hbefore] at hmono
  cases hmono

end NexgileIde.Text

namespace NexgileIde.Edits

open Text TextLength Library
open MergeEditor (LineRange)

theorem getOffsetRange_ok (text : Str) (range : Range) : ∃ r, getOffsetRange text range = .ok r :=
  ⟨_, OffsetRange.create_of_le (getOffset_mono text range.start_isBeforeOrEqual)⟩

/-- Every range has a value in every text. -/
theorem getValueOfRange_ok (text : Str) (range : Range) :
    ∃ value, getValueOfRange text range = .ok value := by
  obtain ⟨r, hr⟩ := getOffsetRange_ok text range
  exact ⟨r.substring text, by rw [getValueOfRange, hr]; rfl⟩

namespace TextReplacement

def fromStringReplacement (replacement : StringReplacement) (initialState : Str) :
    TextReplacement :=
  ⟨.fromPositions (getPosition initialState replacement.replaceRange.start)
    (getPosition initialState replacement.replaceRange.endExclusive), replacement.newText⟩

/-- The first replacement ends before the second one starts. -/
def Precedes (a b : TextReplacement) : Prop :=
  a.range.getEndPosition.isBeforeOrEqual b.range.getStartPosition

variable {a b : TextReplacement} {initialValue : Str}

theorem Precedes.lines (h : a.Precedes b) : a.range.endLineNumber ≤ b.range.startLineNumber := by
  have hle := Position.isBeforeOrEqual_iff.1 h
  simp only [Range.getEndPosition, Range.getStartPosition] at hle
  omega

theorem start_le_end (a : TextReplacement) : a.range.startLineNumber ≤ a.range.endLineNumber := by
  have := a.range.start_le_end
  omega

theorem joinTexts_ok (initialValue : Str) (replacements : List TextReplacement) :
    ∃ text, joinTexts initialValue replacements = .ok text := by
  induction replacements with
  | nil => exact ⟨[], rfl⟩
  | cons curEdit rest ih =>
    cases rest with
    | nil => exact ⟨curEdit.text, rfl⟩
    | cons nextEdit rest =>
      obtain ⟨text, htext⟩ := ih
      obtain ⟨gapText, hgap⟩ := getValueOfRange_ok initialValue
        (.fromPositions curEdit.range.getEndPosition nextEdit.range.getStartPosition)
      refine ⟨curEdit.text ++ (gapText ++ text), ?_⟩
      rw [joinTexts, bind_of_ok hgap, bind_of_ok htext]
      rfl

/-- Joined replacements reach from the first line of the first to the last line of the last. -/
theorem joinReplacements_ok {current : List TextReplacement} {edit : TextReplacement}
    (h : (current ++ [edit]).Pairwise Precedes) (initialValue : Str) :
    ∃ joined, joinReplacements (current ++ [edit]) initialValue = .ok joined ∧
      (∃ first ∈ current ++ [edit], joined.range.startLineNumber = first.range.startLineNumber) ∧
      joined.range.endLineNumber = edit.range.endLineNumber := by
  cases current with
  | nil => exact ⟨edit, rfl, ⟨edit, by simp, rfl⟩, rfl⟩
  | cons first current =>
    obtain ⟨text, htext⟩ := joinTexts_ok initialValue (first :: (current ++ [edit]))
    have hprecedes : first.Precedes edit := List.rel_of_pairwise_cons h (by simp)
    have hle : first.range.getStartPosition.isBeforeOrEqual edit.range.getEndPosition :=
      Position.isBeforeOrEqual_trans first.range.start_isBeforeOrEqual
        (Position.isBeforeOrEqual_trans hprecedes edit.range.start_isBeforeOrEqual)
    refine ⟨⟨.fromPositions first.range.getStartPosition edit.range.getEndPosition, text⟩, ?_,
      ⟨first, by simp, ?_⟩, ?_⟩
    · rw [List.cons_append, joinReplacements.eq_3 _ _ _ (by simp), htext]
      simp only [List.getLastD_concat]
      rfl
    · exact congrArg Position.lineNumber (Range.fromPositions_start hle)
    · exact congrArg Position.lineNumber (Range.fromPositions_end hle)

end TextReplacement

namespace LineReplacement

theorem dropFirst_le (startBeforeNewLine : Bool) (survivingLength : ℕ) (startLineNumber : ℤ)
    (newLines : List Str) :
    startLineNumber ≤ (dropFirst startBeforeNewLine survivingLength startLineNumber newLines).1 ∧
      (dropFirst startBeforeNewLine survivingLength startLineNumber newLines).1 ≤
        startLineNumber + 1 := by
  unfold dropFirst
  split_ifs <;> simp

theorem dropLast_le (endAfterNewLine : Bool) (survivingLength : ℕ)
    {startLineNumber endLineNumberEx : ℤ} (newLines : List Str)
    (h : startLineNumber ≤ endLineNumberEx) :
    startLineNumber ≤
        (dropLast endAfterNewLine survivingLength startLineNumber endLineNumberEx newLines).1 ∧
      (dropLast endAfterNewLine survivingLength startLineNumber endLineNumberEx newLines).1 ≤
        endLineNumberEx := by
  unfold dropLast
  split_ifs with hdrop
  · simp only
    omega
  · exact ⟨h, le_rfl⟩

theorem fromSingleTextEdit_ok (edit : TextReplacement) (initialValue : Str) :
    ∃ r, fromSingleTextEdit edit initialValue = .ok r ∧
      edit.range.startLineNumber ≤ r.lineRange.startLineNumber ∧
      r.lineRange.endLineNumberExclusive ≤ edit.range.endLineNumber + 1 := by
  obtain ⟨first, hfirst⟩ := getValueOfRange_ok initialValue
    (.fromPositions ⟨edit.range.startLineNumber, 1⟩ edit.range.getStartPosition)
  obtain ⟨last, hlast⟩ := getValueOfRange_ok initialValue
    (.fromPositions edit.range.getEndPosition
      ⟨edit.range.endLineNumber, getLineLength initialValue edit.range.endLineNumber + 1⟩)
  rw [fromSingleTextEdit, hfirst]
  simp only [hlast, liftM, monadLift, MonadLift.monadLift, Except.mapError, bind, Except.bind]
  generalize hdropFirst : dropFirst _ _ _ _ = dropped
  obtain ⟨startLineNumber, newLines⟩ := dropped
  have hstart := dropFirst_le (decide (edit.range.startColumn =
    getLineLength initialValue edit.range.startLineNumber + 1)) first.length
    edit.range.startLineNumber
    (addToLast last (List.modifyHead (first ++ ·) (splitLines edit.text)))
  rw [hdropFirst] at hstart
  have hlines := edit.start_le_end
  have hend := dropLast_le (decide (edit.range.endColumn = 1)) last.length newLines
    (show startLineNumber ≤ edit.range.endLineNumber + 1 by simp only at hstart; omega)
  simp only
  generalize hdropLast : dropLast _ _ _ _ _ = dropped at hend ⊢
  obtain ⟨endLineNumberEx, newLines'⟩ := dropped
  simp only [createLineRange_of_le hend.1]
  exact ⟨_, rfl, hstart.1, hend.2⟩

/-- The first replacement ends before the second one starts. -/
def Precedes (a b : LineReplacement) : Prop :=
  a.lineRange.endLineNumberExclusive ≤ b.lineRange.startLineNumber

end LineReplacement

theorem checkAdjacentItems_of_pairwise {α : Type} {predicate : α → α → Bool} {items : List α}
    (h : items.Pairwise fun a b => predicate a b) : checkAdjacentItems predicate items := by
  induction items with
  | nil => rfl
  | cons a items ih =>
    cases items with
    | nil => rfl
    | cons b items =>
      rw [checkAdjacentItems, Bool.and_eq_true]
      exact ⟨List.rel_of_pairwise_cons h (by simp), ih h.of_cons⟩

namespace LineEdit

theorem create_ok {replacements : List LineReplacement}
    (h : replacements.Pairwise LineReplacement.Precedes) :
    ∃ e, create replacements = .ok e ∧ e.replacements = replacements := by
  have hsorted : checkAdjacentItems (fun i1 i2 : LineReplacement =>
      i1.lineRange.endLineNumberExclusive ≤ i2.lineRange.startLineNumber) replacements := by
    refine checkAdjacentItems_of_pairwise (h.imp ?_)
    intro a b hab
    simpa [LineReplacement.Precedes] using hab
  exact ⟨⟨replacements, hsorted⟩, dif_pos hsorted, rfl⟩

/-- The groups of replacements are replaced by lines in the same order. -/
theorem fromTextEditLoop_ok (initialValue : Str) (k : ℤ) (current rest : List TextReplacement)
    (h : (current ++ rest).Pairwise TextReplacement.Precedes)
    (hk : ∀ r ∈ current ++ rest, k ≤ r.range.startLineNumber) :
    ∃ result, fromTextEditLoop initialValue current rest = .ok result ∧
      result.Pairwise LineReplacement.Precedes ∧
      ∀ r ∈ result, k ≤ r.lineRange.startLineNumber := by
  induction rest generalizing k current with
  | nil => exact ⟨[], rfl, .nil, by simp⟩
  | cons edit rest ih =>
    have happend : current ++ edit :: rest = current ++ [edit] ++ rest := by simp
    rw [happend] at h hk
    unfold fromTextEditLoop
    simp only
    split_ifs with hsame
    · exact ih k (current ++ [edit]) h hk
    · obtain ⟨hgroup, hrest, hbetween⟩ := List.pairwise_append.1 h
      obtain ⟨joined, hjoined, ⟨first, hfirst, hstart⟩, hend⟩ :=
        TextReplacement.joinReplacements_ok hgroup initialValue
      obtain ⟨r, hr, hrstart, hrend⟩ := LineReplacement.fromSingleTextEdit_ok joined initialValue
      -- Nothing of the rest starts in the line that the group ends in.
      have hlater : ∀ next ∈ rest, edit.range.endLineNumber + 1 ≤ next.range.startLineNumber := by
        intro next hnext
        cases rest with
        | nil => cases hnext
        | cons head rest =>
          have hhead := (hbetween edit (by simp) head (by simp)).lines
          have hne : head.range.startLineNumber ≠ edit.range.endLineNumber := by
            simpa using hsame
          rcases List.mem_cons.1 hnext with rfl | hmem
          · omega
          · have hnextLines := (List.rel_of_pairwise_cons hrest hmem).lines
            have hheadLines := head.start_le_end
            omega
      obtain ⟨result, hresult, hsorted, hbound⟩ :=
        ih (edit.range.endLineNumber + 1) [] hrest hlater
      refine ⟨r :: result, ?_, List.pairwise_cons.2 ⟨?_, hsorted⟩, ?_⟩
      · rw [bind_of_ok hjoined, bind_of_ok hr, bind_of_ok hresult]
        rfl
      · intro next hnext
        have := hbound next hnext
        unfold LineReplacement.Precedes
        omega
      · have hfirstLine := hk first (List.mem_append_left _ hfirst)
        intro next hnext
        rcases List.mem_cons.1 hnext with rfl | hmem
        · omega
        · have hbehind := hbound next hmem
          have heditLine := hk edit (by simp)
          have heditLines := edit.start_le_end
          omega

end LineEdit

/-- `TextEdit.fromStringEdit` -/
def TextEdit.fromStringEdit (edit : StringEdit) (initialState : Str) : TextEdit :=
  ⟨edit.replacements.map (TextReplacement.fromStringReplacement · initialState)⟩

/-- `LineEdit.fromStringEdit` -/
def LineEdit.fromStringEdit (edit : StringEdit) (initialValue : Str) :
    Except TextEditError LineEdit :=
  fromTextEdit (TextEdit.fromStringEdit edit initialValue) initialValue

theorem SortedFrom.pairwise {k : ℤ} {rs : List StringReplacement} (h : SortedFrom k rs) :
    (∀ r ∈ rs, k ≤ r.replaceRange.start) ∧
      rs.Pairwise fun a b => a.replaceRange.endExclusive ≤ b.replaceRange.start := by
  induction rs generalizing k with
  | nil => exact ⟨by simp, .nil⟩
  | cons r rs ih =>
    obtain ⟨hstart, hrest⟩ := h
    obtain ⟨hbound, hpairwise⟩ := ih hrest
    refine ⟨?_, List.pairwise_cons.2 ⟨hbound, hpairwise⟩⟩
    intro next hnext
    rcases List.mem_cons.1 hnext with rfl | hmem
    · exact hstart
    · have hlater := hbound next hmem
      have hle := r.replaceRange.le
      simp only [replaceRange_eq] at hstart hlater
      omega

theorem TextEdit.fromStringEdit_pairwise (edit : StringEdit) (initialState : Str) :
    (fromStringEdit edit initialState).replacements.Pairwise TextReplacement.Precedes := by
  have hsorted := (SortedFrom.pairwise (checkSorted_eq_ok.1 edit.sorted)).2
  refine List.pairwise_map.2 (hsorted.imp ?_)
  intro a b hab
  unfold TextReplacement.Precedes TextReplacement.fromStringReplacement
  rw [Range.fromPositions_end (getPosition_mono initialState a.replaceRange.le),
    Range.fromPositions_start (getPosition_mono initialState b.replaceRange.le)]
  exact getPosition_mono initialState hab

/-- Every string edit has a line edit on every text. -/
theorem LineEdit.fromStringEdit_ok (edit : StringEdit) (initialValue : Str) :
    ∃ e : LineEdit, fromStringEdit edit initialValue = .ok e ∧
      e.replacements.Pairwise LineReplacement.Precedes := by
  have hsorted := TextEdit.fromStringEdit_pairwise edit initialValue
  obtain ⟨k, hk⟩ : ∃ k : ℤ, ∀ r ∈ (TextEdit.fromStringEdit edit initialValue).replacements,
      k ≤ r.range.startLineNumber := by
    cases hrs : (TextEdit.fromStringEdit edit initialValue).replacements with
    | nil => exact ⟨0, by simp⟩
    | cons first rest =>
      rw [hrs] at hsorted
      refine ⟨first.range.startLineNumber, ?_⟩
      intro r hr
      rcases List.mem_cons.1 hr with rfl | hmem
      · exact le_rfl
      · have hlines := (List.rel_of_pairwise_cons hsorted hmem).lines
        have hfirst := first.start_le_end
        omega
  obtain ⟨result, hresult, hpairwise, -⟩ := fromTextEditLoop_ok initialValue k []
    (TextEdit.fromStringEdit edit initialValue).replacements hsorted hk
  obtain ⟨e, he, hreplacements⟩ := create_ok hpairwise
  refine ⟨e, ?_, by rwa [hreplacements]⟩
  unfold fromStringEdit fromTextEdit
  rw [bind_of_ok hresult]
  exact he

/-- `initialValue.getLineAt(lineNumber)` -/
def getLineAt (text : Str) (lineNumber : ℤ) : Except BugIndicatingError Str :=
  getValueOfRange text (.new lineNumber 1 lineNumber MAX_SAFE_INTEGER)

namespace LineReplacement

/-- The loop over the first lines: where it stops, and the new lines from there on. -/
def trimStart (initialValue : Str) (endLineNumberEx : ℤ) :
    ℤ → List Str → Except BugIndicatingError (ℤ × List Str)
  | startLineNumber, [] => return (startLineNumber, [])
  | startLineNumber, line :: newLines =>
    if startLineNumber < endLineNumberEx then do
      let original ← getLineAt initialValue startLineNumber
      if line = original then trimStart initialValue endLineNumberEx (startLineNumber + 1) newLines
      else return (startLineNumber, line :: newLines)
    else return (startLineNumber, line :: newLines)

/-- The loop over the last lines, with the new lines from the last one on. -/
def trimEnd (initialValue : Str) (startLineNumber : ℤ) :
    ℤ → List Str → Except BugIndicatingError (ℤ × List Str)
  | endLineNumberEx, [] => return (endLineNumberEx, [])
  | endLineNumberEx, line :: newLines =>
    if startLineNumber < endLineNumberEx then do
      let original ← getLineAt initialValue (endLineNumberEx - 1)
      if line = original then trimEnd initialValue startLineNumber (endLineNumberEx - 1) newLines
      else return (endLineNumberEx, line :: newLines)
    else return (endLineNumberEx, line :: newLines)

def removeCommonSuffixPrefixLines (r : LineReplacement) (initialValue : Str) :
    Except TextEditError LineReplacement := do
  let (startLineNumber, newLines) ← trimStart initialValue r.lineRange.endLineNumberExclusive
    r.lineRange.startLineNumber r.newLines
  let (endLineNumberEx, newLines) ← trimEnd initialValue startLineNumber
    r.lineRange.endLineNumberExclusive newLines.reverse
  let lineRange ← createLineRange startLineNumber endLineNumberEx
  return ⟨lineRange, newLines.reverse⟩

theorem trimStart_ok (initialValue : Str) {startLineNumber endLineNumberEx : ℤ}
    (newLines : List Str) (h : startLineNumber ≤ endLineNumberEx) :
    ∃ start lines, trimStart initialValue endLineNumberEx startLineNumber newLines =
      .ok (start, lines) ∧ startLineNumber ≤ start ∧ start ≤ endLineNumberEx := by
  induction newLines generalizing startLineNumber with
  | nil => exact ⟨startLineNumber, [], rfl, le_rfl, h⟩
  | cons line newLines ih =>
    unfold trimStart
    split_ifs with hlt
    · obtain ⟨original, horiginal⟩ := getValueOfRange_ok initialValue
        (.new startLineNumber 1 startLineNumber MAX_SAFE_INTEGER)
      rw [getLineAt, bind_of_ok horiginal]
      split_ifs
      · obtain ⟨start, lines, hloop, hle, hge⟩ := ih (show startLineNumber + 1 ≤ _ by omega)
        exact ⟨start, lines, hloop, by omega, hge⟩
      · exact ⟨startLineNumber, _, rfl, le_rfl, h⟩
    · exact ⟨startLineNumber, _, rfl, le_rfl, h⟩

theorem trimEnd_ok (initialValue : Str) {startLineNumber endLineNumberEx : ℤ}
    (newLines : List Str) (h : startLineNumber ≤ endLineNumberEx) :
    ∃ stop lines, trimEnd initialValue startLineNumber endLineNumberEx newLines =
      .ok (stop, lines) ∧ startLineNumber ≤ stop ∧ stop ≤ endLineNumberEx := by
  induction newLines generalizing endLineNumberEx with
  | nil => exact ⟨endLineNumberEx, [], rfl, h, le_rfl⟩
  | cons line newLines ih =>
    unfold trimEnd
    split_ifs with hlt
    · obtain ⟨original, horiginal⟩ := getValueOfRange_ok initialValue
        (.new (endLineNumberEx - 1) 1 (endLineNumberEx - 1) MAX_SAFE_INTEGER)
      rw [getLineAt, bind_of_ok horiginal]
      split_ifs
      · obtain ⟨stop, lines, hloop, hle, hge⟩ := ih (show _ ≤ endLineNumberEx - 1 by omega)
        exact ⟨stop, lines, hloop, hle, by omega⟩
      · exact ⟨endLineNumberEx, _, rfl, h, le_rfl⟩
    · exact ⟨endLineNumberEx, _, rfl, h, le_rfl⟩

/-- What is left lies within the lines of the replacement. -/
theorem removeCommonSuffixPrefixLines_ok (r : LineReplacement) (initialValue : Str) :
    ∃ trimmed, r.removeCommonSuffixPrefixLines initialValue = .ok trimmed ∧
      r.lineRange.startLineNumber ≤ trimmed.lineRange.startLineNumber ∧
      trimmed.lineRange.endLineNumberExclusive ≤ r.lineRange.endLineNumberExclusive := by
  obtain ⟨start, lines, hstart, hle, hge⟩ :=
    trimStart_ok initialValue r.newLines r.lineRange.start_le_end
  obtain ⟨stop, lines', hstop, hle', hge'⟩ := trimEnd_ok initialValue lines.reverse hge
  refine ⟨⟨⟨start, stop, hle'⟩, lines'.reverse⟩, ?_, hle, hge'⟩
  unfold removeCommonSuffixPrefixLines
  simp only [hstart, hstop, liftM, monadLift, MonadLift.monadLift, Except.mapError, bind,
    Except.bind, createLineRange_of_le hle']
  rfl

end LineReplacement

/-- `RootedLineEdit.removeCommonSuffixPrefixLines` -/
def LineEdit.removeCommonSuffixPrefixLines (e : LineEdit) (base : Str) :
    Except TextEditError LineEdit := do
  let newEdit ← e.replacements.mapM (·.removeCommonSuffixPrefixLines base)
  create (newEdit.filter fun edit => !edit.lineRange.isEmpty || edit.newLines.length > 0)

theorem mapM_removeCommonSuffixPrefixLines_ok {rs : List LineReplacement}
    (h : rs.Pairwise LineReplacement.Precedes) (base : Str) :
    ∃ trimmed, rs.mapM (·.removeCommonSuffixPrefixLines base) = .ok trimmed ∧
      trimmed.Pairwise LineReplacement.Precedes ∧
      ∀ r ∈ trimmed, ∃ r0 ∈ rs, r0.lineRange.startLineNumber ≤ r.lineRange.startLineNumber := by
  induction rs with
  | nil => exact ⟨[], rfl, .nil, by simp⟩
  | cons r rs ih =>
    obtain ⟨hfirst, hrest⟩ := List.pairwise_cons.1 h
    obtain ⟨trimmed, htrimmed, hsorted, hstarts⟩ := ih hrest
    obtain ⟨r', hr', hstart, hend⟩ := r.removeCommonSuffixPrefixLines_ok base
    refine ⟨r' :: trimmed, ?_, List.pairwise_cons.2 ⟨?_, hsorted⟩, ?_⟩
    · rw [List.mapM_cons, bind_of_ok hr', bind_of_ok htrimmed]
      rfl
    · intro next hnext
      obtain ⟨r0, hr0, hle⟩ := hstarts next hnext
      have hbefore := hfirst r0 hr0
      unfold LineReplacement.Precedes at *
      omega
    · intro next hnext
      rcases List.mem_cons.1 hnext with rfl | hmem
      · exact ⟨r, by simp, hstart⟩
      · obtain ⟨r0, hr0, hle⟩ := hstarts next hmem
        exact ⟨r0, by simp [hr0], hle⟩

theorem LineEdit.removeCommonSuffixPrefixLines_ok {e : LineEdit}
    (h : e.replacements.Pairwise LineReplacement.Precedes) (base : Str) :
    ∃ trimmed, e.removeCommonSuffixPrefixLines base = .ok trimmed := by
  obtain ⟨newEdit, hnewEdit, hsorted, -⟩ := mapM_removeCommonSuffixPrefixLines_ok h base
  obtain ⟨trimmed, htrimmed, -⟩ := create_ok (hsorted.filter fun edit =>
    !edit.lineRange.isEmpty || edit.newLines.length > 0)
  refine ⟨trimmed, ?_⟩
  unfold removeCommonSuffixPrefixLines
  rw [bind_of_ok hnewEdit]
  exact htrimmed

end NexgileIde.Edits
