import NexgileIde.Text.PositionOffset
import NexgileIde.Edits.OffsetRange

/-!
# Text edits

A text edit replaces ranges of positions. Its replacements are sorted and lie within the
text, so that the text falls into gaps that stay and parts that are replaced; the relation
`Rewrites` follows both texts through such a division.
-/
namespace NexgileIde.Edits

open Text TextLength

/-- The failures of text edits. -/
inductive TextEditError
  /-- `start must be before end` -/
  | startMustBeBeforeEnd
  /-- `new BugIndicatingError()` -/
  | unexpected
  /-- `Assertion Failed: unexpected state` -/
  | assertionFailed
  /-- `startLineNumber .. cannot be after endLineNumberExclusive ..` -/
  | invalidLineRange (startLineNumber endLineNumberExclusive : ℤ)
  | bug (error : BugIndicatingError)
  deriving DecidableEq, Repr

instance : MonadLift (Except BugIndicatingError) (Except TextEditError) :=
  ⟨fun x => x.mapError .bug⟩

/-- `Number.MAX_SAFE_INTEGER` -/
def MAX_SAFE_INTEGER : ℤ := 2 ^ 53 - 1

/-- The columns of a text are safe integers; no engine has longer strings. -/
def Safe (text : Str) : Prop := text.length + 1 < MAX_SAFE_INTEGER

instance (text : Str) : Decidable (Safe text) := inferInstanceAs (Decidable (_ < _))

structure TextReplacement where
  range : Range
  text : Str
  deriving DecidableEq, Repr

structure TextEdit where
  replacements : List TextReplacement
  deriving DecidableEq, Repr

/-- `text.getTransformer().getOffsetRange(range)` -/
def getOffsetRange (text : Str) (range : Range) : Except BugIndicatingError OffsetRange :=
  OffsetRange.create (getOffset text range.getStartPosition) (getOffset text range.getEndPosition)

def getValueOfRange (text : Str) (range : Range) : Except BugIndicatingError Str := do
  let offsetRange ← getOffsetRange text range
  return offsetRange.substring text

def rangeFromPositions (start stop : Position) : Except TextEditError Range :=
  if start.lineNumber = stop.lineNumber ∧ start.column = MAX_SAFE_INTEGER then
    .ok (.fromPositions stop stop)
  else if !start.isBeforeOrEqual stop then .error .startMustBeBeforeEnd
  else .ok (.new start.lineNumber start.column stop.lineNumber stop.column)

/-- `checkAdjacentItems(items, predicate)` -/
def checkAdjacentItems (predicate : α → α → Bool) : List α → Bool
  | a :: b :: rest => predicate a b && checkAdjacentItems predicate (b :: rest)
  | _ => true

namespace TextEdit

/-- Adds the text between two positions. -/
def appendGap (text result : Str) (lastEditEnd editStart : Position) :
    Except TextEditError Str := do
  let r ← rangeFromPositions lastEditEnd editStart
  if r.isEmpty then return result
  else
    let value ← getValueOfRange text r
    return result ++ value

/-- The loop of `apply`. -/
def applyLoop (text result : Str) (lastEditEnd : Position) :
    List TextReplacement → Except TextEditError Str
  | [] => appendGap text result lastEditEnd (endPositionExclusive text)
  | replacement :: rest => do
    let result ← appendGap text result lastEditEnd replacement.range.getStartPosition
    applyLoop text (result ++ replacement.text) replacement.range.getEndPosition rest

def apply (e : TextEdit) (text : Str) : Except TextEditError Str :=
  applyLoop text [] ⟨1, 1⟩ e.replacements

/-- The loop of `getNewRanges`. -/
def getNewRangesLoop (previousEditEndLineNumber lineOffset columnOffset : ℤ) :
    List TextReplacement → List Range
  | [] => []
  | replacement :: rest =>
    let textLength := ofText replacement.text
    let newRangeStart : Position :=
      ⟨replacement.range.startLineNumber + lineOffset, replacement.range.startColumn +
        if replacement.range.startLineNumber = previousEditEndLineNumber then columnOffset else 0⟩
    let newRange := textLength.createRange newRangeStart
    newRange :: getNewRangesLoop replacement.range.endLineNumber
      (newRange.endLineNumber - replacement.range.endLineNumber)
      (newRange.endColumn - replacement.range.endColumn) rest

def getNewRanges (e : TextEdit) : List Range := getNewRangesLoop 0 0 0 e.replacements

/-- The replacements of `inverse`, each with the new range of the one it undoes. -/
def inverseLoop (doc : Str) : List TextReplacement → List Range →
    Except BugIndicatingError (List TextReplacement)
  | e :: rest, range :: ranges => do
    let value ← getValueOfRange doc e.range
    let replacements ← inverseLoop doc rest ranges
    return ⟨range, value⟩ :: replacements
  | _, _ => return []

def inverse (e : TextEdit) (doc : Str) : Except BugIndicatingError TextEdit := do
  let ranges := e.getNewRanges
  let replacements ← inverseLoop doc e.replacements ranges
  return ⟨replacements⟩

/-- The ranges lie in the text, in the order the constructor asserts. -/
structure Valid (e : TextEdit) (text : Str) : Prop where
  sorted : checkAdjacentItems
    (fun a b => a.range.getEndPosition.isBeforeOrEqual b.range.getStartPosition) e.replacements
  start_valid : ∀ r ∈ e.replacements,
    validatePosition text r.range.getStartPosition = r.range.getStartPosition
  end_valid : ∀ r ∈ e.replacements,
    validatePosition text r.range.getEndPosition = r.range.getEndPosition

end TextEdit

/-- With `front` read, the replacements turn the rest of the old text into the rest of
the new text. No range ends between `\r` and `\n`. -/
inductive Rewrites : Str → List TextReplacement → Str → Str → Prop
  | nil (front rest : Str) : Rewrites front [] rest rest
  | cons {front rest new : Str} {r : TextReplacement} {rs : List TextReplacement}
      (gap old : Str) :
      r.range.getStartPosition = behind (front ++ gap) →
      r.range.getEndPosition = behind (front ++ gap ++ old) →
      ¬ Seam (front ++ gap) (old ++ rest) → ¬ Seam (front ++ gap ++ old) rest →
      Rewrites (front ++ gap ++ old) rs rest new →
      Rewrites front (r :: rs) (gap ++ (old ++ rest)) (gap ++ (r.text ++ new))

/-- The replacements of a division start behind what has been read. -/
theorem Rewrites.start_behind {front rest new : Str} {rs : List TextReplacement}
    (h : Rewrites front rs rest new) :
    ∀ r ∈ rs, ∃ w, r.range.getStartPosition = behind (front ++ w) := by
  induction h with
  | nil => nofun
  | cons gap old hstart _ _ _ _ ih =>
    intro r hr
    rcases List.mem_cons.mp hr with rfl | hr
    · exact ⟨gap, hstart⟩
    · obtain ⟨w, hw⟩ := ih r hr
      exact ⟨gap ++ (old ++ w), by rw [hw]; simp⟩

theorem behind_isBefore {u w : Str} (h : w ≠ []) : (behind u).isBefore (behind (u ++ w)) := by
  rw [behind_append]
  exact isBefore_addToPosition (fun h0 => h (extent_eq_zero_iff.mp h0)) _

theorem behind_le (u w : Str) : (behind u).isBeforeOrEqual (behind (u ++ w)) := by
  rw [behind_append]
  exact isBeforeOrEqual_addToPosition _ _

theorem behind_eq_iff {u w : Str} : behind u = behind (u ++ w) ↔ w = [] := by
  constructor
  · intro h
    by_contra hw
    have hlt := @behind_isBefore u w hw
    rw [← h, Position.isBefore_iff] at hlt
    omega
  · rintro rfl
    rw [List.append_nil]

/-- Of two beginnings of one text, the one with the earlier end begins the other. -/
theorem exists_gap {u v u' v' : Str} (h : u ++ v = u' ++ v')
    (hle : (behind u).isBeforeOrEqual (behind u')) : ∃ w, u' = u ++ w ∧ v = w ++ v' := by
  rcases List.append_eq_append_iff.mp h with ⟨w, hu, hv⟩ | ⟨w, hu, hv⟩
  · exact ⟨w, hu, hv⟩
  · have hw : w = [] := by
      by_contra hw
      have hlt := @behind_isBefore u' w hw
      rw [← hu] at hlt
      rw [Position.isBeforeOrEqual_eq_not, hlt] at hle
      cases hle
    subst hw
    exact ⟨[], by simpa using hu.symm, by simpa using hv.symm⟩

theorem exists_rewrites_from {front rest : Str} {rs : List TextReplacement}
    (hsorted : checkAdjacentItems
      (fun a b => a.range.getEndPosition.isBeforeOrEqual b.range.getStartPosition) rs)
    (hfirst : ∀ r, rs.head? = some r →
      (behind front).isBeforeOrEqual r.range.getStartPosition)
    (hstart : ∀ r ∈ rs, validatePosition (front ++ rest) r.range.getStartPosition =
      r.range.getStartPosition)
    (hend : ∀ r ∈ rs, validatePosition (front ++ rest) r.range.getEndPosition =
      r.range.getEndPosition) : ∃ new, Rewrites front rs rest new := by
  induction rs generalizing front rest with
  | nil => exact ⟨rest, .nil front rest⟩
  | cons r rs ih =>
    obtain ⟨u, v, htext, hu, hseam⟩ := exists_behind (hstart r (List.mem_cons_self ..))
    obtain ⟨u', v', htext', hu', hseam'⟩ := exists_behind (hend r (List.mem_cons_self ..))
    have hle := hfirst r rfl
    rw [← hu] at hle
    obtain ⟨gap, rfl, rfl⟩ := exists_gap htext hle
    have hrange := r.range.start_isBeforeOrEqual
    rw [← hu, ← hu'] at hrange
    have hsplit : front ++ gap ++ v = u' ++ v' := by
      rw [List.append_assoc, ← htext']
    obtain ⟨old, rfl, rfl⟩ := exists_gap hsplit hrange
    have hrest : front ++ (gap ++ (old ++ v')) = front ++ gap ++ old ++ v' := by simp
    rw [hrest] at hstart hend
    have hsorted' : checkAdjacentItems
        (fun a b => a.range.getEndPosition.isBeforeOrEqual b.range.getStartPosition) rs ∧
        ∀ r', rs.head? = some r' → (behind (front ++ gap ++ old)).isBeforeOrEqual
          r'.range.getStartPosition := by
      cases rs with
      | nil => exact ⟨rfl, nofun⟩
      | cons r' rs =>
        obtain ⟨hadj, hrs⟩ := Bool.and_eq_true_iff.mp hsorted
        refine ⟨hrs, ?_⟩
        rintro _ ⟨⟩
        rwa [hu']
    obtain ⟨new, hnew⟩ := ih hsorted'.1 hsorted'.2
      (fun r' hr' => hstart r' (List.mem_cons_of_mem _ hr'))
      (fun r' hr' => hend r' (List.mem_cons_of_mem _ hr'))
    exact ⟨_, .cons gap old hu.symm hu'.symm hseam hseam' hnew⟩

/-- A valid edit divides its text. -/
theorem TextEdit.Valid.exists_rewrites {e : TextEdit} {text : Str} (h : e.Valid text) :
    ∃ new, Rewrites [] e.replacements text new := by
  refine exists_rewrites_from h.sorted ?_ h.start_valid h.end_valid
  intro r hr
  have hmem : r ∈ e.replacements := List.mem_of_mem_head? hr
  obtain ⟨u, v, -, hu, -⟩ := exists_behind (h.start_valid r hmem)
  rw [← hu]
  exact behind_le [] u

/-- A range between two positions of a text has their offsets. -/
theorem getOffsetRange_eq {u w v : Str} {range : Range}
    (hstart : range.getStartPosition = behind u) (hend : range.getEndPosition = behind (u ++ w))
    (hseam : ¬ Seam u (w ++ v)) (hseam' : ¬ Seam (u ++ w) v) :
    getOffsetRange (u ++ (w ++ v)) range =
      .ok ⟨u.length, (u ++ w).length, by simp⟩ := by
  have hu := getOffset_behind hseam
  have hw := getOffset_behind hseam'
  rw [List.append_assoc] at hw
  rw [getOffsetRange, hstart, hend, hu, hw, OffsetRange.create_of_le]

/-- The range between two positions of a text holds what stands between them. -/
theorem getValueOfRange_eq {u w v : Str} {range : Range}
    (hstart : range.getStartPosition = behind u) (hend : range.getEndPosition = behind (u ++ w))
    (hseam : ¬ Seam u (w ++ v)) (hseam' : ¬ Seam (u ++ w) v) :
    getValueOfRange (u ++ (w ++ v)) range = .ok w := by
  rw [getValueOfRange, getOffsetRange_eq hstart hend hseam hseam']
  simp only [bind, Except.bind, pure, Except.pure, OffsetRange.substring, List.length_append]
  rw [substring_of_le _ (Nat.le_add_right _ _)]
  simp

theorem appendGap_eq {u w v : Str} (result : Str) (hsafe : Safe (u ++ (w ++ v)))
    (hseam : ¬ Seam u (w ++ v)) (hseam' : ¬ Seam (u ++ w) v) :
    TextEdit.appendGap (u ++ (w ++ v)) result (behind u) (behind (u ++ w)) =
      .ok (result ++ w) := by
  have hle := behind_le u w
  have hcolumn : ¬ ((behind u).lineNumber = (behind (u ++ w)).lineNumber ∧
      (behind u).column = MAX_SAFE_INTEGER) := by
    have hcount := extent_columnCount_le u
    rw [Safe, List.length_append] at hsafe
    rw [behind_eq u]
    simp only
    omega
  have hrange : rangeFromPositions (behind u) (behind (u ++ w)) =
      .ok (.new (behind u).lineNumber (behind u).column (behind (u ++ w)).lineNumber
        (behind (u ++ w)).column) := by
    rw [rangeFromPositions, if_neg hcolumn, hle]
    rfl
  obtain ⟨hstart, hend⟩ := Range.new_of_le hle
  have hvalue := getValueOfRange_eq hstart hend hseam hseam'
  rw [TextEdit.appendGap, hrange]
  simp only [bind, Except.bind, pure, Except.pure]
  split_ifs with hempty
  · rw [Range.isEmpty_iff, hstart, hend, behind_eq_iff] at hempty
    rw [hempty, List.append_nil]
  · rw [hvalue]
    rfl

/-- Applying replacements copies the gaps and puts in the texts. -/
theorem applyLoop_eq {front rest new : Str} {rs : List TextReplacement}
    (h : Rewrites front rs rest new) (hseam : ¬ Seam front rest)
    (hsafe : Safe (front ++ rest)) (result : Str) :
    TextEdit.applyLoop (front ++ rest) result (behind front) rs = .ok (result ++ new) := by
  induction h generalizing result with
  | nil front rest =>
    have hgap := @appendGap_eq front rest [] result (by simpa using hsafe) (by simpa using hseam)
      (by simp [Seam])
    rw [TextEdit.applyLoop, endPositionExclusive_eq]
    simpa using hgap
  | @cons front rest new r rs gap old hstart hend hgapSeam hendSeam _ ih =>
    have hgap := appendGap_eq result hsafe hseam hgapSeam
    have hassoc : front ++ (gap ++ (old ++ rest)) = front ++ gap ++ old ++ rest := by simp
    rw [TextEdit.applyLoop, hstart, hend, hgap]
    simp only [bind, Except.bind]
    rw [hassoc] at hsafe ⊢
    rw [ih hendSeam hsafe]
    simp

theorem TextEdit.apply_eq {e : TextEdit} {text new : Str} (h : Rewrites [] e.replacements text new)
    (hsafe : Safe text) : e.apply text = .ok new := by
  have hloop := applyLoop_eq h (by simp [Seam]) hsafe []
  exact hloop

end NexgileIde.Edits
