import NexgileIde.MergeEditor.LineRangeMapping
import NexgileIde.Text.TextLength
import NexgileIde.Diff.SequenceDiff

/-!
# Line changes from range mappings

Each mapping of a range gives a mapping of line ranges, which leaves out a first line that it only
touches at its end and a last line that it only touches at its start. Line mappings that touch are
grouped into one change.
-/

namespace NexgileIde.Diff

open Text
open MergeEditor (LineRange)

/-- A range of the original text and one of the modified text -/
structure RangeMapping where
  originalRange : Range
  modifiedRange : Range
  deriving DecidableEq

structure DetailedLineRangeMapping where
  original : LineRange
  modified : LineRange
  innerChanges : List RangeMapping

/-- A line of the text of these lines, from one on -/
def getLineAt (lines : List Str) (lineNumber : ℤ) : Str := lines[(lineNumber - 1).toNat]?.getD []

def getLineLength (lines : List Str) (lineNumber : ℤ) : ℤ := (getLineAt lines lineNumber).length

variable (originalLines modifiedLines : List Str)

section LineRanges

def lineEndDelta (rangeMapping : RangeMapping) : ℤ :=
  -- original: ]xxx \n <- this line is not modified
  -- modified: ]xx  \n
  if rangeMapping.modifiedRange.endColumn = 1 ∧ rangeMapping.originalRange.endColumn = 1 ∧
      rangeMapping.originalRange.startLineNumber ≤ rangeMapping.originalRange.endLineNumber ∧
      rangeMapping.modifiedRange.startLineNumber ≤ rangeMapping.modifiedRange.endLineNumber
  then -1
  else 0

def lineStartDelta (rangeMapping : RangeMapping) : ℤ :=
  -- original: xxx[ \n <- this line is not modified
  -- modified: xxx[ \n
  if rangeMapping.modifiedRange.startColumn - 1 ≥
        getLineLength modifiedLines rangeMapping.modifiedRange.startLineNumber ∧
      rangeMapping.originalRange.startColumn - 1 ≥
        getLineLength originalLines rangeMapping.originalRange.startLineNumber ∧
      rangeMapping.originalRange.startLineNumber ≤
        rangeMapping.originalRange.endLineNumber + lineEndDelta rangeMapping ∧
      rangeMapping.modifiedRange.startLineNumber ≤
        rangeMapping.modifiedRange.endLineNumber + lineEndDelta rangeMapping
  then 1
  else 0

theorem lineEndDelta_eq (m : RangeMapping) : lineEndDelta m = 0 ∨
    lineEndDelta m = -1 ∧ m.originalRange.endColumn = 1 ∧ m.modifiedRange.endColumn = 1 := by
  unfold lineEndDelta
  split_ifs with h
  · exact .inr ⟨rfl, h.2.1, h.1⟩
  · exact .inl rfl

theorem start_le_end (m : RangeMapping) :
    m.originalRange.startLineNumber ≤ m.originalRange.endLineNumber ∧
      m.modifiedRange.startLineNumber ≤ m.modifiedRange.endLineNumber := by
  have := m.originalRange.start_le_end
  have := m.modifiedRange.start_le_end
  omega

theorem lineStartDelta_eq (m : RangeMapping) : lineStartDelta originalLines modifiedLines m = 0 ∨
    lineStartDelta originalLines modifiedLines m = 1 ∧
      getLineLength originalLines m.originalRange.startLineNumber < m.originalRange.startColumn ∧
      getLineLength modifiedLines m.modifiedRange.startLineNumber < m.modifiedRange.startColumn ∧
      m.originalRange.startLineNumber ≤ m.originalRange.endLineNumber + lineEndDelta m ∧
      m.modifiedRange.startLineNumber ≤ m.modifiedRange.endLineNumber + lineEndDelta m := by
  unfold lineStartDelta
  split_ifs with h
  · exact .inr ⟨rfl, by omega, by omega, h.2.2.1, h.2.2.2⟩
  · exact .inl rfl

def getLineRangeMapping (rangeMapping : RangeMapping) : DetailedLineRangeMapping where
  original := ⟨rangeMapping.originalRange.startLineNumber +
      lineStartDelta originalLines modifiedLines rangeMapping,
    rangeMapping.originalRange.endLineNumber + 1 + lineEndDelta rangeMapping, by
      have := start_le_end rangeMapping
      have := lineEndDelta_eq rangeMapping
      have := lineStartDelta_eq originalLines modifiedLines rangeMapping
      omega⟩
  modified := ⟨rangeMapping.modifiedRange.startLineNumber +
      lineStartDelta originalLines modifiedLines rangeMapping,
    rangeMapping.modifiedRange.endLineNumber + 1 + lineEndDelta rangeMapping, by
      have := start_le_end rangeMapping
      have := lineEndDelta_eq rangeMapping
      have := lineStartDelta_eq originalLines modifiedLines rangeMapping
      omega⟩
  innerChanges := [rangeMapping]

end LineRanges

section Groups

/-- The loop with the current group and its last item -/
def groupLoop {T : Type} (shouldBeGrouped : T → T → Bool) (currentGroup : List T) (last : T) :
    List T → List (List T)
  | [] => [currentGroup]
  | item :: items =>
    if shouldBeGrouped last item then
      groupLoop shouldBeGrouped (currentGroup ++ [item]) item items
    else currentGroup :: groupLoop shouldBeGrouped [item] item items

def groupAdjacentBy {T : Type} (shouldBeGrouped : T → T → Bool) : List T → List (List T)
  | [] => []
  | item :: items => groupLoop shouldBeGrouped [item] item items

def touches (a1 a2 : DetailedLineRangeMapping) : Bool :=
  a1.original.intersectsOrTouches a2.original || a1.modified.intersectsOrTouches a2.modified

/-- The change of a group of line mappings; a group is not empty. -/
def joinGroup : List DetailedLineRangeMapping → Option DetailedLineRangeMapping
  | [] => none
  | first :: rest =>
    let last := rest.getLastD first
    some ⟨first.original.join last.original, first.modified.join last.modified,
      (first :: rest).flatMap fun a => a.innerChanges.take 1⟩

def checkAdjacentItems {T : Type} (predicate : T → T → Bool) : List T → Bool
  | a :: b :: items => predicate a b && checkAdjacentItems predicate (b :: items)
  | _ => true

/-- The condition of the assertion about the changes -/
def assertion (dontAssertStartLine : Bool) (changes : List DetailedLineRangeMapping) : Bool :=
  (dontAssertStartLine ||
    match changes.head?, changes.getLast? with
    | some first, some last =>
      first.modified.startLineNumber = first.original.startLineNumber &&
        (modifiedLines.length : ℤ) - 1 - last.modified.endLineNumberExclusive =
          (originalLines.length : ℤ) - 1 - last.original.endLineNumberExclusive
    | _, _ => true) &&
    checkAdjacentItems (fun m1 m2 =>
      m2.original.startLineNumber - m1.original.endLineNumberExclusive =
          m2.modified.startLineNumber - m1.modified.endLineNumberExclusive &&
        -- There has to be an unchanged line in between (otherwise both diffs should have been joined)
        m1.original.endLineNumberExclusive < m2.original.startLineNumber &&
        m1.modified.endLineNumberExclusive < m2.modified.startLineNumber) changes

/-- The groups of line mappings that touch -/
def lineRangeGroups (alignments : List RangeMapping) : List (List DetailedLineRangeMapping) :=
  groupAdjacentBy touches (alignments.map (getLineRangeMapping originalLines modifiedLines))

/-- The changes, and whether the assertion about them holds; one that fails is only reported. -/
def lineRangeMappingFromRangeMappings (alignments : List RangeMapping)
    (dontAssertStartLine : Bool) : List DetailedLineRangeMapping × Bool :=
  let changes := (lineRangeGroups originalLines modifiedLines alignments).filterMap joinGroup
  (changes, assertion originalLines modifiedLines dontAssertStartLine changes)

end Groups

end NexgileIde.Diff

/-!
## The line changes turn the original lines into the modified ones

Where the text between two mappings is the same on both sides, the lines between their line ranges
are too. A group of line mappings whose last one neither starts nor ends before the first one then
is a change with equal lines around it.
-/

namespace NexgileIde.Diff

open Edits Text
open MergeEditor (LineRange)

section SameText

/-- The text from one position to another one, line by line -/
def pieces (lines : List Str) (p q : Position) : List Str :=
  (List.range (q.lineNumber - p.lineNumber + 1).toNat).map fun k : ℕ =>
    let line := getLineAt lines (p.lineNumber + k)
    let line := if p.lineNumber + k = q.lineNumber then line.take (q.column - 1).toNat else line
    if k = 0 then line.drop (p.column - 1).toNat else line

def endPosition (lines : List Str) : Position :=
  ⟨lines.length, getLineLength lines lines.length + 1⟩

/-- A position of the text -/
structure ValidPosition (lines : List Str) (p : Position) : Prop where
  line_pos : 1 ≤ p.lineNumber
  line_le : p.lineNumber ≤ lines.length
  column_pos : 1 ≤ p.column
  column_le : p.column ≤ getLineLength lines p.lineNumber + 1

structure ValidMapping (originalLines modifiedLines : List Str) (m : RangeMapping) : Prop where
  originalStart : ValidPosition originalLines m.originalRange.getStartPosition
  originalEnd : ValidPosition originalLines m.originalRange.getEndPosition
  modifiedStart : ValidPosition modifiedLines m.modifiedRange.getStartPosition
  modifiedEnd : ValidPosition modifiedLines m.modifiedRange.getEndPosition

/-- The text between two positions of each side is the same. -/
structure SameText (originalLines modifiedLines : List Str) (p1 p2 q1 q2 : Position) : Prop where
  le1 : p1.isBeforeOrEqual q1 = true
  le2 : p2.isBeforeOrEqual q2 = true
  same : pieces originalLines p1 q1 = pieces modifiedLines p2 q2

/-- The mappings are sorted behind two positions, and the text before, between and after them is the
same on both sides. -/
def SameAround (originalLines modifiedLines : List Str) (p1 p2 : Position) :
    List RangeMapping → Prop
  | [] => SameText originalLines modifiedLines p1 p2 (endPosition originalLines)
      (endPosition modifiedLines)
  | m :: ms =>
    SameText originalLines modifiedLines p1 p2 m.originalRange.getStartPosition
        m.modifiedRange.getStartPosition ∧
      SameAround originalLines modifiedLines m.originalRange.getEndPosition
        m.modifiedRange.getEndPosition ms

/-- The lines as a sequence -/
def lineSequence (lines : List Str) : ISequence Str Unit where
  length := lines.length
  getElement offset := getLineAt lines (offset + 1)
  isStronglyEqual a b := getLineAt lines (a + 1) = getLineAt lines (b + 1)
  getBoundaryScore := none

variable {originalLines modifiedLines : List Str} {p1 p2 q1 q2 : Position}

theorem SameText.lines_eq (h : SameText originalLines modifiedLines p1 p2 q1 q2) :
    q1.lineNumber - p1.lineNumber = q2.lineNumber - p2.lineNumber := by
  have hlength := congrArg List.length h.same
  have hle1 := Position.isBeforeOrEqual_iff.mp h.le1
  have hle2 := Position.isBeforeOrEqual_iff.mp h.le2
  unfold pieces at hlength
  rw [List.length_map, List.length_map, List.length_range, List.length_range] at hlength
  omega

/-- A line between the positions is the same if neither side cuts it. -/
theorem SameText.line_eq (h : SameText originalLines modifiedLines p1 p2 q1 q2) {k : ℤ}
    (hk : 0 ≤ k) (hkq : k ≤ q1.lineNumber - p1.lineNumber)
    (hfront : k = 0 → p1.column = 1 ∧ p2.column = 1)
    (hback : k = q1.lineNumber - p1.lineNumber →
      getLineLength originalLines q1.lineNumber < q1.column ∧
        getLineLength modifiedLines q2.lineNumber < q2.column) :
    getLineAt originalLines (p1.lineNumber + k) = getLineAt modifiedLines (p2.lineNumber + k) := by
  obtain ⟨n, rfl⟩ := Int.eq_ofNat_of_zero_le hk
  have hlines := h.lines_eq
  have hsame := h.same
  unfold pieces at hsame
  rw [← hlines] at hsame
  have hpiece := List.map_inj_left.mp hsame n (List.mem_range.mpr (by omega))
  dsimp only at hpiece
  have hwhole : ∀ {lines : List Str} {p q : Position}, (n = 0 → p.column = 1) →
      (p.lineNumber + n = q.lineNumber → getLineLength lines q.lineNumber < q.column) →
      (if n = 0 then (if p.lineNumber + n = q.lineNumber then
        (getLineAt lines (p.lineNumber + n)).take (q.column - 1).toNat
        else getLineAt lines (p.lineNumber + n)).drop (p.column - 1).toNat
      else if p.lineNumber + n = q.lineNumber then
        (getLineAt lines (p.lineNumber + n)).take (q.column - 1).toNat
        else getLineAt lines (p.lineNumber + n)) = getLineAt lines (p.lineNumber + n) := by
    intro lines p q hp hq
    have htake : (if p.lineNumber + n = q.lineNumber then
        (getLineAt lines (p.lineNumber + n)).take (q.column - 1).toNat
        else getLineAt lines (p.lineNumber + n)) = getLineAt lines (p.lineNumber + n) := by
      split_ifs with hn
      · have hlength := hq hn
        rw [hn]
        unfold getLineLength at hlength
        exact List.take_of_length_le (by omega)
      · rfl
    rw [htake]
    split_ifs with hn
    · rw [hp hn]
      rfl
    · rfl
  rw [hwhole (fun hn => (hfront (by omega)).1) (fun hn => (hback (by omega)).1),
    hwhole (fun hn => (hfront (by omega)).2) (fun hn => (hback (by omega)).2)] at hpiece
  exact hpiece

/-- The lines between the line ranges of two mappings are an equal run. -/
theorem SameText.equalRun (h : SameText originalLines modifiedLines p1 p2 q1 q2)
    {endDelta startDelta least : ℤ}
    (hend : endDelta = 0 ∨ endDelta = -1 ∧ p1.column = 1 ∧ p2.column = 1)
    (hstart : startDelta = 0 ∨ startDelta = 1 ∧
      getLineLength originalLines q1.lineNumber < q1.column ∧
        getLineLength modifiedLines q2.lineNumber < q2.column)
    (hleast : p1.lineNumber + 1 + endDelta + least ≤ q1.lineNumber + startDelta) :
    EqualRun (lineSequence originalLines) (lineSequence modifiedLines) least
      (p1.lineNumber + endDelta) (p2.lineNumber + endDelta) (q1.lineNumber + startDelta - 1)
      (q2.lineNumber + startDelta - 1) := by
  have hlines := h.lines_eq
  refine ⟨by omega, by omega, fun k hk hlt => ?_⟩
  have hline := h.line_eq (k := endDelta + k + 1) (by omega) (by omega) (by omega) (by omega)
  unfold lineSequence
  dsimp only
  rw [show p1.lineNumber + endDelta + k + 1 = p1.lineNumber + (endDelta + k + 1) by omega,
    show p2.lineNumber + endDelta + k + 1 = p2.lineNumber + (endDelta + k + 1) by omega]
  exact hline

end SameText

section Groups

variable {originalLines modifiedLines : List Str} {z m : RangeMapping}

/-- The last line mapping of a group neither starts nor ends before the first one. -/
def KeepsEnds (g : List DetailedLineRangeMapping) : Prop :=
  ∀ first ∈ g.head?, ∀ last ∈ g.getLast?,
    first.original.startLineNumber ≤ last.original.startLineNumber ∧
      first.modified.startLineNumber ≤ last.modified.startLineNumber ∧
      first.original.endLineNumberExclusive ≤ last.original.endLineNumberExclusive ∧
      first.modified.endLineNumberExclusive ≤ last.modified.endLineNumberExclusive

/-- The diff of the line sequences that a change stands for -/
def toSequenceDiff (c : DetailedLineRangeMapping) : SequenceDiff where
  seq1Range := ⟨c.original.startLineNumber - 1, c.original.endLineNumberExclusive - 1, by
    have := c.original.start_le_end
    omega⟩
  seq2Range := ⟨c.modified.startLineNumber - 1, c.modified.endLineNumberExclusive - 1, by
    have := c.modified.start_le_end
    omega⟩

theorem lineEndDelta_of_columns (h1 : m.originalRange.endColumn = 1)
    (h2 : m.modifiedRange.endColumn = 1) : lineEndDelta m = -1 := by
  unfold lineEndDelta
  rw [if_pos ⟨h2, h1, (start_le_end m).1, (start_le_end m).2⟩]

/-- A mapping that ends in front of another one but starts behind its end on one side has moved its
start, and ends at column one there. -/
theorem column_of_behind {a m : Range} {startDelta endDelta : ℤ}
    (hle : a.getEndPosition.isBeforeOrEqual m.getStartPosition = true)
    (hcolumn : 1 ≤ a.getEndPosition.column) (hstart : startDelta ≤ 1)
    (hend : endDelta = 0 ∨ endDelta = -1 ∧ m.endColumn = 1)
    (h : m.endLineNumber + 1 + endDelta < a.startLineNumber + startDelta) :
    a.endColumn = 1 ∧ startDelta = 1 ∧ a.endLineNumber ≤ a.startLineNumber := by
  have hle := Position.isBeforeOrEqual_iff.mp hle
  simp only [Range.getStartPosition, Range.getEndPosition] at hle hcolumn
  have ha := a.start_le_end
  have hm := m.start_le_end
  omega

/-- Two line mappings that do not touch have an unchanged line between them. -/
theorem gap_of_not_touches
    (hsame : SameText originalLines modifiedLines z.originalRange.getEndPosition
      z.modifiedRange.getEndPosition m.originalRange.getStartPosition
      m.modifiedRange.getStartPosition)
    (hvalid : ValidMapping originalLines modifiedLines z)
    (h : touches (getLineRangeMapping originalLines modifiedLines z)
      (getLineRangeMapping originalLines modifiedLines m) = false) :
    z.originalRange.endLineNumber + 1 + lineEndDelta z + 1 ≤
      m.originalRange.startLineNumber + lineStartDelta originalLines modifiedLines m := by
  have hlines := hsame.lines_eq
  simp only [Range.getStartPosition, Range.getEndPosition] at hlines
  unfold touches at h
  rw [Bool.or_eq_false_iff] at h
  obtain ⟨h1, h2⟩ := h
  unfold LineRange.intersectsOrTouches at h1 h2
  rw [decide_eq_false_iff_not] at h1 h2
  simp only [getLineRangeMapping] at h1 h2
  by_contra hgap
  -- both line ranges of `z` would be behind those of `m`, so `z` would end at column one on both sides
  have hbehind1 : m.originalRange.endLineNumber + 1 + lineEndDelta m <
      z.originalRange.startLineNumber + lineStartDelta originalLines modifiedLines z := by
    clear h2 hlines
    omega
  have hbehind2 : m.modifiedRange.endLineNumber + 1 + lineEndDelta m <
      z.modifiedRange.startLineNumber + lineStartDelta originalLines modifiedLines z := by
    clear h1 hbehind1
    omega
  have hstart : lineStartDelta originalLines modifiedLines z ≤ 1 := by
    rcases lineStartDelta_eq originalLines modifiedLines z with hzero | ⟨hone, -⟩ <;> omega
  have hcolumn1 := column_of_behind hsame.le1 hvalid.originalEnd.column_pos hstart
    ((lineEndDelta_eq m).imp id fun h => ⟨h.1, h.2.1⟩) hbehind1
  have hcolumn2 := column_of_behind hsame.le2 hvalid.modifiedEnd.column_pos hstart
    ((lineEndDelta_eq m).imp id fun h => ⟨h.1, h.2.2⟩) hbehind2
  have hdelta := lineEndDelta_of_columns hcolumn1.1 hcolumn2.1
  rcases lineStartDelta_eq originalLines modifiedLines z with hzero | ⟨-, -, -, hlast, -⟩
  · omega
  · rw [hdelta] at hlast
    omega

theorem joinGroup_of_keepsEnds {g : List DetailedLineRangeMapping}
    {first last : DetailedLineRangeMapping} (hfirst : g.head? = some first)
    (hlast : g.getLast? = some last) (hkeeps : KeepsEnds g) :
    ∃ c, joinGroup g = some c ∧
      c.original.startLineNumber = first.original.startLineNumber ∧
      c.modified.startLineNumber = first.modified.startLineNumber ∧
      c.original.endLineNumberExclusive = last.original.endLineNumberExclusive ∧
      c.modified.endLineNumberExclusive = last.modified.endLineNumberExclusive := by
  obtain ⟨h1, h2, h3, h4⟩ := hkeeps first hfirst last hlast
  cases g with
  | nil => cases hfirst
  | cons item rest =>
    obtain rfl : item = first := by simpa using hfirst
    have hlast' : rest.getLastD item = last := by
      rw [List.getLast?_cons, Option.some.injEq] at hlast
      rwa [List.getLastD_eq_getLast?]
    refine ⟨_, rfl, ?_⟩
    rw [hlast']
    exact ⟨min_eq_left h1, min_eq_left h2, max_eq_right h3, max_eq_right h4⟩

/-- The run behind the line mapping of `z` -/
theorem SameText.equalRun_behind {q1 q2 : Position}
    (h : SameText originalLines modifiedLines z.originalRange.getEndPosition
      z.modifiedRange.getEndPosition q1 q2) {startDelta least : ℤ}
    (hstart : startDelta = 0 ∨ startDelta = 1 ∧
      getLineLength originalLines q1.lineNumber < q1.column ∧
        getLineLength modifiedLines q2.lineNumber < q2.column)
    (hleast : z.originalRange.endLineNumber + 1 + lineEndDelta z + least ≤
      q1.lineNumber + startDelta) :
    EqualRun (lineSequence originalLines) (lineSequence modifiedLines) least
      ((getLineRangeMapping originalLines modifiedLines z).original.endLineNumberExclusive - 1)
      ((getLineRangeMapping originalLines modifiedLines z).modified.endLineNumberExclusive - 1)
      (q1.lineNumber + startDelta - 1) (q2.lineNumber + startDelta - 1) := by
  have hrun := h.equalRun (lineEndDelta_eq z) hstart hleast
  unfold getLineRangeMapping
  dsimp only
  rw [add_right_comm, add_sub_cancel_right, add_right_comm, add_sub_cancel_right]
  exact hrun

theorem lineStartDelta_atEnd (originalLines modifiedLines : List Str) (m : RangeMapping) :
    lineStartDelta originalLines modifiedLines m = 0 ∨
      lineStartDelta originalLines modifiedLines m = 1 ∧
        getLineLength originalLines m.originalRange.startLineNumber < m.originalRange.startColumn ∧
        getLineLength modifiedLines m.modifiedRange.startLineNumber <
          m.modifiedRange.startColumn := by
  have := lineStartDelta_eq originalLines modifiedLines m
  tauto

/-- The current group becomes a change that starts where its first line mapping does; the run before
it and the text behind its last mapping make the changes an alignment. -/
theorem groupLoop_aligned {ms : List RangeMapping} {cur : List DetailedLineRangeMapping}
    {first : DetailedLineRangeMapping} {least i j : ℤ} (hfirst : cur.head? = some first)
    (hlast : cur.getLast? = some (getLineRangeMapping originalLines modifiedLines z))
    (hrun : EqualRun (lineSequence originalLines) (lineSequence modifiedLines) least i j
      (first.original.startLineNumber - 1) (first.modified.startLineNumber - 1))
    (hvalid : ∀ m ∈ z :: ms, ValidMapping originalLines modifiedLines m)
    (hsame : SameAround originalLines modifiedLines z.originalRange.getEndPosition
      z.modifiedRange.getEndPosition ms)
    (hkeeps : ∀ g ∈ groupLoop touches cur (getLineRangeMapping originalLines modifiedLines z)
      (ms.map (getLineRangeMapping originalLines modifiedLines)), KeepsEnds g) :
    Aligned (lineSequence originalLines) (lineSequence modifiedLines) least i j
      (((groupLoop touches cur (getLineRangeMapping originalLines modifiedLines z)
        (ms.map (getLineRangeMapping originalLines modifiedLines))).filterMap joinGroup).map
          toSequenceDiff) := by
  induction ms generalizing z cur first least i j with
  | nil =>
    rw [List.map_nil] at hkeeps ⊢
    unfold groupLoop at hkeeps ⊢
    obtain ⟨c, hc, h1, h2, h3, h4⟩ := joinGroup_of_keepsEnds hfirst hlast (hkeeps cur (by simp))
    rw [List.filterMap_cons_some hc]
    constructor
    · rw [← h1, ← h2] at hrun
      exact hrun
    · have hle := Position.isBeforeOrEqual_iff.mp (SameText.le1 hsame)
      have hdelta := lineEndDelta_eq z
      have hrest : EqualRun _ _ 0 _ _ _ _ := SameText.equalRun_behind hsame
        (show (1 : ℤ) = 0 ∨ (1 : ℤ) = 1 ∧ _ from .inr ⟨rfl, lt_add_one _, lt_add_one _⟩) (by
          simp only [Range.getEndPosition] at hle
          omega)
      rw [← h3, ← h4, add_sub_cancel_right, add_sub_cancel_right] at hrest
      exact hrest
  | cons m ms ih =>
    obtain ⟨htext, hsame⟩ := hsame
    rw [List.map_cons] at hkeeps ⊢
    unfold groupLoop at hkeeps ⊢
    have hvalid' : ∀ m' ∈ m :: ms, ValidMapping originalLines modifiedLines m' :=
      fun m' hm' => hvalid m' (List.mem_cons_of_mem z hm')
    split_ifs at hkeeps ⊢ with htouch
    · exact ih (by simp [hfirst]) (by simp) hrun hvalid' hsame hkeeps
    · obtain ⟨c, hc, h1, h2, h3, h4⟩ := joinGroup_of_keepsEnds hfirst hlast
        (hkeeps cur List.mem_cons_self)
      rw [List.filterMap_cons_some hc]
      constructor
      · rw [← h1, ← h2] at hrun
        exact hrun
      · have hgap := gap_of_not_touches htext (hvalid z List.mem_cons_self) (by simpa using htouch)
        have hbetween : EqualRun _ _ 1 _ _ _ _ :=
          htext.equalRun_behind (lineStartDelta_atEnd originalLines modifiedLines m) hgap
        rw [← h3, ← h4] at hbetween
        exact ih rfl rfl hbetween hvalid' hsame fun g hg => hkeeps g (List.mem_cons_of_mem cur hg)

end Groups

section Replaced

variable {originalLines modifiedLines : List Str} {least i j k l : ℤ}

/-- The lines from one line number up to another one -/
def linesBetween (lines : List Str) (startLineNumber endLineNumberExclusive : ℤ) : List Str :=
  (lines.take (endLineNumberExclusive - 1).toNat).drop (startLineNumber - 1).toNat

/-- The original lines from a line number on, with those of each change replaced by its modified
lines. -/
def replaceLines (originalLines modifiedLines : List Str) (startLineNumber : ℤ) :
    List DetailedLineRangeMapping → List Str
  | [] => linesBetween originalLines startLineNumber (originalLines.length + 1)
  | c :: cs =>
    linesBetween originalLines startLineNumber c.original.startLineNumber ++
      linesBetween modifiedLines c.modified.startLineNumber c.modified.endLineNumberExclusive ++
      replaceLines originalLines modifiedLines c.original.endLineNumberExclusive cs

theorem linesBetween_append {lines : List Str} {a b c : ℤ} (hab : a ≤ b) (hbc : b ≤ c)
    (hc : c ≤ lines.length + 1) :
    linesBetween lines a b ++ linesBetween lines b c = linesBetween lines a c := by
  unfold linesBetween
  have htake : lines.take (b - 1).toNat = (lines.take (c - 1).toNat).take (b - 1).toNat := by
    rw [List.take_take, min_eq_left (by omega)]
  rw [htake, ← List.drop_append_of_le_length, List.take_append_drop]
  rw [List.length_take, List.length_take]
  omega

theorem linesBetween_eq (h : EqualRun (lineSequence originalLines) (lineSequence modifiedLines)
      least i j k l) (hi : 0 ≤ i) (hj : 0 ≤ j) (hk : k ≤ originalLines.length)
    (hl : l ≤ modifiedLines.length) :
    linesBetween originalLines (i + 1) (k + 1) = linesBetween modifiedLines (j + 1) (l + 1) := by
  have hsame := h.same
  unfold linesBetween
  apply List.ext_getElem?
  intro n
  simp only [List.getElem?_drop, List.getElem?_take, add_sub_cancel_right]
  by_cases hn : (n : ℤ) < k - i
  · have hequal := h.equal n (by omega) hn
    unfold lineSequence getLineAt at hequal
    simp only [add_sub_cancel_right] at hequal
    rw [show (i + n : ℤ).toNat = i.toNat + n by omega, show (j + n : ℤ).toNat = j.toNat + n by omega,
      List.getElem?_eq_getElem (by omega), List.getElem?_eq_getElem (by omega)] at hequal
    rw [if_pos (by omega), if_pos (by omega), List.getElem?_eq_getElem (by omega),
      List.getElem?_eq_getElem (by omega)]
    exact congrArg some hequal
  · rw [if_neg (by omega), if_neg (by omega)]

theorem replaceLines_eq {cs : List DetailedLineRangeMapping} (hi : 0 ≤ i) (hj : 0 ≤ j)
    (hleast : 0 ≤ least)
    (h : Aligned (lineSequence originalLines) (lineSequence modifiedLines) least i j
      (cs.map toSequenceDiff)) :
    replaceLines originalLines modifiedLines (i + 1) cs =
      linesBetween modifiedLines (j + 1) (modifiedLines.length + 1) := by
  induction cs generalizing least i j with
  | nil => exact linesBetween_eq h hi hj le_rfl le_rfl
  | cons c cs ih =>
    obtain ⟨hrun, hrest⟩ := h
    obtain ⟨hlength1, hlength2⟩ := Aligned.le_length hrest zero_le_one
    have hle := hrun.least_le
    have hsame := hrun.same
    have h1 := c.original.start_le_end
    have h2 := c.modified.start_le_end
    simp only [toSequenceDiff, lineSequence] at hle hsame hlength1 hlength2
    have hkept := linesBetween_eq hrun hi hj (by simp only [toSequenceDiff]; omega)
      (by simp only [toSequenceDiff]; omega)
    have hbehind := ih (by simp only [toSequenceDiff]; omega) (by simp only [toSequenceDiff]; omega)
      zero_le_one hrest
    simp only [toSequenceDiff, sub_add_cancel] at hkept hbehind
    unfold replaceLines
    rw [hkept, hbehind, linesBetween_append (by omega) h2 (by omega),
      linesBetween_append (by omega) (by omega) le_rfl]

end Replaced

section Assertion

variable {originalLines modifiedLines : List Str} {least i j : ℤ}
  {cs : List DetailedLineRangeMapping}

theorem checkAdjacentItems_of_aligned
    (h : Aligned (lineSequence originalLines) (lineSequence modifiedLines) least i j
      (cs.map toSequenceDiff)) :
    checkAdjacentItems (fun m1 m2 : DetailedLineRangeMapping =>
      m2.original.startLineNumber - m1.original.endLineNumberExclusive =
          m2.modified.startLineNumber - m1.modified.endLineNumberExclusive &&
        m1.original.endLineNumberExclusive < m2.original.startLineNumber &&
        m1.modified.endLineNumberExclusive < m2.modified.startLineNumber) cs = true := by
  induction cs generalizing least i j with
  | nil => rfl
  | cons c cs ih =>
    have hrest := ih h.2
    cases cs with
    | nil => rfl
    | cons next cs =>
      have hle := h.2.1.least_le
      have hsame := h.2.1.same
      simp only [toSequenceDiff] at hle hsame
      unfold checkAdjacentItems
      rw [hrest, Bool.and_true, Bool.and_eq_true, Bool.and_eq_true, decide_eq_true_eq,
        decide_eq_true_eq, decide_eq_true_eq]
      omega

theorem distance_of_aligned {last : DetailedLineRangeMapping}
    (h : Aligned (lineSequence originalLines) (lineSequence modifiedLines) least i j
      (cs.map toSequenceDiff)) (hlast : cs.getLast? = some last) :
    (modifiedLines.length : ℤ) - 1 - last.modified.endLineNumberExclusive =
      (originalLines.length : ℤ) - 1 - last.original.endLineNumberExclusive := by
  induction cs generalizing least i j with
  | nil => cases hlast
  | cons c cs ih =>
    cases cs with
    | nil =>
      obtain rfl : c = last := by simpa using hlast
      have hsame := EqualRun.same h.2
      simp only [toSequenceDiff, lineSequence] at hsame
      omega
    | cons next cs => exact ih h.2 (by simpa using hlast)

theorem assertion_of_aligned (dontAssertStartLine : Bool)
    (h : Aligned (lineSequence originalLines) (lineSequence modifiedLines) 0 0 0
      (cs.map toSequenceDiff)) :
    assertion originalLines modifiedLines dontAssertStartLine cs = true := by
  unfold assertion
  rw [checkAdjacentItems_of_aligned h, Bool.and_true, Bool.or_eq_true]
  right
  split
  · rename_i first last hfirst hlast
    rw [Bool.and_eq_true, decide_eq_true_eq, decide_eq_true_eq]
    refine ⟨?_, distance_of_aligned h hlast⟩
    cases cs with
    | nil => cases hfirst
    | cons c cs =>
      obtain rfl : c = first := by simpa using hfirst
      have hsame := h.1.same
      simp only [toSequenceDiff] at hsame
      omega
  · rfl

end Assertion

section Inner

variable {originalLines modifiedLines : List Str}

/-- A range lies in a line range, up to the line breaks before and behind it. -/
structure LiesIn (lines : List Str) (r : Range) (l : LineRange) : Prop where
  from_start : l.startLineNumber ≤ r.startLineNumber ∨
    l.startLineNumber = r.startLineNumber + 1 ∧
      r.startColumn = getLineLength lines r.startLineNumber + 1
  to_end : r.endLineNumber < l.endLineNumberExclusive ∨
    r.endLineNumber = l.endLineNumberExclusive ∧ r.endColumn = 1

/-- The second mapping is behind the first one on both sides. -/
def Before (a b : RangeMapping) : Prop :=
  a.originalRange.getEndPosition.isBeforeOrEqual b.originalRange.getStartPosition = true ∧
    a.modifiedRange.getEndPosition.isBeforeOrEqual b.modifiedRange.getStartPosition = true

theorem isBeforeOrEqual_trans {a b c : Position} (hab : a.isBeforeOrEqual b = true)
    (hbc : b.isBeforeOrEqual c = true) : a.isBeforeOrEqual c = true := by
  rw [Position.isBeforeOrEqual_iff] at *
  omega

theorem SameAround.pairwise {p1 p2 : Position} {ms : List RangeMapping}
    (h : SameAround originalLines modifiedLines p1 p2 ms) :
    ms.Pairwise Before ∧ ∀ m ∈ ms,
      p1.isBeforeOrEqual m.originalRange.getStartPosition = true ∧
        p2.isBeforeOrEqual m.modifiedRange.getStartPosition = true := by
  induction ms generalizing p1 p2 with
  | nil => simp
  | cons m ms ih =>
    obtain ⟨hpairwise, hall⟩ := ih h.2
    refine ⟨List.pairwise_cons.mpr ⟨hall, hpairwise⟩, fun m' hm' => ?_⟩
    rcases List.mem_cons.mp hm' with rfl | hm'
    · exact ⟨h.1.le1, h.1.le2⟩
    · obtain ⟨h1, h2⟩ := hall m' hm'
      exact ⟨isBeforeOrEqual_trans (isBeforeOrEqual_trans h.1.le1
          (Range.start_isBeforeOrEqual _)) h1,
        isBeforeOrEqual_trans (isBeforeOrEqual_trans h.1.le2 (Range.start_isBeforeOrEqual _)) h2⟩

/-- One side of a mapping between the first and the last one of a group -/
theorem liesIn_of_between {lines : List Str} {first m last : Range} {l : LineRange}
    {startDelta endDelta : ℤ} (hstart : l.startLineNumber ≤ first.startLineNumber + startDelta)
    (hend : last.endLineNumber + 1 + endDelta ≤ l.endLineNumberExclusive)
    (hstartDelta : startDelta = 0 ∨ startDelta = 1 ∧
      getLineLength lines first.startLineNumber < first.startColumn)
    (hendDelta : endDelta = 0 ∨ endDelta = -1 ∧ last.endColumn = 1)
    (hfirst : first.getStartPosition.isBeforeOrEqual m.getStartPosition = true)
    (hlast : m.getEndPosition.isBeforeOrEqual last.getEndPosition = true)
    (hvalid : ValidPosition lines m.getStartPosition)
    (hvalid' : ValidPosition lines m.getEndPosition) : LiesIn lines m l := by
  rw [Position.isBeforeOrEqual_iff] at hfirst hlast
  have hcolumn := hvalid.column_le
  have hcolumn' := hvalid'.column_pos
  simp only [Range.getStartPosition, Range.getEndPosition] at hfirst hlast hcolumn hcolumn'
  constructor
  · by_contra hnot
    rw [not_or] at hnot
    have hline : first.startLineNumber = m.startLineNumber := by omega
    rw [hline] at hstartDelta
    omega
  · omega

theorem Before.of_head {first m : RangeMapping} {rest : List RangeMapping}
    (h : (first :: rest).Pairwise Before) (hm : m ∈ first :: rest) :
    first.originalRange.getStartPosition.isBeforeOrEqual m.originalRange.getStartPosition = true ∧
      first.modifiedRange.getStartPosition.isBeforeOrEqual
        m.modifiedRange.getStartPosition = true := by
  rcases List.mem_cons.mp hm with rfl | hm
  · simp [Position.isBeforeOrEqual_iff]
  · obtain ⟨h1, h2⟩ := (List.pairwise_cons.mp h).1 m hm
    exact ⟨isBeforeOrEqual_trans (Range.start_isBeforeOrEqual _) h1,
      isBeforeOrEqual_trans (Range.start_isBeforeOrEqual _) h2⟩

theorem Before.of_last {init : List RangeMapping} {m last : RangeMapping}
    (h : (init ++ [last]).Pairwise Before) (hm : m ∈ init ++ [last]) :
    m.originalRange.getEndPosition.isBeforeOrEqual last.originalRange.getEndPosition = true ∧
      m.modifiedRange.getEndPosition.isBeforeOrEqual last.modifiedRange.getEndPosition = true := by
  rcases List.mem_append.mp hm with hm | hm
  · obtain ⟨h1, h2⟩ := (List.pairwise_append.mp h).2.2 m hm last List.mem_cons_self
    exact ⟨isBeforeOrEqual_trans h1 (Range.start_isBeforeOrEqual _),
      isBeforeOrEqual_trans h2 (Range.start_isBeforeOrEqual _)⟩
  · obtain rfl := List.mem_singleton.mp hm
    simp [Position.isBeforeOrEqual_iff]

/-- The inner changes of the change of a group lie in it. -/
theorem liesIn_of_group {ms : List RangeMapping} {c : DetailedLineRangeMapping}
    (hc : joinGroup (ms.map (getLineRangeMapping originalLines modifiedLines)) = some c)
    (hsorted : ms.Pairwise Before)
    (hvalid : ∀ m ∈ ms, ValidMapping originalLines modifiedLines m) :
    ∀ m ∈ c.innerChanges, LiesIn originalLines m.originalRange c.original ∧
      LiesIn modifiedLines m.modifiedRange c.modified := by
  cases hms : ms with
  | nil =>
    rw [hms] at hc
    cases hc
  | cons first rest =>
    obtain ⟨init, last, hlast⟩ : ∃ init last, ms = init ++ [last] := by
      obtain rfl | ⟨init, last, heq⟩ := List.eq_nil_or_concat ms
      · cases hms
      · exact ⟨init, last, by rw [heq, List.concat_eq_append]⟩
    have hgetLast : (rest.map (getLineRangeMapping originalLines modifiedLines)).getLastD
        (getLineRangeMapping originalLines modifiedLines first) =
          getLineRangeMapping originalLines modifiedLines last := by
      have hlast' := congrArg List.getLast? (hms.symm.trans hlast)
      rw [List.getLast?_concat, List.getLast?_cons, Option.some.injEq] at hlast'
      rw [List.getLastD_eq_getLast?, List.getLast?_map, Option.getD_map, hlast']
    rw [hms] at hc
    rw [List.map_cons] at hc
    unfold joinGroup at hc
    dsimp only at hc
    rw [hgetLast, Option.some.injEq] at hc
    subst hc
    intro m hm
    have hmem : m ∈ ms := by
      rw [hms]
      simpa [getLineRangeMapping] using hm
    have hfirst := Before.of_head (hms ▸ hsorted) (hms ▸ hmem)
    have hbehind := Before.of_last (hlast ▸ hsorted) (hlast ▸ hmem)
    have hm := hvalid m hmem
    have hstart := lineStartDelta_atEnd originalLines modifiedLines first
    have hend := lineEndDelta_eq last
    constructor
    · exact liesIn_of_between (min_le_left _ _) (le_max_right _ _)
        (hstart.imp_right fun h => ⟨h.1, h.2.1⟩) (hend.imp_right fun h => ⟨h.1, h.2.1⟩)
        hfirst.1 hbehind.1 hm.originalStart hm.originalEnd
    · exact liesIn_of_between (min_le_left _ _) (le_max_right _ _)
        (hstart.imp_right fun h => ⟨h.1, h.2.2⟩) (hend.imp_right fun h => ⟨h.1, h.2.2⟩)
        hfirst.2 hbehind.2 hm.modifiedStart hm.modifiedEnd

theorem flatten_groupLoop {T : Type} (r : T → T → Bool) (cur : List T) (last : T)
    (items : List T) : (groupLoop r cur last items).flatten = cur ++ items := by
  induction items generalizing cur last with
  | nil => simp [groupLoop]
  | cons item items ih =>
    unfold groupLoop
    split_ifs
    · rw [ih, List.append_assoc]
      rfl
    · rw [List.flatten_cons, ih]
      rfl

theorem flatten_groupAdjacentBy {T : Type} (r : T → T → Bool) (items : List T) :
    (groupAdjacentBy r items).flatten = items := by
  cases items with
  | nil => rfl
  | cons item items => exact flatten_groupLoop r [item] item items

end Inner

section Main

variable {originalLines modifiedLines : List Str} {alignments : List RangeMapping}

theorem changes_aligned
    (hvalid : ∀ m ∈ alignments, ValidMapping originalLines modifiedLines m)
    (hsame : SameAround originalLines modifiedLines ⟨1, 1⟩ ⟨1, 1⟩ alignments)
    (hkeeps : ∀ g ∈ lineRangeGroups originalLines modifiedLines alignments, KeepsEnds g) :
    Aligned (lineSequence originalLines) (lineSequence modifiedLines) 0 0 0
      (((lineRangeGroups originalLines modifiedLines alignments).filterMap joinGroup).map
        toSequenceDiff) := by
  unfold lineRangeGroups at *
  cases alignments with
  | nil =>
    have hrun : EqualRun _ _ 0 _ _ _ _ := SameText.equalRun hsame
      (show (-1 : ℤ) = 0 ∨ (-1 : ℤ) = -1 ∧ _ from .inr ⟨rfl, rfl, rfl⟩)
      (show (1 : ℤ) = 0 ∨ (1 : ℤ) = 1 ∧ _ from .inr ⟨rfl, lt_add_one _, lt_add_one _⟩) (by
        change (1 : ℤ) + 1 + -1 + 0 ≤ originalLines.length + 1
        omega)
    change EqualRun _ _ 0 0 0 (originalLines.length : ℤ) (modifiedLines.length : ℤ)
    simpa [endPosition] using hrun
  | cons m ms =>
    obtain ⟨htext, hsame⟩ := hsame
    have hline := (hvalid m List.mem_cons_self).originalStart.line_pos
    have hdelta := lineStartDelta_atEnd originalLines modifiedLines m
    have hrun : EqualRun _ _ 0 _ _ _ _ := htext.equalRun
      (show (-1 : ℤ) = 0 ∨ (-1 : ℤ) = -1 ∧ _ from .inr ⟨rfl, rfl, rfl⟩) hdelta (by
        simp only [Range.getStartPosition] at hline ⊢
        omega)
    exact groupLoop_aligned rfl rfl hrun hvalid hsame hkeeps

/-- Where the last line mapping of no group starts or ends before the first one, the assertion holds,
the inner changes lie in their changes, and replacing the lines gives the modified text. -/
theorem lineRangeMapping_replaces (originalLines modifiedLines : List Str)
    (alignments : List RangeMapping)
    (hvalid : ∀ m ∈ alignments, ValidMapping originalLines modifiedLines m)
    (hsame : SameAround originalLines modifiedLines ⟨1, 1⟩ ⟨1, 1⟩ alignments)
    (hkeeps : ∀ g ∈ lineRangeGroups originalLines modifiedLines alignments, KeepsEnds g) :
    (lineRangeMappingFromRangeMappings originalLines modifiedLines alignments false).2 = true ∧
      (∀ c ∈ (lineRangeMappingFromRangeMappings originalLines modifiedLines alignments false).1,
        ∀ m ∈ c.innerChanges, LiesIn originalLines m.originalRange c.original ∧
          LiesIn modifiedLines m.modifiedRange c.modified) ∧
      replaceLines originalLines modifiedLines 1
        (lineRangeMappingFromRangeMappings originalLines modifiedLines alignments false).1 =
          modifiedLines := by
  have haligned := changes_aligned hvalid hsame hkeeps
  refine ⟨assertion_of_aligned false haligned, fun c hc => ?_, ?_⟩
  · obtain ⟨g, hg, hjoin⟩ := List.mem_filterMap.mp hc
    have hsub := List.sublist_flatten_of_mem hg
    unfold lineRangeGroups at hsub
    rw [flatten_groupAdjacentBy, List.sublist_map_iff] at hsub
    obtain ⟨ms, hms, rfl⟩ := hsub
    exact liesIn_of_group hjoin (hsame.pairwise.1.sublist hms) fun m hm => hvalid m (hms.subset hm)
  · have hreplaced := replaceLines_eq le_rfl le_rfl le_rfl haligned
    rw [zero_add] at hreplaced
    refine hreplaced.trans ?_
    unfold linesBetween
    simp

theorem keepsEnds_singleton (a : DetailedLineRangeMapping) : KeepsEnds [a] := by
  intro first hfirst last hlast
  obtain rfl := Option.mem_some.mp hfirst
  obtain rfl := Option.mem_some.mp hlast
  exact ⟨le_rfl, le_rfl, le_rfl, le_rfl⟩

/-- A new line that is inserted by one mapping -/
def insertedLine : List RangeMapping := [⟨⟨1, 2, 1, 2, by decide⟩, ⟨1, 2, 2, 2, by decide⟩⟩]

/-- A new line whose line feed and text are inserted by two mappings at one place -/
def insertedInParts : List RangeMapping :=
  [⟨⟨1, 2, 1, 2, by decide⟩, ⟨1, 2, 2, 1, by decide⟩⟩,
    ⟨⟨1, 2, 1, 2, by decide⟩, ⟨2, 1, 2, 2, by decide⟩⟩]

theorem lineRangeMapping_replaces_insertedLine :
    replaceLines [ascii "a"] [ascii "a", ascii "b"] 1
      (lineRangeMappingFromRangeMappings [ascii "a"] [ascii "a", ascii "b"] insertedLine false).1 =
        [ascii "a", ascii "b"] := by
  refine (lineRangeMapping_replaces [ascii "a"] [ascii "a", ascii "b"] insertedLine ?_
    ⟨⟨by decide, by decide, by decide⟩, ⟨by decide, by decide, by decide⟩⟩ ?_).2.2
  · intro m hm
    obtain rfl := List.mem_singleton.mp hm
    exact ⟨⟨by decide, by decide, by decide, by decide⟩, ⟨by decide, by decide, by decide, by decide⟩,
      ⟨by decide, by decide, by decide, by decide⟩, ⟨by decide, by decide, by decide, by decide⟩⟩
  · intro g hg
    obtain rfl := List.mem_singleton.mp hg
    exact keepsEnds_singleton _

/-- The joined ranges of the two parts start on different lines. -/
theorem lineRangeMapping_unbalanced :
    (∀ m ∈ insertedInParts, ValidMapping [ascii "a"] [ascii "a", ascii "b"] m) ∧
      SameAround [ascii "a"] [ascii "a", ascii "b"] ⟨1, 1⟩ ⟨1, 1⟩ insertedInParts ∧
      (lineRangeMappingFromRangeMappings [ascii "a"] [ascii "a", ascii "b"] insertedInParts
        false).2 = false ∧
      replaceLines [ascii "a"] [ascii "a", ascii "b"] 1
        (lineRangeMappingFromRangeMappings [ascii "a"] [ascii "a", ascii "b"] insertedInParts
          false).1 ≠ [ascii "a", ascii "b"] := by
  refine ⟨fun m hm => ?_, ⟨⟨by decide, by decide, by decide⟩, ⟨by decide, by decide, by decide⟩,
    ⟨by decide, by decide, by decide⟩⟩, by decide +kernel, by decide +kernel⟩
  rcases List.mem_pair.mp hm with rfl | rfl
  all_goals
    exact ⟨⟨by decide, by decide, by decide, by decide⟩, ⟨by decide, by decide, by decide, by decide⟩,
      ⟨by decide, by decide, by decide, by decide⟩, ⟨by decide, by decide, by decide, by decide⟩⟩

end Main

end NexgileIde.Diff
