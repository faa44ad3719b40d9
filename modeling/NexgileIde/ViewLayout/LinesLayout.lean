import NexgileIde.Base.Uint
import NexgileIde.ViewLayout.LineHeights

/-!
# Layout of lines and whitespaces

Whitespaces stand between lines and push down what is below them. They are in an array by the
line they are after, with the sums of their heights as far as these are valid.
-/
namespace NexgileIde.ViewLayout

open Base

/-- `value | 0`, for a number that need not be an integer. -/
def truncate (value : ℚ) : ℤ := toInt32 (if value < 0 then ⌈value⌉ else ⌊value⌋)

structure EditorWhitespace where
  id : String
  afterLineNumber : ℤ
  ordinal : ℤ
  height : ℤ
  minWidth : ℤ
  prefixSum : ℤ
  deriving DecidableEq, Repr

structure IPendingChange where
  id : String
  newAfterLineNumber : ℤ
  newHeight : ℤ
  deriving DecidableEq, Repr

structure PendingChanges where
  inserts : List EditorWhitespace
  changes : List IPendingChange
  removes : List String
  deriving DecidableEq, Repr

structure LinesLayout where
  instanceId : String
  lastWhitespaceId : ℕ
  arr : List EditorWhitespace
  prefixSumValidIndex : ℤ
  /-- `-1` when it is not computed. -/
  minWidth : ℤ
  lineCount : ℤ
  paddingTop : ℚ
  paddingBottom : ℚ
  lineHeightsManager : LineHeightsManager
  deriving DecidableEq, Repr

/-- What the callback of `changeWhitespace` calls. -/
inductive WhitespaceAccess
  | insertWhitespace (afterLineNumber ordinal heightInPx minWidth : ℤ)
  | changeOneWhitespace (id : String) (newAfterLineNumber newHeight : ℤ)
  | removeWhitespace (id : String)
  deriving DecidableEq, Repr

/-- The order of whitespaces. -/
def precedes (a b : EditorWhitespace) : Bool :=
  if a.afterLineNumber = b.afterLineNumber then a.ordinal ≤ b.ordinal
  else a.afterLineNumber ≤ b.afterLineNumber

namespace LinesLayout

def new (instanceId : String) (lineCount : ℤ) (defaultLineHeight : ℚ)
    (paddingTop paddingBottom : ℚ) (customLineHeightData : List CustomLineHeightData) :
    LinesLayout where
  instanceId := instanceId
  lastWhitespaceId := 0
  arr := []
  prefixSumValidIndex := -1
  minWidth := -1
  lineCount := lineCount
  paddingTop := paddingTop
  paddingBottom := paddingBottom
  lineHeightsManager := .new defaultLineHeight customLineHeightData

/-! ## Whitespaces -/

/-- The loop of `findInsertionIndex`, where one turn takes one unit of fuel. -/
def findInsertionLoop (arr : List EditorWhitespace) (afterLineNumber ordinal : ℤ) :
    ℕ → ℕ → ℕ → ℕ
  | 0, low, _ => low
  | fuel + 1, low, high =>
    if low < high then
      let mid := (low + high) / 2
      match arr[mid]? with
      | none => low
      | some middle =>
        if afterLineNumber = middle.afterLineNumber then
          if ordinal < middle.ordinal then
            findInsertionLoop arr afterLineNumber ordinal fuel low mid
          else findInsertionLoop arr afterLineNumber ordinal fuel (mid + 1) high
        else if afterLineNumber < middle.afterLineNumber then
          findInsertionLoop arr afterLineNumber ordinal fuel low mid
        else findInsertionLoop arr afterLineNumber ordinal fuel (mid + 1) high
    else low

def findInsertionIndex (arr : List EditorWhitespace) (afterLineNumber ordinal : ℤ) : ℕ :=
  findInsertionLoop arr afterLineNumber ordinal arr.length 0 arr.length

def lowerValidIndex (s : LinesLayout) (index : ℤ) : LinesLayout :=
  { s with prefixSumValidIndex := min s.prefixSumValidIndex index }

def insertWhitespace (s : LinesLayout) (whitespace : EditorWhitespace) : LinesLayout :=
  let insertIndex := findInsertionIndex s.arr whitespace.afterLineNumber whitespace.ordinal
  { s with arr := s.arr.take insertIndex ++ whitespace :: s.arr.drop insertIndex }.lowerValidIndex
    (insertIndex - 1)

/-- `_findWhitespaceIndex`, where `none` is `-1`. -/
def findWhitespaceIndex (s : LinesLayout) (id : String) : Option ℕ :=
  s.arr.findIdx? fun whitespace => whitespace.id = id

def removeWhitespace (s : LinesLayout) (removeIndex : ℕ) : LinesLayout :=
  { s with arr := s.arr.eraseIdx removeIndex }.lowerValidIndex (removeIndex - 1)

def changeOneWhitespace (s : LinesLayout) (id : String) (newAfterLineNumber newHeight : ℤ) :
    LinesLayout :=
  match s.findWhitespaceIndex id with
  | none => s
  | some index =>
    match s.arr[index]? with
    | none => s
    | some found =>
      let whitespace := { found with height := newHeight }
      let s :=
        if found.height ≠ newHeight then
          { s with arr := s.arr.set index whitespace }.lowerValidIndex (index - 1)
        else s
      if found.afterLineNumber ≠ newAfterLineNumber then
        (s.removeWhitespace index).insertWhitespace
          { whitespace with afterLineNumber := newAfterLineNumber }
      else s

/-- The last change for a whitespace, as in the map. -/
def changeFor (changes : List IPendingChange) (id : String) : Option IPendingChange :=
  changes.reverse.find? fun change => change.id = id

def applyRemoveAndChange (changes : List IPendingChange) (removes : List String)
    (whitespaces : List EditorWhitespace) : List EditorWhitespace :=
  (whitespaces.filter fun whitespace => whitespace.id ∉ removes).map fun whitespace =>
    match changeFor changes whitespace.id with
    | none => whitespace
    | some change =>
      { whitespace with
        afterLineNumber := change.newAfterLineNumber
        height := change.newHeight }

def commitPendingChanges (s : LinesLayout) (pending : PendingChanges) : LinesLayout :=
  let s :=
    if pending.inserts.length > 0 ∨ pending.removes.length > 0 then { s with minWidth := -1 } else s
  if pending.inserts.length + pending.changes.length + pending.removes.length ≤ 1 then
    let s := pending.inserts.foldl insertWhitespace s
    let s := pending.changes.foldl (fun s change =>
      s.changeOneWhitespace change.id change.newAfterLineNumber change.newHeight) s
    pending.removes.foldl (fun s id =>
      match s.findWhitespaceIndex id with
      | none => s
      | some index => s.removeWhitespace index) s
  else
    let result := applyRemoveAndChange pending.changes pending.removes s.arr ++
      applyRemoveAndChange pending.changes pending.removes pending.inserts
    { s with arr := result.mergeSort precedes, prefixSumValidIndex := -1 }

/-- One call of the accessor. -/
def access (s : LinesLayout × PendingChanges) : WhitespaceAccess → LinesLayout × PendingChanges
  | .insertWhitespace afterLineNumber ordinal heightInPx minWidth =>
    let lastWhitespaceId := s.1.lastWhitespaceId + 1
    let whitespace : EditorWhitespace := {
      id := s.1.instanceId ++ toString lastWhitespaceId
      afterLineNumber := toInt32 afterLineNumber
      ordinal := toInt32 ordinal
      height := toInt32 heightInPx
      minWidth := toInt32 minWidth
      prefixSum := 0 }
    ({ s.1 with lastWhitespaceId }, { s.2 with inserts := s.2.inserts ++ [whitespace] })
  | .changeOneWhitespace id newAfterLineNumber newHeight =>
    (s.1, { s.2 with
      changes := s.2.changes ++ [⟨id, toInt32 newAfterLineNumber, toInt32 newHeight⟩] })
  | .removeWhitespace id => (s.1, { s.2 with removes := s.2.removes ++ [id] })

def changeWhitespace (s : LinesLayout) (callback : List WhitespaceAccess) : LinesLayout :=
  let (s, pending) := callback.foldl access (s, ⟨[], [], []⟩)
  if callback = [] then s else s.commitPendingChanges pending

def onLinesDeleted (s : LinesLayout) (fromLineNumber toLineNumber : ℤ) : LinesLayout :=
  let fromLineNumber := toInt32 fromLineNumber
  let toLineNumber := toInt32 toLineNumber
  { s with
    lineCount := s.lineCount - (toLineNumber - fromLineNumber + 1)
    arr := s.arr.map fun whitespace =>
      if fromLineNumber ≤ whitespace.afterLineNumber ∧ whitespace.afterLineNumber ≤ toLineNumber then
        { whitespace with afterLineNumber := fromLineNumber - 1 }
      else if whitespace.afterLineNumber > toLineNumber then
        { whitespace with
          afterLineNumber := whitespace.afterLineNumber - (toLineNumber - fromLineNumber + 1) }
      else whitespace
    lineHeightsManager := s.lineHeightsManager.onLinesDeleted fromLineNumber toLineNumber }

def onLinesInserted (s : LinesLayout) (fromLineNumber toLineNumber : ℤ) : LinesLayout :=
  let fromLineNumber := toInt32 fromLineNumber
  let toLineNumber := toInt32 toLineNumber
  { s with
    lineCount := s.lineCount + (toLineNumber - fromLineNumber + 1)
    arr := s.arr.map fun whitespace =>
      if fromLineNumber ≤ whitespace.afterLineNumber then
        { whitespace with
          afterLineNumber := whitespace.afterLineNumber + (toLineNumber - fromLineNumber + 1) }
      else whitespace
    lineHeightsManager := s.lineHeightsManager.onLinesInserted fromLineNumber toLineNumber }

/-! ## Heights of whitespaces -/

/-- The loop over the sums, with the number of its turns. -/
def sumLoop (arr : List EditorWhitespace) (i : ℕ) : ℕ → List EditorWhitespace
  | 0 => arr
  | turns + 1 =>
    match arr[i - 1]?, arr[i]? with
    | some previous, some whitespace =>
      sumLoop (arr.set i { whitespace with prefixSum := previous.prefixSum + whitespace.height })
        (i + 1) turns
    | _, _ => arr

/-- The index is that of a whitespace. -/
def getWhitespacesAccumulatedHeight (s : LinesLayout) (index : ℤ) : ℤ × LinesLayout :=
  let index := toInt32 index
  let startIndex := max 0 (s.prefixSumValidIndex + 1)
  let (arr, startIndex) :=
    if startIndex = 0 then
      (s.arr.modify 0 fun whitespace => { whitespace with prefixSum := whitespace.height },
        startIndex + 1)
    else (s.arr, startIndex)
  let arr := sumLoop arr startIndex.toNat (index + 1 - startIndex).toNat
  (((arr[index.toNat]?).map EditorWhitespace.prefixSum).getD 0,
    { s with arr, prefixSumValidIndex := max s.prefixSumValidIndex index })

def getWhitespacesTotalHeight (s : LinesLayout) : ℤ × LinesLayout :=
  if s.arr.length = 0 then (0, s)
  else s.getWhitespacesAccumulatedHeight (s.arr.length - 1)

/-- The loop of `_findLastWhitespaceBeforeLineNumber`. -/
def findLastLoop (arr : List EditorWhitespace) (lineNumber : ℤ) : ℕ → ℤ → ℤ → ℤ
  | 0, _, _ => -1
  | fuel + 1, low, high =>
    if low ≤ high then
      let delta := toInt32 (high - low)
      let halfDelta := toInt32 (delta.tdiv 2)
      let mid := toInt32 (low + halfDelta)
      match if mid < 0 then none else arr[mid.toNat]? with
      | none => -1
      | some middle =>
        if middle.afterLineNumber < lineNumber then
          match arr[mid.toNat + 1]? with
          | none => mid
          | some next =>
            if next.afterLineNumber ≥ lineNumber then mid
            else findLastLoop arr lineNumber fuel (toInt32 (mid + 1)) high
        else findLastLoop arr lineNumber fuel low (toInt32 (mid - 1))
    else -1

def findLastWhitespaceBeforeLineNumber (s : LinesLayout) (lineNumber : ℤ) : ℤ :=
  findLastLoop s.arr (toInt32 lineNumber) s.arr.length 0 (s.arr.length - 1)

def getWhitespaceAccumulatedHeightBeforeLineNumber (s : LinesLayout) (lineNumber : ℤ) :
    ℤ × LinesLayout :=
  let lastWhitespaceBeforeLineNumber := s.findLastWhitespaceBeforeLineNumber (toInt32 lineNumber)
  if lastWhitespaceBeforeLineNumber = -1 then (0, s)
  else s.getWhitespacesAccumulatedHeight lastWhitespaceBeforeLineNumber

def getWhitespaceMinWidth (s : LinesLayout) : ℤ × LinesLayout :=
  if s.minWidth = -1 then
    let minWidth := s.arr.foldl (fun minWidth whitespace => max minWidth whitespace.minWidth) 0
    (minWidth, { s with minWidth })
  else (s.minWidth, s)

/-! ## Vertical offsets -/

def getLineHeightForLineNumber (s : LinesLayout) (lineNumber : ℤ) : ℚ × LinesLayout :=
  let (lineHeightsManager, height) := s.lineHeightsManager.heightForLineNumber lineNumber
  (height, { s with lineHeightsManager })

def getAccumulatedLineHeights (s : LinesLayout) (lineNumber : ℤ) : ℚ × LinesLayout :=
  let (lineHeightsManager, height) :=
    s.lineHeightsManager.getAccumulatedLineHeightsIncludingLineNumber lineNumber
  (height, { s with lineHeightsManager })

def getLinesTotalHeight (s : LinesLayout) : ℚ × LinesLayout :=
  let (linesHeight, s) := s.getAccumulatedLineHeights s.lineCount
  let (whitespacesHeight, s) := s.getWhitespacesTotalHeight
  (linesHeight + whitespacesHeight + s.paddingTop + s.paddingBottom, s)

def getVerticalOffsetForLineNumber (s : LinesLayout) (lineNumber : ℤ)
    (includeViewZones : Bool) : ℚ × LinesLayout :=
  let lineNumber := toInt32 lineNumber
  let (previousLinesHeight, s) :=
    if lineNumber > 1 then s.getAccumulatedLineHeights (lineNumber - 1) else (0, s)
  let (previousWhitespacesHeight, s) := s.getWhitespaceAccumulatedHeightBeforeLineNumber
    (lineNumber - if includeViewZones then 1 else 0)
  (previousLinesHeight + previousWhitespacesHeight + s.paddingTop, s)

def getVerticalOffsetAfterLineNumber (s : LinesLayout) (lineNumber : ℤ)
    (includeViewZones : Bool) : ℚ × LinesLayout :=
  let lineNumber := toInt32 lineNumber
  let (previousLinesHeight, s) := s.getAccumulatedLineHeights lineNumber
  let (previousWhitespacesHeight, s) := s.getWhitespaceAccumulatedHeightBeforeLineNumber
    (lineNumber + if includeViewZones then 1 else 0)
  (previousLinesHeight + previousWhitespacesHeight + s.paddingTop, s)

/-- The loop of `getLineNumberAtOrAfterVerticalOffset` and what is returned behind it. -/
def lineNumberLoop (verticalOffset linesCount : ℤ) (s : LinesLayout) :
    ℕ → ℤ → ℤ → ℤ × LinesLayout
  | 0, minLineNumber, _ => (if minLineNumber > linesCount then linesCount else minLineNumber, s)
  | fuel + 1, minLineNumber, maxLineNumber =>
    if minLineNumber < maxLineNumber then
      let midLineNumber := toInt32 ((minLineNumber + maxLineNumber) / 2)
      let (lineHeight, s) := s.getLineHeightForLineNumber midLineNumber
      let (midLineNumberVerticalOffset, s) := s.getVerticalOffsetForLineNumber midLineNumber false
      let midLineNumberVerticalOffset := truncate midLineNumberVerticalOffset
      if (verticalOffset : ℚ) ≥ midLineNumberVerticalOffset + lineHeight then
        lineNumberLoop verticalOffset linesCount s fuel (midLineNumber + 1) maxLineNumber
      else if verticalOffset ≥ midLineNumberVerticalOffset then (midLineNumber, s)
      else lineNumberLoop verticalOffset linesCount s fuel minLineNumber midLineNumber
    else (if minLineNumber > linesCount then linesCount else minLineNumber, s)

def getLineNumberAtOrAfterVerticalOffset (s : LinesLayout) (verticalOffset : ℚ) :
    ℤ × LinesLayout :=
  let verticalOffset := truncate verticalOffset
  if verticalOffset < 0 then (1, s)
  else
    let linesCount := toInt32 s.lineCount
    lineNumberLoop verticalOffset linesCount s linesCount.toNat 1 linesCount

end LinesLayout

end NexgileIde.ViewLayout
