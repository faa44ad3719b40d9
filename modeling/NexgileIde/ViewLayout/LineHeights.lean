import Mathlib.Data.Rat.Floor
import NexgileIde.Base.Arrays

/-!
# Line heights

Lines whose height is not the default one are kept in an array ordered by line number,
each with the height of all lines before it. Changes are collected and are applied in
one go before the next query.
-/
namespace NexgileIde.ViewLayout

open Base

/-- `Math.round` -/
def round (x : ℚ) : ℚ := ⌊x + 1 / 2⌋

structure CustomLine where
  decorationId : String
  index : ℤ
  lineNumber : ℤ
  specialHeight : ℚ
  prefixSum : ℚ
  maximumSpecialHeight : ℚ
  deleted : Bool
  deriving DecidableEq, Repr

def CustomLine.new (decorationId : String) (index lineNumber : ℤ) (specialHeight prefixSum : ℚ) :
    CustomLine where
  decorationId := decorationId
  index := index
  lineNumber := lineNumber
  specialHeight := round specialHeight
  prefixSum := prefixSum
  maximumSpecialHeight := round specialHeight
  deleted := false

inductive PendingChange
  | insertOrChange (decorationId : String) (startLineNumber endLineNumber : ℤ) (lineHeight : ℚ)
  | remove (decorationId : String)
  | linesDeleted (fromLineNumber toLineNumber : ℤ)
  | linesInserted (fromLineNumber toLineNumber : ℤ)
  deriving DecidableEq, Repr

structure CustomLineHeightData where
  decorationId : String
  startLineNumber : ℤ
  endLineNumber : ℤ
  lineHeight : ℚ
  deriving DecidableEq, Repr

/-! ## Searching the array -/

section Search

variable (lines : List CustomLine) (lineNumber : ℤ)

/-- The comparator of the search. -/
def compareLine (index : ℕ) : ℤ :=
  match lines[index]? with
  | some line =>
    if line.lineNumber = lineNumber then 0 else if line.lineNumber < lineNumber then -1 else 1
  | none => 1

def binarySearchOverOrderedCustomLinesArray : ℤ :=
  binarySearch2 lines.length (compareLine lines lineNumber)

/-- The first of the lines that share the number with the one at `candidate`. -/
def firstIndexOnLine (candidate : ℕ) : ℕ :=
  candidate - ((lines.take candidate).reverse.takeWhile (·.lineNumber = lineNumber)).length

/-- The last of the lines that share the number with the one at `candidate`. -/
def lastIndexOnLine (candidate : ℕ) : ℕ :=
  candidate + ((lines.drop (candidate + 1)).takeWhile (·.lineNumber = lineNumber)).length

end Search

/-! ## Changes

The map from decorations to their lines is not stored: its entry for a decoration holds
the lines of the array that are not marked as deleted, and the map of staged lines
relates to the staged lines in the same way. -/

/-- The state of the manager while it applies changes. -/
structure Batch where
  defaultLineHeight : ℚ
  orderedCustomLines : List CustomLine
  /-- `none` is `Infinity`. -/
  invalidIndex : Option ℤ
  stagedInserts : List CustomLine
  deriving DecidableEq, Repr

/-- `Math.min` on an index that may be `Infinity`. -/
def minIndex (invalidIndex : Option ℤ) (index : ℤ) : Option ℤ :=
  match invalidIndex with
  | none => some index
  | some invalid => some (min invalid index)

namespace Batch

/-- The entry of the decoration in the map. -/
def customLinesOf (lines : List CustomLine) (decorationId : String) : List CustomLine :=
  lines.filter fun line => line.decorationId = decorationId && !line.deleted

def markDeleted (decorationID : String) (line : CustomLine) : CustomLine :=
  if line.decorationId = decorationID then { line with deleted := true } else line

def doRemoveCustomLineHeight (b : Batch) (decorationID : String) : Batch :=
  { b with
    orderedCustomLines := b.orderedCustomLines.map (markDeleted decorationID)
    invalidIndex := (customLinesOf b.orderedCustomLines decorationID).foldl
      (fun invalidIndex line => minIndex invalidIndex line.index) b.invalidIndex
    stagedInserts := b.stagedInserts.map (markDeleted decorationID) }

/-- The lines that a decoration stages. -/
def stagedLines (decorationId : String) (startLineNumber endLineNumber : ℤ) (lineHeight : ℚ) :
    List CustomLine :=
  (List.range (endLineNumber + 1 - startLineNumber).toNat).map fun (i : ℕ) =>
    CustomLine.new decorationId (-1) (startLineNumber + i) lineHeight 0

def doInsertOrChangeCustomLineHeight (b : Batch) (decorationId : String)
    (startLineNumber endLineNumber : ℤ) (lineHeight : ℚ) : Batch :=
  let b := b.doRemoveCustomLineHeight decorationId
  { b with
    stagedInserts := b.stagedInserts ++
      stagedLines decorationId startLineNumber endLineNumber lineHeight }

/-- One staged line goes to its place in the array. -/
def insertStaged (b : Batch) (pendingChange : CustomLine) : Batch :=
  if pendingChange.deleted then b
  else
    let candidateInsertionIndex :=
      binarySearchOverOrderedCustomLinesArray b.orderedCustomLines pendingChange.lineNumber
    let insertionIndex :=
      if 0 ≤ candidateInsertionIndex then candidateInsertionIndex
      else -(candidateInsertionIndex + 1)
    { b with
      orderedCustomLines := b.orderedCustomLines.take insertionIndex.toNat ++
        pendingChange :: b.orderedCustomLines.drop insertionIndex.toNat
      invalidIndex := minIndex b.invalidIndex insertionIndex }

/-- The largest height on the line number, over the lines from here on. -/
def maximumOnLine (lineNumber : ℤ) : ℚ → List CustomLine → ℚ
  | maximum, [] => maximum
  | maximum, line :: lines =>
    if line.deleted then maximumOnLine lineNumber maximum lines
    else if line.lineNumber ≠ lineNumber then maximum
    else maximumOnLine lineNumber (max maximum line.specialHeight) lines

/-- What is known about the line when it follows `previousSpecialLine`. -/
def recompute (defaultLineHeight : ℚ) (previousSpecialLine : Option CustomLine)
    (customLine : CustomLine) (lines : List CustomLine) : CustomLine :=
  match previousSpecialLine with
  | some previous =>
    if previous.lineNumber = customLine.lineNumber then
      { customLine with
        maximumSpecialHeight := previous.maximumSpecialHeight
        prefixSum := previous.prefixSum }
    else
      { customLine with
        maximumSpecialHeight :=
          maximumOnLine customLine.lineNumber customLine.specialHeight (customLine :: lines)
        prefixSum := previous.prefixSum + previous.maximumSpecialHeight +
          defaultLineHeight * (customLine.lineNumber - previous.lineNumber - 1) }
  | none =>
    { customLine with
      maximumSpecialHeight :=
        maximumOnLine customLine.lineNumber customLine.specialHeight (customLine :: lines)
      prefixSum := defaultLineHeight * (customLine.lineNumber - 1) }

/-- The lines from the invalid index on, without the deleted ones. -/
def rebuild (defaultLineHeight : ℚ) :
    Option CustomLine → ℤ → ℤ → List CustomLine → List CustomLine
  | _, _, _, [] => []
  | previousSpecialLine, i, numberOfDeletions, customLine :: lines =>
    if customLine.deleted then
      rebuild defaultLineHeight previousSpecialLine (i + 1) (numberOfDeletions + 1) lines
    else
      let customLine := { customLine with index := i - numberOfDeletions }
      let customLine := recompute defaultLineHeight previousSpecialLine customLine lines
      customLine :: rebuild defaultLineHeight (some customLine) (i + 1) numberOfDeletions lines

def flushStagedDecorationChanges (b : Batch) : Batch :=
  if b.stagedInserts = [] ∧ b.invalidIndex = none then b
  else
    let b := { b.stagedInserts.foldl insertStaged b with stagedInserts := [] }
    match b.invalidIndex with
    | none => b
    | some invalidIndex =>
      let valid := b.orderedCustomLines.take invalidIndex.toNat
      { b with
        orderedCustomLines := valid ++ rebuild b.defaultLineHeight valid.getLast? invalidIndex 0
          (b.orderedCustomLines.drop invalidIndex.toNat)
        invalidIndex := none }

end Batch

/-! ## Deleting lines -/

section LinesDeleted

variable (lines : List CustomLine)

def startIndexOfDeletion (fromLineNumber : ℤ) : ℤ :=
  let candidate := binarySearchOverOrderedCustomLinesArray lines fromLineNumber
  if 0 ≤ candidate then firstIndexOnLine lines fromLineNumber candidate.toNat
  else if candidate = -(lines.length + 1) ∧ candidate ≠ -1 then lines.length - 1
  else -(candidate + 1)

def endIndexOfDeletion (toLineNumber : ℤ) : ℤ :=
  let candidate := binarySearchOverOrderedCustomLinesArray lines toLineNumber
  if 0 ≤ candidate then lastIndexOnLine lines toLineNumber candidate.toNat
  else if candidate = -(lines.length + 1) ∧ candidate ≠ -1 then lines.length - 1
  else -(candidate + 1)

def coversCustomLine (fromLineNumber toLineNumber : ℤ) : Bool :=
  match lines[(startIndexOfDeletion lines fromLineNumber).toNat]? with
  | some line => fromLineNumber ≤ line.lineNumber && line.lineNumber ≤ toLineNumber
  | none => false

/-- The first line of each decoration that was not seen before stays, on the line
where the deletion starts. -/
def collapse (fromLineNumber : ℤ) (prefixSum maximum : ℚ) :
    List String → ℤ → List CustomLine → List CustomLine × ℤ
  | _, numberOfDeletions, [] => ([], numberOfDeletions)
  | decorationIdsSeen, numberOfDeletions, customLine :: lines =>
    if customLine.decorationId ∈ decorationIdsSeen then
      collapse fromLineNumber prefixSum maximum decorationIdsSeen (numberOfDeletions + 1) lines
    else
      let customLine := { customLine with
        index := customLine.index - numberOfDeletions
        lineNumber := fromLineNumber
        prefixSum := prefixSum
        maximumSpecialHeight := maximum }
      let rest := collapse fromLineNumber prefixSum maximum
        (customLine.decorationId :: decorationIdsSeen) numberOfDeletions lines
      (customLine :: rest.1, rest.2)

/-- The lines of the array after the deletion. -/
def linesDeleted (defaultLineHeight : ℚ) (fromLineNumber toLineNumber : ℤ) : List CustomLine :=
  let deleteCount := toLineNumber - fromLineNumber + 1
  let startIndex := startIndexOfDeletion lines fromLineNumber
  let endIndex := endIndexOfDeletion lines toLineNumber
  if startIndex < endIndex ∨
      endIndex = startIndex ∧ coversCustomLine lines fromLineNumber toLineNumber then
    let before := lines.take startIndex.toNat
    let interval := (lines.take (endIndex + 1).toNat).drop startIndex.toNat
    let after := lines.drop (endIndex + 1).toNat
    let maximumSpecialHeightOnDeletedInterval :=
      interval.foldl (fun maximum line => max maximum line.maximumSpecialHeight) 0
    let prefixSumOnDeletedInterval :=
      match before.getLast? with
      | some previous => previous.prefixSum + previous.maximumSpecialHeight +
          defaultLineHeight * (fromLineNumber - previous.lineNumber - 1)
      | none => if 0 < fromLineNumber then (fromLineNumber - 1) * defaultLineHeight else 0
    match interval.head?, interval.getLast? with
    | some first, some last =>
      let heightOfFirstLineAfterDeletion :=
        match after.head? with
        | some line =>
          if line.lineNumber = toLineNumber + 1 then line.maximumSpecialHeight
          else defaultLineHeight
        | none => defaultLineHeight
      let totalHeightDeleted := last.prefixSum + last.maximumSpecialHeight - first.prefixSum +
        defaultLineHeight * (toLineNumber - last.lineNumber) +
        defaultLineHeight * (first.lineNumber - fromLineNumber) +
        heightOfFirstLineAfterDeletion - maximumSpecialHeightOnDeletedInterval
      let collapsed := collapse fromLineNumber prefixSumOnDeletedInterval
        maximumSpecialHeightOnDeletedInterval (before.map (·.decorationId)) 0 interval
      before ++ collapsed.1 ++ after.map fun line =>
        { line with
          index := line.index - collapsed.2
          lineNumber := line.lineNumber - deleteCount
          prefixSum := line.prefixSum - totalHeightDeleted }
    | _, _ => lines -- not reached: the interval holds the line at `startIndex`
  else
    let totalHeightDeleted := deleteCount * defaultLineHeight
    lines.take endIndex.toNat ++ (lines.drop endIndex.toNat).map fun line =>
      if toLineNumber < line.lineNumber then
        { line with
          lineNumber := line.lineNumber - deleteCount
          prefixSum := line.prefixSum - totalHeightDeleted }
      else line

end LinesDeleted

def Batch.doLinesDeleted (b : Batch) (fromLineNumber toLineNumber : ℤ) : Batch :=
  { b with
    orderedCustomLines :=
      linesDeleted b.orderedCustomLines b.defaultLineHeight fromLineNumber toLineNumber }

/-! ## Inserting lines -/

section LinesInserted

variable (lines : List CustomLine)

def startIndexOfInsertion (fromLineNumber : ℤ) : ℕ :=
  let candidate := binarySearchOverOrderedCustomLinesArray lines fromLineNumber
  if 0 ≤ candidate then firstIndexOnLine lines fromLineNumber candidate.toNat
  else (-(candidate + 1)).toNat

/-- The decorations on both sides of the insertion. -/
def decorationsWithGaps (fromLineNumber : ℤ) : List String :=
  let startIndex := startIndexOfInsertion lines fromLineNumber
  let decorationsImmediatelyAfter := ((lines.drop startIndex).filter
    (·.lineNumber = fromLineNumber)).map (·.decorationId)
  let decorationsImmediatelyBefore := ((lines.take startIndex).filter
    (·.lineNumber = fromLineNumber - 1)).map (·.decorationId)
  (decorationsImmediatelyAfter.filter (· ∈ decorationsImmediatelyBefore)).reverse.dedup.reverse

def linesInserted (defaultLineHeight : ℚ) (fromLineNumber toLineNumber : ℤ) : List CustomLine :=
  let insertCount := toLineNumber - fromLineNumber + 1
  let startIndex := startIndexOfInsertion lines fromLineNumber
  let prefixSumToAdd := insertCount * defaultLineHeight
  lines.take startIndex ++ (lines.drop startIndex).map fun line =>
    { line with
      lineNumber := line.lineNumber + insertCount
      prefixSum := line.prefixSum + prefixSumToAdd }

/-- The range that a decoration has over the inserted lines. -/
def reAdded (fromLineNumber : ℤ) (decorationId : String) : Option CustomLineHeightData :=
  match Batch.customLinesOf lines decorationId with
  | [] => none
  | decoration => some {
      decorationId := decorationId
      startLineNumber := decoration.foldl (fun m l => min m l.lineNumber) fromLineNumber
      endLineNumber := decoration.foldl (fun m l => max m l.lineNumber) fromLineNumber
      lineHeight := decoration.foldl (fun m l => max m l.specialHeight) 0 }

end LinesInserted

def Batch.doLinesInserted (b : Batch) (fromLineNumber toLineNumber : ℤ) : Batch :=
  let withGaps := decorationsWithGaps b.orderedCustomLines fromLineNumber
  let lines := linesInserted b.orderedCustomLines b.defaultLineHeight fromLineNumber toLineNumber
  let toReAdd := withGaps.filterMap (reAdded lines fromLineNumber)
  toReAdd.foldl (fun b dec => b.doInsertOrChangeCustomLineHeight dec.decorationId
    dec.startLineNumber dec.endLineNumber dec.lineHeight) { b with orderedCustomLines := lines }

/-- One turn of the loop of `_commit`. -/
def Batch.apply (b : Batch) : PendingChange → Batch
  | .remove decorationId => b.doRemoveCustomLineHeight decorationId
  | .insertOrChange decorationId startLineNumber endLineNumber lineHeight =>
    b.doInsertOrChangeCustomLineHeight decorationId startLineNumber endLineNumber lineHeight
  | .linesDeleted fromLineNumber toLineNumber =>
    b.flushStagedDecorationChanges.doLinesDeleted fromLineNumber toLineNumber
  | .linesInserted fromLineNumber toLineNumber =>
    b.flushStagedDecorationChanges.doLinesInserted fromLineNumber toLineNumber

/-! ## The manager -/

structure LineHeightsManager where
  orderedCustomLines : List CustomLine
  pendingChanges : List PendingChange
  invalidIndex : Option ℤ
  defaultLineHeight : ℚ
  hasPending : Bool
  deriving DecidableEq, Repr

namespace LineHeightsManager

def push (m : LineHeightsManager) (change : PendingChange) : LineHeightsManager :=
  { m with
    pendingChanges := m.pendingChanges ++ [change]
    hasPending := true }

def removeCustomLineHeight (m : LineHeightsManager) (decorationID : String) :
    LineHeightsManager :=
  m.push (.remove decorationID)

def insertOrChangeCustomLineHeight (m : LineHeightsManager) (decorationId : String)
    (startLineNumber endLineNumber : ℤ) (lineHeight : ℚ) : LineHeightsManager :=
  m.push (.insertOrChange decorationId startLineNumber endLineNumber lineHeight)

def onLinesDeleted (m : LineHeightsManager) (fromLineNumber toLineNumber : ℤ) :
    LineHeightsManager :=
  m.push (.linesDeleted fromLineNumber toLineNumber)

def onLinesInserted (m : LineHeightsManager) (fromLineNumber toLineNumber : ℤ) :
    LineHeightsManager :=
  m.push (.linesInserted fromLineNumber toLineNumber)

/-- The constructor. -/
def new (defaultLineHeight : ℚ) (customLineHeightData : List CustomLineHeightData) :
    LineHeightsManager :=
  customLineHeightData.foldl
    (fun m data => m.insertOrChangeCustomLineHeight data.decorationId data.startLineNumber
      data.endLineNumber data.lineHeight)
    { orderedCustomLines := []
      pendingChanges := []
      invalidIndex := none
      defaultLineHeight := defaultLineHeight
      hasPending := false }

/-- The state in which the changes are applied. -/
def batch (m : LineHeightsManager) : Batch where
  defaultLineHeight := m.defaultLineHeight
  orderedCustomLines := m.orderedCustomLines
  invalidIndex := m.invalidIndex
  stagedInserts := []

def commit (m : LineHeightsManager) : LineHeightsManager :=
  if m.hasPending then
    let b := (m.pendingChanges.foldl Batch.apply m.batch).flushStagedDecorationChanges
    { m with
      orderedCustomLines := b.orderedCustomLines
      pendingChanges := []
      invalidIndex := b.invalidIndex
      hasPending := false }
  else m

/-- `heightForLineNumber` on an array that is up to date. -/
def heightOf (defaultLineHeight : ℚ) (lines : List CustomLine) (lineNumber : ℤ) : ℚ :=
  let searchIndex := binarySearchOverOrderedCustomLinesArray lines lineNumber
  if 0 ≤ searchIndex then
    match lines[searchIndex.toNat]? with
    | some line => line.maximumSpecialHeight
    | none => defaultLineHeight -- not reached
  else defaultLineHeight

/-- `getAccumulatedLineHeightsIncludingLineNumber` on an array that is up to date. -/
def accumulatedHeight (defaultLineHeight : ℚ) (lines : List CustomLine) (lineNumber : ℤ) : ℚ :=
  let searchIndex := binarySearchOverOrderedCustomLinesArray lines lineNumber
  if 0 ≤ searchIndex then
    match lines[searchIndex.toNat]? with
    | some line => line.prefixSum + line.maximumSpecialHeight
    | none => defaultLineHeight * lineNumber -- not reached
  else if searchIndex = -1 then defaultLineHeight * lineNumber
  else
    let modifiedIndex := -(searchIndex + 1)
    match lines[(modifiedIndex - 1).toNat]? with
    | some previous => previous.prefixSum + previous.maximumSpecialHeight +
        defaultLineHeight * (lineNumber - previous.lineNumber)
    | none => defaultLineHeight * lineNumber -- not reached

def heightForLineNumber (m : LineHeightsManager) (lineNumber : ℤ) : LineHeightsManager × ℚ :=
  let m := m.commit
  (m, heightOf m.defaultLineHeight m.orderedCustomLines lineNumber)

def getAccumulatedLineHeightsIncludingLineNumber (m : LineHeightsManager) (lineNumber : ℤ) :
    LineHeightsManager × ℚ :=
  let m := m.commit
  (m, accumulatedHeight m.defaultLineHeight m.orderedCustomLines lineNumber)

end LineHeightsManager

end NexgileIde.ViewLayout
