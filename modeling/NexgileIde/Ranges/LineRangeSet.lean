import NexgileIde.Base.Arrays
import NexgileIde.MergeEditor.LineRangeMapping

/-!
# Sets of line ranges
-/
namespace NexgileIde.Ranges

open Base
open MergeEditor (LineRange)

/-- `intersect`, which is not defined for ranges that do not touch. -/
def intersect (r other : LineRange) : Option LineRange :=
  let startLineNumber := max r.startLineNumber other.startLineNumber
  let endLineNumberExclusive := min r.endLineNumberExclusive other.endLineNumberExclusive
  if h : startLineNumber ≤ endLineNumberExclusive then
    some ⟨startLineNumber, endLineNumberExclusive, h⟩
  else none

/-- `splice` -/
def splice {T : Type} (array : List T) (start deleteCount : ℕ) (items : List T) : List T :=
  array.take start ++ (items ++ array.drop (start + deleteCount))

structure LineRangeSet where
  normalizedRanges : List LineRange
  deriving DecidableEq, Repr

namespace LineRangeSet

def empty : LineRangeSet := ⟨[]⟩

/-- The index of the first range that touches a range or is after it, and the one behind the
last range that touches it or is before it. -/
def joinRange (s : LineRangeSet) (range : LineRange) : ℕ × ℤ :=
  (findFirstIdxMonotonousOrArrLen s.normalizedRanges fun r =>
      r.endLineNumberExclusive ≥ range.startLineNumber,
    findLastIdxMonotonous s.normalizedRanges (fun r =>
      r.startLineNumber ≤ range.endLineNumberExclusive) + 1)

def addRange (s : LineRangeSet) (range : LineRange) : LineRangeSet :=
  if range.length = 0 then s
  else
    let (joinRangeStartIdx, joinRangeEndIdxExclusive) := s.joinRange range
    if joinRangeStartIdx = joinRangeEndIdxExclusive then
      ⟨splice s.normalizedRanges joinRangeStartIdx 0 [range]⟩
    else if joinRangeStartIdx = joinRangeEndIdxExclusive - 1 then
      match s.normalizedRanges[joinRangeStartIdx]? with
      | none => s
      | some joinRange => ⟨s.normalizedRanges.set joinRangeStartIdx (joinRange.join range)⟩
    else
      match s.normalizedRanges[joinRangeStartIdx]?,
        s.normalizedRanges[(joinRangeEndIdxExclusive - 1).toNat]? with
      | some first, some last =>
        ⟨splice s.normalizedRanges joinRangeStartIdx
          (joinRangeEndIdxExclusive - joinRangeStartIdx).toNat [(first.join last).join range]⟩
      | _, _ => s

def contains (s : LineRangeSet) (lineNumber : ℤ) : Bool :=
  let rangeThatStartsBeforeEnd :=
    findLastMonotonous s.normalizedRanges fun r => r.startLineNumber ≤ lineNumber
  rangeThatStartsBeforeEnd.any fun r => r.endLineNumberExclusive > lineNumber

def intersects (s : LineRangeSet) (range : LineRange) : Bool :=
  let rangeThatStartsBeforeEnd :=
    findLastMonotonous s.normalizedRanges fun r => r.startLineNumber < range.endLineNumberExclusive
  rangeThatStartsBeforeEnd.any fun r => r.endLineNumberExclusive > range.startLineNumber

/-- `current` is merged with the next range or pushed. -/
def mergeNext (current : Option LineRange) (next : LineRange) : List LineRange × LineRange :=
  match current with
  | none => ([], next)
  | some current =>
    if h : current.endLineNumberExclusive ≥ next.startLineNumber then
      ([], ⟨current.startLineNumber,
        max current.endLineNumberExclusive next.endLineNumberExclusive, by
          have := current.start_le_end
          omega⟩)
    else ([current], next)

/-- The loop of `getUnion`. -/
def unionLoop (current : Option LineRange) : List LineRange → List LineRange → List LineRange
  | [], [] => current.toList
  | lineRange1 :: ranges1, [] =>
    let (pushed, current) := mergeNext current lineRange1
    pushed ++ unionLoop (some current) ranges1 []
  | [], lineRange2 :: ranges2 =>
    let (pushed, current) := mergeNext current lineRange2
    pushed ++ unionLoop (some current) [] ranges2
  | lineRange1 :: ranges1, lineRange2 :: ranges2 =>
    if lineRange1.startLineNumber < lineRange2.startLineNumber then
      let (pushed, current) := mergeNext current lineRange1
      pushed ++ unionLoop (some current) ranges1 (lineRange2 :: ranges2)
    else
      let (pushed, current) := mergeNext current lineRange2
      pushed ++ unionLoop (some current) (lineRange1 :: ranges1) ranges2
  termination_by ranges1 ranges2 => ranges1.length + ranges2.length

def getUnion (s other : LineRangeSet) : LineRangeSet :=
  if s.normalizedRanges.length = 0 then other
  else if other.normalizedRanges.length = 0 then s
  else ⟨unionLoop none s.normalizedRanges other.normalizedRanges⟩

/-- The loop of `subtractFrom` and what is pushed behind it. -/
def subtractLoop (startLineNumber endLineNumberExclusive : ℤ) : List LineRange → List LineRange
  | [] =>
    if h : startLineNumber < endLineNumberExclusive then
      [⟨startLineNumber, endLineNumberExclusive, h.le⟩]
    else []
  | r :: ranges =>
    let result := subtractLoop r.endLineNumberExclusive endLineNumberExclusive ranges
    if h : r.startLineNumber > startLineNumber then
      ⟨startLineNumber, r.startLineNumber, h.le⟩ :: result
    else result

/-- Subtracts all ranges in this set from a range. -/
def subtractFrom (s : LineRangeSet) (range : LineRange) : LineRangeSet :=
  let (joinRangeStartIdx, joinRangeEndIdxExclusive) := s.joinRange range
  if joinRangeStartIdx = joinRangeEndIdxExclusive then ⟨[range]⟩
  else
    ⟨subtractLoop range.startLineNumber range.endLineNumberExclusive
      ((s.normalizedRanges.take joinRangeEndIdxExclusive.toNat).drop joinRangeStartIdx)⟩

/-- The loop of `getIntersection`. -/
def intersectionLoop : List LineRange → List LineRange → List LineRange
  | r1 :: ranges1, r2 :: ranges2 =>
    let pushed := (intersect r1 r2).toList.filter fun i => !i.isEmpty
    if r1.endLineNumberExclusive < r2.endLineNumberExclusive then
      pushed ++ intersectionLoop ranges1 (r2 :: ranges2)
    else pushed ++ intersectionLoop (r1 :: ranges1) ranges2
  | _, _ => []
  termination_by ranges1 ranges2 => ranges1.length + ranges2.length

def getIntersection (s other : LineRangeSet) : LineRangeSet :=
  ⟨intersectionLoop s.normalizedRanges other.normalizedRanges⟩

def getWithDelta (s : LineRangeSet) (value : ℤ) : LineRangeSet :=
  ⟨s.normalizedRanges.map fun r => r.delta value⟩

end LineRangeSet

end NexgileIde.Ranges
