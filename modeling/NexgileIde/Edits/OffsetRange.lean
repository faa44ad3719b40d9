import NexgileIde.Text.CodeUnits

/-!
# Offset ranges

A range of offsets can only be built with its end at or after its start; the
constructor that takes two arbitrary numbers fails otherwise.
-/
namespace NexgileIde.Edits

open Text

/-- The failures of the edit operations, each with the values its message prints. -/
inductive BugIndicatingError
  /-- `Invalid range: [start, endExclusive)` -/
  | invalidRange (start endExclusive : Int)
  /-- `Edits must be disjoint and sorted. Found [start, endExclusive) after lastEndEx` -/
  | notDisjointAndSorted (start endExclusive lastEndEx : Int)
  /-- `Invalid join: [start, endExclusive) and [otherStart, otherEndExclusive)` -/
  | invalidJoin (start endExclusive otherStart otherEndExclusive : Int)
  /-- `Invariant violation: lastIntersecting is undefined` -/
  | lastIntersectingUndefined
  deriving DecidableEq, Repr

structure OffsetRange where
  start : Int
  endExclusive : Int
  le : start ≤ endExclusive
  deriving DecidableEq, Repr

namespace OffsetRange

/-- `new OffsetRange(start, endExclusive)` -/
def create (start endExclusive : Int) : Except BugIndicatingError OffsetRange :=
  if h : start ≤ endExclusive then .ok ⟨start, endExclusive, h⟩
  else .error (.invalidRange start endExclusive)

theorem create_of_le {start endExclusive : Int} (h : start ≤ endExclusive) :
    create start endExclusive = .ok ⟨start, endExclusive, h⟩ := dif_pos h

def ofStartAndLength (start length : Int) : Except BugIndicatingError OffsetRange :=
  create start (start + length)

def emptyAt (offset : Int) : OffsetRange := ⟨offset, offset, le_rfl⟩

def length (r : OffsetRange) : Int := r.endExclusive - r.start

def isEmpty (r : OffsetRange) : Bool := r.start = r.endExclusive

def delta (r : OffsetRange) (offset : Int) : OffsetRange :=
  ⟨r.start + offset, r.endExclusive + offset, by have := r.le; omega⟩

@[simp] theorem emptyAt_start (offset : Int) : (emptyAt offset).start = offset := rfl
@[simp] theorem emptyAt_endExclusive (offset : Int) : (emptyAt offset).endExclusive = offset := rfl
@[simp] theorem delta_start (r : OffsetRange) (d : Int) : (r.delta d).start = r.start + d := rfl
@[simp] theorem delta_endExclusive (r : OffsetRange) (d : Int) :
    (r.delta d).endExclusive = r.endExclusive + d := rfl

/-- `[5, 10)` joined with `[10, 15)` is `[5, 15)`; ranges that do not touch are rejected. -/
def joinRightTouching (r range : OffsetRange) : Except BugIndicatingError OffsetRange :=
  if r.endExclusive = range.start then create r.start range.endExclusive
  else .error (.invalidJoin r.start r.endExclusive range.start range.endExclusive)

theorem joinRightTouching_of_eq {r range : OffsetRange} (h : r.endExclusive = range.start) :
    r.joinRightTouching range =
      .ok ⟨r.start, range.endExclusive, by have := r.le; have := range.le; omega⟩ := by
  rw [joinRightTouching, if_pos h, create_of_le]

def substring (r : OffsetRange) (str : List α) : List α :=
  Text.substring str r.start r.endExclusive

end OffsetRange
end NexgileIde.Edits
