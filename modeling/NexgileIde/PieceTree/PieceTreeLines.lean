import NexgileIde.PieceTree.PieceTreeEdit

/-!
# Lines and ranges of the piece tree

Lookups by line number descend by the stored line feed counts, then walk on from node to
node until the line ends. The last line read and the last node found are remembered.
-/
namespace NexgileIde.PieceTree

open Library RBTree Text

namespace PieceTreeBase

/-- The nodes behind a node in order, by `x = x.next()`; `fuel` bounds their number. -/
def nodesAfter (t : PieceTreeBase) : ℕ → Option ℕ → Option (List ℕ)
  | 0, _ => some []
  | fuel + 1, x => do
    match ← t.root.next x with
    | none => return []
    | some y => return y :: (← nodesAfter t fuel (some y))

/-- A range of line numbers and columns. -/
structure Range where
  startLineNumber : Int
  startColumn : Int
  endLineNumber : Int
  endColumn : Int
  deriving DecidableEq, Repr

/-- The code unit at a position; the head of the next node if it is at a node's end. -/
def charCodeOf (t : PieceTreeBase) (pos : NodePosition) : Option (Option CodeUnit) := do
  let piece ← t.root.pieceOf pos.node
  if pos.remainder = piece.length then
    let matchingNode ← t.root.next (some pos.node)
    let piece ← t.root.pieceOf (← matchingNode)
    let b ← t.buffers[piece.bufferIndex]?
    return charCodeAt b.buffer (← t.offsetInBuffer piece.bufferIndex piece.start)
  else
    let b ← t.buffers[piece.bufferIndex]?
    let startOffset ← t.offsetInBuffer piece.bufferIndex piece.start
    return charCodeAt b.buffer (startOffset + pos.remainder)

/-- `getCharCode(offset)` and the tree with its cache afterwards. -/
def getCharCode (t : PieceTreeBase) (offset : Int) :
    Option (Option CodeUnit) × PieceTreeBase :=
  match t.nodeAt offset with
  | none => (none, t)
  | some (pos, t) => (t.charCodeOf pos, t)

/-- The walk of `getLineRawContent` to the node in which the line ends. -/
def rawContentWalk (t : PieceTreeBase) (endOffset : Int) : List ℕ → Option Str
  | [] => some []
  | x :: xs => do
    let piece ← t.root.pieceOf x
    let b ← t.buffers[piece.bufferIndex]?
    let startOffset ← t.offsetInBuffer piece.bufferIndex piece.start
    if piece.lineFeedCnt > 0 then
      let accumulatedValue ← t.getAccumulatedValue piece 0
      return substring b.buffer startOffset (startOffset + accumulatedValue - endOffset)
    else
      let rest ← rawContentWalk t endOffset xs
      return substring b.buffer startOffset (startOffset + piece.length) ++ rest

/-- What the descent of `getLineRawContent` ends with: the whole line and the node to
cache, or the start of the line and the node to go on from. -/
inductive RawLine where
  | whole (content : Str) (entry : CacheEntry)
  | part (content : Str) (x : Option ℕ)

/-- The descent of `getLineRawContent`. -/
def rawContentLoop (t : PieceTreeBase) (originalLineNumber endOffset : Int) :
    Nodes → Int → Int → Option RawLine
  | nil, _, _ => some (.part [] none)
  | node _ l a r, lineNumber, nodeStartOffset =>
    if !l.isNil && a.lfLeft ≥ lineNumber - 1 then
      rawContentLoop t originalLineNumber endOffset l lineNumber nodeStartOffset
    else if a.lfLeft + a.piece.lineFeedCnt > lineNumber - 1 then do
      let prevAccumulatedValue ← t.getAccumulatedValue a.piece (lineNumber - a.lfLeft - 2)
      let accumulatedValue ← t.getAccumulatedValue a.piece (lineNumber - a.lfLeft - 1)
      let b ← t.buffers[a.piece.bufferIndex]?
      let startOffset ← t.offsetInBuffer a.piece.bufferIndex a.piece.start
      return .whole
        (substring b.buffer (startOffset + prevAccumulatedValue)
          (startOffset + accumulatedValue - endOffset))
        ⟨a.id, nodeStartOffset + a.sizeLeft,
          some (originalLineNumber - (lineNumber - 1 - a.lfLeft))⟩
    else if a.lfLeft + a.piece.lineFeedCnt = lineNumber - 1 then do
      let prevAccumulatedValue ← t.getAccumulatedValue a.piece (lineNumber - a.lfLeft - 2)
      let b ← t.buffers[a.piece.bufferIndex]?
      let startOffset ← t.offsetInBuffer a.piece.bufferIndex a.piece.start
      return .part (substring b.buffer (startOffset + prevAccumulatedValue)
        (startOffset + a.piece.length)) (some a.id)
    else rawContentLoop t originalLineNumber endOffset r
      (lineNumber - (a.lfLeft + a.piece.lineFeedCnt))
      (nodeStartOffset + (a.sizeLeft + a.piece.length))

def getLineRawContent (t : PieceTreeBase) (lineNumber endOffset : Int) :
    Option (Str × PieceTreeBase) := do
  match ← t.cacheGet2 lineNumber with
  | some (e, nodeStartLineNumber) =>
    let piece ← t.root.pieceOf e.node
    let prevAccumulatedValue ← t.getAccumulatedValue piece (lineNumber - nodeStartLineNumber - 1)
    let b ← t.buffers[piece.bufferIndex]?
    let startOffset ← t.offsetInBuffer piece.bufferIndex piece.start
    if nodeStartLineNumber + piece.lineFeedCnt = lineNumber then
      let rest ← t.rawContentWalk endOffset
        (← t.nodesAfter t.root.toList.length (some e.node))
      return (substring b.buffer (startOffset + prevAccumulatedValue)
        (startOffset + piece.length) ++ rest, t)
    else
      let accumulatedValue ← t.getAccumulatedValue piece (lineNumber - nodeStartLineNumber)
      return (substring b.buffer (startOffset + prevAccumulatedValue)
        (startOffset + accumulatedValue - endOffset), t)
  | none =>
    match ← t.rawContentLoop lineNumber endOffset t.root lineNumber 0 with
    | .whole content entry => return (content, t.cacheSet entry)
    | .part content x =>
      let rest ← t.rawContentWalk endOffset (← t.nodesAfter t.root.toList.length x)
      return (content ++ rest, t)

/-- `getLineContent(lineNumber)` and the tree with its caches afterwards. -/
def getLineContent (t : PieceTreeBase) (lineNumber : Int) : Option Str × PieceTreeBase :=
  if t.lastVisitedLine.lineNumber = lineNumber then (some t.lastVisitedLine.value, t)
  else
    let t := { t with lastVisitedLine := { t.lastVisitedLine with lineNumber := lineNumber } }
    let endOffset : Int :=
      if lineNumber ≠ t.lineCnt ∧ t.eolNormalized then t.eol.toStr.length else 0
    match t.getLineRawContent lineNumber endOffset with
    | none => (none, t)
    | some (raw, t) =>
      let value := if lineNumber = t.lineCnt ∨ t.eolNormalized then raw else stripLineEnd raw
      (some value, { t with lastVisitedLine := ⟨lineNumber, value⟩ })

/-! ### Runs -/

inductive Op where
  | insert (offset : Int) (value : Str)
  | delete (offset cnt : Int)
  | getLineContent (lineNumber : Int)
  | getOffsetAt (lineNumber column : Int)
  | getPositionAt (offset : Int)
  | getCharCode (offset : Int)
  | getValueInRange (range : Range)

/-- One operation; a lookup that throws leaves its caller with the tree. -/
def step (t : PieceTreeBase) : Op → Option PieceTreeBase
  | .insert offset value => t.insert offset value false
  | .delete offset cnt => t.delete offset cnt
  | .getLineContent lineNumber => some (t.getLineContent lineNumber).2
  | .getOffsetAt _ _ => some t
  | .getPositionAt _ => some t
  | .getCharCode offset => some (t.getCharCode offset).2
  | .getValueInRange _ => some t

def run (t : PieceTreeBase) (ops : List Op) : Option PieceTreeBase := ops.foldlM step t

end PieceTreeBase
end NexgileIde.PieceTree
