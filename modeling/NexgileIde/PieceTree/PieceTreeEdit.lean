import NexgileIde.PieceTree.PieceTreeBase

/-!
# Insertion and deletion in the piece tree

An insertion either extends the piece typed last, or links new pieces in on the left,
on the right or in the middle of the piece at its offset. A deletion shortens or splits
the pieces at its ends and unlinks those in between.
-/
namespace NexgileIde.PieceTree

open Library RBTree Text

namespace PieceTreeBase

/-- Extend the piece that ends where the change buffer ends. -/
def appendToNode (t : PieceTreeBase) (x : ℕ) (value : Str) : Option PieceTreeBase := do
  let (t, moved) ← t.adjustCarriageReturnFromNext value x
  let value := if moved then value ++ [LineFeed] else value
  let piece ← t.root.pieceOf x
  let hitCRLF := t.shouldCheckCRLF && startsWithLF value && (← t.pieceEndsWithCR piece)
  let b ← t.buffers[0]?
  let startOffset : ℕ := b.buffer.length
  let lineStarts := (createLineStartsFast value).map (· + startOffset)
  -- the `\r` at the end of the buffer no longer ends a line
  let bufferLineStarts := if hitCRLF then b.lineStarts.dropLast else b.lineStarts
  let b : StringBuffer := ⟨b.buffer ++ value, bufferLineStarts ++ lineStarts.drop 1⟩
  let t := { t with buffers := t.buffers.set 0 b }
  let endIndex : Int := b.lineStarts.length - 1
  let newEnd : BufferCursor := ⟨endIndex, b.buffer.length - lineStartAt b.lineStarts endIndex⟩
  let newLineFeedCnt ← t.getLineFeedCnt 0 piece.start newEnd
  let t := { t with lastChangeBufferPos := newEnd }
  t.replacePiece x
    ⟨piece.bufferIndex, piece.start, newEnd, newLineFeedCnt, piece.length + value.length⟩
    value.length (newLineFeedCnt - piece.lineFeedCnt)

def insertContentToNodeLeft (t : PieceTreeBase) (value : Str) (x : ℕ) :
    Option PieceTreeBase := do
  let piece ← t.root.pieceOf x
  let moved := t.shouldCheckCRLF && endsWithCR value && (← t.pieceStartsWithLF piece)
  let (t, emptied) ← (if moved then do
      let newPiece ← t.withoutLF piece
      return (← t.replacePiece x newPiece (-1) (-1), decide (newPiece.length = 0))
    else return (t, false) : Option (PieceTreeBase × Bool))
  let value := if moved then value ++ [LineFeed] else value
  let (t, newPieces) ← t.createNewPieces value
  let last ← newPieces.getLast?
  let (t, newNode) ← t.insertLeft (some x) last
  let (t, newNode) ← t.insertAllLeft newNode newPieces.dropLast.reverse
  let t ← t.validateCRLFWithPrevNode (some newNode)
  t.deleteNodes (if emptied then [x] else [])

def insertContentToNodeRight (t : PieceTreeBase) (value : Str) (x : ℕ) :
    Option PieceTreeBase := do
  let (t, moved) ← t.adjustCarriageReturnFromNext value x
  let value := if moved then value ++ [LineFeed] else value
  let (t, newPieces) ← t.createNewPieces value
  let first ← newPieces.head?
  let (t, newNode) ← t.insertRight (some x) first
  let t ← t.insertAllRight newNode newPieces.tail
  t.validateCRLFWithPrevNode (some newNode)

/-- The piece behind an insertion into a node. If a `\n` would follow a `\r` at the end of the
text, it moves into the text. -/
def rightOfInsert (t : PieceTreeBase) (piece : Piece) (remainder : Int) (insertPos : BufferCursor)
    (value : Str) : Option (Piece × Str) := do
  let endOffset ← t.offsetInBuffer piece.bufferIndex piece.stop
  let insertOffset ← t.offsetInBuffer piece.bufferIndex insertPos
  let newRightPiece : Piece := ⟨piece.bufferIndex, insertPos, piece.stop,
    ← t.getLineFeedCnt piece.bufferIndex insertPos piece.stop, endOffset - insertOffset⟩
  let headOfRight ← t.nodeCharCodeAt piece remainder
  if t.shouldCheckCRLF && endsWithCR value && decide (headOfRight = some LineFeed) then
    return (← t.withoutLF newRightPiece, value ++ [LineFeed])
  else return (newRightPiece, value)

/-- The node is reused for the content before the insertion. If it would end in `\r` before a
`\n` at the start of the text, the `\r` moves into the text. The result says also whether
the node is empty then. -/
def leftOfInsert (t : PieceTreeBase) (x : ℕ) (remainder : Int) (insertPos : BufferCursor)
    (value : Str) : Option (PieceTreeBase × Str × Bool) := do
  let piece ← t.root.pieceOf x
  let tailOfLeft ← t.nodeCharCodeAt piece (remainder - 1)
  if t.shouldCheckCRLF && startsWithLF value && decide (tailOfLeft = some CarriageReturn) then
    let previousPos ← t.positionInBuffer piece (remainder - 1)
    let t ← t.deleteNodeTail x previousPos
    return (t, CarriageReturn :: value, decide ((← t.root.pieceOf x).length = 0))
  else return (← t.deleteNodeTail x insertPos, value, false)

/-- Insert into the middle of a node. -/
def insertContentToNodeMiddle (t : PieceTreeBase) (value : Str) (x : ℕ) (remainder : Int)
    (insertPos : BufferCursor) : Option PieceTreeBase := do
  let piece ← t.root.pieceOf x
  let (newRightPiece, value) ← t.rightOfInsert piece remainder insertPos value
  let (t, value, emptied) ← t.leftOfInsert x remainder insertPos value
  let (t, newPieces) ← t.createNewPieces value
  let t ← (if newRightPiece.length > 0 then do
      let (t, _) ← t.insertRight (some x) newRightPiece
      return t
    else some t : Option PieceTreeBase)
  let t ← t.insertAllRight x newPieces
  t.deleteNodes (if emptied then [x] else [])

/-- `insert(offset, value, eolNormalized)` -/
def insert (t : PieceTreeBase) (offset : Int) (value : Str) (eolNormalized : Bool) :
    Option PieceTreeBase := do
  let t := { t with eolNormalized := t.eolNormalized && eolNormalized, lastVisitedLine := ⟨0, []⟩ }
  if t.root.isNil then
    let (t, pieces) ← t.createNewPieces value
    let (t, x) ← t.insertLeft none (← pieces.head?)
    return (← t.insertAllRight x pieces.tail).computeBufferMetadata
  let (pos, t) ← t.nodeAt offset
  let piece ← t.root.pieceOf pos.node
  let insertPos ← t.positionInBuffer piece pos.remainder
  if piece.bufferIndex = 0 ∧ piece.stop.line = t.lastChangeBufferPos.line ∧
      piece.stop.column = t.lastChangeBufferPos.column ∧
      pos.nodeStartOffset + piece.length = offset ∧ value.length < AverageBufferSize then
    return (← t.appendToNode pos.node value).computeBufferMetadata
  if pos.nodeStartOffset = offset then
    let t ← t.insertContentToNodeLeft value pos.node
    return (t.cacheValidate offset).computeBufferMetadata
  else if pos.nodeStartOffset + piece.length > offset then
    let t ← t.insertContentToNodeMiddle value pos.node pos.remainder insertPos
    return t.computeBufferMetadata
  else
    return (← t.insertContentToNodeRight value pos.node).computeBufferMetadata

/-- Delete the content between two places of a node, which is split. -/
def shrinkNode (t : PieceTreeBase) (x : ℕ) (start stop : BufferCursor) :
    Option PieceTreeBase := do
  let piece ← t.root.pieceOf x
  let newLineFeedCnt ← t.getLineFeedCnt piece.bufferIndex piece.start start
  let startOffset ← t.offsetInBuffer piece.bufferIndex start
  let originalStartOffset ← t.offsetInBuffer piece.bufferIndex piece.start
  let newLength := startOffset - originalStartOffset
  let t ← t.replacePiece x ⟨piece.bufferIndex, piece.start, start, newLineFeedCnt, newLength⟩
    (newLength - piece.length) (newLineFeedCnt - piece.lineFeedCnt)
  let rightLineFeedCnt ← t.getLineFeedCnt piece.bufferIndex stop piece.stop
  let originalEndOffset ← t.offsetInBuffer piece.bufferIndex piece.stop
  let stopOffset ← t.offsetInBuffer piece.bufferIndex stop
  let (t, newNode) ← t.insertRight (some x)
    ⟨piece.bufferIndex, stop, piece.stop, rightLineFeedCnt, originalEndOffset - stopOffset⟩
  t.validateCRLFWithPrevNode (some newNode)

/-- The nodes from `x` on up to `last`, which is excluded; `fuel` bounds their number. -/
def nodesUpTo (t : PieceTreeBase) (last : ℕ) : ℕ → Option ℕ → Option (List ℕ)
  | _, none => some []
  | 0, some _ => none
  | fuel + 1, some x =>
    if x = last then some [] else do
      return x :: (← nodesUpTo t last fuel (← t.root.next (some x)))

/-- Delete within one node. -/
def deleteInNode (t : PieceTreeBase) (offset cnt : Int) (startPos endPos : NodePosition) :
    Option PieceTreeBase := do
  let x := startPos.node
  let piece ← t.root.pieceOf x
  let startSplit ← t.positionInBuffer piece startPos.remainder
  let endSplit ← t.positionInBuffer piece endPos.remainder
  if startPos.nodeStartOffset = offset then
    if cnt = piece.length then
      let next ← t.root.next (some x)
      let t ← t.deleteNode x
      return (← t.validateCRLFWithPrevNode next).computeBufferMetadata
    let t ← t.deleteNodeHead x endSplit
    let t := t.cacheValidate offset
    return (← t.validateCRLFWithPrevNode (some x)).computeBufferMetadata
  if startPos.nodeStartOffset + piece.length = offset + cnt then
    let t ← t.deleteNodeTail x startSplit
    return (← t.validateCRLFWithNextNode (some x)).computeBufferMetadata
  return (← t.shrinkNode x startSplit endSplit).computeBufferMetadata

/-- Delete from one node up to another. -/
def deleteAcross (t : PieceTreeBase) (offset : Int) (startPos endPos : NodePosition) :
    Option PieceTreeBase := do
  let startNode := startPos.node
  let endNode := endPos.node
  let startSplit ← t.positionInBuffer (← t.root.pieceOf startNode) startPos.remainder
  let t ← t.deleteNodeTail startNode startSplit
  let t := t.cacheValidate offset
  let startEmpty := (← t.root.pieceOf startNode).length = 0
  let endSplit ← t.positionInBuffer (← t.root.pieceOf endNode) endPos.remainder
  let t ← t.deleteNodeHead endNode endSplit
  let endEmpty := (← t.root.pieceOf endNode).length = 0
  let secondNode ← t.root.next (some startNode)
  let between ← t.nodesUpTo endNode t.root.toList.length secondNode
  let prev ← (if startEmpty then t.root.prev (some startNode) else some (some startNode))
  let t ← t.deleteNodes ((if startEmpty then [startNode] else []) ++
    ((if endEmpty then [endNode] else []) ++ between))
  return (← t.validateCRLFWithNextNode prev).computeBufferMetadata

def delete (t : PieceTreeBase) (offset cnt : Int) : Option PieceTreeBase := do
  let t := { t with lastVisitedLine := ⟨0, []⟩ }
  if cnt ≤ 0 ∨ t.root.isNil then return t
  let (startPos, t) ← t.nodeAt offset
  let (endPos, t) ← t.nodeAt (offset + cnt)
  if startPos.node = endPos.node then t.deleteInNode offset cnt startPos endPos
  else t.deleteAcross offset startPos endPos

/-- The chunks as pieces, each to the right of the one before. The buffer index counts
all chunks, though empty chunks get no buffer. -/
def createLoop (t : PieceTreeBase) (lastNode : Option ℕ) (i : ℕ) :
    List StringBuffer → Option PieceTreeBase
  | [] => some t
  | chunk :: chunks =>
    if chunk.buffer.length > 0 then do
      let piece := wholePiece (i + 1) chunk
      let t := { t with buffers := t.buffers ++ [chunk] }
      let (t, x) ← t.insertRight lastNode piece
      createLoop t (some x) (i + 1) chunks
    else createLoop t lastNode (i + 1) chunks

/-- `new PieceTreeBase(chunks, eol, eolNormalized)` -/
def create (chunks : List StringBuffer) (eol : EndOfLine) (eolNormalized : Bool) :
    Option PieceTreeBase := do
  let t : PieceTreeBase := {
    root := nil, buffers := [⟨[], [0]⟩], lineCnt := 1, length := 0, eol := eol,
    eolNormalized := eolNormalized, lastChangeBufferPos := ⟨0, 0⟩, searchCache := [],
    lastVisitedLine := ⟨0, []⟩, nextId := 0 }
  return (← t.createLoop none 0 chunks).computeBufferMetadata

end PieceTreeBase
end NexgileIde.PieceTree
