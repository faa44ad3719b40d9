import NexgileIde.PieceTree.RbTreeBase
import NexgileIde.Text.LineBreaks

/-!
# The piece tree

The text of an editor as a sequence of pieces of buffers. Buffer 0 grows by the text
that is typed, the others are never written again. A step that would throw in the
source (an undefined buffer, the piece of the sentinel) yields `none`.
-/
namespace NexgileIde.PieceTree

open Library RBTree Text

def AverageBufferSize : ℕ := 65535

inductive EndOfLine where
  | crlf
  | lf
  deriving DecidableEq, Repr

def EndOfLine.toStr : EndOfLine → Str
  | .crlf => [CarriageReturn, LineFeed]
  | .lf => [LineFeed]

structure StringBuffer where
  buffer : Str
  lineStarts : List ℕ
  deriving DecidableEq, Repr

/-- `new StringBuffer(text, createLineStartsFast(text))` -/
def StringBuffer.ofStr (text : Str) : StringBuffer := ⟨text, createLineStartsFast text⟩

structure CacheEntry where
  node : ℕ
  nodeStartOffset : Int
  nodeStartLineNumber : Option Int
  deriving DecidableEq, Repr

structure NodePosition where
  node : ℕ
  remainder : Int
  nodeStartOffset : Int
  deriving DecidableEq, Repr

structure VisitedLine where
  lineNumber : Int
  value : Str
  deriving DecidableEq, Repr

/-- `nextId` supplies the identities of new nodes. -/
structure PieceTreeBase where
  root : Nodes
  buffers : List StringBuffer
  lineCnt : Int
  length : Int
  eol : EndOfLine
  eolNormalized : Bool
  lastChangeBufferPos : BufferCursor
  searchCache : List CacheEntry
  lastVisitedLine : VisitedLine
  nextId : ℕ

/-- `str.charCodeAt(i)`; `none` is `NaN`. -/
def charCodeAt (str : Str) (i : Int) : Option CodeUnit :=
  if i < 0 then none else str[i.toNat]?

/-- `lineStarts[line]`; the source never reads behind the last line. -/
def lineStartAt (lineStarts : List ℕ) (line : Int) : Int := (lineStarts[line.toNat]?.getD 0 : ℕ)

def startsWithLF (str : Str) : Bool := charCodeAt str 0 = some LineFeed

def endsWithCR (str : Str) : Bool := charCodeAt str (str.length - 1) = some CarriageReturn

namespace PieceTreeBase

/-! ### Positions in buffers -/

def offsetInBuffer (t : PieceTreeBase) (bufferIndex : ℕ) (cursor : BufferCursor) : Option Int := do
  let b ← t.buffers[bufferIndex]?
  return lineStartAt b.lineStarts cursor.line + cursor.column

/-- The loop of `positionInBuffer`: the line and its start, `last` being the latest seen. -/
def searchLine (lineStarts : List ℕ) (offset low high : Int) (last : Int × Int) : Int × Int :=
  if low ≤ high then
    let mid := low + (high - low) / 2
    let midStart := lineStartAt lineStarts mid
    if mid = high then (mid, midStart)
    else
      let midStop := lineStartAt lineStarts (mid + 1)
      if offset < midStart then searchLine lineStarts offset low (mid - 1) (mid, midStart)
      else if offset ≥ midStop then searchLine lineStarts offset (mid + 1) high (mid, midStart)
      else (mid, midStart)
  else last
termination_by (high + 1 - low).toNat

def positionInBuffer (t : PieceTreeBase) (piece : Piece) (remainder : Int) :
    Option BufferCursor := do
  let b ← t.buffers[piece.bufferIndex]?
  let startOffset := lineStartAt b.lineStarts piece.start.line + piece.start.column
  let offset := startOffset + remainder
  let (mid, midStart) := searchLine b.lineStarts offset piece.start.line piece.stop.line (0, 0)
  return ⟨mid, offset - midStart⟩

def getLineFeedCnt (t : PieceTreeBase) (bufferIndex : ℕ) (start stop : BufferCursor) :
    Option Int := do
  if stop.column = 0 then return stop.line - start.line
  let b ← t.buffers[bufferIndex]?
  if stop.line = b.lineStarts.length - 1 then return stop.line - start.line
  let nextLineStartOffset := lineStartAt b.lineStarts (stop.line + 1)
  let endOffset := lineStartAt b.lineStarts stop.line + stop.column
  if nextLineStartOffset > endOffset + 1 then return stop.line - start.line
  -- the character at `endOffset` ends a line: is it the `\n` of a `\r\n`?
  if charCodeAt b.buffer (endOffset - 1) = some CarriageReturn then
    return stop.line - start.line + 1
  else return stop.line - start.line

def getAccumulatedValue (t : PieceTreeBase) (piece : Piece) (index : Int) : Option Int := do
  if index < 0 then return 0
  let b ← t.buffers[piece.bufferIndex]?
  let expectedLineStartIndex := piece.start.line + index + 1
  if expectedLineStartIndex > piece.stop.line then
    return lineStartAt b.lineStarts piece.stop.line + piece.stop.column -
      lineStartAt b.lineStarts piece.start.line - piece.start.column
  else
    return lineStartAt b.lineStarts expectedLineStartIndex -
      lineStartAt b.lineStarts piece.start.line - piece.start.column

def getPieceContent (t : PieceTreeBase) (piece : Piece) : Option Str := do
  let b ← t.buffers[piece.bufferIndex]?
  let startOffset ← t.offsetInBuffer piece.bufferIndex piece.start
  let endOffset ← t.offsetInBuffer piece.bufferIndex piece.stop
  return substring b.buffer startOffset endOffset

def nodeCharCodeAt (t : PieceTreeBase) (piece : Piece) (offset : Int) :
    Option (Option CodeUnit) := do
  if piece.lineFeedCnt < 1 then return none
  let b ← t.buffers[piece.bufferIndex]?
  let start ← t.offsetInBuffer piece.bufferIndex piece.start
  return charCodeAt b.buffer (start + offset)

/-! ### `\r\n` across pieces -/

def shouldCheckCRLF (t : PieceTreeBase) : Bool := !(t.eolNormalized && t.eol = .lf)

def pieceStartsWithLF (t : PieceTreeBase) (piece : Piece) : Option Bool := do
  if piece.lineFeedCnt = 0 then return false
  let b ← t.buffers[piece.bufferIndex]?
  let line := piece.start.line
  let startOffset := lineStartAt b.lineStarts line + piece.start.column
  if line = b.lineStarts.length - 1 then return false
  if lineStartAt b.lineStarts (line + 1) > startOffset + 1 then return false
  return charCodeAt b.buffer startOffset = some LineFeed

def pieceEndsWithCR (t : PieceTreeBase) (piece : Piece) : Option Bool := do
  if piece.lineFeedCnt = 0 then return false
  return (← t.nodeCharCodeAt piece (piece.length - 1)) = some CarriageReturn

/-- `startWithLF(node)`; the sentinel does not start with `\n`. -/
def startWithLF (t : PieceTreeBase) : Option ℕ → Option Bool
  | none => some false
  | some x => do t.pieceStartsWithLF (← t.root.pieceOf x)

def endWithCR (t : PieceTreeBase) : Option ℕ → Option Bool
  | none => some false
  | some x => do t.pieceEndsWithCR (← t.root.pieceOf x)

/-! ### Node operations -/

/-- `node.piece = p` followed by `updateTreeMetadata(this, node, delta, lfDelta)`. -/
def replacePiece (t : PieceTreeBase) (node : ℕ) (p : Piece) (delta lfDelta : Int) :
    Option PieceTreeBase := do
  let root ← t.root.setPiece node p
  return { t with root := ← updateTreeMetadata root node delta lfDelta }

/-- `this.rbInsertRight(node, p)` and the new node. -/
def insertRight (t : PieceTreeBase) (node : Option ℕ) (p : Piece) :
    Option (PieceTreeBase × ℕ) := do
  let root ← rbInsertRight t.root node ⟨t.nextId, p, 0, 0⟩
  return ({ t with root := root, nextId := t.nextId + 1 }, t.nextId)

def insertLeft (t : PieceTreeBase) (node : Option ℕ) (p : Piece) :
    Option (PieceTreeBase × ℕ) := do
  let root ← rbInsertLeft t.root node ⟨t.nextId, p, 0, 0⟩
  return ({ t with root := root, nextId := t.nextId + 1 }, t.nextId)

def deleteNode (t : PieceTreeBase) (node : ℕ) : Option PieceTreeBase := do
  return { t with root := ← rbDelete t.root node }

def deleteNodes (t : PieceTreeBase) (nodes : List ℕ) : Option PieceTreeBase :=
  nodes.foldlM deleteNode t

def insertAllRight (t : PieceTreeBase) (node : ℕ) : List Piece → Option PieceTreeBase
  | [] => some t
  | p :: ps => do
    let (t, node) ← t.insertRight (some node) p
    t.insertAllRight node ps

/-- Insert the pieces from the last to the first; the node of the first is returned. -/
def insertAllLeft (t : PieceTreeBase) (node : ℕ) : List Piece → Option (PieceTreeBase × ℕ)
  | [] => some (t, node)
  | p :: ps => do
    let (t, node) ← t.insertLeft (some node) p
    t.insertAllLeft node ps

def deleteNodeTail (t : PieceTreeBase) (node : ℕ) (pos : BufferCursor) :
    Option PieceTreeBase := do
  let piece ← t.root.pieceOf node
  let originalEndOffset ← t.offsetInBuffer piece.bufferIndex piece.stop
  let newEndOffset ← t.offsetInBuffer piece.bufferIndex pos
  let newLineFeedCnt ← t.getLineFeedCnt piece.bufferIndex piece.start pos
  let sizeDelta := newEndOffset - originalEndOffset
  t.replacePiece node
    ⟨piece.bufferIndex, piece.start, pos, newLineFeedCnt, piece.length + sizeDelta⟩
    sizeDelta (newLineFeedCnt - piece.lineFeedCnt)

def deleteNodeHead (t : PieceTreeBase) (node : ℕ) (pos : BufferCursor) :
    Option PieceTreeBase := do
  let piece ← t.root.pieceOf node
  let originalStartOffset ← t.offsetInBuffer piece.bufferIndex piece.start
  let newLineFeedCnt ← t.getLineFeedCnt piece.bufferIndex pos piece.stop
  let newStartOffset ← t.offsetInBuffer piece.bufferIndex pos
  let sizeDelta := originalStartOffset - newStartOffset
  t.replacePiece node
    ⟨piece.bufferIndex, pos, piece.stop, newLineFeedCnt, piece.length + sizeDelta⟩
    sizeDelta (newLineFeedCnt - piece.lineFeedCnt)

/-- The piece without the `\n` it starts with. -/
def withoutLF (t : PieceTreeBase) (piece : Piece) : Option Piece := do
  let newStart : BufferCursor := ⟨piece.start.line + 1, 0⟩
  let newLineFeedCnt ← t.getLineFeedCnt piece.bufferIndex newStart piece.stop
  return ⟨piece.bufferIndex, newStart, piece.stop, newLineFeedCnt, piece.length - 1⟩

/-! ### New pieces -/

def isHighSurrogate (chr : CodeUnit) : Bool := 0xD800 ≤ chr ∧ chr ≤ 0xDBFF

/-- Where a large text is cut: a `\r` or a high surrogate at the end is kept back. -/
def cutLarge (text : Str) : ℕ :=
  if (text[AverageBufferSize - 1]?).any fun lastChar =>
    lastChar = CarriageReturn || isHighSurrogate lastChar then AverageBufferSize - 1
  else AverageBufferSize

theorem cutLarge_pos (text : Str) : 0 < cutLarge text := by
  unfold cutLarge AverageBufferSize
  split_ifs <;> omega

theorem cutLarge_le (text : Str) : cutLarge text ≤ AverageBufferSize := by
  unfold cutLarge AverageBufferSize
  split_ifs <;> omega

/-- The texts of the pieces a large text is split into. -/
def splitLarge (text : Str) : List Str :=
  if text.length > AverageBufferSize then
    text.take (cutLarge text) :: splitLarge (text.drop (cutLarge text))
  else [text]
termination_by text.length
decreasing_by
  have := cutLarge_pos text
  simp only [List.length_drop]
  omega

/-- The piece for the whole of a buffer. -/
def wholePiece (bufferIndex : ℕ) (b : StringBuffer) : Piece where
  bufferIndex := bufferIndex
  start := ⟨0, 0⟩
  stop := ⟨b.lineStarts.length - 1, b.buffer.length - lineStartAt b.lineStarts (b.lineStarts.length - 1)⟩
  lineFeedCnt := b.lineStarts.length - 1
  length := b.buffer.length

/-- A new buffer for each of the texts. -/
def pushBuffers (t : PieceTreeBase) : List Str → PieceTreeBase × List Piece
  | [] => (t, [])
  | text :: texts =>
    let b := StringBuffer.ofStr text
    let piece := wholePiece t.buffers.length b
    let (t, pieces) := pushBuffers { t with buffers := t.buffers ++ [b] } texts
    (t, piece :: pieces)

def createNewPieces (t : PieceTreeBase) (text : Str) : Option (PieceTreeBase × List Piece) := do
  if text.length > AverageBufferSize then return t.pushBuffers (splitLarge text)
  let b ← t.buffers[0]?
  let startOffset : ℕ := b.buffer.length
  let lineStarts := createLineStartsFast text
  let atBreak := lineStartAt b.lineStarts (b.lineStarts.length - 1) = startOffset ∧
    startOffset ≠ 0 ∧ startsWithLF text ∧ endsWithCR b.buffer
  -- a filler keeps the `\n` apart from the `\r` at the end of the buffer
  let start : BufferCursor := if atBreak then
    ⟨t.lastChangeBufferPos.line, t.lastChangeBufferPos.column + 1⟩ else t.lastChangeBufferPos
  let filler : Str := if atBreak then [95] else []
  let shift : ℕ := startOffset + filler.length
  let b : StringBuffer := ⟨b.buffer ++ (filler ++ text),
    b.lineStarts ++ (lineStarts.drop 1).map (· + shift)⟩
  let t := { t with buffers := t.buffers.set 0 b }
  let endOffset := b.buffer.length
  let endIndex : Int := b.lineStarts.length - 1
  let endPos : BufferCursor := ⟨endIndex, endOffset - lineStartAt b.lineStarts endIndex⟩
  let lineFeedCnt ← t.getLineFeedCnt 0 start endPos
  return ({ t with lastChangeBufferPos := endPos },
    [⟨0, start, endPos, lineFeedCnt, endOffset - shift⟩])

/-! ### Repairing `\r\n` -/

def fixCRLF (t : PieceTreeBase) (prev next : ℕ) : Option PieceTreeBase := do
  let prevPiece ← t.root.pieceOf prev
  let b ← t.buffers[prevPiece.bufferIndex]?
  let newEnd : BufferCursor :=
    if prevPiece.stop.column = 0 then
      ⟨prevPiece.stop.line - 1, lineStartAt b.lineStarts prevPiece.stop.line -
        lineStartAt b.lineStarts (prevPiece.stop.line - 1) - 1⟩
    else ⟨prevPiece.stop.line, prevPiece.stop.column - 1⟩
  let newPrev : Piece := ⟨prevPiece.bufferIndex, prevPiece.start, newEnd,
    prevPiece.lineFeedCnt - 1, prevPiece.length - 1⟩
  let t ← t.replacePiece prev newPrev (-1) (-1)
  let newNext ← t.withoutLF (← t.root.pieceOf next)
  let t ← t.replacePiece next newNext (-1) (-1)
  let (t, pieces) ← t.createNewPieces [CarriageReturn, LineFeed]
  let (t, _) ← t.insertRight (some prev) (← pieces.head?)
  t.deleteNodes ((if newPrev.length = 0 then [prev] else []) ++
    (if newNext.length = 0 then [next] else []))

def validateCRLFWithPrevNode (t : PieceTreeBase) (nextNode : Option ℕ) :
    Option PieceTreeBase := do
  if t.shouldCheckCRLF && (← t.startWithLF nextNode) then
    let node ← t.root.prev nextNode
    if ← t.endWithCR node then t.fixCRLF (← node) (← nextNode) else return t
  else return t

def validateCRLFWithNextNode (t : PieceTreeBase) (node : Option ℕ) : Option PieceTreeBase := do
  if t.shouldCheckCRLF && (← t.endWithCR node) then
    let nextNode ← t.root.next node
    if ← t.startWithLF nextNode then t.fixCRLF (← node) (← nextNode) else return t
  else return t

/-- Whether the `\n` at the start of the next node has to move into `value`; it is then
removed from there. -/
def adjustCarriageReturnFromNext (t : PieceTreeBase) (value : Str) (node : ℕ) :
    Option (PieceTreeBase × Bool) := do
  if t.shouldCheckCRLF && endsWithCR value then
    let next ← t.root.next (some node)
    if ← t.startWithLF next then
      let nextNode ← next
      let piece ← t.root.pieceOf nextNode
      if piece.length = 1 then return (← t.deleteNode nextNode, true)
      else
        let newPiece ← t.withoutLF piece
        return (← t.replacePiece nextNode newPiece (-1) (-1), true)
    else return (t, false)
  else return (t, false)

/-! ### The search cache -/

/-- `_searchCache.get(offset)` -/
def cacheGet (t : PieceTreeBase) (offset : Int) : Option (Option CacheEntry) :=
  go t.searchCache.reverse
where
  go : List CacheEntry → Option (Option CacheEntry)
    | [] => some none
    | e :: es => do
      let piece ← t.root.pieceOf e.node
      if e.nodeStartOffset ≤ offset ∧ e.nodeStartOffset + piece.length ≥ offset then return some e
      else go es

/-- `_searchCache.get2(lineNumber)`, with the start line of the entry. -/
def cacheGet2 (t : PieceTreeBase) (lineNumber : Int) : Option (Option (CacheEntry × Int)) :=
  go t.searchCache.reverse
where
  go : List CacheEntry → Option (Option (CacheEntry × Int))
    | [] => some none
    | e :: es => do
      let piece ← t.root.pieceOf e.node
      match e.nodeStartLineNumber with
      | some startLine =>
        if startLine ≠ 0 ∧ startLine < lineNumber ∧ startLine + piece.lineFeedCnt ≥ lineNumber then
          return some (e, startLine)
        else go es
      | none => go es

/-- `_searchCache.set(entry)` for the limit 1. -/
def cacheSet (t : PieceTreeBase) (e : CacheEntry) : PieceTreeBase :=
  { t with
    searchCache := (if t.searchCache.length ≥ 1 then t.searchCache.drop 1 else t.searchCache) ++ [e] }

/-- `_searchCache.validate(offset)`: entries of detached nodes and from `offset` on go. -/
def cacheValidate (t : PieceTreeBase) (offset : Int) : PieceTreeBase :=
  { t with
    searchCache := t.searchCache.filter fun e =>
      (t.root.pieceOf e.node).isSome && !(e.nodeStartOffset ≥ offset) }

def bufferMetadata : Nodes → Int × Int
  | nil => (0, 0)
  | node _ _ a r =>
    let (lf, len) := bufferMetadata r
    (a.lfLeft + a.piece.lineFeedCnt + lf, a.sizeLeft + a.piece.length + len)

def computeBufferMetadata (t : PieceTreeBase) : PieceTreeBase :=
  let (lf, len) := bufferMetadata t.root
  cacheValidate { t with lineCnt := 1 + lf, length := len } len

/-! ### Lookups -/

/-- The loop of `nodeAt`. -/
def nodeAtLoop : Nodes → Int → Int → Option NodePosition
  | nil, _, _ => none
  | node _ l a r, offset, nodeStartOffset =>
    if a.sizeLeft > offset then nodeAtLoop l offset nodeStartOffset
    else if a.sizeLeft + a.piece.length ≥ offset then
      some ⟨a.id, offset - a.sizeLeft, nodeStartOffset + a.sizeLeft⟩
    else nodeAtLoop r (offset - (a.sizeLeft + a.piece.length))
      (nodeStartOffset + (a.sizeLeft + a.piece.length))

/-- `nodeAt(offset)`; `none` where the source returns `null`, which its callers read. -/
def nodeAt (t : PieceTreeBase) (offset : Int) : Option (NodePosition × PieceTreeBase) := do
  match ← t.cacheGet offset with
  | some e => return (⟨e.node, offset - e.nodeStartOffset, e.nodeStartOffset⟩, t)
  | none =>
    let pos ← nodeAtLoop t.root offset 0
    return (pos, t.cacheSet ⟨pos.node, pos.nodeStartOffset, none⟩)

def getLinesRawContent (t : PieceTreeBase) : Option Str := do
  return (← t.root.toList.mapM fun a => t.getPieceContent a.piece).flatten

def getLength (t : PieceTreeBase) : Int := t.length

def getLineCount (t : PieceTreeBase) : Int := t.lineCnt

end PieceTreeBase
end NexgileIde.PieceTree
