import NexgileIde.Library.TreeWalk

/-!
# The red-black tree of pieces

Every node stores the text length and the number of line feeds of its left subtree.
Insertion and deletion keep these sums up while the tree is rebalanced.
-/
namespace NexgileIde.PieceTree

open Library RBTree

structure BufferCursor where
  line : Int
  column : Int
  deriving DecidableEq, Repr

/-- A range of one of the buffers. -/
structure Piece where
  bufferIndex : ℕ
  start : BufferCursor
  stop : BufferCursor
  lineFeedCnt : Int
  length : Int
  deriving DecidableEq, Repr

/-- A node; `id` stands for the identity of the object. -/
structure TreeNode where
  id : ℕ
  piece : Piece
  sizeLeft : Int
  lfLeft : Int
  deriving DecidableEq, Repr

abbrev Nodes := RBTree TreeNode

def TreeNode.addLeft (a : TreeNode) (delta lfDelta : Int) : TreeNode :=
  { a with sizeLeft := a.sizeLeft + delta, lfLeft := a.lfLeft + lfDelta }

def calculateSize : Nodes → Int
  | nil => 0
  | node _ _ a r => a.sizeLeft + a.piece.length + calculateSize r

def calculateLF : Nodes → Int
  | nil => 0
  | node _ _ a r => a.lfLeft + a.piece.lineFeedCnt + calculateLF r

/-- `leftRotate` and `rightRotate`: only the node that gains or loses a left subtree
changes its sums. -/
def rotations : Rotations TreeNode Unit where
  left _ x _ y _ s :=
    (x, y.addLeft (x.sizeLeft + x.piece.length) (x.lfLeft + x.piece.lineFeedCnt), s)
  right _ x _ y _ s :=
    (x, y.addLeft (-(x.sizeLeft + x.piece.length)) (-(x.lfLeft + x.piece.lineFeedCnt)), s)

/-- The loops that go upwards to the root and add a change to every parent reached
from its left child. -/
def addToLeftParents (delta lfDelta : Int) : TreePath TreeNode → TreePath TreeNode
  | [] => []
  | f :: path =>
    (match f.dir with
      | .left => { f with val := f.val.addLeft delta lfDelta }
      | .right => f) :: addToLeftParents delta lfDelta path

/-- The sums of a node are recomputed from its left subtree and the change is carried
upwards. -/
def recomputeParent (left : Nodes) (f : Frame TreeNode) (path : TreePath TreeNode) :
    TreePath TreeNode :=
  let delta := calculateSize left - f.val.sizeLeft
  let lfDelta := calculateLF left - f.val.lfLeft
  { f with val := f.val.addLeft delta lfDelta } ::
    if delta ≠ 0 ∨ lfDelta ≠ 0 then addToLeftParents delta lfDelta path else path

/-- `recomputeTreeMetadata(tree, x)`. The sentinel is its own twin: an empty `x` whose
sibling is empty too passes for a right child. -/
def recomputeTreeMetadata (x : Nodes) : TreePath TreeNode → TreePath TreeNode
  | [] => []
  | f :: path =>
    if f.dir = .right ∨ (x.isNil ∧ f.sibling.isNil) then
      f :: recomputeTreeMetadata (f.plug x) path
    else recomputeParent x f path

/-- `updateTreeMetadata(tree, x, delta, lineFeedCntDelta)` -/
def updateTreeMetadata (t : Nodes) (x : ℕ) (delta lineFeedCntDelta : Int) : Option Nodes := do
  let (u, path) ← locate (·.id = x) t []
  return TreePath.plug (addToLeftParents delta lineFeedCntDelta path) u

def fixInsert (x : Nodes) (path : TreePath TreeNode) : Nodes :=
  (rotations.insertFixup x (recomputeTreeMetadata x path) ()).1

/-- `rbInsertRight(node, p)` for the new node `z`. -/
def rbInsertRight (t : Nodes) (at? : Option ℕ) (z : TreeNode) : Option Nodes :=
  match t with
  | nil => some (fixInsert (node .black nil z nil) [])
  | t => do
    match ← locate (fun a => at? = some a.id) t [] with
    | (nil, _) => none
    | (node c l a nil, path) =>
      return fixInsert (node .red nil z nil) (⟨.right, c, a, l⟩ :: path)
    | (node c l a (node c' l' a' r'), path) =>
      let (c'', a'', r'', path) := leftest c' a' r' l' (⟨.right, c, a, l⟩ :: path)
      return fixInsert (node .red nil z nil) (⟨.left, c'', a'', r''⟩ :: path)

/-- `rbInsertLeft(node, p)` for the new node `z`. -/
def rbInsertLeft (t : Nodes) (at? : Option ℕ) (z : TreeNode) : Option Nodes :=
  match t with
  | nil => some (fixInsert (node .black nil z nil) [])
  | t => do
    match ← locate (fun a => at? = some a.id) t [] with
    | (nil, _) => none
    | (node c nil a r, path) =>
      return fixInsert (node .red nil z nil) (⟨.left, c, a, r⟩ :: path)
    | (node c (node c' l' a' r') a r, path) =>
      let (c'', l'', a'', path) := righttest c' l' a' r' (⟨.left, c, a, r⟩ :: path)
      return fixInsert (node .red nil z nil) (⟨.right, c'', a'', l''⟩ :: path)

/-- The end of `rbDelete`: `x` has taken the place of `y`, which had the colour `cy`. -/
def finishDelete (cy : Color) (x : Nodes) (path : TreePath TreeNode) : Nodes :=
  let path := match path with
    | [] => []
    | f :: path =>
      if f.dir = .left ∨ (x.isNil ∧ f.sibling.isNil) then recomputeParent x f path else f :: path
  let path := match path with
    | [] => []
    | f :: path => f :: recomputeTreeMetadata (f.plug x) path
  if cy = .red then TreePath.plug path x else (rotations.deleteFixup x path ()).1

/-- Unlink a node with at most one child `x`. -/
def unlinkSingle (c : Color) (x : Nodes) (path : TreePath TreeNode) : Nodes :=
  match path with
  | [] => x.setColor .black
  | path => finishDelete c x (recomputeTreeMetadata x path)

/-- Unlink a node `z` with two children: its successor `y`, `inner` below it, takes its
place. -/
def unlinkDouble (cz : Color) (lz : Nodes) (z : TreeNode) (cy : Color) (y : TreeNode) (x : Nodes)
    (inner path : TreePath TreeNode) : Nodes :=
  let zFrame : Frame TreeNode := ⟨.right, cz, z, lz⟩
  let path := match inner with
    -- the parent of `x` is then `y`, no child of `z` any more: the walk ends at `z`
    | [] => recomputeParent lz zFrame path
    | inner => recomputeTreeMetadata x (inner ++ zFrame :: path)
  let path := path.modify inner.length fun f =>
    { f with val := { y with sizeLeft := f.val.sizeLeft, lfLeft := f.val.lfLeft } }
  let below := path.take (inner.length + 1)
  let above := path.drop (inner.length + 1)
  finishDelete cy x (below ++ recomputeTreeMetadata (TreePath.plug below x) above)

/-- `rbDelete(tree, z)` -/
def rbDelete (t : Nodes) (z : ℕ) : Option Nodes := do
  match ← locate (·.id = z) t [] with
  | (nil, _) => none
  | (node c nil _ r, path) => return unlinkSingle c r path
  | (node c l _ nil, path) => return unlinkSingle c l path
  | (node cz lz a (node c l b r), path) =>
    let (cy, y, x, inner) := leftest c b r l []
    return unlinkDouble cz lz a cy y x inner path

/-- `node.next()`; the sentinel is its own successor. -/
def Nodes.next (t : Nodes) : Option ℕ → Option (Option ℕ)
  | none => some none
  | some i => do
    match ← locate (·.id = i) t [] with
    | (nil, _) => none
    | (node _ _ _ r, path) => return (Library.next r path).map (·.id)

/-- `node.prev()` -/
def Nodes.prev (t : Nodes) : Option ℕ → Option (Option ℕ)
  | none => some none
  | some i => do
    match ← locate (·.id = i) t [] with
    | (nil, _) => none
    | (node _ l _ _, path) => return (Library.prev l path).map (·.id)

/-- `node.piece` -/
def Nodes.pieceOf (t : Nodes) (i : ℕ) : Option Piece := do
  match ← locate (·.id = i) t [] with
  | (nil, _) => none
  | (node _ _ a _, _) => return a.piece

/-- `node.piece = p` -/
def Nodes.setPiece (t : Nodes) (i : ℕ) (p : Piece) : Option Nodes := do
  match ← locate (·.id = i) t [] with
  | (nil, _) => none
  | (node c l a r, path) => return TreePath.plug path (node c l { a with piece := p } r)

end NexgileIde.PieceTree
