import NexgileIde.SearchTree.KeyIterators

/-!
# Ternary search trees

A node has two siblings in an AVL tree of its level and, as `mid`, the tree of the next
level. Changes walk down with a stack of nodes and directions and balance on the way back.
Values are truthy, as `delete` and `findSubstr` expect, so only a missing value is
`undefined`.
-/

namespace NexgileIde.SearchTree

inductive Dir
  | left
  | mid
  | right
  deriving DecidableEq, Repr

/-- `empty` is the undefined node. -/
inductive TernarySearchTreeNode (K S V : Type)
  | empty
  | node (height : ℕ) (segment : S) (value : Option V) (key : Option K)
      (left mid right : TernarySearchTreeNode K S V)
  deriving DecidableEq, Repr

abbrev Node := TernarySearchTreeNode

open Text

variable {K S V : Type}

/-- Nodes that were passed, the last one first, and where they were left. -/
abbrev Stack (K S V : Type) := List (Dir × Node K S V)

namespace TernarySearchTreeNode

def height : Node K S V → ℕ
  | empty => 0
  | node height _ _ _ _ _ _ => height

def left : Node K S V → Node K S V
  | empty => empty
  | node _ _ _ _ left _ _ => left

def mid : Node K S V → Node K S V
  | empty => empty
  | node _ _ _ _ _ mid _ => mid

def right : Node K S V → Node K S V
  | empty => empty
  | node _ _ _ _ _ _ right => right

def value : Node K S V → Option V
  | empty => none
  | node _ _ value _ _ _ _ => value

def isUndefined : Node K S V → Bool
  | empty => true
  | node .. => false

/-- `new TernarySearchTreeNode()` with its segment -/
def new (segment : S) : Node K S V := node 1 segment none none empty empty empty

def setChild : Node K S V → Dir → Node K S V → Node K S V
  | empty, _, _ => empty
  | node h s v k _ m r, .left, child => node h s v k child m r
  | node h s v k l _ r, .mid, child => node h s v k l child r
  | node h s v k l m _, .right, child => node h s v k l m child

def setElement : Node K S V → Option V → Option K → Node K S V
  | empty, _, _ => empty
  | node h s _ _ l m r, value, key => node h s value key l m r

/-- removing children, reset height -/
def removeChildren : Node K S V → Node K S V
  | empty => empty
  | node _ s v k _ _ _ => node 1 s v k empty empty empty

def updateHeight : Node K S V → Node K S V
  | empty => empty
  | node _ s v k l m r => node (1 + max l.height r.height) s v k l m r

def balanceFactor : Node K S V → ℤ
  | empty => 0
  | node _ _ _ _ l _ r => (r.height : ℤ) - l.height

/-- Without a node on the right there is nothing to read from. -/
def rotateLeft : Node K S V → Option (Node K S V)
  | node h s v k l m (node h' s' v' k' l' m' r') =>
    some (updateHeight (node h' s' v' k' (updateHeight (node h s v k l m l')) m' r'))
  | _ => none

def rotateRight : Node K S V → Option (Node K S V)
  | node h s v k (node h' s' v' k' l' m' r') m r =>
    some (updateHeight (node h' s' v' k' l' m' (updateHeight (node h s v k r' m r))))
  | _ => none

/-- right, left -> double rotate right, left -/
def rotateRightLeft (n : Node K S V) : Option (Node K S V) := do
  let child ← n.right.rotateRight
  (n.setChild .right child).rotateLeft

/-- left, right -> double rotate left, right -/
def rotateLeftRight (n : Node K S V) : Option (Node K S V) := do
  let child ← n.left.rotateLeft
  (n.setChild .left child).rotateRight

end TernarySearchTreeNode

open TernarySearchTreeNode

namespace TernarySearchTree

section Set

/-- The walk of `set` below the last existing node. A new node is compared like any other;
were it not equal to its own segment, the walk would not end. -/
def descendNew : Position S → List (Position S) → Stack K S V → Option (Stack K S V × Node K S V)
  | p, [], stack => if p.cmp p.value ≠ 0 then none else some (stack, new p.value)
  | p, q :: rest, stack =>
    if p.cmp p.value ≠ 0 then none else descendNew q rest ((.mid, new p.value) :: stack)

/-- find insert_node -/
def descend : Node K S V → Position S → List (Position S) → Stack K S V →
    Option (Stack K S V × Node K S V)
  | empty, p, rest, stack => descendNew p rest stack
  | node h s v k l m r, p, rest, stack =>
    let val := p.cmp s
    if val > 0 then descend l p rest ((.left, node h s v k l m r) :: stack)
    else if val < 0 then descend r p rest ((.right, node h s v k l m r) :: stack)
    else
      match rest with
      | q :: rest => descend m q rest ((.mid, node h s v k l m r) :: stack)
      | [] => some (stack, node h s v k l m r)

/-- One round of the balancing in `set`: `d1` is where the walk went at this node and `d2`
where it went at the next one. Other directions throw. -/
def balanceNode (d1 : Dir) (d2 : Option Dir) (n : Node K S V) : Option (Node K S V) :=
  let n := n.updateHeight
  let bf := n.balanceFactor
  if bf < -1 ∨ bf > 1 then
    match d1, d2 with
    | .right, some .right => n.rotateLeft
    | .left, some .left => n.rotateRight
    | .right, some .left => n.rotateRightLeft
    | .left, some .right => n.rotateLeftRight
    | _, _ => none
  else some n

/-- The balancing loop of `set`, upwards from a child that was changed. -/
def balanceSet : Stack K S V → Option Dir → Node K S V → Option (Node K S V)
  | [], _, child => some child
  | (dir, n) :: stack, d2, child => do
    let n ← balanceNode dir d2 (n.setChild dir child)
    balanceSet stack (some dir) n

/-- The element that was there before, and the tree. -/
def set (key : K) (element : V) (p : Position S) (rest : List (Position S))
    (root : Node K S V) : Option (Option V × Node K S V) := do
  let (stack, n) ← descend root p rest []
  let root ← balanceSet stack none (n.setElement (some element) (some key))
  some (n.value, root)

end Set

section Find

def getNode : Node K S V → Position S → List (Position S) → Node K S V
  | empty, _, _ => empty
  | node h s v k l m r, p, rest =>
    let val := p.cmp s
    if val > 0 then getNode l p rest
    else if val < 0 then getNode r p rest
    else
      match rest with
      | q :: rest => getNode m q rest
      | [] => node h s v k l m r

def get (root : Node K S V) (p : Position S) (rest : List (Position S)) : Option V :=
  (getNode root p rest).value

def has (root : Node K S V) (p : Position S) (rest : List (Position S)) : Bool :=
  let n := getNode root p rest
  !(n.value.isNone && n.mid.isUndefined)

/-- The loop of `findSubstr`. -/
def findSubstrFrom (candidate : Option V) :
    Node K S V → Position S → List (Position S) → Option V
  | empty, _, _ => candidate
  | node _ s v _ l m r, p, rest =>
    let val := p.cmp s
    if val > 0 then findSubstrFrom candidate l p rest
    else if val < 0 then findSubstrFrom candidate r p rest
    else
      match rest with
      | q :: rest => findSubstrFrom (v.or candidate) m q rest
      | [] => v.or candidate

def findSubstr (root : Node K S V) (p : Position S) (rest : List (Position S)) : Option V :=
  findSubstrFrom none root p rest

/-- `_dfsEntries`; the key of an entry is read without a check. -/
def entries : Node K S V → List (Option K × V)
  | empty => []
  | node _ _ v k l m r =>
    entries l ++ (v.map fun v => (k, v)).toList ++ entries m ++ entries r

/-- `_entries` of the level below the key, if there is one. -/
def findSuperstr (root : Node K S V) (p : Position S) (rest : List (Position S)) :
    Option (List (Option K × V)) :=
  match (getNode root p rest).mid with
  | empty => none
  | mid => some (entries mid)

/-- `_findSuperstrOrElement`, values allowed -/
def findSuperstrOrElement (root : Node K S V) (p : Position S) (rest : List (Position S)) :
    Option (List (Option K × V) ⊕ V) :=
  let n := getNode root p rest
  match n.mid with
  | empty => n.value.map .inr
  | mid => some (.inl (entries mid))

def hasElementOrSubtree (root : Node K S V) (p : Position S) (rest : List (Position S)) : Bool :=
  (findSuperstrOrElement root p rest).isSome

end Find

section Delete

/-- find node -/
def find : Node K S V → Position S → List (Position S) → Stack K S V →
    Option (Stack K S V × Node K S V)
  | empty, _, _, _ => none
  | node h s v k l m r, p, rest, stack =>
    let val := p.cmp s
    if val > 0 then find l p rest ((.left, node h s v k l m r) :: stack)
    else if val < 0 then find r p rest ((.right, node h s v k l m r) :: stack)
    else
      match rest with
      | q :: rest => find m q rest ((.mid, node h s v k l m r) :: stack)
      | [] => some (stack, node h s v k l m r)

/-- `_min`: the node without a left sibling, and the stack of those passed. -/
def minNode : Node K S V → Stack K S V → Stack K S V × Node K S V
  | empty, stack => (stack, empty)
  | node h s v k l m r, stack =>
    match l with
    | empty => (stack, node h s v k empty m r)
    | l => minNode l ((.left, node h s v k l m r) :: stack)

/-- One round of `_balanceByStack`. -/
def balanceHeavy (n : Node K S V) : Option (Node K S V) :=
  let n := n.updateHeight
  let bf := n.balanceFactor
  if bf > 1 then
    if n.right.balanceFactor ≥ 0 then n.rotateLeft else n.rotateRightLeft
  else if bf < -1 then
    if n.left.balanceFactor ≤ 0 then n.rotateRight else n.rotateLeftRight
  else some n

/-- `_balanceByStack`, upwards from a child that was changed. -/
def balanceByStack : Stack K S V → Node K S V → Option (Node K S V)
  | [], child => some child
  | (dir, n) :: stack, child => do
    let n ← balanceHeavy (n.setChild dir child)
    balanceByStack stack n

/-- BST node removal: what takes the place of a node whose element was removed. -/
def removeNode (truthy : K → Bool) : Node K S V → Option (Node K S V)
  | empty => some empty
  | node h s v k l m r =>
    if m.isUndefined && v.isNone then
      match l, r with
      | empty, r => some r
      | l, empty => some l
      | l, r =>
        -- full node: replace it with the min-node of the right branch
        match (minNode r []).2 with
        | node _ s' v' (some k') _ _ r' =>
          if truthy k' then
            balanceByStack (minNode r [(.right, node h s' v' (some k') l m r)]).1 r'
          else some (node h s v k l m r)
        | _ => some (node h s v k l m r)
    else some (node h s v k l m r)

def delete (truthy : K → Bool) (p : Position S) (rest : List (Position S))
    (root : Node K S V) : Option (Node K S V) :=
  match find root p rest [] with
  | none => some root
  | some (stack, n) => do
    let child ← removeNode truthy (n.setElement none none)
    balanceByStack stack child

def deleteSuperstr (truthy : K → Bool) (p : Position S) (rest : List (Position S))
    (root : Node K S V) : Option (Node K S V) :=
  match find root p rest [] with
  | none => some root
  | some (stack, n) => do
    let child ← removeNode truthy n.removeChildren
    balanceByStack stack child

end Delete

end TernarySearchTree

/-- A change of a tree by its user. -/
inductive Op (K V : Type)
  | set (key : K) (element : V)
  | delete (key : K)
  deriving DecidableEq, Repr

namespace KeyIterator

variable (iter : KeyIterator K S)

def set (root : Node K S V) (key : K) (element : V) : Option (Option V × Node K S V) :=
  let (p, rest) := iter.positions key
  TernarySearchTree.set key element p rest root

def delete (root : Node K S V) (key : K) : Option (Node K S V) :=
  let (p, rest) := iter.positions key
  TernarySearchTree.delete iter.truthy p rest root

def deleteSuperstr (root : Node K S V) (key : K) : Option (Node K S V) :=
  let (p, rest) := iter.positions key
  TernarySearchTree.deleteSuperstr iter.truthy p rest root

def get (root : Node K S V) (key : K) : Option V :=
  let (p, rest) := iter.positions key
  TernarySearchTree.get root p rest

def has (root : Node K S V) (key : K) : Bool :=
  let (p, rest) := iter.positions key
  TernarySearchTree.has root p rest

def hasElementOrSubtree (root : Node K S V) (key : K) : Bool :=
  let (p, rest) := iter.positions key
  TernarySearchTree.hasElementOrSubtree root p rest

def findSubstr (root : Node K S V) (key : K) : Option V :=
  let (p, rest) := iter.positions key
  TernarySearchTree.findSubstr root p rest

def findSuperstr (root : Node K S V) (key : K) : Option (List (Option K × V)) :=
  let (p, rest) := iter.positions key
  TernarySearchTree.findSuperstr root p rest

def step (root : Node K S V) : Op K V → Option (Node K S V)
  | .set key element => (iter.set root key element).map Prod.snd
  | .delete key => iter.delete root key

/-- The tree after the operations; none when one of them throws or does not return. -/
def run (ops : List (Op K V)) : Option (Node K S V) :=
  ops.foldlM iter.step .empty

end KeyIterator

/-- `forStrings` -/
def forStrings : KeyIterator Str CodeUnit := StringIterator

/-- `forConfigKeys`, case-sensitive by default -/
def forConfigKeys (toLowerCase : Str → Str) : KeyIterator Str Str :=
  ConfigKeysIterator toLowerCase true

/-- `forPaths`; paths are split at both slashes. -/
def forPaths (toLowerCase : Str → Str) (ignorePathCasing : Bool) : KeyIterator Str Str :=
  PathIterator toLowerCase true !ignorePathCasing

end NexgileIde.SearchTree
