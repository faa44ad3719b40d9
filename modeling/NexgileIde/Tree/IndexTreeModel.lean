import NexgileIde.Library.RoseTree

/-!
# The index tree model

A tree whose nodes are collapsed, expanded and filtered, and the list of the nodes that are
rendered. The model tells the list by splices; positions in the list come from the counts that
each node keeps of what is rendered in its subtree. A filter may answer differently at every
call, and a node is known by the number of the call at which it was created.
-/

namespace NexgileIde.Tree

open Library

variable {T : Type}

inductive TreeVisibility
  /-- The tree node should be hidden. -/
  | hidden
  /-- The tree node should be visible. -/
  | visible
  /-- The tree node should be visible if any of its descendants is visible. -/
  | recurse
  deriving DecidableEq

/-- The result of a filter call; data that goes with it is left out. -/
inductive TreeFilterResult
  | bool (visible : Bool)
  | visibility (visibility : TreeVisibility)
  | boolData (visible : Bool)
  | visibilityData (visibility : TreeVisibility)

def getVisibleState : Bool → TreeVisibility
  | true => .visible
  | false => .hidden

structure IndexTreeModelOptions (T : Type) where
  collapseByDefault : Bool
  allowNonCollapsibleParents : Bool
  autoExpandSingleChildren : Bool
  /-- The answers of the filter, by the number of the call. -/
  filter : Option (ℕ → T → Option TreeVisibility → TreeFilterResult)

def IndexTreeModelOptions.filterNode (O : IndexTreeModelOptions T) (clock : ℕ) (element : T)
    (parentVisibility : Option TreeVisibility) : TreeVisibility :=
  match O.filter with
  | none => .visible
  | some filter =>
    match filter clock element parentVisibility with
    | .bool b | .boolData b => getVisibleState b
    | .visibility v | .visibilityData v => v

structure NodeData (T : Type) where
  id : ℕ
  element : T
  depth : ℕ
  visibleChildrenCount : ℤ
  visibleChildIndex : ℤ
  collapsible : Bool
  collapsed : Bool
  renderNodeCount : ℤ
  visibility : TreeVisibility
  visible : Bool

abbrev IndexTreeNode (T : Type) := RoseTree (NodeData T)

inductive TreeElement (T : Type)
  | mk (element : T) (children : List (TreeElement T)) (collapsible collapsed : Option Bool)

structure SpliceEvent where
  start : ℤ
  deleteCount : ℤ
  elements : List ℕ
  deriving DecidableEq

/-- The nodes that a loop made of elements. -/
structure Created (T : Type) where
  nodes : List (IndexTreeNode T)
  treeListElements : List ℕ
  clock : ℕ
  renderNodeCount : ℤ
  visibleChildrenCount : ℤ

def NodeData.setVisibleChildIndex (d : NodeData T) (index : ℤ) : NodeData T :=
  if d.visible then { d with visibleChildIndex := index } else d

/-- A child with its number among the visible ones, if it is visible. -/
def numbered (index : ℤ) (child : IndexTreeNode T) : IndexTreeNode T :=
  .node (child.label.setVisibleChildIndex index) child.children

section Create

variable (O : IndexTreeModelOptions T)

mutual

/-- The node made of an element, the nodes that are rendered so far, and the next call of the
filter. -/
def createTreeNode (parentDepth : ℕ) (parentVisibility : TreeVisibility) (revealed : Bool)
    (treeListElements : List ℕ) (clock : ℕ) :
    TreeElement T → IndexTreeNode T × List ℕ × ℕ
  | .mk element childElements collapsible collapsed =>
    let isCollapsed := collapsed.getD O.collapseByDefault
    let visibility := O.filterNode clock element (some parentVisibility)
    let childRevealed := revealed && visibility ≠ .hidden && !isCollapsed
    let r := createTreeNodes (parentDepth + 1) visibility childRevealed
      (if revealed then treeListElements ++ [clock] else treeListElements) (clock + 1) 0
      childElements
    let isCollapsible := collapsible.getD collapsed.isSome
    let visible :=
      if visibility = .recurse then decide (0 < r.visibleChildrenCount) else visibility = .visible
    (.node
      { id := clock
        element
        depth := parentDepth + 1
        visibleChildrenCount := r.visibleChildrenCount
        visibleChildIndex := -1
        collapsible :=
          if O.allowNonCollapsibleParents then isCollapsible
          else isCollapsible || !r.nodes.isEmpty
        collapsed := isCollapsed
        renderNodeCount := if !visible then 0 else if isCollapsed then 1 else 1 + r.renderNodeCount
        visibility
        visible }
      r.nodes,
      if !visible && revealed then r.treeListElements.dropLast else r.treeListElements,
      r.clock)

/-- The loop over the elements of a parent; visible nodes are numbered from `startIndex` on. -/
def createTreeNodes (parentDepth : ℕ) (parentVisibility : TreeVisibility) (revealed : Bool)
    (treeListElements : List ℕ) (clock : ℕ) (startIndex : ℤ) :
    List (TreeElement T) → Created T
  | [] => ⟨[], treeListElements, clock, 0, 0⟩
  | el :: els =>
    let (child, pushed, next) :=
      createTreeNode parentDepth parentVisibility revealed treeListElements clock el
    let visible : ℤ := if child.label.visible then 1 else 0
    let r := createTreeNodes parentDepth parentVisibility revealed pushed next
      (startIndex + visible) els
    { nodes := numbered startIndex child :: r.nodes
      treeListElements := r.treeListElements
      clock := r.clock
      renderNodeCount := child.label.renderNodeCount + r.renderNodeCount
      visibleChildrenCount := visible + r.visibleChildrenCount }

end

end Create

section Update

mutual

/-- Counts again what is rendered in a subtree, adding it to the result. -/
def updateNodeAfterCollapseChange (result : List ℕ) :
    IndexTreeNode T → IndexTreeNode T × List ℕ × ℤ
  | .node d children =>
    if d.visible = false then (.node d children, result, 0)
    else if d.collapsed then
      (.node { d with renderNodeCount := 1 } children, result ++ [d.id], 1)
    else
      let (children, result, count) := updateNodesAfterCollapseChange (result ++ [d.id]) children
      (.node { d with renderNodeCount := 1 + count } children, result, 1 + count)

def updateNodesAfterCollapseChange (result : List ℕ) :
    List (IndexTreeNode T) → List (IndexTreeNode T) × List ℕ × ℤ
  | [] => ([], result, 0)
  | child :: children =>
    let (child, result, count) := updateNodeAfterCollapseChange result child
    let (children, result, counts) := updateNodesAfterCollapseChange result children
    (child :: children, result, count + counts)

end

/-- The nodes that a loop filtered again. -/
structure Refiltered (T : Type) where
  nodes : List (IndexTreeNode T)
  result : List ℕ
  clock : ℕ
  visibleChildIndex : ℤ
  hasVisibleDescendants : Bool

variable (O : IndexTreeModelOptions T)

mutual

/-- Filters a node below the root again, adding what is rendered to the result. -/
def updateNodeAfterFilterChange (parentVisibility : Option TreeVisibility) (result : List ℕ)
    (revealed : Bool) (clock : ℕ) : IndexTreeNode T → IndexTreeNode T × List ℕ × ℕ
  | .node d children =>
    let visibility := O.filterNode clock d.element parentVisibility
    if visibility = .hidden then
      (.node { d with visible := false, renderNodeCount := 0 } children, result, clock + 1)
    else
      let pushed := if revealed then result ++ [d.id] else result
      let r := updateNodesAfterFilterChange (some visibility) pushed (revealed && !d.collapsed)
        (clock + 1) 0 children
      let visible :=
        if visibility = .recurse then r.hasVisibleDescendants else visibility = .visible
      (.node
        { d with
          visibleChildrenCount := r.visibleChildIndex
          visible
          visibility
          renderNodeCount :=
            if !visible then 0
            else if d.collapsed then 1
            else 1 + (r.result.length - pushed.length) }
        r.nodes,
        if !visible && revealed then r.result.dropLast else r.result,
        r.clock)

def updateNodesAfterFilterChange (parentVisibility : Option TreeVisibility) (result : List ℕ)
    (revealed : Bool) (clock : ℕ) (visibleChildIndex : ℤ) :
    List (IndexTreeNode T) → Refiltered T
  | [] => ⟨[], result, clock, visibleChildIndex, false⟩
  | child :: children =>
    let (child, result, clock) :=
      updateNodeAfterFilterChange parentVisibility result revealed clock child
    let r := updateNodesAfterFilterChange parentVisibility result revealed clock
      (visibleChildIndex + if child.label.visible then 1 else 0) children
    { r with
      nodes := numbered visibleChildIndex child :: r.nodes
      hasVisibleDescendants := child.label.visible || r.hasVisibleDescendants }

end

end Update

section Locations

/-- `getTreeNode`; none where it throws or where there is no such node. -/
def getTreeNode (location : List ℕ) (root : IndexTreeNode T) : Option (IndexTreeNode T) :=
  root.get? location

structure ParentInfo (T : Type) where
  parentNode : IndexTreeNode T
  listIndex : ℤ
  revealed : Bool
  visible : Bool

/-- The sum of the counts -/
def renderNodeCounts (nodes : List (IndexTreeNode T)) : ℤ :=
  (nodes.map fun node => node.label.renderNodeCount).sum

/-- None for a location that is empty or leads out of the tree. -/
def getParentNodeWithListIndex : List ℕ → IndexTreeNode T → ℤ → Bool → Bool →
    Option (ParentInfo T)
  | [], _, _, _, _ => none
  | [index], .node d children, listIndex, revealed, visible =>
    if children.length < index then none
    else some
      { parentNode := .node d children
        listIndex := listIndex + renderNodeCounts (children.take index)
        revealed := revealed && !d.collapsed
        visible := visible && d.visible }
  | index :: rest, .node d children, listIndex, revealed, visible => do
    let child ← children[index]?
    getParentNodeWithListIndex rest child (listIndex + renderNodeCounts (children.take index) + 1)
      (revealed && !d.collapsed) (visible && d.visible)

structure NodeInfo (T : Type) where
  node : IndexTreeNode T
  listIndex : ℤ
  revealed : Bool
  visible : Bool

def getTreeNodeWithListIndex (location : List ℕ) (root : IndexTreeNode T) :
    Option (NodeInfo T) :=
  match location.getLast? with
  | none => some ⟨root, -1, true, false⟩
  | some index => do
    let parent ← getParentNodeWithListIndex location root 0 true true
    let node ← parent.parentNode.children[index]?
    some ⟨node, parent.listIndex, parent.revealed, parent.visible && node.label.visible⟩

/-- Adds to the counts of the node at a location and of those above it. -/
def updateAncestorsRenderNodeCount (location : List ℕ) (diff : ℤ) (root : IndexTreeNode T) :
    IndexTreeNode T :=
  if diff = 0 then root
  else root.mapPath (fun d => { d with renderNodeCount := d.renderNodeCount + diff }) location

end Locations

section Collapse

inductive CollapseStateUpdate
  | collapsible (collapsible : Bool)
  | collapsed (collapsed recursive : Bool)

def CollapseStateUpdate.recursive : CollapseStateUpdate → Bool
  | .collapsible _ => false
  | .collapsed _ recursive => recursive

def CollapseStateUpdate.isCollapsibleStateUpdate : CollapseStateUpdate → Bool
  | .collapsible _ => true
  | .collapsed _ _ => false

/-- The change of one node that is not the root, and whether it changes. -/
def NodeData.setCollapseState (update : CollapseStateUpdate) (d : NodeData T) :
    NodeData T × Bool :=
  match update with
  | .collapsible collapsible => ({ d with collapsible }, d.collapsible ≠ collapsible)
  | .collapsed collapsed _ =>
    if !d.collapsible then (d, false) else ({ d with collapsed }, d.collapsed ≠ collapsed)

mutual

def setNodeCollapseState (update : CollapseStateUpdate) (isRoot : Bool) :
    IndexTreeNode T → IndexTreeNode T × Bool
  | .node d children =>
    let (d, result) := if isRoot then (d, false) else d.setCollapseState update
    if update.recursive then
      let (children, results) := setNodesCollapseState update children
      (.node d children, results || result)
    else (.node d children, result)

def setNodesCollapseState (update : CollapseStateUpdate) :
    List (IndexTreeNode T) → List (IndexTreeNode T) × Bool
  | [] => ([], false)
  | child :: children =>
    let (child, result) := setNodeCollapseState update false child
    let (children, results) := setNodesCollapseState update children
    (child :: children, result || results)

end

def setListNodeCollapseState (root : IndexTreeNode T) (location : List ℕ) (info : NodeInfo T)
    (update : CollapseStateUpdate) : IndexTreeNode T × List SpliceEvent × Bool :=
  let (node, result) := setNodeCollapseState update location.isEmpty info.node
  if !info.revealed || !node.label.visible || !result then
    (RoseTree.replaceAt node location root, [], result)
  else
    let previousRenderNodeCount := node.label.renderNodeCount
    let (node, toInsert, _) := updateNodeAfterCollapseChange [] node
    let root := RoseTree.replaceAt node location root
    -- the ancestors begin with the parent, which the root has none of
    let root :=
      if location.isEmpty then root
      else updateAncestorsRenderNodeCount location.dropLast
        (toInsert.length - previousRenderNodeCount) root
    let deleteCount := previousRenderNodeCount - if info.listIndex = -1 then 0 else 1
    (root, [⟨info.listIndex + 1, deleteCount, toInsert.tail⟩], result)

/-- The loop that looks for a visible child with no other one. -/
def onlyVisibleChildIndex (found : Option ℕ) (i : ℕ) : List (IndexTreeNode T) → Option ℕ
  | [] => found
  | child :: children =>
    if child.label.visible then
      match found with
      | some _ => none
      | none => onlyVisibleChildIndex (some i) (i + 1) children
    else onlyVisibleChildIndex found (i + 1) children

def setCollapseState (O : IndexTreeModelOptions T) (root : IndexTreeNode T) (location : List ℕ)
    (update : CollapseStateUpdate) : Option (IndexTreeNode T × List SpliceEvent) := do
  let info ← getTreeNodeWithListIndex location root
  let (root, events, result) := setListNodeCollapseState root location info update
  let node ← getTreeNode location root
  if !location.isEmpty && O.autoExpandSingleChildren && result &&
      !update.isCollapsibleStateUpdate && node.label.collapsible && !node.label.collapsed &&
      !update.recursive then
    match onlyVisibleChildIndex none 0 node.children with
    | none => some (root, events)
    | some index => do
      let (root, more) ← by apply setCollapseState; exacts [O, root, location ++ [index], update]
      some (root, events ++ more)
  else some (root, events)
partial_fixpoint

/-- The loop over the locations above a node, from its parent on. -/
def expandLocations (O : IndexTreeModelOptions T) (root : IndexTreeNode T) :
    List (List ℕ) → Option (IndexTreeNode T × List SpliceEvent)
  | [] => some (root, [])
  | location :: locations => do
    let node ← getTreeNode location root
    let (root, events) ←
      if node.label.collapsed then setCollapseState O root location (.collapsed false false)
      else some (root, [])
    let (root, more) ← expandLocations O root locations
    some (root, events ++ more)

/-- The locations above a location, the nearest first. -/
def locationsAbove (location : List ℕ) : List (List ℕ) :=
  (List.range location.length).reverse.map location.take

end Collapse

structure IndexTreeModel (T : Type) where
  root : IndexTreeNode T
  /-- The number of the next call of the filter. -/
  clock : ℕ
  /-- A refilter is to be run. -/
  refilterDelayed : Bool

namespace IndexTreeModel

def new (rootElement : T) : IndexTreeModel T where
  root := .node
    { id := 0
      element := rootElement
      depth := 0
      visibleChildrenCount := 0
      visibleChildIndex := -1
      collapsible := false
      collapsed := false
      renderNodeCount := 0
      visibility := .visible
      visible := true }
    []
  clock := 1
  refilterDelayed := false

variable (O : IndexTreeModelOptions T) (m : IndexTreeModel T)

/-- The index of the visible child at a place, or of the last one before it. -/
def visibleChildStartIndex (lastIndex : ℕ) (children : List (IndexTreeNode T)) : ℤ :=
  if lastIndex < children.length then
    ((children.take (lastIndex + 1)).reverse.find? fun child => child.label.visible).elim 0
      fun child => child.label.visibleChildIndex
  else 0

/-- The part of a splice that is about the parent: `created` takes the place of the deleted
children. -/
def spliceChildren (lastIndex deleteCount : ℕ) (created : Created T) :
    IndexTreeNode T → IndexTreeNode T
  | .node d children =>
    let deletedNodes := (children.drop lastIndex).take deleteCount
    let deletedVisibleChildrenCount : ℤ := deletedNodes.countP fun child => child.label.visible
    let rest := (children.drop (lastIndex + deleteCount)).map fun child =>
      numbered (child.label.visibleChildIndex - deletedVisibleChildrenCount) child
    .node
      { d with
        visibleChildrenCount :=
          d.visibleChildrenCount + (created.visibleChildrenCount - deletedVisibleChildrenCount) }
      (children.take lastIndex ++ created.nodes ++ rest)

def spliceSimple (location : List ℕ) (deleteCount : ℤ) (toInsert : List (TreeElement T)) :
    Option (IndexTreeModel T × List SpliceEvent) := do
  let info ← getParentNodeWithListIndex location m.root 0 true true
  let lastIndex := location.getLastD 0
  let children := info.parentNode.children
  let created := createTreeNodes O info.parentNode.label.depth
    (if info.parentNode.label.visible then .visible else .hidden) info.revealed [] m.clock
    (visibleChildStartIndex lastIndex children) toInsert
  let parentNode := spliceChildren lastIndex deleteCount.toNat created info.parentNode
  let root := RoseTree.replaceAt parentNode location.dropLast m.root
  let refilterDelayed := m.refilterDelayed ||
    (root.labelsAbove location).any fun d => d.visibility = .recurse
  if info.revealed && info.visible then
    let visibleDeleteCount := (((children.drop lastIndex).take deleteCount.toNat).map fun node =>
      if node.label.visible then node.label.renderNodeCount else 0).sum
    let root := updateAncestorsRenderNodeCount location.dropLast
      (created.renderNodeCount - visibleDeleteCount) root
    some (⟨root, created.clock, refilterDelayed⟩,
      [⟨info.listIndex, visibleDeleteCount, created.treeListElements⟩])
  else some (⟨root, created.clock, refilterDelayed⟩, [])

def setCollapsed (location : List ℕ) (collapsed : Option Bool) (recursive : Bool) :
    Option (IndexTreeModel T × List SpliceEvent) := do
  let node ← getTreeNode location m.root
  let (root, events) ← setCollapseState O m.root location
    (.collapsed (collapsed.getD !node.label.collapsed) recursive)
  some ({ m with root }, events)

def setCollapsible (location : List ℕ) (collapsible : Option Bool) :
    Option (IndexTreeModel T × List SpliceEvent) := do
  let node ← getTreeNode location m.root
  let (root, events) ← setCollapseState O m.root location
    (.collapsible (collapsible.getD !node.label.collapsible))
  some ({ m with root }, events)

def expandTo (location : List ℕ) : Option (IndexTreeModel T × List SpliceEvent) := do
  let _ ← getTreeNode location m.root
  let (root, events) ← expandLocations O m.root (locationsAbove location)
  some ({ m with root }, events)

def refilter : IndexTreeModel T × List SpliceEvent :=
  let d := m.root.label
  let r := updateNodesAfterFilterChange O none [] (!d.collapsed) m.clock 0 m.root.children
  let renderNodeCount : ℤ :=
    if !d.visible then 0 else if d.collapsed then 0 else r.result.length
  let toInsert := if !d.visible then r.result.dropLast else r.result
  (⟨.node { d with visibleChildrenCount := r.visibleChildIndex, renderNodeCount } r.nodes,
      r.clock, false⟩,
    [⟨0, d.renderNodeCount, toInsert⟩])

end IndexTreeModel

inductive Command (T : Type)
  | splice (location : List ℕ) (deleteCount : ℤ) (toInsert : List (TreeElement T))
  | setCollapsed (location : List ℕ) (collapsed : Option Bool) (recursive : Bool)
  | setCollapsible (location : List ℕ) (collapsible : Option Bool)
  | expandTo (location : List ℕ)
  | refilter
  /-- The delayed refilter, if there is one. -/
  | delayedRefilter

/-- None where the model throws. -/
def IndexTreeModel.step (O : IndexTreeModelOptions T) (m : IndexTreeModel T) :
    Command T → Option (IndexTreeModel T × List SpliceEvent)
  | .splice location deleteCount toInsert => m.spliceSimple O location deleteCount toInsert
  | .setCollapsed location collapsed recursive => m.setCollapsed O location collapsed recursive
  | .setCollapsible location collapsible => m.setCollapsible O location collapsible
  | .expandTo location => m.expandTo O location
  | .refilter => some (m.refilter O)
  | .delayedRefilter => some (if m.refilterDelayed then m.refilter O else (m, []))

/-- The state and the splices after some commands. -/
def IndexTreeModel.run (O : IndexTreeModelOptions T) (m : IndexTreeModel T) :
    List (Command T) → Option (IndexTreeModel T × List SpliceEvent)
  | [] => some (m, [])
  | c :: cs => do
    let (m, events) ← m.step O c
    let (m, more) ← m.run O cs
    some (m, events ++ more)

end NexgileIde.Tree
