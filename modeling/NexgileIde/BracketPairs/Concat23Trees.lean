import NexgileIde.BracketPairs.AstNode
import NexgileIde.Library.Results

/-!
# Concatenation of (2,3)-trees

Runs of one height are paired level by level. Trees of different heights are
concatenated along the spine of the higher one, where a full list splits and
sends a list of its own height up.
-/
namespace NexgileIde.BracketPairs

open AstNode Library

variable {α : Type}

/-- One pass of the loop of `concat23TreesOfSameHeight`: pairs, the last three together. -/
def pairUp (createImmutableLists : Bool) : List (AstNode α) → Result (List (AstNode α))
  | [item1, item2, item3] => do
    return [← create23 item1 item2 (some item3) createImmutableLists]
  | item1 :: item2 :: items => do
    let node ← create23 item1 item2 none createImmutableLists
    return node :: (← pairUp createImmutableLists items)
  | _ => return []

theorem length_pairUp {createImmutableLists : Bool} {items nodes : List (AstNode α)}
    (h : pairUp createImmutableLists items = .ok nodes) : nodes.length = items.length / 2 := by
  induction items using pairUp.induct generalizing nodes with
  | case1 item1 item2 item3 =>
    obtain ⟨node, -, hnodes⟩ := bind_eq_ok.mp h
    cases hnodes
    simp
  | case2 item1 item2 items hne ih =>
    rw [pairUp.eq_2 _ _ _ _ hne] at h
    obtain ⟨node, -, htail⟩ := bind_eq_ok.mp h
    obtain ⟨rest, hrest, hnodes⟩ := bind_eq_ok.mp htail
    cases hnodes
    simp only [List.length_cons, ih hrest]
    omega
  | case3 items hne1 hne2 =>
    rw [pairUp.eq_3 _ _ hne1 hne2] at h
    cases h
    match items with
    | [] => simp
    | [_] => simp
    | item1 :: item2 :: items => exact absurd rfl (hne2 item1 item2 items)

/-- The node that `concat23TreesOfSameHeight` ends with. -/
def lastNode (createImmutableLists : Bool) : List (AstNode α) → Result (AstNode α)
  | item1 :: item2 :: items => create23 item1 item2 items.head? createImmutableLists
  | _ => throw "items[1] is undefined"

/-- The loop of `concat23TreesOfSameHeight`. -/
def pairLoop (createImmutableLists : Bool) (items : List (AstNode α)) : Result (AstNode α) :=
  if items.length > 3 then
    match _h : pairUp createImmutableLists items with
    | .error message => .error message
    | .ok nodes => pairLoop createImmutableLists nodes
  else lastNode createImmutableLists items
termination_by items.length
decreasing_by
  rw [length_pairUp _h]
  omega

def concat23TreesOfSameHeight (items : List (AstNode α)) (createImmutableLists : Bool) :
    Result (Option (AstNode α)) :=
  match items with
  | [] => return none
  | [item] => return some item
  | items => return some (← pairLoop createImmutableLists items)

/-- One list on the way up in `append`. A full list sends its last child and the node up. -/
def takeLast (parent : AstNode α) (nodeToAppend : Option (AstNode α)) :
    Result (AstNode α × Option (AstNode α)) :=
  match nodeToAppend with
  | none => return (← parent.handleChildrenChanged, none)
  | some node =>
    if parent.children.length ≥ 3 then do
      let (parent, last) ← parent.unappendChild
      return (parent, some (← create23 last node none false))
    else return (← parent.appendChildOfSameHeight node, none)

/-- The way down of `append`, along last children, and back up. -/
def appendInto (nodeToAppend : AstNode α) :
    AstNode α → Result (AstNode α × Option (AstNode α))
  | leaf node =>
    if nodeToAppend.listHeight = 0 then return (leaf node, some nodeToAppend)
    else throw "unexpected"
  | list2 data item1 item2 => do
    let data := toMutable data
    if nodeToAppend.listHeight = data.listHeight then
      return (list2 data item1 item2, some nodeToAppend)
    throwIfImmutable data
    let (item2, node) ← appendInto nodeToAppend item2
    takeLast (list2 data item1 item2) node
  | list3 data item1 item2 item3 => do
    let data := toMutable data
    if nodeToAppend.listHeight = data.listHeight then
      return (list3 data item1 item2 item3, some nodeToAppend)
    throwIfImmutable data
    let (item3, node) ← appendInto nodeToAppend item3
    takeLast (list3 data item1 item2 item3) node

/-- Appends the given node to the end of this (2,3) tree. -/
def append (list nodeToAppend : AstNode α) : Result (AstNode α) := do
  match ← appendInto nodeToAppend list with
  | (list, some node) => create23 list node none false
  | (list, none) => return list

/-- One list on the way up in `prepend`. A full list sends the node and its first child up. -/
def takeFirst (parent : AstNode α) (nodeToPrepend : Option (AstNode α)) :
    Result (AstNode α × Option (AstNode α)) :=
  match nodeToPrepend with
  | none => return (← parent.handleChildrenChanged, none)
  | some node =>
    if parent.children.length ≥ 3 then do
      let (parent, first) ← parent.unprependChild
      return (parent, some (← create23 node first none false))
    else return (← parent.prependChildOfSameHeight node, none)

/-- The way down of `prepend`, along first children, and back up. -/
def prependInto (nodeToPrepend : AstNode α) :
    AstNode α → Result (AstNode α × Option (AstNode α))
  | leaf node =>
    if nodeToPrepend.listHeight = 0 then return (leaf node, some nodeToPrepend)
    else throw "unexpected"
  | list2 data item1 item2 => do
    let data := toMutable data
    if nodeToPrepend.listHeight = data.listHeight then
      return (list2 data item1 item2, some nodeToPrepend)
    throwIfImmutable data
    let (item1, node) ← prependInto nodeToPrepend item1
    takeFirst (list2 data item1 item2) node
  | list3 data item1 item2 item3 => do
    let data := toMutable data
    if nodeToPrepend.listHeight = data.listHeight then
      return (list3 data item1 item2 item3, some nodeToPrepend)
    throwIfImmutable data
    let (item1, node) ← prependInto nodeToPrepend item1
    takeFirst (list3 data item1 item2 item3) node

/-- Prepends the given node to the end of this (2,3) tree. -/
def prepend (list nodeToPrepend : AstNode α) : Result (AstNode α) := do
  match ← prependInto nodeToPrepend list with
  | (list, some node) => create23 node list none false
  | (list, none) => return list

def heightDiff (node1 node2 : AstNode α) : ℕ :=
  ((node1.listHeight : ℤ) - node2.listHeight).natAbs

def concat (node1 node2 : AstNode α) : Result (AstNode α) :=
  if node1.listHeight = node2.listHeight then create23 node1 node2 none false
  else if node1.listHeight > node2.listHeight then append node1 node2
  else prepend node2 node1

/-- Reads nodes of same height and concatenates them to a single node. The items left are
returned with it. -/
def readNode : List (AstNode α) → Result (Option (AstNode α) × List (AstNode α))
  | [] => return (none, [])
  | item :: items =>
    let same := items.takeWhile fun other => other.listHeight = item.listHeight
    let rest := items.dropWhile fun other => other.listHeight = item.listHeight
    if same.length + 1 ≥ 2 then
      return (← concat23TreesOfSameHeight (item :: same) false, rest)
    else return (some item, rest)

theorem length_readNode {items rest : List (AstNode α)} {node : AstNode α}
    (h : readNode items = .ok (some node, rest)) : rest.length < items.length := by
  cases items with
  | nil => cases h
  | cons item items =>
    have hle := (List.dropWhile_suffix (l := items)
      (fun other => decide (other.listHeight = item.listHeight))).length_le
    unfold readNode at h
    dsimp only at h
    split_ifs at h
    · obtain ⟨result, -, hresult⟩ := bind_eq_ok.mp h
      cases hresult
      simpa [Nat.lt_succ_iff] using hle
    · cases h
      simpa [Nat.lt_succ_iff] using hle

/-- The loop of `concat23Trees`: smaller trees are preferred, as the runtime depends on the
height. -/
def concatLoop (first second : AstNode α) (items : List (AstNode α)) : Result (AstNode α) :=
  match _h : readNode items with
  | .error message => .error message
  | .ok (none, _) => concat first second
  | .ok (some item, rest) => do
    if heightDiff first second ≤ heightDiff second item then
      let first ← concat first second
      concatLoop first item rest
    else
      let second ← concat second item
      concatLoop first second rest
termination_by items.length
decreasing_by all_goals exact length_readNode _h

def concat23Trees (items : List (AstNode α)) : Result (Option (AstNode α)) := do
  match items with
  | [] => return none
  | [item] => return some item
  | items =>
    let (first, rest) ← readNode items
    let (second, rest) ← readNode rest
    match first, second with
    | some first, some second => return some (← concatLoop first second rest)
    | first, _ => return first

/-- What goes up beside a tree: nothing, or a tree of the same height. -/
def IsUp (height : ℕ) (leaves : List (Leaf α)) : Option (AstNode α) → Prop
  | none => leaves = []
  | some node => IsTree height leaves node

/-- One level of trees of a height, whose leaves are put together in order. -/
def AreTrees (height : ℕ) (items : List (AstNode α)) : Prop :=
  ∀ item ∈ items, item.Valid23 ∧ item.listHeight = height

theorem pairUp_spec (createImmutableLists : Bool) {height : ℕ} (items : List (AstNode α)) :
    AreTrees height items → items.length ≠ 1 →
    ∃ nodes, pairUp createImmutableLists items = .ok nodes ∧ AreTrees (height + 1) nodes ∧
      nodes.flatMap leaves = items.flatMap leaves := by
  induction items using pairUp.induct with
  | case1 item1 item2 item3 =>
    intro h hlen
    obtain ⟨⟨v1, hh1⟩, ⟨v2, hh2⟩, ⟨v3, hh3⟩⟩ : (item1.Valid23 ∧ item1.listHeight = height) ∧
        (item2.Valid23 ∧ item2.listHeight = height) ∧ item3.Valid23 ∧ item3.listHeight = height := by
      simpa [AreTrees] using h
    obtain ⟨node, hnode, htree⟩ := create23_three ⟨v1, hh1, rfl⟩ ⟨v2, hh2, rfl⟩ ⟨v3, hh3, rfl⟩
      createImmutableLists
    refine ⟨[node], by rw [pairUp, bind_of_ok hnode]; rfl, ?_, ?_⟩
    · simp [AreTrees, htree.valid, htree.height]
    · simp [htree.leaves]
  | case2 item1 item2 items hne ih =>
    intro h hlen
    have hitems : AreTrees height items := fun item hitem => h item (by simp [hitem])
    have hrest : items.length ≠ 1 := by
      intro hone
      obtain ⟨item3, rfl⟩ := List.length_eq_one_iff.mp hone
      exact hne item3 rfl
    obtain ⟨v1, hh1⟩ := h item1 (by simp)
    obtain ⟨v2, hh2⟩ := h item2 (by simp)
    obtain ⟨node, hnode, htree⟩ := create23_two ⟨v1, hh1, rfl⟩ ⟨v2, hh2, rfl⟩ createImmutableLists
    obtain ⟨nodes, hnodes, htrees, hleaves⟩ := ih hitems hrest
    refine ⟨node :: nodes, ?_, ?_, ?_⟩
    · rw [pairUp.eq_2 _ _ _ _ hne, bind_of_ok hnode, bind_of_ok hnodes]
      rfl
    · rintro other (_ | ⟨_, hother⟩)
      · exact ⟨htree.valid, htree.height⟩
      · exact htrees other hother
    · simp [htree.leaves, hleaves]
  | case3 items hne1 hne2 =>
    intro h hlen
    match items with
    | [] => exact ⟨[], rfl, by simp [AreTrees], rfl⟩
    | [_] => simp at hlen
    | item1 :: item2 :: items => exact absurd rfl (hne2 item1 item2 items)

theorem pairLoop_of_ok {createImmutableLists : Bool} {items nodes : List (AstNode α)}
    (hlen : items.length > 3) (h : pairUp createImmutableLists items = .ok nodes) :
    pairLoop createImmutableLists items = pairLoop createImmutableLists nodes := by
  rw [pairLoop, if_pos hlen]
  split
  · rename_i hthrown
    rw [h] at hthrown
    cases hthrown
  · rename_i nodes' hnodes
    rw [h] at hnodes
    cases hnodes
    rfl

theorem pairLoop_spec (createImmutableLists : Bool) {height : ℕ} (items : List (AstNode α))
    (h : AreTrees height items) (hlen : 2 ≤ items.length) :
    ∃ node, pairLoop createImmutableLists items = .ok node ∧ node.Valid23 ∧
      node.leaves = items.flatMap leaves := by
  induction hn : items.length using Nat.strong_induction_on generalizing items height with
  | _ n ih =>
    rcases Nat.lt_or_ge 3 items.length with hmany | hfew
    · obtain ⟨nodes, hnodes, htrees, hleaves⟩ :=
        pairUp_spec createImmutableLists items h (by omega)
      have hhalf := length_pairUp hnodes
      obtain ⟨node, hnode, hvalid, hsame⟩ := ih nodes.length (by omega) nodes htrees (by omega) rfl
      refine ⟨node, ?_, hvalid, hsame.trans hleaves⟩
      rw [pairLoop_of_ok hmany hnodes, hnode]
    · rw [pairLoop, if_neg (by omega)]
      match items with
      | [item1, item2] =>
        obtain ⟨v1, hh1⟩ := h item1 (by simp)
        obtain ⟨v2, hh2⟩ := h item2 (by simp)
        obtain ⟨node, hnode, htree⟩ :=
          create23_two ⟨v1, hh1, rfl⟩ ⟨v2, hh2, rfl⟩ createImmutableLists
        exact ⟨node, hnode, htree.valid, by simp [htree.leaves]⟩
      | [item1, item2, item3] =>
        obtain ⟨v1, hh1⟩ := h item1 (by simp)
        obtain ⟨v2, hh2⟩ := h item2 (by simp)
        obtain ⟨v3, hh3⟩ := h item3 (by simp)
        obtain ⟨node, hnode, htree⟩ :=
          create23_three ⟨v1, hh1, rfl⟩ ⟨v2, hh2, rfl⟩ ⟨v3, hh3, rfl⟩ createImmutableLists
        exact ⟨node, hnode, htree.valid, by simp [htree.leaves]⟩
      | [] | [_] => simp at hlen
      | _ :: _ :: _ :: _ :: _ =>
        simp only [List.length_cons] at hfew
        omega

section Spine

variable {height : ℕ} {data : ListData} {item1 item2 item3 : AstNode α}
  {leaves1 leaves2 leaves3 leavesUp : List (Leaf α)} {up : Option (AstNode α)}

/-- A list with two children takes what comes up. -/
theorem takeLast_list2 (hdata : data.listHeight = height + 1) (hmutable : data.immutable = false)
    (h1 : IsTree height leaves1 item1) (h2 : IsTree height leaves2 item2)
    (hup : IsUp height leavesUp up) :
    ∃ node, takeLast (list2 data item1 item2) up = .ok (node, none) ∧
      IsTree (height + 1) (leaves1 ++ leaves2 ++ leavesUp) node := by
  cases up with
  | none =>
    rw [show leavesUp = [] from hup, List.append_nil]
    exact ⟨_, by simp [takeLast, handleChildrenChanged, throwIfImmutable, hmutable]; rfl,
      isTree_list2 hdata h1 h2⟩
  | some node =>
    refine ⟨_, ?_, isTree_list3 hdata h1 h2 hup⟩
    simp [takeLast, appendChildOfSameHeight, children, handleChildrenChanged, throwIfImmutable,
      hmutable]
    rfl

/-- A full list splits when a tree comes up. -/
theorem takeLast_list3 (hdata : data.listHeight = height + 1) (hmutable : data.immutable = false)
    (h1 : IsTree height leaves1 item1) (h2 : IsTree height leaves2 item2)
    (h3 : IsTree height leaves3 item3) (hup : IsUp height leavesUp up) :
    ∃ node sent leavesNode leavesSent,
      takeLast (list3 data item1 item2 item3) up = .ok (node, sent) ∧
      IsTree (height + 1) leavesNode node ∧ IsUp (height + 1) leavesSent sent ∧
      leavesNode ++ leavesSent = leaves1 ++ leaves2 ++ leaves3 ++ leavesUp := by
  cases up with
  | none =>
    rw [show leavesUp = [] from hup, List.append_nil]
    refine ⟨_, none, _, [], ?_, isTree_list3 hdata h1 h2 h3, rfl, List.append_nil _⟩
    simp [takeLast, handleChildrenChanged, throwIfImmutable, hmutable]
    rfl
  | some node =>
    obtain ⟨sent, hsent, htree⟩ := create23_two h3 hup false
    refine ⟨_, some sent, _, _, ?_, isTree_list2 hdata h1 h2, htree, by simp⟩
    simp [takeLast, unappendChild, children, handleChildrenChanged, throwIfImmutable, hmutable,
      hsent]

theorem takeFirst_list2 (hdata : data.listHeight = height + 1) (hmutable : data.immutable = false)
    (h1 : IsTree height leaves1 item1) (h2 : IsTree height leaves2 item2)
    (hup : IsUp height leavesUp up) :
    ∃ node, takeFirst (list2 data item1 item2) up = .ok (node, none) ∧
      IsTree (height + 1) (leavesUp ++ leaves1 ++ leaves2) node := by
  cases up with
  | none =>
    rw [show leavesUp = [] from hup, List.nil_append]
    exact ⟨_, by simp [takeFirst, handleChildrenChanged, throwIfImmutable, hmutable]; rfl,
      isTree_list2 hdata h1 h2⟩
  | some node =>
    refine ⟨_, ?_, isTree_list3 hdata hup h1 h2⟩
    simp [takeFirst, prependChildOfSameHeight, children, handleChildrenChanged, throwIfImmutable,
      hmutable]
    rfl

theorem takeFirst_list3 (hdata : data.listHeight = height + 1) (hmutable : data.immutable = false)
    (h1 : IsTree height leaves1 item1) (h2 : IsTree height leaves2 item2)
    (h3 : IsTree height leaves3 item3) (hup : IsUp height leavesUp up) :
    ∃ node sent leavesNode leavesSent,
      takeFirst (list3 data item1 item2 item3) up = .ok (node, sent) ∧
      IsTree (height + 1) leavesNode node ∧ IsUp (height + 1) leavesSent sent ∧
      leavesSent ++ leavesNode = leavesUp ++ leaves1 ++ leaves2 ++ leaves3 := by
  cases up with
  | none =>
    rw [show leavesUp = [] from hup, List.nil_append]
    refine ⟨_, none, _, [], ?_, isTree_list3 hdata h1 h2 h3, rfl, List.nil_append _⟩
    simp [takeFirst, handleChildrenChanged, throwIfImmutable, hmutable]
    rfl
  | some node =>
    obtain ⟨sent, hsent, htree⟩ := create23_two hup h1 false
    refine ⟨_, some sent, _, _, ?_, isTree_list2 hdata h2 h3, htree, by simp⟩
    simp [takeFirst, unprependChild, children, handleChildrenChanged, throwIfImmutable, hmutable,
      hsent]

end Spine

/-- What a list caches does not depend on whether it may be changed. -/
theorem AstNode.Caches.toMutable {data : ListData} {children : List (AstNode α)}
    (h : Caches data children) : Caches (AstNode.toMutable data) children := ⟨h.height, h.length, h.missing⟩

/-- The way down and up of `append`: the leaves of the changed tree and of what it sends up are
those of the tree and of the appended node. -/
theorem appendInto_spec {nodeToAppend : AstNode α} (hnode : nodeToAppend.Valid23)
    (list : AstNode α) :
    list.Valid23 → nodeToAppend.listHeight ≤ list.listHeight →
    ∃ node up leavesNode leavesUp, appendInto nodeToAppend list = .ok (node, up) ∧
      IsTree list.listHeight leavesNode node ∧ IsUp list.listHeight leavesUp up ∧
      leavesNode ++ leavesUp = list.leaves ++ nodeToAppend.leaves := by
  induction list with
  | leaf node =>
    intro hlist hle
    have hzero : nodeToAppend.listHeight = 0 := Nat.le_zero.mp hle
    refine ⟨leaf node, some nodeToAppend, _, _, ?_, hlist.isTree, ⟨hnode, hzero, rfl⟩, rfl⟩
    simp [appendInto, hzero]
    rfl
  | list2 data item1 item2 ih1 ih2 =>
    intro hlist hle
    obtain ⟨hcaches, h1, h2⟩ := hlist
    have hh1 := hcaches.height item1 (by simp)
    have hh2 := hcaches.height item2 (by simp)
    by_cases hsame : nodeToAppend.listHeight = data.listHeight
    · refine ⟨list2 (toMutable data) item1 item2, some nodeToAppend, _, _, ?_,
        ⟨⟨hcaches.toMutable, h1, h2⟩, rfl, rfl⟩, ⟨hnode, hsame, rfl⟩, rfl⟩
      simp [appendInto, hsame, AstNode.toMutable]
      rfl
    · have hlt : nodeToAppend.listHeight < data.listHeight := lt_of_le_of_ne hle hsame
      obtain ⟨child, up, leavesChild, leavesUp, hdown, hchild, hup, hleaves⟩ :=
        ih2 h2 (by omega)
      have hh1' : item1.listHeight = item2.listHeight := by omega
      obtain ⟨node, htake, htree⟩ := takeLast_list2
        (show (AstNode.toMutable data).listHeight = _ from hh2.symm) rfl
        ⟨h1, hh1', rfl⟩ hchild hup
      rw [hh2] at htree
      refine ⟨node, none, _, [], ?_, htree, rfl, ?_⟩
      · simp [appendInto, hsame, AstNode.toMutable, throwIfImmutable]
        rw [bind_of_ok hdown]
        exact htake
      · simp [AstNode.leaves, hleaves]
  | list3 data item1 item2 item3 ih1 ih2 ih3 =>
    intro hlist hle
    obtain ⟨hcaches, h1, h2, h3⟩ := hlist
    have hh1 := hcaches.height item1 (by simp)
    have hh2 := hcaches.height item2 (by simp)
    have hh3 := hcaches.height item3 (by simp)
    by_cases hsame : nodeToAppend.listHeight = data.listHeight
    · refine ⟨list3 (AstNode.toMutable data) item1 item2 item3, some nodeToAppend, _, _, ?_,
        ⟨⟨hcaches.toMutable, h1, h2, h3⟩, rfl, rfl⟩, ⟨hnode, hsame, rfl⟩, rfl⟩
      simp [appendInto, hsame, AstNode.toMutable]
      rfl
    · have hlt : nodeToAppend.listHeight < data.listHeight := lt_of_le_of_ne hle hsame
      obtain ⟨child, up, leavesChild, leavesUp, hdown, hchild, hup, hleaves⟩ :=
        ih3 h3 (by omega)
      have hh1' : item1.listHeight = item3.listHeight := by omega
      have hh2' : item2.listHeight = item3.listHeight := by omega
      obtain ⟨node, sent, leavesNode, leavesSent, htake, htree, hsent, hsplit⟩ :=
        takeLast_list3
        (show (AstNode.toMutable data).listHeight = _ from hh3.symm) rfl
          ⟨h1, hh1', rfl⟩ ⟨h2, hh2', rfl⟩ hchild hup
      rw [hh3] at htree hsent
      refine ⟨node, sent, leavesNode, leavesSent, ?_, htree, hsent, ?_⟩
      · simp [appendInto, hsame, AstNode.toMutable, throwIfImmutable]
        rw [bind_of_ok hdown]
        exact htake
      · rw [hsplit, List.append_assoc, hleaves]
        simp [AstNode.leaves]

/-- Appending a tree that is not higher puts its leaves behind those of the list. -/
theorem append_spec {list nodeToAppend : AstNode α} (hlist : list.Valid23)
    (hnode : nodeToAppend.Valid23) (hle : nodeToAppend.listHeight ≤ list.listHeight) :
    ∃ node, append list nodeToAppend = .ok node ∧ node.Valid23 ∧
      node.leaves = list.leaves ++ nodeToAppend.leaves := by
  obtain ⟨node, up, leavesNode, leavesUp, hinto, htree, hup, hleaves⟩ :=
    appendInto_spec hnode list hlist hle
  cases up with
  | none =>
    refine ⟨node, by rw [append, bind_of_ok hinto]; rfl, htree.valid, ?_⟩
    rw [htree.leaves, ← hleaves, show leavesUp = [] from hup, List.append_nil]
  | some sent =>
    obtain ⟨root, hroot, hroottree⟩ := create23_two htree hup false
    refine ⟨root, by rw [append, bind_of_ok hinto]; exact hroot, hroottree.valid, ?_⟩
    rw [hroottree.leaves, hleaves]

/-- The way down and up of `prepend`, the other way round. -/
theorem prependInto_spec {nodeToPrepend : AstNode α} (hnode : nodeToPrepend.Valid23)
    (list : AstNode α) :
    list.Valid23 → nodeToPrepend.listHeight ≤ list.listHeight →
    ∃ node up leavesNode leavesUp, prependInto nodeToPrepend list = .ok (node, up) ∧
      IsTree list.listHeight leavesNode node ∧ IsUp list.listHeight leavesUp up ∧
      leavesUp ++ leavesNode = nodeToPrepend.leaves ++ list.leaves := by
  induction list with
  | leaf node =>
    intro hlist hle
    have hzero : nodeToPrepend.listHeight = 0 := Nat.le_zero.mp hle
    refine ⟨leaf node, some nodeToPrepend, _, _, ?_, hlist.isTree, ⟨hnode, hzero, rfl⟩, rfl⟩
    simp [prependInto, hzero]
    rfl
  | list2 data item1 item2 ih1 ih2 =>
    intro hlist hle
    obtain ⟨hcaches, h1, h2⟩ := hlist
    have hh1 := hcaches.height item1 (by simp)
    have hh2 := hcaches.height item2 (by simp)
    by_cases hsame : nodeToPrepend.listHeight = data.listHeight
    · refine ⟨list2 (AstNode.toMutable data) item1 item2, some nodeToPrepend, _, _, ?_,
        ⟨⟨hcaches.toMutable, h1, h2⟩, rfl, rfl⟩, ⟨hnode, hsame, rfl⟩, rfl⟩
      simp [prependInto, hsame, AstNode.toMutable]
      rfl
    · have hlt : nodeToPrepend.listHeight < data.listHeight := lt_of_le_of_ne hle hsame
      obtain ⟨child, up, leavesChild, leavesUp, hdown, hchild, hup, hleaves⟩ :=
        ih1 h1 (by omega)
      have hh2' : item2.listHeight = item1.listHeight := by omega
      obtain ⟨node, htake, htree⟩ := takeFirst_list2
        (show (AstNode.toMutable data).listHeight = _ from hh1.symm) rfl
        hchild ⟨h2, hh2', rfl⟩ hup
      rw [hh1] at htree
      refine ⟨node, none, _, [], ?_, htree, rfl, ?_⟩
      · simp [prependInto, hsame, AstNode.toMutable, throwIfImmutable]
        rw [bind_of_ok hdown]
        exact htake
      · simp [AstNode.leaves, hleaves]
  | list3 data item1 item2 item3 ih1 ih2 ih3 =>
    intro hlist hle
    obtain ⟨hcaches, h1, h2, h3⟩ := hlist
    have hh1 := hcaches.height item1 (by simp)
    have hh2 := hcaches.height item2 (by simp)
    have hh3 := hcaches.height item3 (by simp)
    by_cases hsame : nodeToPrepend.listHeight = data.listHeight
    · refine ⟨list3 (AstNode.toMutable data) item1 item2 item3, some nodeToPrepend, _, _, ?_,
        ⟨⟨hcaches.toMutable, h1, h2, h3⟩, rfl, rfl⟩, ⟨hnode, hsame, rfl⟩, rfl⟩
      simp [prependInto, hsame, AstNode.toMutable]
      rfl
    · have hlt : nodeToPrepend.listHeight < data.listHeight := lt_of_le_of_ne hle hsame
      obtain ⟨child, up, leavesChild, leavesUp, hdown, hchild, hup, hleaves⟩ :=
        ih1 h1 (by omega)
      have hh2' : item2.listHeight = item1.listHeight := by omega
      have hh3' : item3.listHeight = item1.listHeight := by omega
      obtain ⟨node, sent, leavesNode, leavesSent, htake, htree, hsent, hsplit⟩ :=
        takeFirst_list3
        (show (AstNode.toMutable data).listHeight = _ from hh1.symm) rfl
          hchild ⟨h2, hh2', rfl⟩ ⟨h3, hh3', rfl⟩ hup
      rw [hh1] at htree hsent
      refine ⟨node, sent, leavesNode, leavesSent, ?_, htree, hsent, ?_⟩
      · simp [prependInto, hsame, AstNode.toMutable, throwIfImmutable]
        rw [bind_of_ok hdown]
        exact htake
      · rw [hsplit, hleaves]
        simp [AstNode.leaves]

/-- Prepending a tree that is not higher puts its leaves in front of those of the list. -/
theorem prepend_spec {list nodeToPrepend : AstNode α} (hlist : list.Valid23)
    (hnode : nodeToPrepend.Valid23) (hle : nodeToPrepend.listHeight ≤ list.listHeight) :
    ∃ node, prepend list nodeToPrepend = .ok node ∧ node.Valid23 ∧
      node.leaves = nodeToPrepend.leaves ++ list.leaves := by
  obtain ⟨node, up, leavesNode, leavesUp, hinto, htree, hup, hleaves⟩ :=
    prependInto_spec hnode list hlist hle
  cases up with
  | none =>
    refine ⟨node, by rw [prepend, bind_of_ok hinto]; rfl, htree.valid, ?_⟩
    rw [htree.leaves, ← hleaves, show leavesUp = [] from hup, List.nil_append]
  | some sent =>
    obtain ⟨root, hroot, hroottree⟩ := create23_two hup htree false
    refine ⟨root, by rw [prepend, bind_of_ok hinto]; exact hroot, hroottree.valid, ?_⟩
    rw [hroottree.leaves, hleaves]

theorem concat_spec {node1 node2 : AstNode α} (h1 : node1.Valid23) (h2 : node2.Valid23) :
    ∃ node, concat node1 node2 = .ok node ∧ node.Valid23 ∧
      node.leaves = node1.leaves ++ node2.leaves := by
  unfold concat
  split_ifs with hsame hhigher
  · obtain ⟨node, hnode, htree⟩ := create23_two h1.isTree ⟨h2, hsame.symm, rfl⟩ false
    exact ⟨node, hnode, htree.valid, htree.leaves⟩
  · exact append_spec h1 h2 (by omega)
  · exact prepend_spec h2 h1 (by omega)

/-- The items of one height in front become one tree, the others are left. -/
theorem readNode_spec (item : AstNode α) (items : List (AstNode α))
    (h : ∀ other ∈ item :: items, other.Valid23) :
    ∃ node rest, readNode (item :: items) = .ok (some node, rest) ∧ node.Valid23 ∧
      (∀ other ∈ rest, other.Valid23) ∧
      node.leaves ++ rest.flatMap leaves = (item :: items).flatMap leaves := by
  have hsplit := List.takeWhile_append_dropWhile
    (p := fun other : AstNode α => decide (other.listHeight = item.listHeight)) (l := items)
  unfold readNode
  dsimp only
  generalize hsame : items.takeWhile
    (fun other => decide (other.listHeight = item.listHeight)) = same at hsplit ⊢
  generalize items.dropWhile
    (fun other => decide (other.listHeight = item.listHeight)) = rest at hsplit ⊢
  have hheights : ∀ other ∈ same, other.listHeight = item.listHeight := by
    rintro other hother
    rw [← hsame] at hother
    simpa using List.mem_takeWhile_imp hother
  subst hsplit
  have hrest : ∀ other ∈ rest, other.Valid23 := fun other hother => h other (by simp [hother])
  split_ifs with htwo
  · have htrees : AreTrees item.listHeight (item :: same) := by
      rintro other (_ | ⟨_, hother⟩)
      · exact ⟨h item (by simp), rfl⟩
      · exact ⟨h other (List.mem_cons_of_mem _ (List.mem_append_left rest hother)),
          hheights other hother⟩
    obtain ⟨node, hnode, hvalid, hleaves⟩ :=
      pairLoop_spec false (item :: same) htrees (by simpa using htwo)
    have hconcat : concat23TreesOfSameHeight (item :: same) false = .ok (some node) := by
      match same, htwo with
      | other :: same, _ =>
        rw [concat23TreesOfSameHeight, bind_of_ok hnode]
        · rfl
        · simp
        · simp
    refine ⟨node, rest, by rw [bind_of_ok hconcat]; rfl, hvalid, hrest, ?_⟩
    simp [hleaves]
  · have hnil : same = [] := List.eq_nil_of_length_eq_zero (by omega)
    subst hnil
    exact ⟨item, rest, rfl, h item (by simp), hrest, by simp⟩

theorem concatLoop_spec (items : List (AstNode α)) (first second : AstNode α)
    (hfirst : first.Valid23) (hsecond : second.Valid23) (h : ∀ item ∈ items, item.Valid23) :
    ∃ node, concatLoop first second items = .ok node ∧ node.Valid23 ∧
      node.leaves = first.leaves ++ second.leaves ++ items.flatMap leaves := by
  induction hn : items.length using Nat.strong_induction_on generalizing items first second with
  | _ n ih =>
    cases items with
    | nil =>
      have hloop : concatLoop first second [] = concat first second := by
        rw [concatLoop]
        rfl
      simpa [hloop] using concat_spec hfirst hsecond
    | cons item items =>
      obtain ⟨next, rest, hread, hnext, hrest, hleaves⟩ := readNode_spec item items h
      have hlt := length_readNode hread
      rw [concatLoop]
      split
      · rename_i hthrown
        rw [hread] at hthrown
        cases hthrown
      · rename_i hnone
        rw [hread] at hnone
        cases hnone
      · rename_i other rest' hsome
        rw [hread] at hsome
        cases hsome
        rw [← hleaves]
        split_ifs
        · obtain ⟨both, hboth, hvalid, hboths⟩ := concat_spec hfirst hsecond
          obtain ⟨node, hnode, hnodevalid, hnodeleaves⟩ :=
            ih rest.length (by omega) rest both next hvalid hnext hrest rfl
          refine ⟨node, by rw [bind_of_ok hboth, hnode], hnodevalid, ?_⟩
          rw [hnodeleaves, hboths]
          simp
        · obtain ⟨both, hboth, hvalid, hboths⟩ := concat_spec hsecond hnext
          obtain ⟨node, hnode, hnodevalid, hnodeleaves⟩ :=
            ih rest.length (by omega) rest first both hfirst hvalid hrest rfl
          refine ⟨node, by rw [bind_of_ok hboth, hnode], hnodevalid, ?_⟩
          rw [hnodeleaves, hboths]
          simp

/-- The whole: a valid tree with the leaves of the items in order, and no throw. -/
theorem concat23Trees_spec {items : List (AstNode α)} (hne : items ≠ [])
    (h : ∀ item ∈ items, item.Valid23) :
    ∃ root, concat23Trees items = .ok (some root) ∧ root.Valid23 ∧
      root.leaves = items.flatMap leaves := by
  match items with
  | [item] => exact ⟨item, rfl, h item (by simp), by simp⟩
  | item :: item2 :: items =>
    obtain ⟨first, rest, hread, hfirst, hrest, hleaves⟩ := readNode_spec item (item2 :: items) h
    rw [← hleaves]
    unfold concat23Trees
    dsimp only
    rw [bind_of_ok hread]
    cases rest with
    | nil => exact ⟨first, rfl, hfirst, by simp⟩
    | cons next rest =>
      obtain ⟨second, rest', hread', hsecond, hrest', hleaves'⟩ := readNode_spec next rest hrest
      obtain ⟨node, hnode, hvalid, hnodeleaves⟩ :=
        concatLoop_spec rest' first second hfirst hsecond hrest'
      refine ⟨node, ?_, hvalid, ?_⟩
      · dsimp only
        rw [bind_of_ok hread']
        dsimp only
        rw [bind_of_ok hnode]
        rfl
      · rw [hnodeleaves, ← hleaves', List.append_assoc]

/-- Valid trees of any heights are concatenated to a valid tree with their leaves in order. Each
of its nodes misses what its leaves miss, and is as long as they are when no line of the text
reaches `2 ^ 26` columns. -/
theorem concat23Trees_valid {items : List (AstNode α)} (hne : items ≠ [])
    (h : ∀ item ∈ items, item.Valid23) :
    ∃ root, concat23Trees items = .ok (some root) ∧ root.Valid23 ∧
      root.leaves = items.flatMap leaves ∧
      ∀ node ∈ root.nodes,
        (∀ key, node.missingOpeningBracketIds.has key =
          node.leaves.any fun leaf => leaf.missingOpeningBracketIds.has key) ∧
        (LeavesInRange root.leaves → node.length = sumLengths node.leaves Leaf.length) := by
  obtain ⟨root, hroot, hvalid, hleaves⟩ := concat23Trees_spec hne h
  refine ⟨root, hroot, hvalid, hleaves, ?_⟩
  intro node hnode
  exact ⟨(hvalid.of_mem_nodes hnode).1.missing, hvalid.length_eq_sumLengths hnode⟩

/-- A leaf of this many lines and columns that misses the bracket with this key. -/
def sampleLeaf (lineCount columnCount : ℤ) (missing : BitVec 32) : AstNode Unit :=
  leaf ⟨(), toLength lineCount columnCount, ⟨missing, []⟩⟩

/-- An immutable list of two leaves in front of a single leaf. -/
theorem concat23Trees_valid_lists :
    let list : AstNode Unit := list2
      ⟨toLength 1 2, 1, SmallImmutableSet.merge ⟨1, []⟩ ⟨2, []⟩, true⟩
      (sampleLeaf 1 0 1) (sampleLeaf 0 2 2)
    (∀ item ∈ [list, sampleLeaf 0 3 0], item.Valid23) ∧
    ∃ root, concat23Trees [list, sampleLeaf 0 3 0] = .ok (some root) ∧ root.Valid23 ∧
      root.leaves = [list, sampleLeaf 0 3 0].flatMap leaves ∧
      ∀ node ∈ root.nodes,
        (∀ key, node.missingOpeningBracketIds.has key =
          node.leaves.any fun leaf => leaf.missingOpeningBracketIds.has key) ∧
        (LeavesInRange root.leaves → node.length = sumLengths node.leaves Leaf.length) := by
  intro list
  have hlist : list.Valid23 := by
    refine ⟨⟨by decide, by decide, ?_⟩, trivial, trivial⟩
    intro key
    rw [SmallImmutableSet.has_merge]
    simp [sampleLeaf, missingOpeningBracketIds]
  have hitems : ∀ item ∈ [list, sampleLeaf 0 3 0], item.Valid23 := by
    simp only [List.mem_cons, List.not_mem_nil, or_false]
    rintro item (rfl | rfl)
    · exact hlist
    · trivial
  exact ⟨hitems, concat23Trees_valid (by simp) hitems⟩

/-- Four leaves on two lines, the first line of `2 ^ 26` columns. -/
def longLine : List (AstNode Unit) :=
  [sampleLeaf 0 0 0, sampleLeaf 0 (2 ^ 26 - 1) 0, sampleLeaf 0 1 0, sampleLeaf 1 0 0]

/-- The pairs of leaves of `longLine`, the second pair without the columns in front of the break. -/
def longLinePairs : List (AstNode Unit) :=
  [list2 ⟨toLength 0 (2 ^ 26 - 1), 1, SmallImmutableSet.getEmpty, false⟩
    (sampleLeaf 0 0 0) (sampleLeaf 0 (2 ^ 26 - 1) 0),
  list2 ⟨toLength 1 0, 1, SmallImmutableSet.getEmpty, false⟩ (sampleLeaf 0 1 0) (sampleLeaf 1 0 0)]

/-- The length of the root is not that of the leaves in order, as the columns of the first line
carry into the line count there. -/
theorem concat23Trees_longLine :
    (∀ item ∈ longLine, item.Valid23) ∧
    ∃ root, concat23Trees longLine = .ok (some root) ∧ root.leaves = longLine.flatMap leaves ∧
      root.length = toLength 1 0 ∧ sumLengths root.leaves Leaf.length = toLength 2 0 := by
  have hloop : pairLoop false longLine = lastNode false longLinePairs := by
    have hpairs : pairUp false longLine = .ok longLinePairs := by decide
    rw [pairLoop_of_ok (by decide) hpairs, pairLoop, if_neg (by decide)]
  obtain ⟨root, hroot, hleaves, hlength, hsum⟩ : ∃ root, lastNode false longLinePairs = .ok root ∧
      root.leaves = longLine.flatMap leaves ∧ root.length = toLength 1 0 ∧
      sumLengths root.leaves Leaf.length = toLength 2 0 :=
    ⟨_, rfl, by decide, by decide, by decide⟩
  rw [← hloop] at hroot
  refine ⟨by simp [longLine, sampleLeaf, Valid23], root, ?_, hleaves, hlength, hsum⟩
  have hread : readNode longLine = .ok (some root, []) := by
    change (concat23TreesOfSameHeight longLine false >>= fun node => pure (node, [])) = _
    have hsame : concat23TreesOfSameHeight longLine false = .ok (some root) := by
      change (pairLoop false longLine >>= fun node => pure (some node)) = _
      rw [bind_of_ok hroot]
      rfl
    rw [bind_of_ok hsame]
    rfl
  change (readNode longLine >>= _) = _
  rw [bind_of_ok hread]
  rfl

end NexgileIde.BracketPairs
