import NexgileIde.BracketPairs.Length

/-!
# Small immutable sets of dense keys

The first 32 keys are bits of `items`, each further 32 keys one of the
`additionalItems`. A merge is the union of the two sets.
-/
namespace NexgileIde.BracketPairs

structure SmallImmutableSet where
  items : BitVec 32
  additionalItems : List (BitVec 32)
  deriving DecidableEq, Repr

namespace SmallImmutableSet

def getEmpty : SmallImmutableSet := ⟨0, []⟩

def has (set : SmallImmutableSet) (key : ℕ) : Bool :=
  if key >>> 5 = 0 then set.items &&& 1 <<< key != 0
  else set.additionalItems.getD (key >>> 5 - 1) 0 &&& 1 <<< (key &&& 31) != 0

/-- The empty arrays of additional items are all taken for the shared one. -/
def merge (set other : SmallImmutableSet) : SmallImmutableSet :=
  let merged := set.items ||| other.items
  if set.additionalItems.isEmpty && other.additionalItems.isEmpty then
    if merged = set.items then set
    else if merged = other.items then other
    else ⟨merged, []⟩
  else
    ⟨merged, (List.range (max set.additionalItems.length other.additionalItems.length)).map
      fun i => set.additionalItems.getD i 0 ||| other.additionalItems.getD i 0⟩

theorem items_merge (set other : SmallImmutableSet) :
    (set.merge other).items = set.items ||| other.items := by
  unfold merge
  dsimp only
  split_ifs with hempty hset hother
  · exact hset.symm
  · exact hother.symm
  · rfl
  · rfl

theorem additionalItems_merge (set other : SmallImmutableSet) (i : ℕ) :
    (set.merge other).additionalItems.getD i 0 =
      set.additionalItems.getD i 0 ||| other.additionalItems.getD i 0 := by
  unfold merge
  dsimp only
  split_ifs with hempty hset hother
  · simp_all
  · simp_all
  · simp_all
  · rcases lt_or_ge i (max set.additionalItems.length other.additionalItems.length) with hi | hi
    · simp [List.getD_eq_getElem?_getD, List.getElem?_range hi]
    · have hleft : set.additionalItems.length ≤ i := by omega
      have hright : other.additionalItems.length ≤ i := by omega
      simp [List.getD_eq_getElem?_getD, hleft, hright]

/-- A bit is set in a disjunction when it is in one of the two. -/
theorem or_and_ne_zero (a b mask : BitVec 32) :
    ((a ||| b) &&& mask != 0) = ((a &&& mask != 0) || (b &&& mask != 0)) := by
  rw [BitVec.and_or_distrib_right, Bool.eq_iff_iff]
  simp only [Bool.or_eq_true, bne_iff_ne, ne_eq, BitVec.ofNat_eq_ofNat, BitVec.or_eq_zero_iff]
  tauto

@[simp] theorem has_merge (set other : SmallImmutableSet) (key : ℕ) :
    (set.merge other).has key = (set.has key || other.has key) := by
  unfold has
  split_ifs
  · rw [items_merge, or_and_ne_zero]
  · rw [additionalItems_merge, or_and_ne_zero]

end SmallImmutableSet

end NexgileIde.BracketPairs

/-!
## Nodes of bracket pair trees

A list of more than one node is a (2,3)-tree of list nodes. Each list node
caches its length, its height and the brackets its children miss. Nodes are
values here: what the source changes in place is returned, and a list node
carries whether it may be changed.
-/
namespace NexgileIde.BracketPairs

open Text

/-- A node that is not a list: a text, a bracket or a pair with what is inside it. -/
structure Leaf (α : Type) where
  node : α
  length : Length
  missingOpeningBracketIds : SmallImmutableSet
  deriving DecidableEq

/-- The fields of a list node besides its children. -/
structure ListData where
  length : Length
  listHeight : ℕ
  missingOpeningBracketIds : SmallImmutableSet
  /-- The node is an `Immutable23ListAstNode`. -/
  immutable : Bool
  deriving DecidableEq

/-- `list2` is a `TwoThreeListAstNode` without `item3`, `list3` one with it. -/
inductive AstNode (α : Type)
  | leaf (node : Leaf α)
  | list2 (data : ListData) (item1 item2 : AstNode α)
  | list3 (data : ListData) (item1 item2 item3 : AstNode α)
  deriving DecidableEq

/-- A result, or the text of what is thrown. -/
abbrev Result (β : Type) := Except String β

namespace AstNode

variable {α : Type}

def length : AstNode α → Length
  | leaf node => node.length
  | list2 data _ _ => data.length
  | list3 data _ _ _ => data.length

def listHeight : AstNode α → ℕ
  | leaf _ => 0
  | list2 data _ _ => data.listHeight
  | list3 data _ _ _ => data.listHeight

def missingOpeningBracketIds : AstNode α → SmallImmutableSet
  | leaf node => node.missingOpeningBracketIds
  | list2 data _ _ => data.missingOpeningBracketIds
  | list3 data _ _ _ => data.missingOpeningBracketIds

@[simp] theorem missingOpeningBracketIds_list2 (data : ListData) (item1 item2 : AstNode α) :
    (list2 data item1 item2).missingOpeningBracketIds = data.missingOpeningBracketIds := rfl

@[simp] theorem missingOpeningBracketIds_list3 (data : ListData) (item1 item2 item3 : AstNode α) :
    (list3 data item1 item2 item3).missingOpeningBracketIds = data.missingOpeningBracketIds := rfl

@[simp] theorem length_leaf (node : Leaf α) : (leaf node).length = node.length := rfl

@[simp] theorem length_list2 (data : ListData) (item1 item2 : AstNode α) :
    (list2 data item1 item2).length = data.length := rfl

@[simp] theorem length_list3 (data : ListData) (item1 item2 item3 : AstNode α) :
    (list3 data item1 item2 item3).length = data.length := rfl

/-- The children of a list, none for the other nodes. -/
def children : AstNode α → List (AstNode α)
  | leaf _ => []
  | list2 _ item1 item2 => [item1, item2]
  | list3 _ item1 item2 item3 => [item1, item2, item3]

def create23 (item1 item2 : AstNode α) (item3 : Option (AstNode α)) (immutable : Bool) :
    Result (AstNode α) :=
  let length := lengthAdd item1.length item2.length
  let missingBracketIds := item1.missingOpeningBracketIds.merge item2.missingOpeningBracketIds
  if item1.listHeight ≠ item2.listHeight then throw "Invalid list heights"
  else
    match item3 with
    | none => return list2 ⟨length, item1.listHeight + 1, missingBracketIds, immutable⟩ item1 item2
    | some item3 =>
      if item1.listHeight ≠ item3.listHeight then throw "Invalid list heights"
      else return list3 ⟨lengthAdd length item3.length, item1.listHeight + 1,
        missingBracketIds.merge item3.missingOpeningBracketIds, immutable⟩ item1 item2 item3

def throwIfImmutable (data : ListData) : Result Unit :=
  if data.immutable then throw "this instance is immutable" else return

def toMutable (data : ListData) : ListData := { data with immutable := false }

/-- The fields that `handleChildrenChanged` computes from the children. -/
def refresh (data : ListData) (first : AstNode α) (others : List (AstNode α)) : ListData :=
  { data with
    length := others.foldl (fun length child => lengthAdd length child.length) first.length
    missingOpeningBracketIds := others.foldl
      (fun brackets child => brackets.merge child.missingOpeningBracketIds)
      first.missingOpeningBracketIds }

def handleChildrenChanged : AstNode α → Result (AstNode α)
  | leaf _ => throw "handleChildrenChanged is not a function"
  | list2 data item1 item2 => do
    throwIfImmutable data
    return list2 (refresh data item1 [item2]) item1 item2
  | list3 data item1 item2 item3 => do
    throwIfImmutable data
    return list3 (refresh data item1 [item2, item3]) item1 item2 item3

def appendChildOfSameHeight (list node : AstNode α) : Result (AstNode α) :=
  match list with
  | leaf _ => throw "appendChildOfSameHeight is not a function"
  | list3 .. => throw "Cannot append to a full (2,3) tree node"
  | list2 data item1 item2 => do
    throwIfImmutable data
    handleChildrenChanged (list3 data item1 item2 node)

/-- The list without its last child, and that child. -/
def unappendChild : AstNode α → Result (AstNode α × AstNode α)
  | leaf _ => throw "unappendChild is not a function"
  | list2 .. => throw "Cannot remove from a non-full (2,3) tree node"
  | list3 data item1 item2 item3 => do
    throwIfImmutable data
    return (← handleChildrenChanged (list2 data item1 item2), item3)

def prependChildOfSameHeight (list node : AstNode α) : Result (AstNode α) :=
  match list with
  | leaf _ => throw "prependChildOfSameHeight is not a function"
  | list3 .. => throw "Cannot prepend to a full (2,3) tree node"
  | list2 data item1 item2 => do
    throwIfImmutable data
    handleChildrenChanged (list3 data node item1 item2)

/-- The list without its first child, and that child. -/
def unprependChild : AstNode α → Result (AstNode α × AstNode α)
  | leaf _ => throw "unprependChild is not a function"
  | list2 .. => throw "Cannot remove from a non-full (2,3) tree node"
  | list3 data item1 item2 item3 => do
    throwIfImmutable data
    return (← handleChildrenChanged (list2 data item2 item3), item1)

/-- The leaves of a node in order. -/
def leaves : AstNode α → List (Leaf α)
  | leaf node => [node]
  | list2 _ item1 item2 => item1.leaves ++ item2.leaves
  | list3 _ item1 item2 item3 => item1.leaves ++ item2.leaves ++ item3.leaves

/-- A node and all nodes below it. -/
def nodes : AstNode α → List (AstNode α)
  | leaf node => [leaf node]
  | list2 data item1 item2 => list2 data item1 item2 :: (item1.nodes ++ item2.nodes)
  | list3 data item1 item2 item3 =>
    list3 data item1 item2 item3 :: (item1.nodes ++ item2.nodes ++ item3.nodes)

/-- What a list node caches is what its children, all of one height, amount to. -/
structure Caches (data : ListData) (children : List (AstNode α)) : Prop where
  height : ∀ child ∈ children, child.listHeight + 1 = data.listHeight
  length : data.length = sumLengths children AstNode.length
  missing : ∀ key, data.missingOpeningBracketIds.has key =
    children.any fun child => child.missingOpeningBracketIds.has key

/-- A valid (2,3)-tree: each list node in it caches what its children amount to. -/
def Valid23 : AstNode α → Prop
  | leaf _ => True
  | list2 data item1 item2 => Caches data [item1, item2] ∧ item1.Valid23 ∧ item2.Valid23
  | list3 data item1 item2 item3 =>
    Caches data [item1, item2, item3] ∧ item1.Valid23 ∧ item2.Valid23 ∧ item3.Valid23

/-- A valid tree of this height with these leaves. -/
structure IsTree (height : ℕ) (leaves : List (Leaf α)) (node : AstNode α) : Prop where
  valid : node.Valid23
  height : node.listHeight = height
  leaves : node.leaves = leaves

theorem Valid23.isTree {node : AstNode α} (h : node.Valid23) :
    IsTree node.listHeight node.leaves node := ⟨h, rfl, rfl⟩

/-- Fresh fields over two trees of one height. -/
theorem isTree_list2 {data : ListData} {height : ℕ} {item1 item2 : AstNode α}
    {leaves1 leaves2 : List (Leaf α)} (hdata : data.listHeight = height + 1)
    (h1 : IsTree height leaves1 item1) (h2 : IsTree height leaves2 item2) :
    IsTree (height + 1) (leaves1 ++ leaves2) (list2 (refresh data item1 [item2]) item1 item2) where
  valid := by
    refine ⟨⟨?_, ?_, ?_⟩, h1.valid, h2.valid⟩
    · simp [refresh, hdata, h1.height, h2.height]
    · simp [refresh, sumLengths, lengthAdd_zero_left, lengthZero]
    · simp [refresh]
  height := hdata
  leaves := by rw [AstNode.leaves, h1.leaves, h2.leaves]

theorem isTree_list3 {data : ListData} {height : ℕ} {item1 item2 item3 : AstNode α}
    {leaves1 leaves2 leaves3 : List (Leaf α)} (hdata : data.listHeight = height + 1)
    (h1 : IsTree height leaves1 item1) (h2 : IsTree height leaves2 item2)
    (h3 : IsTree height leaves3 item3) :
    IsTree (height + 1) (leaves1 ++ leaves2 ++ leaves3)
      (list3 (refresh data item1 [item2, item3]) item1 item2 item3) where
  valid := by
    refine ⟨⟨?_, ?_, ?_⟩, h1.valid, h2.valid, h3.valid⟩
    · simp [refresh, hdata, h1.height, h2.height, h3.height]
    · simp [refresh, sumLengths, lengthAdd_zero_left, lengthZero]
    · simp [refresh, Bool.or_assoc]
  height := hdata
  leaves := by rw [AstNode.leaves, h1.leaves, h2.leaves, h3.leaves]

/-- What a valid tree misses is what its leaves miss. -/
theorem Valid23.missing {node : AstNode α} (h : node.Valid23) (key : ℕ) :
    node.missingOpeningBracketIds.has key =
      node.leaves.any fun leaf => leaf.missingOpeningBracketIds.has key := by
  induction node with
  | leaf node => simp [missingOpeningBracketIds, AstNode.leaves]
  | list2 data item1 item2 ih1 ih2 =>
    obtain ⟨hcaches, h1, h2⟩ := h
    simp [AstNode.leaves, hcaches.missing, ih1 h1, ih2 h2]
  | list3 data item1 item2 item3 ih1 ih2 ih3 =>
    obtain ⟨hcaches, h1, h2, h3⟩ := h
    simp [AstNode.leaves, hcaches.missing, ih1 h1, ih2 h2, ih3 h3]

/-- A valid tree is as long as the text of its leaves. -/
theorem Valid23.length_eq {node : AstNode α} (h : node.Valid23) {pieces : List TextLength}
    (hpieces : node.leaves.map Leaf.length = pieces.map encode) (hrange : InRange pieces) :
    node.length = encode pieces.sum := by
  induction node generalizing pieces with
  | leaf node =>
    obtain ⟨piece, rfl⟩ : ∃ piece, pieces = [piece] := by
      rw [← List.length_eq_one_iff]
      simpa [AstNode.leaves] using (congrArg List.length hpieces).symm
    simpa [AstNode.leaves] using hpieces
  | list2 data item1 item2 ih1 ih2 =>
    obtain ⟨hcaches, h1, h2⟩ := h
    rw [AstNode.leaves, List.map_append] at hpieces
    obtain ⟨front, back, rfl, hfront, hback⟩ := List.map_eq_append_iff.mp hpieces.symm
    have hlength : AstNode.length (list2 data item1 item2) =
        lengthAdd item1.length item2.length := by
      simpa [sumLengths, lengthZero] using hcaches.length
    rw [hlength, ih1 h1 hfront.symm hrange.left, ih2 h2 hback.symm hrange.right, hrange.lengthAdd]
  | list3 data item1 item2 item3 ih1 ih2 ih3 =>
    obtain ⟨hcaches, h1, h2, h3⟩ := h
    rw [AstNode.leaves, List.map_append, List.map_append] at hpieces
    obtain ⟨pair, back, rfl, hpair, hback⟩ := List.map_eq_append_iff.mp hpieces.symm
    obtain ⟨front, middle, rfl, hfront, hmiddle⟩ := List.map_eq_append_iff.mp hpair
    have hlength : AstNode.length (list3 data item1 item2 item3) =
        lengthAdd (lengthAdd item1.length item2.length) item3.length := by
      simpa [sumLengths, lengthZero] using hcaches.length
    rw [hlength, ih1 h1 hfront.symm hrange.left.left, ih2 h2 hmiddle.symm hrange.left.right,
      ih3 h3 hback.symm hrange.right, hrange.left.lengthAdd, hrange.lengthAdd]

/-- Each node of a valid tree is a valid tree over some of the leaves. -/
theorem Valid23.of_mem_nodes {root node : AstNode α} (h : root.Valid23) (hnode : node ∈ root.nodes) :
    node.Valid23 ∧ node.leaves <:+: root.leaves := by
  induction root with
  | leaf leaf =>
    rw [List.mem_singleton.mp hnode]
    exact ⟨h, List.infix_rfl⟩
  | list2 data item1 item2 ih1 ih2 =>
    rcases List.mem_cons.mp hnode with rfl | hbelow
    · exact ⟨h, List.infix_rfl⟩
    · obtain ⟨-, h1, h2⟩ := h
      rcases List.mem_append.mp hbelow with hbelow | hbelow
      · exact (ih1 h1 hbelow).imp_right fun hin => hin.trans (List.prefix_append _ _).isInfix
      · exact (ih2 h2 hbelow).imp_right fun hin => hin.trans (List.suffix_append _ _).isInfix
  | list3 data item1 item2 item3 ih1 ih2 ih3 =>
    rcases List.mem_cons.mp hnode with rfl | hbelow
    · exact ⟨h, List.infix_rfl⟩
    · obtain ⟨-, h1, h2, h3⟩ := h
      rcases List.mem_append.mp hbelow with hbelow | hbelow
      · rcases List.mem_append.mp hbelow with hbelow | hbelow
        · exact (ih1 h1 hbelow).imp_right fun hin => hin.trans ⟨[], _, by
            simp [AstNode.leaves]; rfl⟩
        · exact (ih2 h2 hbelow).imp_right fun hin => hin.trans ⟨item1.leaves, item3.leaves, rfl⟩
      · exact (ih3 h3 hbelow).imp_right fun hin => hin.trans (List.suffix_append _ _).isInfix

/-- The lengths of consecutive leaves of a text whose lines and line count stay below `2 ^ 26`. -/
def LeavesInRange (leaves : List (Leaf α)) : Prop :=
  ∃ pieces : List TextLength, leaves.map Leaf.length = pieces.map encode ∧ InRange pieces

theorem Valid23.length_eq_sumLengths {root node : AstNode α} (h : root.Valid23)
    (hnode : node ∈ root.nodes) (hrange : LeavesInRange root.leaves) :
    node.length = sumLengths node.leaves Leaf.length := by
  obtain ⟨hvalid, front, back, hleaves⟩ := h.of_mem_nodes hnode
  obtain ⟨pieces, hpieces, hrange⟩ := hrange
  rw [← hleaves, List.map_append, List.map_append] at hpieces
  obtain ⟨both, last, rfl, hboth, -⟩ := List.map_eq_append_iff.mp hpieces.symm
  obtain ⟨first, middle, rfl, -, hmiddle⟩ := List.map_eq_append_iff.mp hboth
  have hin := hrange.left.right
  rw [hvalid.length_eq hmiddle.symm hin, ← sumLengths_encode hin]
  unfold sumLengths
  rw [← List.foldl_map (f := encode) (g := lengthAdd), hmiddle,
    ← List.foldl_map (f := Leaf.length) (g := lengthAdd)]

theorem create23_two {height : ℕ} {item1 item2 : AstNode α} {leaves1 leaves2 : List (Leaf α)}
    (h1 : IsTree height leaves1 item1) (h2 : IsTree height leaves2 item2) (immutable : Bool) :
    ∃ node, create23 item1 item2 none immutable = .ok node ∧
      IsTree (height + 1) (leaves1 ++ leaves2) node := by
  have hheight : item1.listHeight = item2.listHeight := h1.height.trans h2.height.symm
  refine ⟨list2 (refresh ⟨0, item1.listHeight + 1, SmallImmutableSet.getEmpty, immutable⟩
    item1 [item2]) item1 item2, ?_, isTree_list2 (by rw [h1.height]) h1 h2⟩
  simp [create23, hheight, refresh]
  rfl

theorem create23_three {height : ℕ} {item1 item2 item3 : AstNode α}
    {leaves1 leaves2 leaves3 : List (Leaf α)} (h1 : IsTree height leaves1 item1)
    (h2 : IsTree height leaves2 item2) (h3 : IsTree height leaves3 item3) (immutable : Bool) :
    ∃ node, create23 item1 item2 (some item3) immutable = .ok node ∧
      IsTree (height + 1) (leaves1 ++ leaves2 ++ leaves3) node := by
  have h12 : item1.listHeight = item2.listHeight := h1.height.trans h2.height.symm
  have h13 : item1.listHeight = item3.listHeight := h1.height.trans h3.height.symm
  refine ⟨list3 (refresh ⟨0, item1.listHeight + 1, SmallImmutableSet.getEmpty, immutable⟩
    item1 [item2, item3]) item1 item2 item3, ?_, isTree_list3 (by rw [h1.height]) h1 h2 h3⟩
  rw [h12] at h13
  simp [create23, h12, h13, refresh]
  rfl

end AstNode

end NexgileIde.BracketPairs
