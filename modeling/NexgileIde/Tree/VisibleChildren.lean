import NexgileIde.Tree.ModelSteps

/-!
# The numbers of the visible children

Every node counts its visible children, and every visible child has its rank among them for its
number. Nodes that are created or filtered again are counted and numbered anew. A splice takes the
first number of the new nodes from a neighbour and makes no room for them behind it, so the
numbers stay right only at some places.
-/

namespace NexgileIde.Tree

open Library RoseTree

variable {T : Type}

def visibleCount (ts : List (IndexTreeNode T)) : ℤ := ts.countP fun t => t.label.visible

@[simp] theorem visibleCount_nil : visibleCount ([] : List (IndexTreeNode T)) = 0 := rfl

@[simp] theorem visibleCount_append (ts us : List (IndexTreeNode T)) :
    visibleCount (ts ++ us) = visibleCount ts + visibleCount us := by
  simp [visibleCount]

@[simp] theorem visibleCount_cons (t : IndexTreeNode T) (ts : List (IndexTreeNode T)) :
    visibleCount (t :: ts) = (if t.label.visible then 1 else 0) + visibleCount ts := by
  unfold visibleCount
  rw [List.countP_cons]
  split_ifs <;> push_cast <;> ring

theorem visibleCount_nonneg (ts : List (IndexTreeNode T)) : 0 ≤ visibleCount ts := by
  simp [visibleCount]

theorem visibleCount_eq_zero {ts : List (IndexTreeNode T)} :
    visibleCount ts = 0 ↔ ∀ t ∈ ts, t.label.visible = false := by
  simp [visibleCount, List.countP_eq_zero]

theorem visibleCount_map_numbered (f : IndexTreeNode T → ℤ) (ts : List (IndexTreeNode T)) :
    visibleCount (ts.map fun t => numbered (f t) t) = visibleCount ts := by
  induction ts with
  | nil => rfl
  | cons t ts ih => simp [ih]

/-- The visible nodes have the numbers from `start` on. -/
def NumberedFrom (start : ℤ) : List (IndexTreeNode T) → Prop
  | [] => True
  | t :: ts => (t.label.visible = true → t.label.visibleChildIndex = start) ∧
      NumberedFrom (start + if t.label.visible then 1 else 0) ts

/-- A node counts its visible children, and their numbers are their ranks. -/
structure ChildrenNumbered (node : IndexTreeNode T) : Prop where
  count : node.label.visibleChildrenCount = visibleCount node.children
  rank : ∀ i child, node.children[i]? = some child → child.label.visible = true →
    child.label.visibleChildIndex = visibleCount (node.children.take i)

/-- Every node of a tree counts and numbers its visible children. -/
def Numbered (root : IndexTreeNode T) : Prop :=
  ∀ location node, getTreeNode location root = some node → ChildrenNumbered node

section Lists

variable {ts us : List (IndexTreeNode T)} {start : ℤ}

theorem numberedFrom_append :
    NumberedFrom start (ts ++ us) ↔
      NumberedFrom start ts ∧ NumberedFrom (start + visibleCount ts) us := by
  induction ts generalizing start with
  | nil => simp [NumberedFrom]
  | cons t ts ih =>
    rw [List.cons_append, NumberedFrom, NumberedFrom, ih, visibleCount_cons, and_assoc, add_assoc]

theorem numberedFrom_of_invisible (h : visibleCount ts = 0) : NumberedFrom start ts := by
  rw [visibleCount_eq_zero] at h
  induction ts generalizing start with
  | nil => trivial
  | cons t ts ih =>
    rw [List.forall_mem_cons] at h
    exact ⟨fun ht => by simp [h.1] at ht, ih h.2⟩

/-- Two first numbers of one list are equal, if some node has one. -/
theorem NumberedFrom.start_eq {start' : ℤ} (h : NumberedFrom start ts)
    (h' : NumberedFrom start' ts) (hvisible : visibleCount ts ≠ 0) : start = start' := by
  induction ts generalizing start start' with
  | nil => exact absurd rfl hvisible
  | cons t ts ih =>
    cases ht : t.label.visible with
    | true => exact (h.1 ht).symm.trans (h'.1 ht)
    | false =>
      rw [visibleCount_cons, ht] at hvisible
      have hrest := ih h.2 h'.2 (by simpa using hvisible)
      simpa [ht] using hrest

theorem numberedFrom_iff :
    NumberedFrom start ts ↔ ∀ i t, ts[i]? = some t → t.label.visible = true →
      t.label.visibleChildIndex = start + visibleCount (ts.take i) := by
  induction ts generalizing start with
  | nil => simp [NumberedFrom]
  | cons t ts ih =>
    rw [NumberedFrom, ih]
    constructor
    · rintro ⟨hhead, htail⟩ i u hu hvisible
      cases i with
      | zero =>
        cases hu
        simpa using hhead hvisible
      | succ i =>
        rw [List.getElem?_cons_succ] at hu
        rw [htail i u hu hvisible, List.take_succ_cons, visibleCount_cons, add_assoc]
    · intro h
      refine ⟨fun hvisible => by simpa using h 0 t rfl hvisible, fun i u hu hvisible => ?_⟩
      rw [h (i + 1) u (by simpa using hu) hvisible, List.take_succ_cons, visibleCount_cons,
        add_assoc]

theorem childrenNumbered_iff {d : NodeData T} :
    ChildrenNumbered (.node d ts) ↔
      d.visibleChildrenCount = visibleCount ts ∧ NumberedFrom 0 ts := by
  rw [numberedFrom_iff]
  simp only [zero_add]
  exact ⟨fun h => ⟨h.count, h.rank⟩, fun h => ⟨h.1, h.2⟩⟩

theorem numbered_node_iff {d : NodeData T} :
    Numbered (.node d ts) ↔ ChildrenNumbered (.node d ts) ∧ ∀ t ∈ ts, Numbered t := by
  constructor
  · intro h
    refine ⟨h [] _ rfl, fun t ht location node hnode => ?_⟩
    obtain ⟨i, hi⟩ := List.mem_iff_getElem?.mp ht
    apply h (i :: location)
    unfold getTreeNode at hnode ⊢
    rw [get?_cons, hi, Option.bind_some, hnode]
  · rintro ⟨hroot, hchildren⟩ location node hnode
    cases location with
    | nil =>
      cases hnode
      exact hroot
    | cons i location =>
      unfold getTreeNode at hnode
      rw [get?_cons, Option.bind_eq_some_iff] at hnode
      obtain ⟨t, ht, hnode⟩ := hnode
      exact hchildren t (List.mem_of_getElem? ht) location node hnode

theorem numbered_iff {t : IndexTreeNode T} :
    Numbered t ↔ t.label.visibleChildrenCount = visibleCount t.children ∧
      NumberedFrom 0 t.children ∧ ∀ c ∈ t.children, Numbered c := by
  cases t
  rw [numbered_node_iff, childrenNumbered_iff, and_assoc]
  rfl

theorem Numbered.get? {root p : IndexTreeNode T} {path : List ℕ} (h : Numbered root)
    (hp : root.get? path = some p) : Numbered p := by
  intro location node hnode
  apply h (path ++ location)
  unfold getTreeNode at hnode ⊢
  rw [get?_append, hp, Option.bind_some, hnode]

theorem setVisibleChildIndex_index {d : NodeData T} (index : ℤ) (h : d.visible = true) :
    (d.setVisibleChildIndex index).visibleChildIndex = index := by
  simp [NodeData.setVisibleChildIndex, h]

theorem setVisibleChildIndex_count (d : NodeData T) (index : ℤ) :
    (d.setVisibleChildIndex index).visibleChildrenCount = d.visibleChildrenCount := by
  unfold NodeData.setVisibleChildIndex
  split_ifs <;> rfl

theorem Numbered.numbered {t : IndexTreeNode T} (h : Numbered t) (index : ℤ) :
    Numbered (numbered index t) := by
  rw [numbered_iff] at h ⊢
  rw [label_numbered, setVisibleChildIndex_count]
  exact h

theorem NumberedFrom.cons_numbered (t : IndexTreeNode T)
    (h : NumberedFrom (start + if t.label.visible then 1 else 0) ts) :
    NumberedFrom start (numbered start t :: ts) := by
  refine ⟨fun hvisible => ?_, ?_⟩
  · rw [label_numbered, setVisibleChildIndex_visible] at hvisible
    exact setVisibleChildIndex_index start hvisible
  · rwa [label_numbered, setVisibleChildIndex_visible]

/-- The shift of the nodes behind a splice -/
theorem NumberedFrom.shift (h : NumberedFrom start ts) (k : ℤ) :
    NumberedFrom (start - k)
      (ts.map fun t => Tree.numbered (t.label.visibleChildIndex - k) t) := by
  induction ts generalizing start with
  | nil => trivial
  | cons t ts ih =>
    obtain ⟨hhead, htail⟩ := h
    have hrest := ih htail
    rw [List.map_cons]
    refine ⟨fun hvisible => ?_, ?_⟩
    · rw [label_numbered, setVisibleChildIndex_visible] at hvisible
      rw [label_numbered, setVisibleChildIndex_index _ hvisible, hhead hvisible]
    · rw [label_numbered, setVisibleChildIndex_visible]
      convert hrest using 1
      ring

end Lists

section Places

/-- Another node at a place that is shown and numbered as the one before it. -/
theorem Numbered.replaceAt {root p p' : IndexTreeNode T} {path : List ℕ} (h : Numbered root)
    (hp : root.get? path = some p) (hvisible : p'.label.visible = p.label.visible)
    (hindex : p'.label.visibleChildIndex = p.label.visibleChildIndex) (hp' : Numbered p') :
    Numbered (replaceAt p' path root) ∧
      (replaceAt p' path root).label.visible = root.label.visible ∧
      (replaceAt p' path root).label.visibleChildIndex = root.label.visibleChildIndex := by
  induction path generalizing root with
  | nil =>
    rw [get?_nil, Option.some.injEq] at hp
    subst hp
    exact ⟨hp', hvisible, hindex⟩
  | cons i path ih =>
    obtain ⟨d, ts⟩ := root
    obtain ⟨as, c, bs, rfl, rfl, hc⟩ := get?_cons_eq_some hp
    rw [numbered_iff] at h
    obtain ⟨hcount, hfrom, hchildren⟩ := h
    rw [label_node, children_node] at *
    obtain ⟨hnumbered, hcvisible, hcindex⟩ := ih (hchildren c (by simp)) hc
    rw [RoseTree.replaceAt, modify_around]
    refine ⟨numbered_iff.mpr ⟨?_, ?_, ?_⟩, rfl, rfl⟩
    · simpa [hcvisible] using hcount
    · rw [numberedFrom_append] at hfrom
      rw [children_node, numberedFrom_append]
      refine ⟨hfrom.1, ?_, ?_⟩
      · rw [hcvisible, hcindex]
        exact hfrom.2.1
      · rw [hcvisible]
        exact hfrom.2.2
    · exact forall_mem_around hchildren hnumbered

theorem numbered_mapPath {root : IndexTreeNode T} (h : Numbered root) (diff : ℤ)
    (path : List ℕ) : Numbered (mapPath (NodeData.addCount diff) path root) ∧
      (mapPath (NodeData.addCount diff) path root).label.visible = root.label.visible ∧
      (mapPath (NodeData.addCount diff) path root).label.visibleChildIndex =
        root.label.visibleChildIndex := by
  induction path generalizing root with
  | nil =>
    obtain ⟨d, ts⟩ := root
    rw [numbered_iff] at h
    exact ⟨numbered_iff.mpr h, rfl, rfl⟩
  | cons i path ih =>
    obtain ⟨d, ts⟩ := root
    rw [mapPath]
    refine ⟨?_, rfl, rfl⟩
    rw [numbered_iff] at h
    obtain ⟨hcount, hfrom, hchildren⟩ := h
    rw [label_node, children_node] at *
    cases hi : ts[i]? with
    | none =>
      rw [List.modify_eq_self (List.getElem?_eq_none_iff.mp hi)]
      exact numbered_iff.mpr ⟨hcount, hfrom, hchildren⟩
    | some c =>
      obtain ⟨as, bs, rfl, rfl⟩ := exists_around hi
      obtain ⟨hnumbered, hvisible, hindex⟩ := ih (hchildren c (by simp))
      rw [modify_around]
      rw [numberedFrom_append] at hfrom
      refine numbered_iff.mpr ⟨?_, ?_, forall_mem_around hchildren hnumbered⟩
      · simpa [hvisible, NodeData.addCount] using hcount
      · rw [children_node, numberedFrom_append]
        refine ⟨hfrom.1, ?_, ?_⟩
        · rw [hvisible, hindex]
          exact hfrom.2.1
        · rw [hvisible]
          exact hfrom.2.2

end Places

section Create

variable (O : IndexTreeModelOptions T)

mutual

theorem createTreeNode_numbered : ∀ (el : TreeElement T) (depth : ℕ)
    (parentVisibility : TreeVisibility) (revealed : Bool) (acc : List ℕ) (clock : ℕ),
    Numbered (createTreeNode O depth parentVisibility revealed acc clock el).1
  | .mk element children collapsible collapsed, depth, parentVisibility, revealed, acc, clock => by
    rw [createTreeNode, numbered_iff]
    obtain ⟨hfrom, hcount, hnodes⟩ := createTreeNodes_numbered children _ _ _ _ _ 0
    exact ⟨hcount, hfrom, hnodes⟩

/-- The new nodes are numbered from the first number on. -/
theorem createTreeNodes_numbered : ∀ (els : List (TreeElement T)) (depth : ℕ)
    (parentVisibility : TreeVisibility) (revealed : Bool) (acc : List ℕ) (clock : ℕ) (start : ℤ),
    NumberedFrom start
        (createTreeNodes O depth parentVisibility revealed acc clock start els).nodes ∧
      (createTreeNodes O depth parentVisibility revealed acc clock start els).visibleChildrenCount =
        visibleCount (createTreeNodes O depth parentVisibility revealed acc clock start els).nodes ∧
      ∀ t ∈ (createTreeNodes O depth parentVisibility revealed acc clock start els).nodes, Numbered t
  | [], _, _, _, _, _, _ => by
    rw [createTreeNodes]
    exact ⟨trivial, rfl, nofun⟩
  | el :: els, depth, parentVisibility, revealed, acc, clock, start => by
    rw [createTreeNodes]
    have hchild := createTreeNode_numbered el depth parentVisibility revealed acc clock
    generalize createTreeNode O depth parentVisibility revealed acc clock el = r at hchild ⊢
    obtain ⟨child, pushed, next⟩ := r
    obtain ⟨hfrom, hcount, hnodes⟩ := createTreeNodes_numbered els depth parentVisibility revealed
      pushed next (start + if child.label.visible then 1 else 0)
    refine ⟨NumberedFrom.cons_numbered child hfrom, ?_, ?_⟩
    · rw [visibleCount_cons, label_numbered, setVisibleChildIndex_visible]
      exact congrArg (fun k => (if child.label.visible then 1 else 0) + k) hcount
    · rw [List.forall_mem_cons]
      exact ⟨hchild.numbered start, hnodes⟩

end

mutual

/-- The number of the elements in an element, itself one of them -/
def TreeElement.size : TreeElement T → ℕ
  | .mk _ children _ _ => 1 + sizes children

def sizes : List (TreeElement T) → ℕ
  | [] => 0
  | el :: els => el.size + sizes els

end

mutual

/-- The filter lets an element be visible, or one of those in it if that is what it asks for. -/
def shows (clock : ℕ) (parentVisibility : TreeVisibility) : TreeElement T → Bool
  | .mk element children _ _ =>
    match O.filterNode clock element (some parentVisibility) with
    | .visible => true
    | .hidden => false
    | .recurse => showsAny (clock + 1) .recurse children

def showsAny (clock : ℕ) (parentVisibility : TreeVisibility) : List (TreeElement T) → Bool
  | [] => false
  | el :: els => shows clock parentVisibility el || showsAny (clock + el.size) parentVisibility els

end

theorem decide_pos_add (visible : Bool) {count : ℤ} (h : 0 ≤ count) :
    decide (0 < (if visible then 1 else 0) + count) = (visible || decide (0 < count)) := by
  cases visible with
  | true =>
    rw [if_pos rfl, Bool.true_or, decide_eq_true_iff]
    omega
  | false => simp

mutual

theorem createTreeNode_visible : ∀ (el : TreeElement T) (depth : ℕ)
    (parentVisibility : TreeVisibility) (revealed : Bool) (acc : List ℕ) (clock : ℕ),
    (createTreeNode O depth parentVisibility revealed acc clock el).1.label.visible =
        shows O clock parentVisibility el ∧
      (createTreeNode O depth parentVisibility revealed acc clock el).2.2 = clock + el.size
  | .mk element children collapsible collapsed, depth, parentVisibility, revealed, acc, clock => by
    rw [createTreeNode, shows, TreeElement.size]
    cases hvisibility : O.filterNode clock element (some parentVisibility) with
    | visible =>
      obtain ⟨-, hclock⟩ := createTreeNodes_visible children (depth + 1) .visible
        (revealed && TreeVisibility.visible ≠ .hidden && !collapsed.getD O.collapseByDefault)
        (if revealed then acc ++ [clock] else acc) (clock + 1) 0
      exact ⟨by simp, hclock.trans (by ring)⟩
    | hidden =>
      obtain ⟨-, hclock⟩ := createTreeNodes_visible children (depth + 1) .hidden
        (revealed && TreeVisibility.hidden ≠ .hidden && !collapsed.getD O.collapseByDefault)
        (if revealed then acc ++ [clock] else acc) (clock + 1) 0
      exact ⟨by simp, hclock.trans (by ring)⟩
    | recurse =>
      obtain ⟨hshows, hclock⟩ := createTreeNodes_visible children (depth + 1) .recurse
        (revealed && TreeVisibility.recurse ≠ .hidden && !collapsed.getD O.collapseByDefault)
        (if revealed then acc ++ [clock] else acc) (clock + 1) 0
      refine ⟨?_, hclock.trans (by ring)⟩
      rw [label_node, if_pos rfl, hshows]

/-- A new node is visible if the filter shows one of the elements. -/
theorem createTreeNodes_visible : ∀ (els : List (TreeElement T)) (depth : ℕ)
    (parentVisibility : TreeVisibility) (revealed : Bool) (acc : List ℕ) (clock : ℕ) (start : ℤ),
    decide (0 < (createTreeNodes O depth parentVisibility revealed acc clock start
          els).visibleChildrenCount) = showsAny O clock parentVisibility els ∧
      (createTreeNodes O depth parentVisibility revealed acc clock start els).clock =
        clock + sizes els
  | [], _, _, _, _, _, _ => by
    rw [createTreeNodes, showsAny, sizes]
    exact ⟨by simp, rfl⟩
  | el :: els, depth, parentVisibility, revealed, acc, clock, start => by
    rw [createTreeNodes, showsAny, sizes]
    obtain ⟨hvisible, hclock⟩ :=
      createTreeNode_visible el depth parentVisibility revealed acc clock
    generalize createTreeNode O depth parentVisibility revealed acc clock el = r at hvisible hclock ⊢
    obtain ⟨child, pushed, next⟩ := r
    dsimp only at hvisible hclock ⊢
    subst hclock
    have hnonneg := (createTreeNodes_numbered O els depth parentVisibility revealed pushed
      (clock + el.size) (start + if child.label.visible then 1 else 0)).2.1
    obtain ⟨hshows, hclock⟩ := createTreeNodes_visible els depth parentVisibility revealed pushed
      (clock + el.size) (start + if child.label.visible then 1 else 0)
    refine ⟨?_, hclock.trans (by ring)⟩
    rw [← hshows, ← hvisible]
    have := visibleCount_nonneg (createTreeNodes O depth parentVisibility revealed pushed
      (clock + el.size) (start + if child.label.visible then 1 else 0) els).nodes
    rw [← hnonneg] at this
    exact decide_pos_add child.label.visible this

end

end Create

section Refilter

variable (O : IndexTreeModelOptions T)

mutual

theorem updateNodeAfterFilterChange_numbered : ∀ (t : IndexTreeNode T)
    (parentVisibility : Option TreeVisibility) (acc : List ℕ) (revealed : Bool) (clock : ℕ),
    Numbered t → Numbered (updateNodeAfterFilterChange O parentVisibility acc revealed clock t).1
  | .node d ts, parentVisibility, acc, revealed, clock, h => by
    rw [numbered_iff] at h
    rw [updateNodeAfterFilterChange]
    dsimp only
    by_cases hhidden : O.filterNode clock d.element parentVisibility = .hidden
    · rw [if_pos hhidden]
      exact numbered_iff.mpr h
    · rw [if_neg hhidden, numbered_iff]
      obtain ⟨hfrom, hcount, hnodes⟩ := updateNodesAfterFilterChange_numbered ts
        (some (O.filterNode clock d.element parentVisibility))
        (if revealed then acc ++ [d.id] else acc) (revealed && !d.collapsed) (clock + 1) 0 h.2.2
      exact ⟨by simpa using hcount, hfrom, hnodes⟩

theorem updateNodesAfterFilterChange_numbered : ∀ (ts : List (IndexTreeNode T))
    (parentVisibility : Option TreeVisibility) (acc : List ℕ) (revealed : Bool) (clock : ℕ)
    (start : ℤ), (∀ t ∈ ts, Numbered t) →
    NumberedFrom start
        (updateNodesAfterFilterChange O parentVisibility acc revealed clock start ts).nodes ∧
      (updateNodesAfterFilterChange O parentVisibility acc revealed clock start
          ts).visibleChildIndex = start + visibleCount
        (updateNodesAfterFilterChange O parentVisibility acc revealed clock start ts).nodes ∧
      ∀ t ∈ (updateNodesAfterFilterChange O parentVisibility acc revealed clock start ts).nodes,
        Numbered t
  | [], _, _, _, _, _, _ => by
    rw [updateNodesAfterFilterChange]
    exact ⟨trivial, by simp, nofun⟩
  | t :: ts, parentVisibility, acc, revealed, clock, start, h => by
    rw [List.forall_mem_cons] at h
    rw [updateNodesAfterFilterChange]
    have hchild := updateNodeAfterFilterChange_numbered t parentVisibility acc revealed clock h.1
    generalize updateNodeAfterFilterChange O parentVisibility acc revealed clock t = r at hchild ⊢
    obtain ⟨child, pushed, next⟩ := r
    obtain ⟨hfrom, hcount, hnodes⟩ := updateNodesAfterFilterChange_numbered ts parentVisibility
      pushed revealed next (start + if child.label.visible then 1 else 0) h.2
    refine ⟨NumberedFrom.cons_numbered child hfrom, ?_, ?_⟩
    · rw [visibleCount_cons, label_numbered, setVisibleChildIndex_visible, ← add_assoc]
      exact hcount
    · rw [List.forall_mem_cons]
      exact ⟨hchild.numbered start, hnodes⟩

end

/-- A refilter counts and numbers the children of the root anew, and of every node that it does not
hide. -/
theorem refilter_numbered {m : IndexTreeModel T} (h : Numbered m.root) :
    Numbered (m.refilter O).1.root := by
  rw [numbered_iff] at h
  unfold IndexTreeModel.refilter
  dsimp only
  rw [numbered_iff]
  obtain ⟨hfrom, hcount, hnodes⟩ := updateNodesAfterFilterChange_numbered O m.root.children none []
    (!m.root.label.collapsed) m.clock 0 h.2.2
  exact ⟨by simpa using hcount, hfrom, hnodes⟩

end Refilter

section Splice

/-- No visible child stays behind the deleted ones, and there is a visible child at the place, or
none before it. -/
def FitsAt (i n : ℕ) (children : List (IndexTreeNode T)) : Prop :=
  visibleCount (children.drop (i + n)) = 0 ∧
    ((∃ child, children[i]? = some child ∧ child.label.visible = true) ∨
      visibleCount (children.take i) = 0)

variable {children : List (IndexTreeNode T)}

theorem find?_reverse_concat {p : IndexTreeNode T → Bool} (ts : List (IndexTreeNode T))
    (t : IndexTreeNode T) : (ts ++ [t]).reverse.find? p =
      if p t then some t else ts.reverse.find? p := by
  rw [List.reverse_concat, List.find?_cons]
  cases p t <;> rfl

/-- The last visible node has the last number. -/
theorem NumberedFrom.last {ts : List (IndexTreeNode T)} (h : NumberedFrom 0 ts) :
    (ts.reverse.find? fun child => child.label.visible).elim 0
        (fun child => child.label.visibleChildIndex) =
      if visibleCount ts = 0 then 0 else visibleCount ts - 1 := by
  induction ts using List.reverseRecOn with
  | nil => rfl
  | append_singleton ts t ih =>
    rw [numberedFrom_append] at h
    obtain ⟨hinit, hlast, -⟩ := h
    have hnonneg := visibleCount_nonneg ts
    rw [find?_reverse_concat, visibleCount_append, visibleCount_cons, visibleCount_nil]
    cases ht : t.label.visible with
    | true =>
      rw [if_pos rfl, Option.elim_some, hlast ht, if_pos rfl, if_neg (by omega)]
      ring
    | false =>
      rw [if_neg (by simp), ih hinit]
      simp

/-- The number that a splice begins with is the right one at a visible child, and where no child
before the place is visible. -/
theorem visibleChildStartIndex_eq_iff (h : NumberedFrom 0 children) {i : ℕ}
    (hi : i ≤ children.length) :
    IndexTreeModel.visibleChildStartIndex i children = visibleCount (children.take i) ↔
      (∃ child, children[i]? = some child ∧ child.label.visible = true) ∨
        visibleCount (children.take i) = 0 := by
  unfold IndexTreeModel.visibleChildStartIndex
  rcases hi.lt_or_eq with hlt | rfl
  · have hget : children[i]? = some children[i] := List.getElem?_eq_getElem hlt
    have htake : children.take (i + 1) = children.take i ++ [children[i]] :=
      List.take_succ_eq_append_getElem hlt
    have hinit : NumberedFrom 0 (children.take (i + 1)) := by
      rw [← List.take_append_drop (i + 1) children, numberedFrom_append] at h
      exact h.1
    have hnonneg := visibleCount_nonneg (children.take i)
    rw [if_pos hlt, hinit.last, htake, visibleCount_append, visibleCount_cons, visibleCount_nil,
      hget]
    simp only [Option.some.injEq, exists_eq_left']
    cases children[i].label.visible with
    | true => simp; omega
    | false => simp; omega
  · rw [if_neg (lt_irrefl _), List.getElem?_eq_none le_rfl]
    constructor
    · intro hstart
      exact .inr hstart.symm
    · rintro (⟨child, hnone, -⟩ | hzero)
      · cases hnone
      · exact hzero.symm

variable {p : IndexTreeNode T} {created : Created T} {i n : ℕ}

theorem visibleCount_split (i n : ℕ) (ts : List (IndexTreeNode T)) :
    visibleCount ts = visibleCount (ts.take i) + visibleCount ((ts.drop i).take n) +
      visibleCount (ts.drop (i + n)) := by
  rw [← visibleCount_append, ← visibleCount_append, List.append_assoc, ← List.drop_drop,
    List.take_append_drop, List.take_append_drop]

/-- The children after a splice have their ranks if and only if no new node is visible, or the
place fits. -/
theorem spliceChildren_numbered_iff (hp : ChildrenNumbered p) (hi : i ≤ p.children.length)
    (hfrom : NumberedFrom (IndexTreeModel.visibleChildStartIndex i p.children) created.nodes)
    (hcount : created.visibleChildrenCount = visibleCount created.nodes) :
    ChildrenNumbered (IndexTreeModel.spliceChildren i n created p) ↔
      visibleCount created.nodes = 0 ∨ FitsAt i n p.children := by
  obtain ⟨d, children⟩ := p
  rw [childrenNumbered_iff] at hp
  rw [children_node] at hi hfrom ⊢
  have hsplit := visibleCount_split i n children
  have hstart := visibleChildStartIndex_eq_iff hp.2 hi
  have hparts := hp.2
  rw [← List.take_append_drop (i + n) children, numberedFrom_append] at hparts
  have hbefore : NumberedFrom 0 (children.take i) := by
    have h := hp.2
    rw [← List.take_append_drop i children, numberedFrom_append] at h
    exact h.1
  have hrest := hparts.2.shift (visibleCount ((children.drop i).take n))
  have hoffset : 0 + visibleCount (children.take (i + n)) -
      visibleCount ((children.drop i).take n) = visibleCount (children.take i) := by
    rw [List.take_add, visibleCount_append]
    ring
  rw [hoffset] at hrest
  unfold IndexTreeModel.spliceChildren
  dsimp only
  rw [childrenNumbered_iff, numberedFrom_append, numberedFrom_append, visibleCount_append,
    visibleCount_append, visibleCount_map_numbered, hcount, hp.1, zero_add]
  change _ = _ ∧ (_ ∧ _) ∧ NumberedFrom _ (List.map (fun child => numbered
    (child.label.visibleChildIndex - visibleCount ((children.drop i).take n)) child) _) ↔ _
  have hdeleted : ((((children.drop i).take n).countP fun child => child.label.visible : ℕ) : ℤ) =
      visibleCount ((children.drop i).take n) := rfl
  rw [hdeleted]
  have hbehind : visibleCount ((children.drop (i + n)).map fun child => numbered
      (child.label.visibleChildIndex - visibleCount ((children.drop i).take n)) child) =
        visibleCount (children.drop (i + n)) := visibleCount_map_numbered _ _
  unfold FitsAt
  rw [← hstart]
  constructor
  · rintro ⟨-, ⟨-, hnew⟩, hrest'⟩
    by_cases hnone : visibleCount created.nodes = 0
    · exact .inl hnone
    · refine .inr ⟨?_, hfrom.start_eq hnew hnone⟩
      by_contra hsome
      have := hrest.start_eq hrest' (hbehind ▸ hsome)
      rw [zero_add] at this
      omega
  · intro h
    rw [zero_add]
    refine ⟨?_, ⟨hbefore, ?_⟩, ?_⟩
    · dsimp only
      rw [hsplit]
      ring
    · rcases h with hnone | ⟨-, heq⟩
      · exact numberedFrom_of_invisible hnone
      · exact heq ▸ hfrom
    · rcases h with hnone | ⟨hnone, -⟩
      · rw [hnone, add_zero]
        exact hrest
      · exact numberedFrom_of_invisible (hbehind.trans hnone)

end Splice

end NexgileIde.Tree

/-!
## Smart splices

A splice with an identity provider compares the ids of the children that a node had after the last
splice with those it is to have, and splices only what the comparison says has changed; below the
children that stay it goes on in the same way. The comparison is a parameter. Every change of the
tree is made by a simple splice, also where a smart one throws on its way.
-/

namespace NexgileIde.Tree

open Library RoseTree

variable {T : Type}

/-- A stretch of the ids before, and the stretch of the ids after that replaces it -/
structure DiffChange where
  originalStart : ℕ
  originalLength : ℕ
  modifiedStart : ℕ
  modifiedLength : ℕ

/-- The answer of `LcsDiff.ComputeDiff` -/
structure DiffResult where
  changes : List DiffChange
  quitEarly : Bool

structure DiffIdentityOptions (T : Type) where
  /-- `diffIdentityProvider.getId` -/
  getId : T → String
  /-- `diffDepth`, none for infinity. -/
  diffDepth : Option ℕ

/-- A tree whose nodes, known by their numbers, keep the ids of their children. -/
structure SmartModel (T : Type) where
  model : IndexTreeModel T
  lastDiffIds : ℕ → Option (List String)

def TreeElement.element : TreeElement T → T
  | .mk element _ _ _ => element

namespace SmartModel

def new (rootElement : T) : SmartModel T := ⟨IndexTreeModel.new rootElement, fun _ => none⟩

def setLastDiffIds (m : SmartModel T) (id : ℕ) (ids : Option (List String)) : SmartModel T :=
  { m with lastDiffIds := fun i => if i = id then ids else m.lastDiffIds i }

end SmartModel

/-- What a splice has done: the simple splices that it made, and the model that it leaves. -/
structure Made (T : Type) where
  commands : List (Command T)
  model : SmartModel T
  threw : Bool

/-- Goes on with the model, unless something was thrown. -/
def Made.andThen (r : Made T) (next : SmartModel T → Made T) : Made T :=
  if r.threw then r
  else ⟨r.commands ++ (next r.model).commands, (next r.model).model, (next r.model).threw⟩

/-- `Iterable.slice` -/
def iterableSlice {α : Type} (arr : List α) (start stop : ℤ) : List α :=
  let start := if start < -arr.length then 0 else start
  let start := if start < 0 then start + arr.length else start
  let stop := if stop < 0 then stop + arr.length else min stop arr.length
  (arr.drop start.toNat).take (stop - start).toNat

/-- `Number.MAX_SAFE_INTEGER` -/
def maxSafeInteger : ℕ := 9007199254740991

section Splices

variable (O : IndexTreeModelOptions T)

/-- A simple splice, and the ids that the parent keeps after it. -/
def spliceSimple (getId : Option (T → String)) (location : List ℕ) (deleteCount : ℤ)
    (toInsert : List (TreeElement T)) (m : SmartModel T) : Made T :=
  match getTreeNode location.dropLast m.model.root,
      m.model.spliceSimple O location deleteCount toInsert with
  | some parentNode, some (model, _) =>
    let lastIndex := location.getLastD 0
    let ids := getId.bind fun getId =>
      match m.lastDiffIds parentNode.label.id with
      | some ids => some (ids.take lastIndex ++ toInsert.map (fun el => getId el.element) ++
          ids.drop (lastIndex + deleteCount.toNat))
      | none => (getTreeNode location.dropLast model.root).map fun parentNode =>
          parentNode.children.map fun child => getId child.label.element
    ⟨[.splice location deleteCount toInsert],
      { m with model }.setLastDiffIds parentNode.label.id ids, false⟩
  | _, _ => ⟨[], m, true⟩

/-- A smart splice of the children of an element: of the levels to go on, and of a location. -/
abbrev ChildSplice (T : Type) := Option ℕ → List ℕ → SmartModel T → Made T

/-- The loop that goes on below `count` nodes before a place; `childSplices` are those of the
elements to insert. -/
def recurseSplice (levels : Option ℕ) (locationPrefix : List ℕ) (childSplices : List (ChildSplice T)) :
    (count fromOriginal : ℕ) → (fromModified : ℤ) → SmartModel T → Made T
  | 0, _, _, m => ⟨[], m, false⟩
  | count + 1, fromOriginal, fromModified, m =>
    if levels = some 0 then ⟨[], m, false⟩
    else
      match (if fromModified - 1 < 0 then none else childSplices[(fromModified - 1).toNat]?) with
      -- the element is undefined
      | none => ⟨[], m, true⟩
      | some childSplice =>
        (childSplice (levels.map (· - 1)) (locationPrefix ++ [fromOriginal - 1, 0]) m).andThen
          (recurseSplice levels locationPrefix childSplices count (fromOriginal - 1)
            (fromModified - 1))

/-- The loop over the changes, the last one first. -/
def spliceChanges (options : DiffIdentityOptions T) (levels : Option ℕ) (locationPrefix : List ℕ)
    (index : ℕ) (toInsert : List (TreeElement T)) (childSplices : List (ChildSplice T)) :
    List DiffChange → (lastStartO : ℕ) → (lastStartM : ℤ) → SmartModel T → Made T
  | [], lastStartO, lastStartM, m =>
    recurseSplice levels locationPrefix childSplices lastStartO lastStartO lastStartM m
  | change :: changes, lastStartO, lastStartM, m =>
    let startM : ℤ := change.modifiedStart - index
    ((recurseSplice levels locationPrefix childSplices
        (lastStartO - (change.originalStart + change.originalLength)) lastStartO lastStartM
        m).andThen
      (spliceSimple O (some options.getId) (locationPrefix ++ [change.originalStart])
        change.originalLength (iterableSlice toInsert startM (startM + change.modifiedLength)))).andThen
      (spliceChanges options levels locationPrefix index toInsert childSplices changes
        change.originalStart startM)

variable (computeDiff : List String → List String → DiffResult)

/-- `spliceSmart`, with the smart splices of the children of the elements to insert. -/
def spliceSmartWith (options : DiffIdentityOptions T) (levels : Option ℕ) (location : List ℕ)
    (deleteCount : ℕ) (toInsert : List (TreeElement T)) (childSplices : List (ChildSplice T))
    (m : SmartModel T) : Made T :=
  match getParentNodeWithListIndex location m.model.root 0 true true with
  | none => ⟨[], m, true⟩
  | some info =>
    let parentNode := info.parentNode
    match m.lastDiffIds parentNode.label.id with
    | none => spliceSimple O (some options.getId) location deleteCount toInsert m
    | some lastDiffIds =>
      let index := location.getLastD 0
      let elements := (parentNode.children.take index).map (fun child => child.label.element) ++
        toInsert.map TreeElement.element ++
        (parentNode.children.drop (index + deleteCount)).map fun child => child.label.element
      let diff := computeDiff lastDiffIds (elements.map options.getId)
      if diff.quitEarly then
        spliceSimple O (some options.getId) location deleteCount toInsert
          (m.setLastDiffIds parentNode.label.id none)
      else
        spliceChanges O options levels location.dropLast index toInsert childSplices
          (diff.changes.mergeSort fun a b => b.originalStart ≤ a.originalStart)
          (min parentNode.children.length (index + deleteCount)) toInsert.length m

mutual

def childSplice (options : DiffIdentityOptions T) : TreeElement T → ChildSplice T
  | .mk _ children _ _ => fun levels location m =>
    spliceSmartWith O computeDiff options levels location maxSafeInteger children
      (childSplices options children) m

def childSplices (options : DiffIdentityOptions T) : List (TreeElement T) → List (ChildSplice T)
  | [] => []
  | el :: els => childSplice options el :: childSplices options els

end

def spliceSmart (options : DiffIdentityOptions T) (location : List ℕ) (deleteCount : ℕ)
    (toInsert : List (TreeElement T)) (m : SmartModel T) : Made T :=
  spliceSmartWith O computeDiff options options.diffDepth location deleteCount toInsert
    (childSplices O computeDiff options toInsert) m

/-- `splice` -/
def splice (location : List ℕ) (deleteCount : ℕ) (toInsert : List (TreeElement T))
    (options : Option (DiffIdentityOptions T)) (m : SmartModel T) : Made T :=
  if location = [] then ⟨[], m, true⟩
  else
    match options with
    | some options => spliceSmart O computeDiff options location deleteCount toInsert m
    | none => spliceSimple O none location deleteCount toInsert m

end Splices

/-- The calls that splice or filter. -/
inductive TreeUpdate (T : Type)
  | splice (location : List ℕ) (deleteCount : ℕ) (toInsert : List (TreeElement T))
      (options : Option (DiffIdentityOptions T))
  | refilter
  | delayedRefilter

section Run

variable (O : IndexTreeModelOptions T) (computeDiff : List String → List String → DiffResult)

def refiltered (m : SmartModel T) : SmartModel T := { m with model := (m.model.refilter O).1 }

def SmartModel.update (m : SmartModel T) : TreeUpdate T → Made T
  | .splice location deleteCount toInsert options =>
    splice O computeDiff location deleteCount toInsert options m
  | .refilter => ⟨[.refilter], refiltered O m, false⟩
  | .delayedRefilter =>
    ⟨[.delayedRefilter], if m.model.refilterDelayed then refiltered O m else m, false⟩

/-- The simple splices and refilters of some calls, and the model that they leave; a call may come
after one that threw. -/
def SmartModel.run (m : SmartModel T) : List (TreeUpdate T) → List (Command T) × SmartModel T
  | [] => ([], m)
  | update :: updates =>
    let r := m.update O computeDiff update
    let (commands, model) := r.model.run updates
    (r.commands ++ commands, model)

end Run

end NexgileIde.Tree
