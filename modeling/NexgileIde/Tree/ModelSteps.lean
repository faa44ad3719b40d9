import NexgileIde.Tree.IndexTreeModel

/-!
# What the steps of the model leave behind

Renumbering a node and adding to the counts on the way to it change nothing else about a node. A
splice of the children keeps those before it, puts in the new ones and numbers those behind it.
-/

namespace NexgileIde.Tree

open Library RoseTree

variable {T : Type}

section Relabel

variable (d : NodeData T) (index : ℤ)

@[simp] theorem setVisibleChildIndex_visible :
    (d.setVisibleChildIndex index).visible = d.visible := by
  unfold NodeData.setVisibleChildIndex
  split_ifs <;> rfl

variable {t : IndexTreeNode T}

@[simp] theorem label_numbered : (numbered index t).label = t.label.setVisibleChildIndex index :=
  rfl

end Relabel

/-- The same node, as far as the list is concerned. -/
structure NodeData.Alike (d d' : NodeData T) : Prop where
  id : d.id = d'.id
  visible : d.visible = d'.visible
  collapsed : d.collapsed = d'.collapsed

def NodeData.addCount (diff : ℤ) (d : NodeData T) : NodeData T :=
  { d with renderNodeCount := d.renderNodeCount + diff }

theorem updateAncestorsRenderNodeCount_eq (location : List ℕ) (diff : ℤ)
    (root : IndexTreeNode T) :
    updateAncestorsRenderNodeCount location diff root =
      mapPath (NodeData.addCount diff) location root := by
  unfold updateAncestorsRenderNodeCount
  split_ifs with h
  · rw [h, mapPath_id fun d => by simp [NodeData.addCount]]
  · rfl

section Parent

variable {path : List ℕ} {n p : IndexTreeNode T}

theorem getParentNodeWithListIndex_cons {d : NodeData T} {ts : List (IndexTreeNode T)}
    {index : ℕ} {rest : List ℕ} (hrest : rest ≠ []) (listIndex : ℤ) (revealed visible : Bool) :
    getParentNodeWithListIndex (index :: rest) (.node d ts) listIndex revealed visible =
      ts[index]?.bind fun child => getParentNodeWithListIndex rest child
        (listIndex + renderNodeCounts (ts.take index) + 1) (revealed && !d.collapsed)
        (visible && d.visible) := by
  obtain ⟨j, rest, rfl⟩ := List.exists_cons_of_ne_nil hrest
  rfl

end Parent

variable {O : IndexTreeModelOptions T} {m : IndexTreeModel T} {xs : List ℕ}

section Splice

section Children

variable (p : IndexTreeNode T) (i n : ℕ) (created : Created T)

theorem spliceChildren_alike :
    (IndexTreeModel.spliceChildren i n created p).label.Alike p.label ∧
      (IndexTreeModel.spliceChildren i n created p).label.renderNodeCount =
        p.label.renderNodeCount := by
  cases p
  exact ⟨⟨rfl, rfl, rfl⟩, rfl⟩

/-- The children after a splice: those before, the new ones, and those behind with other
numbers -/
theorem spliceChildren_children :
    ∃ index : IndexTreeNode T → ℤ, (IndexTreeModel.spliceChildren i n created p).children =
      p.children.take i ++ created.nodes ++
        (p.children.drop (i + n)).map fun child => numbered (index child) child := by
  cases p
  exact ⟨_, rfl⟩

theorem spliceChildren_forall {P : IndexTreeNode T → Prop}
    (hnumbered : ∀ index t, P t → P (numbered index t)) (hp : ∀ t ∈ p.children, P t)
    (hcreated : ∀ t ∈ created.nodes, P t) :
    ∀ t ∈ (IndexTreeModel.spliceChildren i n created p).children, P t := by
  obtain ⟨index, hchildren⟩ := spliceChildren_children p i n created
  rw [hchildren]
  intro t ht
  simp only [List.mem_append, List.mem_map] at ht
  rcases ht with (ht | ht) | ⟨t, ht, rfl⟩
  · exact hp t (List.mem_of_mem_take ht)
  · exact hcreated t ht
  · exact hnumbered _ t (hp t (List.mem_of_mem_drop ht))

end Children

end Splice

section Main

/-- Hides the elements that are one. -/
def hideOnes : IndexTreeModelOptions ℕ where
  collapseByDefault := false
  allowNonCollapsibleParents := false
  autoExpandSingleChildren := false
  filter := some fun _ element _ => .bool (element ≠ 1)

/-- An element that is expanded, or that is collapsed. -/
def nested (element : ℕ) (collapsed : Bool) (children : List (TreeElement ℕ)) : TreeElement ℕ :=
  .mk element children none (some collapsed)

end Main

end NexgileIde.Tree
