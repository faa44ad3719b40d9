import NexgileIde.SearchTree.SearchTreeReaders

/-!
# The paths that have a node

A tree with an element in every node is a map of the paths that have a node. Rotations do the same
to it as to the tree itself, so that nodes are followed as elements are: `set` adds the nodes on the
way to its key, and `delete` adds none, whatever it loses.
-/

namespace NexgileIde.SearchTree

open TernarySearchTreeNode TernarySearchTree

variable {K S V : Type}

section Filled

/-- The tree with an element in every node. -/
def filled : Node K S V → Node K S Unit
  | empty => empty
  | node h s _ _ l m r => node h s (some ()) none (filled l) (filled m) (filled r)

@[simp] theorem filled_empty : filled (empty : Node K S V) = empty := rfl

@[simp] theorem filled_node (h : ℕ) (s : S) (v : Option V) (k : Option K) (l m r : Node K S V) :
    filled (node h s v k l m r) = node h s (some ()) none (filled l) (filled m) (filled r) := rfl

@[simp] theorem height_filled (t : Node K S V) : (filled t).height = t.height := by
  cases t <;> rfl

@[simp] theorem isUndefined_filled (t : Node K S V) : (filled t).isUndefined = t.isUndefined := by
  cases t <;> rfl

@[simp] theorem right_filled (t : Node K S V) : (filled t).right = filled t.right := by
  cases t <;> rfl

@[simp] theorem left_filled (t : Node K S V) : (filled t).left = filled t.left := by
  cases t <;> rfl

@[simp] theorem balanceFactor_filled (t : Node K S V) :
    (filled t).balanceFactor = t.balanceFactor := by
  cases t <;> simp [balanceFactor]

@[simp] theorem updateHeight_filled (t : Node K S V) :
    (filled t).updateHeight = filled t.updateHeight := by
  cases t <;> simp [updateHeight]

theorem setChild_filled (t child : Node K S V) (d : Dir) :
    (filled t).setChild d (filled child) = filled (t.setChild d child) := by
  cases t <;> cases d <;> rfl

theorem rotateLeft_filled (t : Node K S V) :
    (filled t).rotateLeft = t.rotateLeft.map filled := by
  cases t with
  | empty => rfl
  | node h s v k l m r =>
    cases r with
    | empty => rfl
    | node => simp [rotateLeft, updateHeight]

theorem rotateRight_filled (t : Node K S V) :
    (filled t).rotateRight = t.rotateRight.map filled := by
  cases t with
  | empty => rfl
  | node h s v k l m r =>
    cases l with
    | empty => rfl
    | node => simp [rotateRight, updateHeight]

theorem rotateRightLeft_filled (t : Node K S V) :
    (filled t).rotateRightLeft = t.rotateRightLeft.map filled := by
  unfold rotateRightLeft
  rw [right_filled, rotateRight_filled]
  cases t.right.rotateRight with
  | none => rfl
  | some child =>
    simp only [Option.map_some, Option.bind_eq_bind, Option.bind_some]
    rw [setChild_filled, rotateLeft_filled]

theorem rotateLeftRight_filled (t : Node K S V) :
    (filled t).rotateLeftRight = t.rotateLeftRight.map filled := by
  unfold rotateLeftRight
  rw [left_filled, rotateLeft_filled]
  cases t.left.rotateLeft with
  | none => rfl
  | some child =>
    simp only [Option.map_some, Option.bind_eq_bind, Option.bind_some]
    rw [setChild_filled, rotateRight_filled]

theorem balanceHeavy_filled (t : Node K S V) :
    balanceHeavy (filled t) = (balanceHeavy t).map filled := by
  unfold balanceHeavy
  simp only [updateHeight_filled, balanceFactor_filled, right_filled, left_filled,
    rotateLeft_filled, rotateRight_filled, rotateRightLeft_filled, rotateLeftRight_filled]
  split_ifs <;> rfl

theorem balanceNode_filled (d1 : Dir) (d2 : Option Dir) (t : Node K S V) :
    balanceNode d1 d2 (filled t) = (balanceNode d1 d2 t).map filled := by
  unfold balanceNode
  simp only [updateHeight_filled, balanceFactor_filled, rotateLeft_filled, rotateRight_filled,
    rotateRightLeft_filled, rotateLeftRight_filled]
  split_ifs
  · rcases d1 with _ | _ | _ <;> rcases d2 with _ | _ | _ | _ <;> rfl
  · rfl

theorem minNode_filled (t : Node K S V) :
    (minNode (filled t) []).2 = filled (minNode t []).2 := by
  induction t with
  | empty => rfl
  | node h s v k l m r ihl =>
    cases hl : l.isUndefined with
    | true =>
      cases l with
      | empty => rfl
      | node => cases hl
    | false =>
      rw [filled_node, minNode_left (by simpa using hl), minNode_left hl,
        (minNode_stack (filled l) _).1, (minNode_stack l _).1, ihl]

theorem removeMin_filled (t : Node K S V) : removeMin (filled t) = (removeMin t).map filled := by
  induction t with
  | empty => rfl
  | node h s v k l m r ihl =>
    cases hl : l.isUndefined with
    | true =>
      cases l with
      | empty => rfl
      | node => cases hl
    | false =>
      rw [filled_node, removeMin_left (by simpa using hl), removeMin_left hl, ihl]
      cases removeMin l with
      | none => rfl
      | some child => exact balanceHeavy_filled (node h s v k child m r)

end Filled

variable [LinearOrder S]

/-- There is a node at a sequence of segments. -/
def Occupied (t : Node K S V) (as : List S) : Prop := (lookup (filled t) as).isSome

section Occupied

variable {h : ℕ} {s a : S} {v : Option V} {k : Option K} {l m r t t' : Node K S V} {as : List S}

omit [LinearOrder S] in
theorem allLevel_filled (P : S → Prop) : AllLevel P (filled t) ↔ AllLevel P t := by
  induction t with
  | empty => exact .rfl
  | node h s v k l m r ihl ihm ihr => simp [AllLevel, ihl, ihr]

theorem ordered_filled : Ordered (filled t) ↔ Ordered t := by
  induction t with
  | empty => exact .rfl
  | node h s v k l m r ihl ihm ihr => simp [Ordered, allLevel_filled, ihl, ihm, ihr]

@[simp] theorem not_occupied_empty (as : List S) : ¬ Occupied (empty : Node K S V) as := by
  simp [Occupied]

@[simp] theorem not_occupied_nil (t : Node K S V) : ¬ Occupied t [] := by
  simp [Occupied]

theorem occupied_left (hlt : a < s) :
    Occupied (node h s v k l m r) (a :: as) ↔ Occupied l (a :: as) := by
  rw [Occupied, filled_node, lookup_left hlt]
  rfl

theorem occupied_right (hlt : s < a) :
    Occupied (node h s v k l m r) (a :: as) ↔ Occupied r (a :: as) := by
  rw [Occupied, filled_node, lookup_right hlt]
  rfl

theorem occupied_here : Occupied (node h s v k l m r) [s] := by
  rw [Occupied, filled_node, lookup_here]
  rfl

theorem occupied_mid :
    Occupied (node h s v k l m r) (s :: a :: as) ↔ Occupied m (a :: as) := by
  rw [Occupied, filled_node, lookup_mid]
  rfl

theorem not_occupied (ht : AllLevel (· ≠ a) t) : ¬ Occupied t (a :: as) := by
  rw [Occupied, lookup_eq_none ((allLevel_filled _).mpr ht)]
  simp

/-- Elements are in nodes. -/
theorem occupied_of_lookup (ht : (lookup t as).isSome) : Occupied t as := by
  induction t generalizing as with
  | empty => simp at ht
  | node h s v k l m r ihl ihm ihr =>
    rcases as with _ | ⟨a, as⟩
    · simp at ht
    · rcases lt_trichotomy a s with hlt | rfl | hlt
      · rw [occupied_left hlt]
        rw [lookup_left hlt] at ht
        exact ihl ht
      · cases as with
        | nil => exact occupied_here
        | cons b bs =>
          rw [occupied_mid]
          rw [lookup_mid] at ht
          exact ihm ht
      · rw [occupied_right hlt]
        rw [lookup_right hlt] at ht
        exact ihr ht

/-- Above every node there is one. -/
theorem Occupied.of_append {bs : List S} (ht : Occupied t (as ++ bs)) (has : as ≠ []) :
    Occupied t as := by
  induction t generalizing as with
  | empty => simp at ht
  | node h s v k l m r ihl ihm ihr =>
    obtain ⟨a, as, rfl⟩ := List.exists_cons_of_ne_nil has
    rw [List.cons_append] at ht
    rcases lt_trichotomy a s with hlt | rfl | hlt
    · rw [occupied_left hlt] at ht ⊢
      exact ihl ht has
    · cases as with
      | nil => exact occupied_here
      | cons b as =>
        rw [List.cons_append, occupied_mid] at ht
        rw [occupied_mid]
        exact ihm ht (by simp)
    · rw [occupied_right hlt] at ht ⊢
      exact ihr ht has

end Occupied

section Changes

variable {h h' : ℕ} {s a : S} {v v' : Option V} {k k' : Option K} {l m r t t' t'' : Node K S V}

/-- New nodes are only at some sequences. -/
def GrownAt (P : List S → Prop) (t t' : Node K S V) : Prop :=
  ∀ as, Occupied t' as → Occupied t as ∨ P as

theorem occupied_balanceNode {d1 : Dir} {d2 : Option Dir} (ht : Ordered t)
    (hn : balanceNode d1 d2 t = some t') (as : List S) : Occupied t' as ↔ Occupied t as := by
  have hfilled : balanceNode d1 d2 (filled t) = some (filled t') := by
    rw [balanceNode_filled, hn]
    rfl
  rw [Occupied, Occupied, (Same.balanceNode hfilled).lookup (ordered_filled.mpr ht)]

theorem occupied_balanceHeavy (ht : Ordered t) (hn : balanceHeavy t = some t') (as : List S) :
    Occupied t' as ↔ Occupied t as := by
  have hfilled : balanceHeavy (filled t) = some (filled t') := by
    rw [balanceHeavy_filled, hn]
    rfl
  rw [Occupied, Occupied, (Same.balanceHeavy hfilled).lookup (ordered_filled.mpr ht)]

variable {P : List S → Prop}

theorem GrownAt.left (hg : GrownAt P l t) :
    GrownAt P (node h s v k l m r) (node h s v k t m r) := by
  intro as has
  rcases as with _ | ⟨b, bs⟩
  · simp at has
  · rcases lt_trichotomy b s with hb | rfl | hb
    · rw [occupied_left hb] at has ⊢
      exact hg _ has
    · cases bs with
      | nil => exact .inl occupied_here
      | cons c cs =>
        rw [occupied_mid] at has ⊢
        exact .inl has
    · rw [occupied_right hb] at has ⊢
      exact .inl has

theorem GrownAt.right (hg : GrownAt P r t) :
    GrownAt P (node h s v k l m r) (node h s v k l m t) := by
  intro as has
  rcases as with _ | ⟨b, bs⟩
  · simp at has
  · rcases lt_trichotomy b s with hb | rfl | hb
    · rw [occupied_left hb] at has ⊢
      exact .inl has
    · cases bs with
      | nil => exact .inl occupied_here
      | cons c cs =>
        rw [occupied_mid] at has ⊢
        exact .inl has
    · rw [occupied_right hb] at has ⊢
      exact hg _ has

theorem GrownAt.mid (hg : GrownAt (fun as => P (s :: as)) m t) :
    GrownAt P (node h s v k l m r) (node h s v k l t r) := by
  intro as has
  rcases as with _ | ⟨b, bs⟩
  · simp at has
  · rcases lt_trichotomy b s with hb | rfl | hb
    · rw [occupied_left hb] at has ⊢
      exact .inl has
    · cases bs with
      | nil => exact .inl occupied_here
      | cons c cs =>
        rw [occupied_mid] at has ⊢
        exact hg _ has
    · rw [occupied_right hb] at has ⊢
      exact .inl has

theorem GrownAt.balanceNode {d1 : Dir} {d2 : Option Dir} (hg : GrownAt P t t')
    (ht : Ordered t') (hn : balanceNode d1 d2 t' = some t'') : GrownAt P t t'' := by
  intro as has
  exact hg as ((occupied_balanceNode ht hn as).mp has)

end Changes

section Insert

variable {key : K} {element : V} {t t' : Node K S V} {p : Position S} {rest : List (Position S)}
  {d : Option Dir}

theorem grownAt_new (segment : S) {P : List S → Prop} (h : P [segment]) :
    GrownAt P (empty : Node K S V) (new segment) := by
  rintro (_ | ⟨a, as⟩) has
  · simp at has
  · right
    rcases lt_trichotomy a segment with hlt | rfl | hlt
    · rw [new, occupied_left hlt] at has
      simp at has
    · cases as with
      | nil => exact h
      | cons b bs =>
        rw [new, occupied_mid] at has
        simp at has
    · rw [new, occupied_right hlt] at has
      simp at has

theorem insertNew_grownAt (ht : insertNew key element p rest = some (t, d)) :
    GrownAt (· <+: path p rest) empty t := by
  induction rest generalizing p t d with
  | nil =>
    rw [insertNew] at ht
    split_ifs at ht
    cases ht
    exact grownAt_new p.value (List.prefix_refl _)
  | cons q rest ih =>
    rw [insertNew] at ht
    split_ifs at ht
    simp only [Option.bind_eq_bind, Option.bind_eq_some_iff, Option.some.injEq] at ht
    obtain ⟨⟨child, d2⟩, hc, n, hn, ht⟩ := ht
    cases ht
    have hgrown : GrownAt (· <+: path p (q :: rest)) (empty : Node K S V)
        ((new p.value).setChild .mid child) := by
      intro as has
      have hmid : GrownAt (· <+: path p (q :: rest)) (new p.value : Node K S V)
          ((new p.value).setChild .mid child) :=
        .mid fun as has => (ih hc as has).imp_right (List.prefix_cons_inj _).mpr
      rcases hmid as has with has | has
      · exact grownAt_new p.value (P := (· <+: path p (q :: rest)))
          ⟨(q :: rest).map Position.value, rfl⟩ as has
      · exact .inr has
    exact hgrown.balanceNode (Updated.mid (ordered_new p.value) (insertNew_updated hc)).ordered hn

/-- `set` adds the nodes on the way to its key only. -/
theorem insert_grownAt (hp : ∀ q ∈ p :: rest, q.Exact) (hord : Ordered t)
    (ht : insert key element t p rest = some (t', d)) :
    GrownAt (· <+: path p rest) t t' := by
  induction t generalizing p rest t' d with
  | empty => exact insertNew_grownAt ht
  | node h s v k l m r ihl ihm ihr =>
    obtain ⟨hgt, hlt⟩ := hp p (by simp) s
    unfold insert at ht
    split_ifs at ht with h1 h2
    · simp only [Option.bind_eq_bind, Option.bind_eq_some_iff, Option.some.injEq] at ht
      obtain ⟨⟨child, d2⟩, hc, n, hn, ht⟩ := ht
      cases ht
      have hu := insert_updated hp hord.2.2.1 hc
      exact (GrownAt.left (ihl hp hord.2.2.1 hc)).balanceNode
        (Updated.left hord (hgt.mp h1) hu).ordered hn
    · simp only [Option.bind_eq_bind, Option.bind_eq_some_iff, Option.some.injEq] at ht
      obtain ⟨⟨child, d2⟩, hc, n, hn, ht⟩ := ht
      cases ht
      have hu := insert_updated hp hord.2.2.2.2 hc
      exact (GrownAt.right (ihr hp hord.2.2.2.2 hc)).balanceNode
        (Updated.right hord (hlt.mp h2) hu).ordered hn
    · obtain rfl := cmp_eq_of_not (hp p (by simp)) h1 h2
      cases rest with
      | nil =>
        cases ht
        exact fun as has => .inl has
      | cons q rest =>
        simp only [Option.bind_eq_bind, Option.bind_eq_some_iff, Option.some.injEq] at ht
        obtain ⟨⟨child, d2⟩, hc, n, hn, ht⟩ := ht
        cases ht
        have hq := fun x hx => hp x (List.mem_cons_of_mem _ hx)
        have hu := insert_updated hq hord.2.2.2.1 hc
        have hgrown : GrownAt (· <+: path p (q :: rest)) (node h p.value v k l m r)
            (node h p.value v k l child r) :=
          .mid fun as has => (ihm hq hord.2.2.2.1 hc as has).imp_right (List.prefix_cons_inj _).mpr
        exact hgrown.balanceNode (Updated.mid hord hu).ordered hn

end Insert

section Sub

variable {h h' : ℕ} {s s' : S} {v v' : Option V} {k k' : Option K} {l m m' r t t' t'' : Node K S V}

/-- Every entry of the second tree is one of the first. -/
def Sub (t t' : Node K S V) : Prop := ∀ as e, lookup t' as = some e → lookup t as = some e

namespace Sub

theorem left (hs : Sub l t) : Sub (node h s v k l m r) (node h s v k t m r) := by
  intro as e he
  rcases as with _ | ⟨b, bs⟩
  · simp at he
  · rcases lt_trichotomy b s with hb | rfl | hb
    · rw [lookup_left hb] at he ⊢
      exact hs _ _ he
    · cases bs with
      | nil => rwa [lookup_here] at he ⊢
      | cons c cs => rwa [lookup_mid] at he ⊢
    · rwa [lookup_right hb] at he ⊢

theorem right (hs : Sub r t) : Sub (node h s v k l m r) (node h s v k l m t) := by
  intro as e he
  rcases as with _ | ⟨b, bs⟩
  · simp at he
  · rcases lt_trichotomy b s with hb | rfl | hb
    · rwa [lookup_left hb] at he ⊢
    · cases bs with
      | nil => rwa [lookup_here] at he ⊢
      | cons c cs => rwa [lookup_mid] at he ⊢
    · rw [lookup_right hb] at he ⊢
      exact hs _ _ he

theorem mid (hs : Sub m t) : Sub (node h s v k l m r) (node h s v k l t r) := by
  intro as e he
  rcases as with _ | ⟨b, bs⟩
  · simp at he
  · rcases lt_trichotomy b s with hb | rfl | hb
    · rwa [lookup_left hb] at he ⊢
    · cases bs with
      | nil => rwa [lookup_here] at he ⊢
      | cons c cs =>
        rw [lookup_mid] at he ⊢
        exact hs _ _ he
    · rwa [lookup_right hb] at he ⊢

theorem here : Sub (node h s v k l m r) (node h s none none l m r) := by
  intro as e he
  rcases as with _ | ⟨b, bs⟩
  · simp at he
  · rcases lt_trichotomy b s with hb | rfl | hb
    · rwa [lookup_left hb] at he ⊢
    · cases bs with
      | nil => simp [lookup_here] at he
      | cons c cs => rwa [lookup_mid] at he ⊢
    · rwa [lookup_right hb] at he ⊢

theorem only_left (hl : AllLevel (· < s) l) : Sub (node h s v k l m r) l := by
  intro as e he
  rcases as with _ | ⟨b, bs⟩
  · simp at he
  · rcases lt_or_ge b s with hb | hb
    · rwa [lookup_left hb]
    · rw [hl.lookup_above hb] at he
      cases he

theorem only_right (hr : AllLevel (s < ·) r) : Sub (node h s v k l m r) r := by
  intro as e he
  rcases as with _ | ⟨b, bs⟩
  · simp at he
  · rcases lt_or_ge s b with hb | hb
    · rwa [lookup_right hb]
    · rw [hr.lookup_below hb] at he
      cases he

/-- The min-node takes the place of a full node. -/
theorem full (hl : AllLevel (· < s) l) (hr : AllLevel (s < ·) r)
    (hmin : MinRemoved r t s' (v'.map fun v => (k', v)) m') :
    Sub (node h s v k l m r) (node h' s' v' k' l empty t) := by
  have hs : s < s' := (hmin.level _ hr).1
  intro as e he
  rcases as with _ | ⟨b, bs⟩
  · simp at he
  · rcases lt_trichotomy b s' with hb | rfl | hb
    · rw [lookup_left hb] at he
      exact only_left hl _ _ he
    · rw [lookup_right hs]
      cases bs with
      | nil => rwa [lookup_here, ← hmin.here] at he
      | cons c cs => simp [lookup_mid] at he
    · rw [lookup_right hb, hmin.lookup b bs hb.ne'] at he
      rwa [lookup_right (hs.trans hb)]

theorem balanceHeavy (hs : Sub t t') (ht : Ordered t') (hn : balanceHeavy t' = some t'') :
    Sub t t'' := by
  intro as e he
  rw [(Same.balanceHeavy hn).lookup ht] at he
  exact hs as e he

end Sub

/-- A tree with some of the entries and some of the nodes of another one -/
structure Shrunk (t t' : Node K S V) : Prop where
  level : ∀ P, AllLevel P t → AllLevel P t'
  ordered : Ordered t'
  entries : Sub t t'
  nodes : Sub (filled t) (filled t')

namespace Shrunk

theorem occupied (hs : Shrunk t t') {as : List S} (has : Occupied t' as) : Occupied t as := by
  obtain ⟨e, he⟩ := Option.isSome_iff_exists.mp has
  exact Option.isSome_iff_exists.mpr ⟨e, hs.nodes as e he⟩

theorem balanceHeavy (hs : Shrunk t t') (hn : balanceHeavy t' = some t'') : Shrunk t t'' where
  level P hP := ((Same.balanceHeavy hn).level P).mpr (hs.level P hP)
  ordered := (Same.balanceHeavy hn).ordered hs.ordered
  entries := hs.entries.balanceHeavy hs.ordered hn
  nodes := hs.nodes.balanceHeavy (ordered_filled.mpr hs.ordered) (by
    rw [balanceHeavy_filled, hn]
    rfl)

theorem left (ht : Ordered (node h s v k l m r)) (hs : Shrunk l t) :
    Shrunk (node h s v k l m r) (node h s v k t m r) where
  level P hP := ⟨hP.1, hs.level P hP.2.1, hP.2.2⟩
  ordered := ⟨hs.level _ ht.1, ht.2.1, hs.ordered, ht.2.2.2⟩
  entries := hs.entries.left
  nodes := hs.nodes.left

theorem right (ht : Ordered (node h s v k l m r)) (hs : Shrunk r t) :
    Shrunk (node h s v k l m r) (node h s v k l m t) where
  level P hP := ⟨hP.1, hP.2.1, hs.level P hP.2.2⟩
  ordered := ⟨ht.1, hs.level _ ht.2.1, ht.2.2.1, ht.2.2.2.1, hs.ordered⟩
  entries := hs.entries.right
  nodes := hs.nodes.right

theorem mid (ht : Ordered (node h s v k l m r)) (hs : Shrunk m t) :
    Shrunk (node h s v k l m r) (node h s v k l t r) where
  level _ hP := hP
  ordered := ⟨ht.1, ht.2.1, ht.2.2.1, hs.ordered, ht.2.2.2.2⟩
  entries := hs.entries.mid
  nodes := hs.nodes.mid

theorem here (ht : Ordered (node h s v k l m r)) :
    Shrunk (node h s v k l m r) (node h s none none l m r) where
  level _ hP := hP
  ordered := ht
  entries := .here
  nodes := fun _ _ he => he

theorem only_left (ht : Ordered (node h s v k l m r)) : Shrunk (node h s v k l m r) l where
  level _ hP := hP.2.1
  ordered := ht.2.2.1
  entries := .only_left ht.1
  nodes := .only_left ((allLevel_filled _).mpr ht.1)

theorem only_right (ht : Ordered (node h s v k l m r)) : Shrunk (node h s v k l m r) r where
  level _ hP := hP.2.2
  ordered := ht.2.2.2.2
  entries := .only_right ht.2.1
  nodes := .only_right ((allLevel_filled _).mpr ht.2.1)

theorem full {l' r' : Node K S V} (ht : Ordered (node h s v k l m r))
    (hmin : (minNode r []).2 = node h' s' v' k' l' m' r') (hr : removeMin r = some t) :
    Shrunk (node h s v k l m r) (node h s' v' k' l empty t) := by
  have hspec := removeMin_spec ht.2.2.2.2 hmin hr
  have hs := (hspec.level _ ht.2.1).1
  have hnodes : MinRemoved (filled r) (filled t) s' ((some ()).map fun v => (none, v)) (filled m') :=
    removeMin_spec (ordered_filled.mpr ht.2.2.2.2) (by rw [minNode_filled, hmin]; rfl)
      (by rw [removeMin_filled, hr]; rfl)
  refine ⟨fun P hP => ?_, ?_, .full ht.1 ht.2.1 hspec,
    .full ((allLevel_filled _).mpr ht.1) ((allLevel_filled _).mpr ht.2.1) hnodes⟩
  · obtain ⟨hs', ht'⟩ := hspec.level P hP.2.2
    exact ⟨hs', hP.2.1, ht'⟩
  · exact ⟨ht.1.mono fun _ ha => ha.trans hs, hspec.above, ht.2.2.1, trivial, hspec.ordered⟩

end Shrunk

variable {truthy : K → Bool}

theorem removeNode_shrunk (hord : Ordered (node h s v k l m r))
    (ht : removeNode truthy (node h s none none l m r) = some t) :
    Shrunk (node h s v k l m r) t := by
  cases m with
  | node =>
    cases ht
    exact .here hord
  | empty =>
    cases hlu : l.isUndefined with
    | true =>
      cases l with
      | node => cases hlu
      | empty =>
        cases ht
        exact .only_right hord
    | false =>
      cases hru : r.isUndefined with
      | true =>
        cases r with
        | node => cases hru
        | empty =>
          cases l with
          | empty => cases hlu
          | node =>
            cases ht
            exact .only_left hord
      | false =>
        rw [removeNode_full hlu hru] at ht
        split at ht
        · next h' s' v' k' l' m' r' hmin =>
          split_ifs at ht
          · rw [Option.bind_eq_some_iff] at ht
            obtain ⟨t', ht', hbal⟩ := ht
            exact (Shrunk.full hord hmin ht').balanceHeavy hbal
          · cases ht
            exact .here hord
        · cases ht
          exact .here hord

/-- `delete` adds no entry and no node, whatever it loses. -/
theorem erase_shrunk {p : Position S} {rest : List (Position S)} (hord : Ordered t)
    (ht : erase truthy t p rest = some (some t')) : Shrunk t t' := by
  induction t generalizing p rest t' with
  | empty => cases ht
  | node h s v k l m r ihl ihm ihr =>
    unfold erase at ht
    split_ifs at ht with h1 h2
    · simp only [Option.map_eq_some_iff, Option.bind_eq_some_iff] at ht
      obtain ⟨o, ho, child, rfl, hbal⟩ := ht
      exact (Shrunk.left hord (ihl hord.2.2.1 ho)).balanceHeavy hbal
    · simp only [Option.map_eq_some_iff, Option.bind_eq_some_iff] at ht
      obtain ⟨o, ho, child, rfl, hbal⟩ := ht
      exact (Shrunk.right hord (ihr hord.2.2.2.2 ho)).balanceHeavy hbal
    · cases rest with
      | nil => exact removeNode_shrunk hord (Option.some.inj ht)
      | cons q rest =>
        simp only [Option.map_eq_some_iff, Option.bind_eq_some_iff] at ht
        obtain ⟨o, ho, child, rfl, hbal⟩ := ht
        exact (Shrunk.mid hord (ihm hord.2.2.2.1 ho)).balanceHeavy hbal

end Sub

end NexgileIde.SearchTree
