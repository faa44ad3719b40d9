import NexgileIde.SearchTree.TernarySearchTree

/-!
# The trees of a level stay balanced

The loops over the stack are recursions over the tree. With them every level is an AVL
tree whose heights are right, so that no rotation meets a missing node and `set` always
finds the two directions it expects.
-/

namespace NexgileIde.SearchTree

open TernarySearchTreeNode TernarySearchTree

variable {K S V : Type}

@[simp] theorem height_empty : (empty : Node K S V).height = 0 := rfl

@[simp] theorem height_node (h : ℕ) (s : S) (v : Option V) (k : Option K) (l m r : Node K S V) :
    (node h s v k l m r).height = h := rfl

/-- Heights are exact and siblings differ by at most one. -/
def Balanced : Node K S V → Prop
  | empty => True
  | node h _ _ _ l m r =>
    h = 1 + max l.height r.height ∧ l.height ≤ r.height + 1 ∧ r.height ≤ l.height + 1 ∧
      Balanced l ∧ Balanced m ∧ Balanced r

section Rotations

variable {h : ℕ} {s : S} {v : Option V} {k : Option K} {l m r : Node K S V}

theorem balanced_updateHeight (hl : Balanced l) (hm : Balanced m) (hr : Balanced r)
    (hlr : l.height ≤ r.height + 1) (hrl : r.height ≤ l.height + 1) :
    Balanced (node h s v k l m r).updateHeight :=
  ⟨rfl, hlr, hrl, hl, hm, hr⟩

/-- What a single rotation to the right does to a node whose left side is too high. -/
theorem rotateRight_balanced (hl : Balanced l) (hm : Balanced m) (hr : Balanced r)
    (hheavy : l.height = r.height + 2) (hbf : l.balanceFactor ≤ 0) :
    ∃ t, (node h s v k l m r).rotateRight = some t ∧ Balanced t ∧
      (l.balanceFactor = 0 → t.height = l.height + 1) ∧
      (l.balanceFactor ≠ 0 → t.height = l.height) := by
  cases l with
  | empty => simp at hheavy
  | node h' s' v' k' l' m' r' =>
    obtain ⟨hh, hlr, hrl, hl', hm', hr'⟩ := hl
    simp only [height_node, balanceFactor] at hheavy hbf ⊢
    refine ⟨_, rfl, ?_, ?_, ?_⟩
    · simp only [Balanced, TernarySearchTreeNode.updateHeight, height_node]
      refine ⟨trivial, ?_, ?_, hl', hm', trivial, ?_, ?_, hr', hm, hr⟩ <;> omega
    · intro hz
      simp only [TernarySearchTreeNode.updateHeight, height_node]
      omega
    · intro hz
      simp only [TernarySearchTreeNode.updateHeight, height_node]
      omega

theorem rotateLeft_balanced (hl : Balanced l) (hm : Balanced m) (hr : Balanced r)
    (hheavy : r.height = l.height + 2) (hbf : 0 ≤ r.balanceFactor) :
    ∃ t, (node h s v k l m r).rotateLeft = some t ∧ Balanced t ∧
      (r.balanceFactor = 0 → t.height = r.height + 1) ∧
      (r.balanceFactor ≠ 0 → t.height = r.height) := by
  cases r with
  | empty => simp at hheavy
  | node h' s' v' k' l' m' r' =>
    obtain ⟨hh, hlr, hrl, hl', hm', hr'⟩ := hr
    simp only [height_node, balanceFactor] at hheavy hbf ⊢
    refine ⟨_, rfl, ?_, ?_, ?_⟩
    · simp only [Balanced, TernarySearchTreeNode.updateHeight, height_node]
      refine ⟨trivial, ?_, ?_, ⟨trivial, ?_, ?_, hl, hm, hl'⟩, hm', hr'⟩ <;> omega
    · intro hz
      simp only [TernarySearchTreeNode.updateHeight, height_node]
      omega
    · intro hz
      simp only [TernarySearchTreeNode.updateHeight, height_node]
      omega

theorem rotateLeftRight_balanced (hl : Balanced l) (hm : Balanced m) (hr : Balanced r)
    (hheavy : l.height = r.height + 2) (hbf : 0 < l.balanceFactor) :
    ∃ t, (node h s v k l m r).rotateLeftRight = some t ∧ Balanced t ∧ t.height = l.height := by
  cases l with
  | empty => simp at hheavy
  | node h' s' v' k' l' m' r' =>
    obtain ⟨hh, hlr, hrl, hl', hm', hr'⟩ := hl
    simp only [height_node, balanceFactor] at hheavy hbf ⊢
    cases r' with
    | empty => simp at hbf; omega
    | node h'' s'' v'' k'' l'' m'' r'' =>
      obtain ⟨hh', hlr', hrl', hl'', hm'', hr''⟩ := hr'
      simp only [height_node] at hh hlr hrl hbf
      refine ⟨_, rfl, ?_, ?_⟩
      · simp only [Balanced, TernarySearchTreeNode.updateHeight, height_node]
        refine ⟨trivial, ?_, ?_, ⟨trivial, ?_, ?_, hl', hm', hl''⟩, hm'', trivial, ?_, ?_, hr'', hm, hr⟩ <;>
          omega
      · simp only [TernarySearchTreeNode.updateHeight, height_node]
        omega

theorem rotateRightLeft_balanced (hl : Balanced l) (hm : Balanced m) (hr : Balanced r)
    (hheavy : r.height = l.height + 2) (hbf : r.balanceFactor < 0) :
    ∃ t, (node h s v k l m r).rotateRightLeft = some t ∧ Balanced t ∧ t.height = r.height := by
  cases r with
  | empty => simp at hheavy
  | node h' s' v' k' l' m' r' =>
    obtain ⟨hh, hlr, hrl, hl', hm', hr'⟩ := hr
    simp only [height_node, balanceFactor] at hheavy hbf ⊢
    cases l' with
    | empty => simp at hbf; omega
    | node h'' s'' v'' k'' l'' m'' r'' =>
      obtain ⟨hh', hlr', hrl', hl'', hm'', hr''⟩ := hl'
      simp only [height_node] at hh hlr hrl hbf
      refine ⟨_, rfl, ?_, ?_⟩
      · simp only [Balanced, TernarySearchTreeNode.updateHeight, height_node]
        refine ⟨trivial, ?_, ?_, ⟨trivial, ?_, ?_, hl, hm, hl''⟩, hm'', trivial, ?_, ?_, hr'', hm', hr'⟩ <;>
          omega
      · simp only [TernarySearchTreeNode.updateHeight, height_node]
        omega

/-- What balancing does to a node whose children are balanced. -/
structure Rebalanced (l m r t : Node K S V) : Prop where
  balanced : Balanced t
  height_close : l.height ≤ r.height + 1 → r.height ≤ l.height + 1 →
    t.height = 1 + max l.height r.height ∧ t.balanceFactor = (r.height : ℤ) - l.height
  height_left : l.height = r.height + 2 → t.height = l.height + 1 ∨ t.height = l.height
  height_right : r.height = l.height + 2 → t.height = r.height + 1 ∨ t.height = r.height
  exact_left : l.height = r.height + 2 → l.balanceFactor ≠ 0 → t.height = l.height
  exact_right : r.height = l.height + 2 → r.balanceFactor ≠ 0 → t.height = r.height

theorem balanceHeavy_spec (hl : Balanced l) (hm : Balanced m) (hr : Balanced r)
    (hlr : l.height ≤ r.height + 2) (hrl : r.height ≤ l.height + 2) :
    ∃ t, balanceHeavy (node h s v k l m r) = some t ∧ Rebalanced l m r t := by
  have hbf : (node h s v k l m r).updateHeight.balanceFactor = (r.height : ℤ) - l.height := rfl
  have hleft : (node h s v k l m r).updateHeight.left = l := rfl
  have hright : (node h s v k l m r).updateHeight.right = r := rfl
  rw [balanceHeavy]
  simp only [hbf, hleft, hright]
  split_ifs with h1 h2 h3 h4
  · obtain ⟨t, ht, hb, h0, hne⟩ := rotateLeft_balanced (s := s) (v := v) (k := k)
      (h := 1 + max l.height r.height) hl hm hr (by omega) h2
    refine ⟨t, ht, hb, by omega, by omega, ?_, by omega, fun _ => hne⟩
    intro _
    by_cases hz : r.balanceFactor = 0
    · exact .inl (h0 hz)
    · exact .inr (hne hz)
  · obtain ⟨t, ht, hb, hh⟩ := rotateRightLeft_balanced (s := s) (v := v) (k := k)
      (h := 1 + max l.height r.height) hl hm hr (by omega) (by omega)
    exact ⟨t, ht, hb, by omega, by omega, fun _ => .inr hh, by omega, fun _ _ => hh⟩
  · obtain ⟨t, ht, hb, h0, hne⟩ := rotateRight_balanced (s := s) (v := v) (k := k)
      (h := 1 + max l.height r.height) hl hm hr (by omega) h4
    refine ⟨t, ht, hb, by omega, ?_, by omega, fun _ => hne, by omega⟩
    intro _
    by_cases hz : l.balanceFactor = 0
    · exact .inl (h0 hz)
    · exact .inr (hne hz)
  · obtain ⟨t, ht, hb, hh⟩ := rotateLeftRight_balanced (s := s) (v := v) (k := k)
      (h := 1 + max l.height r.height) hl hm hr (by omega) (by omega)
    exact ⟨t, ht, hb, by omega, fun _ => .inr hh, by omega, fun _ _ => hh, by omega⟩
  · refine ⟨_, rfl, ?_, ?_, by omega, by omega, by omega, by omega⟩
    · exact balanced_updateHeight hl hm hr (by omega) (by omega)
    · exact fun _ _ => ⟨rfl, rfl⟩

end Rotations

section Insert

variable {key : K} {element : V}

/-- `set` below the last existing node, without a stack; the direction is that of the walk at
the node. -/
def insertNew (key : K) (element : V) :
    Position S → List (Position S) → Option (Node K S V × Option Dir)
  | p, [] =>
    if p.cmp p.value ≠ 0 then none
    else some ((new p.value).setElement (some element) (some key), none)
  | p, q :: rest =>
    if p.cmp p.value ≠ 0 then none
    else do
      let (child, d2) ← insertNew key element q rest
      let n ← balanceNode .mid d2 ((new p.value).setChild .mid child)
      some (n, some .mid)

/-- `set` as a recursion over the tree. -/
def insert (key : K) (element : V) : Node K S V → Position S → List (Position S) →
    Option (Node K S V × Option Dir)
  | empty, p, rest => insertNew key element p rest
  | node h s v k l m r, p, rest =>
    if p.cmp s > 0 then do
      let (child, d2) ← insert key element l p rest
      let n ← balanceNode .left d2 (node h s v k child m r)
      some (n, some .left)
    else if p.cmp s < 0 then do
      let (child, d2) ← insert key element r p rest
      let n ← balanceNode .right d2 (node h s v k l m child)
      some (n, some .right)
    else
      match rest with
      | q :: rest => do
        let (child, d2) ← insert key element m q rest
        let n ← balanceNode .mid d2 (node h s v k l child r)
        some (n, some .mid)
      | [] => some (node h s (some element) (some key) l m r, none)

theorem descendNew_eq (p : Position S) (rest : List (Position S)) (stack : Stack K S V) :
    ((descendNew p rest stack).bind fun (stack, n) =>
        balanceSet stack none (n.setElement (some element) (some key))) =
      (insertNew key element p rest).bind fun (t, d) => balanceSet stack d t := by
  induction rest generalizing p stack with
  | nil =>
    rw [descendNew, insertNew]
    split_ifs <;> rfl
  | cons q rest ih =>
    rw [descendNew, insertNew]
    split_ifs
    · rfl
    · rw [ih]
      cases insertNew key element q rest with
      | none => rfl
      | some t =>
        simp only [Option.bind_some, Option.bind_eq_bind, balanceSet]
        cases balanceNode .mid t.2 ((new p.value).setChild .mid t.1) <;> rfl

theorem descend_eq (t : Node K S V) (p : Position S) (rest : List (Position S))
    (stack : Stack K S V) :
    ((descend t p rest stack).bind fun (stack, n) =>
        balanceSet stack none (n.setElement (some element) (some key))) =
      (insert key element t p rest).bind fun (t, d) => balanceSet stack d t := by
  induction t generalizing p rest stack with
  | empty => exact descendNew_eq p rest stack
  | node h s v k l m r ihl ihm ihr =>
    unfold descend insert
    dsimp only
    split_ifs
    · rw [ihl]
      cases insert key element l p rest with
      | none => rfl
      | some t =>
        simp only [Option.bind_some, Option.bind_eq_bind, balanceSet, setChild]
        cases balanceNode .left t.2 (node h s v k t.1 m r) <;> rfl
    · rw [ihr]
      cases insert key element r p rest with
      | none => rfl
      | some t =>
        simp only [Option.bind_some, Option.bind_eq_bind, balanceSet, setChild]
        cases balanceNode .right t.2 (node h s v k l m t.1) <;> rfl
    · cases rest with
      | nil => rfl
      | cons q rest =>
        dsimp only
        rw [ihm]
        cases insert key element m q rest with
        | none => rfl
        | some t =>
          simp only [Option.bind_some, Option.bind_eq_bind, balanceSet, setChild]
          cases balanceNode .mid t.2 (node h s v k l t.1 r) <;> rfl

/-- `set` returns the tree of `insert`. -/
theorem set_eq (key : K) (element : V) (root : Node K S V) (p : Position S) (rest : List (Position S)) :
    (TernarySearchTree.set key element p rest root).map Prod.snd =
      (insert key element root p rest).map Prod.fst := by
  have h : _ = (insert key element root p rest).bind fun (t, _) => some t :=
    descend_eq root p rest []
  rw [TernarySearchTree.set, Option.map_eq_bind, Option.map_eq_bind]
  refine Eq.trans ?_ h
  cases descend root p rest [] with
  | none => rfl
  | some walk =>
    simp only [Option.bind_eq_bind, Option.bind_some]
    cases balanceSet walk.1 none (walk.2.setElement (some element) (some key)) <;> rfl

/-- Where a subtree that became higher was changed. -/
def Grown (t t' : Node K S V) (d : Option Dir) : Prop :=
  t'.height = t.height + 1 →
    t.height = 0 ∨ (d = some .left ∧ t'.balanceFactor = -1) ∨
      (d = some .right ∧ t'.balanceFactor = 1)

structure Inserted (t t' : Node K S V) (d : Option Dir) : Prop where
  balanced : Balanced t'
  height : t'.height = t.height ∨ t'.height = t.height + 1
  grown : Grown t t' d

variable {h : ℕ} {s : S} {v : Option V} {k : Option K} {l m r t : Node K S V}

theorem balanceNode_mid (d2 : Option Dir) (hb : Balanced (node h s v k l m r)) (hm : Balanced t) :
    ∃ n, balanceNode .mid d2 (node h s v k l t r) = some n ∧ n.height = h ∧
      Inserted (node h s v k l m r) n (some .mid) := by
  obtain ⟨hh, hlr, hrl, hl, -, hr⟩ := hb
  have hbf : (node h s v k l t r).updateHeight.balanceFactor = (r.height : ℤ) - l.height := rfl
  unfold balanceNode
  simp only [hbf]
  rw [if_neg (by omega)]
  have hn : (node h s v k l t r).updateHeight.height = h := hh.symm
  refine ⟨_, rfl, hn, balanced_updateHeight hl hm hr hlr hrl, .inl hn, ?_⟩
  intro hgrown
  rw [hn, height_node] at hgrown
  omega

/-- In a node that is out of balance after an insertion on the left, `set` rotates as
`_balanceByStack` does. -/
theorem balanceNode_left_eq {d2 : Option Dir} (hb : Balanced (node h s v k l m r))
    (hi : Inserted l t d2) :
    balanceNode .left d2 (node h s v k t m r) = balanceHeavy (node h s v k t m r) ∧
      (t.height = r.height + 2 → t.balanceFactor ≠ 0) := by
  obtain ⟨hh, hlr, hrl, -, -, -⟩ := hb
  have hheight := hi.height
  have hgrown := hi.grown
  have hbf : (node h s v k t m r).updateHeight.balanceFactor = (r.height : ℤ) - t.height := rfl
  have hleft : (node h s v k t m r).updateHeight.left = t := rfl
  unfold balanceNode balanceHeavy
  simp only [hbf, hleft]
  by_cases hheavy : t.height = r.height + 2
  · rw [if_pos (by omega), if_neg (by omega), if_pos (by omega)]
    rcases hgrown (by omega) with h0 | ⟨rfl, hd⟩ | ⟨rfl, hd⟩
    · omega
    · rw [if_pos (by omega)]
      exact ⟨rfl, by omega⟩
    · rw [if_neg (by omega)]
      exact ⟨rfl, by omega⟩
  · rw [if_neg (by omega), if_neg (by omega), if_neg (by omega)]
    exact ⟨rfl, fun h => absurd h hheavy⟩

theorem balanceNode_right_eq {d2 : Option Dir} (hb : Balanced (node h s v k l m r))
    (hi : Inserted r t d2) :
    balanceNode .right d2 (node h s v k l m t) = balanceHeavy (node h s v k l m t) ∧
      (t.height = l.height + 2 → t.balanceFactor ≠ 0) := by
  obtain ⟨hh, hlr, hrl, -, -, -⟩ := hb
  have hheight := hi.height
  have hgrown := hi.grown
  have hbf : (node h s v k l m t).updateHeight.balanceFactor = (t.height : ℤ) - l.height := rfl
  have hright : (node h s v k l m t).updateHeight.right = t := rfl
  unfold balanceNode balanceHeavy
  simp only [hbf, hright]
  by_cases hheavy : t.height = l.height + 2
  · rw [if_pos (by omega), if_pos (by omega)]
    rcases hgrown (by omega) with h0 | ⟨rfl, hd⟩ | ⟨rfl, hd⟩
    · omega
    · rw [if_neg (by omega)]
      exact ⟨rfl, by omega⟩
    · rw [if_pos (by omega)]
      exact ⟨rfl, by omega⟩
  · rw [if_neg (by omega), if_neg (by omega), if_neg (by omega)]
    exact ⟨rfl, fun h => absurd h hheavy⟩

theorem balanceNode_left {d2 : Option Dir} (hb : Balanced (node h s v k l m r))
    (hi : Inserted l t d2) :
    ∃ n, balanceNode .left d2 (node h s v k t m r) = some n ∧
      Inserted (node h s v k l m r) n (some .left) := by
  obtain ⟨heq, hne⟩ := balanceNode_left_eq hb hi
  obtain ⟨hh, hlr, hrl, hl, hm, hr⟩ := hb
  have hheight := hi.height
  obtain ⟨n, hn, hspec⟩ := balanceHeavy_spec (h := h) (s := s) (v := v) (k := k)
    hi.balanced hm hr (by omega) (by omega)
  refine ⟨n, heq.trans hn, hspec.balanced, ?_, ?_⟩
  · by_cases hheavy : t.height = r.height + 2
    · have := hspec.exact_left hheavy (hne hheavy)
      rw [height_node]
      omega
    · have := (hspec.height_close (by omega) (by omega)).1
      rw [height_node]
      omega
  · intro hgrown
    rw [height_node] at hgrown
    by_cases hheavy : t.height = r.height + 2
    · have := hspec.exact_left hheavy (hne hheavy)
      omega
    · obtain ⟨hclose, hbf⟩ := hspec.height_close (by omega) (by omega)
      exact .inr (.inl ⟨rfl, by omega⟩)

theorem balanceNode_right {d2 : Option Dir} (hb : Balanced (node h s v k l m r))
    (hi : Inserted r t d2) :
    ∃ n, balanceNode .right d2 (node h s v k l m t) = some n ∧
      Inserted (node h s v k l m r) n (some .right) := by
  obtain ⟨heq, hne⟩ := balanceNode_right_eq hb hi
  obtain ⟨hh, hlr, hrl, hl, hm, hr⟩ := hb
  have hheight := hi.height
  obtain ⟨n, hn, hspec⟩ := balanceHeavy_spec (h := h) (s := s) (v := v) (k := k)
    hl hm hi.balanced (by omega) (by omega)
  refine ⟨n, heq.trans hn, hspec.balanced, ?_, ?_⟩
  · by_cases hheavy : t.height = l.height + 2
    · have := hspec.exact_right hheavy (hne hheavy)
      rw [height_node]
      omega
    · have := (hspec.height_close (by omega) (by omega)).1
      rw [height_node]
      omega
  · intro hgrown
    rw [height_node] at hgrown
    by_cases hheavy : t.height = l.height + 2
    · have := hspec.exact_right hheavy (hne hheavy)
      omega
    · obtain ⟨hclose, hbf⟩ := hspec.height_close (by omega) (by omega)
      exact .inr (.inr ⟨rfl, by omega⟩)

theorem balanced_new (segment : S) : Balanced (new segment : Node K S V) := by
  simp [new, Balanced]

theorem insertNew_balanced (key : K) (element : V) {p : Position S} {rest : List (Position S)}
    (hp : ∀ q ∈ p :: rest, q.cmp q.value = 0) :
    ∃ t d, insertNew key element p rest = some (t, d) ∧ Balanced t ∧ t.height = 1 := by
  induction rest generalizing p with
  | nil =>
    rw [insertNew, if_neg (by simpa using hp)]
    exact ⟨_, _, rfl, balanced_new p.value, rfl⟩
  | cons q rest ih =>
    simp only [List.forall_mem_cons] at hp ih
    obtain ⟨child, d, hc, hb, -⟩ := ih hp.2
    obtain ⟨n, hn, hh, hi⟩ := balanceNode_mid d (balanced_new p.value) hb
    rw [insertNew, if_neg (by simpa using hp.1)]
    have hn' : balanceNode .mid d ((new p.value).setChild .mid child) = some n := hn
    simp only [hc, hn', Option.bind_eq_bind, Option.bind_some]
    exact ⟨n, _, rfl, hi.balanced, hh⟩

theorem insert_balanced (key : K) (element : V) {t : Node K S V} {p : Position S}
    {rest : List (Position S)} (hb : Balanced t) (hp : ∀ q ∈ p :: rest, q.cmp q.value = 0) :
    ∃ t' d, insert key element t p rest = some (t', d) ∧ Inserted t t' d := by
  induction t generalizing p rest with
  | empty =>
    obtain ⟨t, d, ht, hb, hh⟩ := insertNew_balanced key element (K := K) (V := V) hp
    exact ⟨t, d, ht, hb, .inr hh, fun _ => .inl rfl⟩
  | node h s v k l m r ihl ihm ihr =>
    obtain ⟨hh, hlr, hrl, hl, hm, hr⟩ := id hb
    unfold insert
    split_ifs
    · obtain ⟨child, d, hc, hi⟩ := ihl hl hp
      obtain ⟨n, hn, hi⟩ := balanceNode_left hb hi
      simp only [hc, hn, Option.bind_eq_bind, Option.bind_some]
      exact ⟨n, _, rfl, hi⟩
    · obtain ⟨child, d, hc, hi⟩ := ihr hr hp
      obtain ⟨n, hn, hi⟩ := balanceNode_right hb hi
      simp only [hc, hn, Option.bind_eq_bind, Option.bind_some]
      exact ⟨n, _, rfl, hi⟩
    · cases rest with
      | nil =>
        refine ⟨_, _, rfl, hb, .inl rfl, ?_⟩
        intro hgrown
        simp only [height_node] at hgrown
        omega
      | cons q rest =>
        obtain ⟨child, d, hc, hi⟩ := ihm hm (fun x hx => hp x (List.mem_cons_of_mem _ hx))
        obtain ⟨n, hn, -, hi⟩ := balanceNode_mid d hb hi.balanced
        dsimp only
        simp only [hc, hn, Option.bind_eq_bind, Option.bind_some]
        exact ⟨n, _, rfl, hi⟩

end Insert

section Erase

variable {truthy : K → Bool}

/-- The tree without its min-node, balanced. -/
def removeMin : Node K S V → Option (Node K S V)
  | empty => some empty
  | node _ _ _ _ empty _ r => some r
  | node h s v k l m r => do
    let child ← removeMin l
    balanceHeavy (node h s v k child m r)

/-- `delete` as a recursion over the tree; no value when the key has no node. -/
def erase (truthy : K → Bool) : Node K S V → Position S → List (Position S) →
    Option (Option (Node K S V))
  | empty, _, _ => none
  | node h s v k l m r, p, rest =>
    if p.cmp s > 0 then
      (erase truthy l p rest).map fun t => t.bind fun t => balanceHeavy (node h s v k t m r)
    else if p.cmp s < 0 then
      (erase truthy r p rest).map fun t => t.bind fun t => balanceHeavy (node h s v k l m t)
    else
      match rest with
      | q :: rest =>
        (erase truthy m q rest).map fun t => t.bind fun t => balanceHeavy (node h s v k l t r)
      | [] => some (removeNode truthy (node h s none none l m r))

theorem find_eq (t : Node K S V) (p : Position S) (rest : List (Position S))
    (stack : Stack K S V) :
    ((find t p rest stack).map fun (stack, n) =>
        (removeNode truthy (n.setElement none none)).bind (balanceByStack stack)) =
      (erase truthy t p rest).map fun t => t.bind (balanceByStack stack) := by
  induction t generalizing p rest stack with
  | empty => rfl
  | node h s v k l m r ihl ihm ihr =>
    unfold find erase
    dsimp only
    split_ifs
    · rw [ihl, Option.map_map]
      simp only [balanceByStack, setChild, Function.comp_def, Option.bind_eq_bind,
        Option.bind_assoc]
    · rw [ihr, Option.map_map]
      simp only [balanceByStack, setChild, Function.comp_def, Option.bind_eq_bind,
        Option.bind_assoc]
    · cases rest with
      | nil => rfl
      | cons q rest =>
        dsimp only
        rw [ihm, Option.map_map]
        simp only [balanceByStack, setChild, Function.comp_def, Option.bind_eq_bind,
          Option.bind_assoc]

theorem delete_eq (truthy : K → Bool) (root : Node K S V) (p : Position S) (rest : List (Position S)) :
    TernarySearchTree.delete truthy p rest root = (erase truthy root p rest).getD (some root) := by
  have h : _ = (erase truthy root p rest).map fun t => t.bind some := find_eq root p rest []
  rw [TernarySearchTree.delete]
  cases hf : find root p rest [] with
  | none =>
    rw [hf, Option.map_none, eq_comm, Option.map_eq_none_iff] at h
    rw [h]
    rfl
  | some walk =>
    rw [hf] at h
    cases he : erase truthy root p rest with
    | none => simp [he] at h
    | some t => simpa [he] using h

theorem minNode_left {h : ℕ} {s : S} {v : Option V} {k : Option K} {l m r : Node K S V}
    (hl : l.isUndefined = false) (stack : Stack K S V) :
    minNode (node h s v k l m r) stack = minNode l ((.left, node h s v k l m r) :: stack) := by
  cases l with
  | empty => cases hl
  | node h' s' v' k' l' m' r' => rfl

theorem removeMin_left {h : ℕ} {s : S} {v : Option V} {k : Option K} {l m r : Node K S V}
    (hl : l.isUndefined = false) :
    removeMin (node h s v k l m r) =
      (removeMin l).bind fun child => balanceHeavy (node h s v k child m r) := by
  cases l with
  | empty => cases hl
  | node h' s' v' k' l' m' r' => rfl

theorem minNode_stack (t : Node K S V) (stack : Stack K S V) :
    (minNode t stack).2 = (minNode t []).2 ∧
      balanceByStack (minNode t stack).1 (minNode t stack).2.right =
        (removeMin t).bind (balanceByStack stack) := by
  induction t generalizing stack with
  | empty => exact ⟨rfl, rfl⟩
  | node h s v k l m r ihl =>
    cases hl : l.isUndefined with
    | true =>
      cases l with
      | empty => exact ⟨rfl, rfl⟩
      | node => cases hl
    | false =>
      obtain ⟨hmin, hbal⟩ := ihl ((.left, node h s v k l m r) :: stack)
      rw [minNode_left hl, minNode_left hl, removeMin_left hl]
      refine ⟨hmin.trans (ihl _).1.symm, ?_⟩
      rw [hbal]
      simp only [Option.bind_assoc, balanceByStack, setChild, Option.bind_eq_bind]

/-- The min-node takes the place of a full node. -/
theorem removeNode_full {h : ℕ} {s : S} {l r : Node K S V} (hl : l.isUndefined = false)
    (hr : r.isUndefined = false) :
    removeNode truthy (node h s none none l empty r) =
      match (minNode r []).2 with
      | node _ s' v' (some k') _ _ _ =>
        if truthy k' then
          (removeMin r).bind fun t => balanceHeavy (node h s' v' (some k') l empty t)
        else some (node h s none none l empty r)
      | _ => some (node h s none none l empty r) := by
  cases l with
  | empty => simp [isUndefined] at hl
  | node h1 s1 v1 k1 l1 m1 r1 =>
    cases hr' : r with
    | empty => simp [hr', isUndefined] at hr
    | node h2 s2 v2 k2 l2 m2 r2 =>
      rw [← hr']
      have hstack := fun n' => minNode_stack r [(Dir.right, n')]
      have hdef : removeNode truthy (node h s none none (node h1 s1 v1 k1 l1 m1 r1) empty r) =
          match (minNode r []).2 with
          | node _ s' v' (some k') _ _ r' =>
            if truthy k' then
              balanceByStack (minNode r [(.right,
                node h s' v' (some k') (node h1 s1 v1 k1 l1 m1 r1) empty r)]).1 r'
            else some (node h s none none (node h1 s1 v1 k1 l1 m1 r1) empty r)
          | _ => some (node h s none none (node h1 s1 v1 k1 l1 m1 r1) empty r) := by
        rw [hr']
        rfl
      rw [hdef]
      split
      · next h' s' v' k' l' m' r' hmin =>
        split_ifs
        · have hs := hstack (node h s' v' (some k') (node h1 s1 v1 k1 l1 m1 r1) empty r)
          have hright : r' = (minNode r [(.right,
              node h s' v' (some k') (node h1 s1 v1 k1 l1 m1 r1) empty r)]).2.right := by
            rw [hs.1, hmin]
            rfl
          rw [hright, hs.2]
          simp only [balanceByStack, setChild, Option.bind_eq_bind, Option.bind_fun_some]
        · rfl
      · rfl

/-- A tree with a node less. -/
structure Erased (t t' : Node K S V) : Prop where
  balanced : Balanced t'
  le : t'.height ≤ t.height
  ge : t.height ≤ t'.height + 1

theorem Erased.refl {t : Node K S V} (hb : Balanced t) : Erased t t :=
  ⟨hb, le_rfl, Nat.le_succ _⟩

section

variable {h : ℕ} {s s' : S} {v v' : Option V} {k k' : Option K} {l m r t : Node K S V}

theorem balanceHeavy_left (hb : Balanced (node h s v k l m r)) (ht : Erased l t) :
    ∃ n, balanceHeavy (node h s v k t m r) = some n ∧ Erased (node h s v k l m r) n := by
  obtain ⟨hh, hlr, hrl, -, hm, hr⟩ := hb
  obtain ⟨htb, hle, hge⟩ := ht
  obtain ⟨n, hn, hspec⟩ := balanceHeavy_spec (h := h) (s := s) (v := v) (k := k)
    htb hm hr (by omega) (by omega)
  have hclose := hspec.height_close
  have hright := hspec.height_right
  refine ⟨n, hn, hspec.balanced, ?_, ?_⟩ <;> rw [height_node] <;> omega

/-- The node itself may have been given another element. -/
theorem balanceHeavy_right (hb : Balanced (node h s v k l m r)) (ht : Erased r t) :
    ∃ n, balanceHeavy (node h s' v' k' l m t) = some n ∧ Erased (node h s v k l m r) n := by
  obtain ⟨hh, hlr, hrl, hl, hm, -⟩ := hb
  obtain ⟨htb, hle, hge⟩ := ht
  obtain ⟨n, hn, hspec⟩ := balanceHeavy_spec (h := h) (s := s') (v := v') (k := k')
    hl hm htb (by omega) (by omega)
  have hclose := hspec.height_close
  have hleft := hspec.height_left
  refine ⟨n, hn, hspec.balanced, ?_, ?_⟩ <;> rw [height_node] <;> omega

theorem balanceHeavy_mid (hb : Balanced (node h s v k l m r)) (ht : Balanced t) :
    ∃ n, balanceHeavy (node h s v k l t r) = some n ∧ Erased (node h s v k l m r) n := by
  obtain ⟨hh, hlr, hrl, hl, -, hr⟩ := hb
  obtain ⟨n, hn, hspec⟩ := balanceHeavy_spec (h := h) (s := s) (v := v) (k := k)
    hl ht hr (by omega) (by omega)
  have hclose := hspec.height_close
  refine ⟨n, hn, hspec.balanced, ?_, ?_⟩ <;> rw [height_node] <;> omega

end

theorem removeMin_balanced {t : Node K S V} (hb : Balanced t) :
    ∃ t', removeMin t = some t' ∧ Erased t t' := by
  induction t with
  | empty => exact ⟨_, rfl, .refl hb⟩
  | node h s v k l m r ihl =>
    cases hl : l.isUndefined with
    | true =>
      cases l with
      | node => cases hl
      | empty =>
        obtain ⟨hh, -, hrl, -, -, hr⟩ := hb
        rw [height_empty] at hh hrl
        refine ⟨r, rfl, hr, ?_, ?_⟩ <;> rw [height_node] <;> omega
    | false =>
      obtain ⟨t, ht, he⟩ := ihl hb.2.2.2.1
      obtain ⟨n, hn, hn'⟩ := balanceHeavy_left hb he
      rw [removeMin_left hl, ht]
      exact ⟨n, hn, hn'⟩

theorem removeNode_balanced (truthy : K → Bool) {h : ℕ} {s : S} {l m r : Node K S V}
    (hb : Balanced (node h s (none : Option V) (none : Option K) l m r)) :
    ∃ t, removeNode truthy (node h s none none l m r) = some t ∧
      Erased (node h s none none l m r) t := by
  cases m with
  | node => exact ⟨_, rfl, .refl hb⟩
  | empty =>
    obtain ⟨hh, hlr, hrl, hl, -, hr⟩ := id hb
    cases hlu : l.isUndefined with
    | true =>
      cases l with
      | node => cases hlu
      | empty =>
        rw [height_empty] at hh hrl
        refine ⟨r, rfl, hr, ?_, ?_⟩ <;> rw [height_node] <;> omega
    | false =>
      cases hru : r.isUndefined with
      | true =>
        cases r with
        | node => cases hru
        | empty =>
          cases l with
          | empty => cases hlu
          | node h' s' v' k' l' m' r' =>
            simp only [height_empty, height_node] at hh hlr
            refine ⟨_, rfl, hl, ?_, ?_⟩ <;> simp only [height_node] <;> omega
      | false =>
        rw [removeNode_full hlu hru]
        split
        · split_ifs
          · obtain ⟨t, ht, he⟩ := removeMin_balanced hr
            rw [ht]
            exact balanceHeavy_right hb he
          · exact ⟨_, rfl, .refl hb⟩
        · exact ⟨_, rfl, .refl hb⟩

theorem erase_balanced {t : Node K S V} {p : Position S} {rest : List (Position S)}
    {o : Option (Node K S V)} (hb : Balanced t) (ho : erase truthy t p rest = some o) :
    ∃ t', o = some t' ∧ Erased t t' := by
  induction t generalizing p rest o with
  | empty => cases ho
  | node h s v k l m r ihl ihm ihr =>
    obtain ⟨hh, hlr, hrl, hl, hm, hr⟩ := id hb
    unfold erase at ho
    split_ifs at ho
    · rw [Option.map_eq_some_iff] at ho
      obtain ⟨o', ho', rfl⟩ := ho
      obtain ⟨t, rfl, he⟩ := ihl hl ho'
      exact balanceHeavy_left hb he
    · rw [Option.map_eq_some_iff] at ho
      obtain ⟨o', ho', rfl⟩ := ho
      obtain ⟨t, rfl, he⟩ := ihr hr ho'
      exact balanceHeavy_right hb he
    · cases rest with
      | nil =>
        cases ho
        obtain ⟨t, ht, he⟩ := removeNode_balanced truthy (s := s) hb
        exact ⟨t, ht, he.balanced, he.le, he.ge⟩
      | cons q rest =>
        dsimp only at ho
        rw [Option.map_eq_some_iff] at ho
        obtain ⟨o', ho', rfl⟩ := ho
        obtain ⟨t, rfl, he⟩ := ihm hm ho'
        exact balanceHeavy_mid hb he.balanced

end Erase

end NexgileIde.SearchTree
