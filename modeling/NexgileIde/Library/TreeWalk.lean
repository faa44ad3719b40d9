import NexgileIde.Library.RedBlack

/-!
# Walking a tree with parent links

A reference to a node is the node found in the tree, as a subtree with its path.
Neighbours in order are found below the node or on its path.
-/
namespace NexgileIde.Library

variable {α : Type*}

open RBTree

namespace TreePath

theorem before_append (inner outer : TreePath α) :
    before (inner ++ outer) = before outer ++ before inner := by
  induction inner with
  | nil => simp [before]
  | cons f inner ih =>
    obtain ⟨d, c, a, s⟩ := f
    cases d
    · exact ih
    · rw [List.cons_append, before, ih, before, List.append_assoc]

theorem after_append (inner outer : TreePath α) :
    after (inner ++ outer) = after inner ++ after outer := by
  induction inner with
  | nil => rfl
  | cons f inner ih =>
    obtain ⟨d, c, a, s⟩ := f
    cases d
    · rw [List.cons_append, after, ih, after, List.cons_append, List.append_assoc]
    · exact ih

end TreePath

namespace RBTree

/-- The first node in order of discovery whose data satisfy `q`, and its path. -/
def locate (q : α → Bool) : RBTree α → TreePath α → Option (RBTree α × TreePath α)
  | nil, _ => none
  | node c l a r, path =>
    if q a then some (node c l a r, path)
    else (locate q l (⟨.left, c, a, r⟩ :: path)).or (locate q r (⟨.right, c, a, l⟩ :: path))

/-- The leftmost node below `node c l a r`: its colour, data, right child and path. -/
def leftest (c : Color) (a : α) (r : RBTree α) : RBTree α → TreePath α → Color × α × RBTree α × TreePath α
  | nil, path => (c, a, r, path)
  | node c' l' a' r', path => leftest c' a' r' l' (⟨.left, c, a, r⟩ :: path)

/-- The rightmost node below `node c l a r`: its colour, left child, data and path. -/
def righttest (c : Color) (l : RBTree α) (a : α) : RBTree α → TreePath α → Color × RBTree α × α × TreePath α
  | nil, path => (c, l, a, path)
  | node c' l' a' r', path => righttest c' l' a' r' (⟨.right, c, a, l⟩ :: path)

/-- Every node of a tree is at the end of some path. -/
theorem exists_path {t : RBTree α} {A B : List α} {a : α} (h : t.toList = A ++ a :: B) :
    ∃ (c : Color) (l r : RBTree α) (path : TreePath α), path.plug (node c l a r) = t ∧
      A = path.before ++ l.toList ∧ B = r.toList ++ path.after := by
  induction t generalizing A B with
  | nil => simp at h
  | node c l b r ihl ihr =>
    rw [toList_node] at h
    rcases List.append_eq_append_iff.mp h with ⟨as, hA, hB⟩ | ⟨bs, hl, hB⟩
    · cases as with
      | nil =>
        obtain ⟨rfl, rfl⟩ := List.cons.inj hB
        exact ⟨c, l, r, [], rfl, by simpa [TreePath.before] using hA, by simp [TreePath.after]⟩
      | cons x as =>
        obtain ⟨rfl, hr⟩ := List.cons.inj hB
        obtain ⟨c', l', r', path, rfl, rfl, rfl⟩ := ihr hr
        refine ⟨c', l', r', path ++ [⟨.right, c, b, l⟩], ?_, ?_, ?_⟩
        · rw [TreePath.plug_append]
          rfl
        · rw [TreePath.before_append, hA]
          simp [TreePath.before]
        · rw [TreePath.after_append]
          simp [TreePath.after]
    · cases bs with
      | nil =>
        obtain ⟨rfl, rfl⟩ := List.cons.inj hB
        exact ⟨c, l, r, [], rfl, by simpa [TreePath.before] using hl.symm, by simp [TreePath.after]⟩
      | cons x bs =>
        obtain ⟨rfl, rfl⟩ := List.cons.inj hB
        obtain ⟨c', l', r', path, rfl, rfl, rfl⟩ := ihl hl
        refine ⟨c', l', r', path ++ [⟨.left, c, b, r⟩], ?_, ?_, ?_⟩
        · rw [TreePath.plug_append]
          rfl
        · rw [TreePath.before_append]
          simp [TreePath.before]
        · rw [TreePath.after_append]
          simp [TreePath.after]

theorem locate_eq_none {q : α → Bool} {t : RBTree α} (h : ∀ a ∈ t.toList, ¬ q a) (path : TreePath α) :
    locate q t path = none := by
  induction t generalizing path with
  | nil => rfl
  | node c l a r ihl ihr =>
    rw [locate, if_neg (h a (by simp)), ihl (fun b hb => h b (by simp [hb])),
      ihr (fun b hb => h b (by simp [hb]))]
    rfl

/-- What is found in a subtree is found in the whole tree if nothing else satisfies `q`. -/
theorem locate_plug {q : α → Bool} {t : RBTree α} {path : TreePath α} {found : RBTree α × TreePath α}
    (h : locate q t path = some found) (hbefore : ∀ a ∈ path.before, ¬ q a)
    (hafter : ∀ a ∈ path.after, ¬ q a) : locate q (path.plug t) [] = some found := by
  induction path generalizing t with
  | nil => exact h
  | cons f path ih =>
    obtain ⟨d, c, a, s⟩ := f
    cases d
    · refine ih ?_ hbefore fun b hb => hafter b (by simp [TreePath.after, hb])
      rw [Frame.plug, locate, if_neg (hafter a (by simp [TreePath.after])), h, Option.some_or]
    · refine ih ?_ (fun b hb => hbefore b (by simp [TreePath.before, hb])) hafter
      rw [Frame.plug, locate, if_neg (hbefore a (by simp [TreePath.before])),
        locate_eq_none (fun b hb => hbefore b (by simp [TreePath.before, hb])), Option.none_or, h]

theorem locate_self {q : α → Bool} {c : Color} {l r : RBTree α} {a : α} {path : TreePath α}
    (hq : q a) (hbefore : ∀ b ∈ path.before, ¬ q b) (hafter : ∀ b ∈ path.after, ¬ q b) :
    locate q (path.plug (node c l a r)) [] = some (node c l a r, path) := by
  refine locate_plug ?_ hbefore hafter
  rw [locate, if_pos hq]

/-- A node that alone satisfies `q` is found, with what comes before and behind it. -/
theorem locate_split {q : α → Bool} {t : RBTree α} {A B : List α} {a : α}
    (h : t.toList = A ++ a :: B) (hq : q a) (hunique : ∀ b ∈ A ++ B, ¬ q b) :
    ∃ (c : Color) (l r : RBTree α) (path : TreePath α), locate q t [] = some (node c l a r, path) ∧ path.plug (node c l a r) = t ∧
      A = path.before ++ l.toList ∧ B = r.toList ++ path.after := by
  obtain ⟨c, l, r, path, rfl, rfl, rfl⟩ := exists_path h
  refine ⟨c, l, r, path, locate_self hq (fun b hb => hunique b ?_) (fun b hb => hunique b ?_),
    rfl, rfl, rfl⟩
  · simp [hb]
  · simp [hb]

theorem leftest_spec {c c' : Color} {a a' : α} {l r r' : RBTree α} {path path' : TreePath α}
    (h : leftest c a r l path = (c', a', r', path')) :
    ∃ inner : TreePath α, path' = inner ++ path ∧ (∀ f ∈ inner, f.dir = .left) ∧
      inner.plug (node c' nil a' r') = node c l a r := by
  induction l generalizing c a r path with
  | nil =>
    simp only [leftest, Prod.mk.injEq] at h
    obtain ⟨rfl, rfl, rfl, rfl⟩ := h
    exact ⟨[], rfl, by simp, rfl⟩
  | node cl ll al rl ih _ =>
    obtain ⟨inner, rfl, hdir, hplug⟩ := ih h
    refine ⟨inner ++ [⟨.left, c, a, r⟩], by simp, ?_, ?_⟩
    · intro f hf
      rcases List.mem_append.mp hf with hf | hf
      · exact hdir f hf
      · rw [List.mem_singleton.mp hf]
    · rw [TreePath.plug_append, hplug]
      rfl

theorem righttest_spec {c c' : Color} {a a' : α} {l l' r : RBTree α} {path path' : TreePath α}
    (h : righttest c l a r path = (c', l', a', path')) :
    ∃ inner : TreePath α, path' = inner ++ path ∧ (∀ f ∈ inner, f.dir = .right) ∧
      inner.plug (node c' l' a' nil) = node c l a r := by
  induction r generalizing c a l path with
  | nil =>
    simp only [righttest, Prod.mk.injEq] at h
    obtain ⟨rfl, rfl, rfl, rfl⟩ := h
    exact ⟨[], rfl, by simp, rfl⟩
  | node cr lr ar rr _ ih =>
    obtain ⟨inner, rfl, hdir, hplug⟩ := ih h
    refine ⟨inner ++ [⟨.right, c, a, l⟩], by simp, ?_, ?_⟩
    · intro f hf
      rcases List.mem_append.mp hf with hf | hf
      · exact hdir f hf
      · rw [List.mem_singleton.mp hf]
    · rw [TreePath.plug_append, hplug]
      rfl

end RBTree

namespace TreePath

/-- The nearest ancestor of which the node is in the left subtree. -/
def nextUp : TreePath α → Option α
  | [] => none
  | ⟨.left, _, a, _⟩ :: _ => some a
  | ⟨.right, _, _, _⟩ :: path => nextUp path

/-- The nearest ancestor of which the node is in the right subtree. -/
def prevUp : TreePath α → Option α
  | [] => none
  | ⟨.right, _, a, _⟩ :: _ => some a
  | ⟨.left, _, _, _⟩ :: path => prevUp path

theorem nextUp_eq (path : TreePath α) : nextUp path = path.after.head? := by
  induction path with
  | nil => rfl
  | cons f path ih =>
    obtain ⟨d, c, a, s⟩ := f
    cases d
    · rfl
    · exact ih

theorem prevUp_eq (path : TreePath α) : prevUp path = path.before.getLast? := by
  induction path with
  | nil => rfl
  | cons f path ih =>
    obtain ⟨d, c, a, s⟩ := f
    cases d
    · exact ih
    · rw [prevUp, before, ← List.append_assoc, List.getLast?_concat]

theorem before_of_left {inner : TreePath α} (h : ∀ f ∈ inner, f.dir = .left) : inner.before = [] := by
  induction inner with
  | nil => rfl
  | cons f inner ih =>
    obtain ⟨d, c, a, s⟩ := f
    obtain rfl : d = .left := h _ List.mem_cons_self
    exact ih fun f hf => h f (by simp [hf])

theorem after_of_right {inner : TreePath α} (h : ∀ f ∈ inner, f.dir = .right) : inner.after = [] := by
  induction inner with
  | nil => rfl
  | cons f inner ih =>
    obtain ⟨d, c, a, s⟩ := f
    obtain rfl : d = .right := h _ List.mem_cons_self
    exact ih fun f hf => h f (by simp [hf])

end TreePath

/-- The node behind `node _ _ _ r` in order. -/
def next (r : RBTree α) (path : TreePath α) : Option α :=
  match r with
  | nil => path.nextUp
  | node c l a r => some (leftest c a r l []).2.1

/-- The node before `node _ l _ _` in order. -/
def prev (l : RBTree α) (path : TreePath α) : Option α :=
  match l with
  | nil => path.prevUp
  | node c l a r => some (righttest c l a r []).2.2.1

theorem next_eq (r : RBTree α) (path : TreePath α) : next r path = (r.toList ++ path.after).head? := by
  cases r with
  | nil => exact path.nextUp_eq
  | node c l a r =>
    rcases hleft : leftest c a r l [] with ⟨c', a', r', path'⟩
    obtain ⟨inner, -, hdir, hplug⟩ := leftest_spec hleft
    rw [next, hleft, ← hplug, TreePath.toList_plug, TreePath.before_of_left hdir]
    rfl

theorem prev_eq (l : RBTree α) (path : TreePath α) :
    prev l path = (path.before ++ l.toList).getLast? := by
  cases l with
  | nil => rw [toList_nil, List.append_nil]; exact path.prevUp_eq
  | node c l a r =>
    rcases hright : righttest c l a r [] with ⟨c', l', a', path'⟩
    obtain ⟨inner, -, hdir, hplug⟩ := righttest_spec hright
    rw [prev, hright, ← hplug, TreePath.toList_plug, TreePath.after_of_right hdir]
    simp

end NexgileIde.Library
