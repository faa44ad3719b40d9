import Mathlib.Data.List.Basic
import Mathlib.Tactic

/-!
# Red-black trees with node data kept up by rotations

Pointer-based red-black trees are walked upwards through parent links. Here a node
under inspection is a subtree together with the path to the root. Every rotation may
rewrite the data of the two nodes it moves and a state kept beside the tree, so that
the same repair loops serve trees whose nodes carry sums, maxima or offsets.
-/
namespace NexgileIde.Library

inductive Color where
  | black
  | red
  deriving DecidableEq, Repr

/-- The side of a parent on which a child hangs. -/
inductive Dir where
  | left
  | right
  deriving DecidableEq, Repr

def Dir.flip : Dir → Dir
  | .left => .right
  | .right => .left

inductive RBTree (α : Type*) where
  | nil : RBTree α
  | node (color : Color) (left : RBTree α) (val : α) (right : RBTree α) : RBTree α
  deriving DecidableEq, Repr

/-- A parent seen from one of its children: the side of the child, and the rest. -/
structure Frame (α : Type*) where
  dir : Dir
  color : Color
  val : α
  sibling : RBTree α
  deriving DecidableEq, Repr

/-- The way from a subtree to the root, nearest parent first. -/
abbrev TreePath (α : Type*) := List (Frame α)

variable {α σ : Type*}

namespace RBTree

def color : RBTree α → Color
  | nil => .black
  | node c _ _ _ => c

def isNil : RBTree α → Bool
  | nil => true
  | node _ _ _ _ => false

def setColor (c : Color) : RBTree α → RBTree α
  | nil => nil
  | node _ l a r => node c l a r

/-- The in-order sequence of the nodes. -/
def toList : RBTree α → List α
  | nil => []
  | node _ l a r => toList l ++ a :: toList r

@[simp] theorem toList_nil : (nil : RBTree α).toList = [] := rfl
@[simp] theorem toList_node (c : Color) (l : RBTree α) (a : α) (r : RBTree α) :
    (node c l a r).toList = l.toList ++ a :: r.toList := rfl

/-- The child on a side. -/
def child : Dir → RBTree α → RBTree α
  | _, nil => nil
  | .left, node _ l _ _ => l
  | .right, node _ _ _ r => r

end RBTree

open RBTree

namespace Frame

/-- The parent with `t` as its child. -/
def plug (f : Frame α) (t : RBTree α) : RBTree α :=
  match f.dir with
  | .left => node f.color t f.val f.sibling
  | .right => node f.color f.sibling f.val t

end Frame

namespace TreePath

/-- The whole tree in which `t` stands at the end of the path. -/
def plug : TreePath α → RBTree α → RBTree α
  | [], t => t
  | f :: path, t => plug path (f.plug t)

/-- What comes before the subtree in order. -/
def before : TreePath α → List α
  | [] => []
  | ⟨.left, _, _, _⟩ :: path => before path
  | ⟨.right, _, a, s⟩ :: path => before path ++ (s.toList ++ [a])

/-- What comes behind the subtree in order. -/
def after : TreePath α → List α
  | [] => []
  | ⟨.left, _, a, s⟩ :: path => a :: (s.toList ++ after path)
  | ⟨.right, _, _, _⟩ :: path => after path

@[simp] theorem plug_nil (t : RBTree α) : plug [] t = t := rfl
@[simp] theorem plug_cons (f : Frame α) (path : TreePath α) (t : RBTree α) :
    plug (f :: path) t = plug path (f.plug t) := rfl

theorem plug_append (inner outer : TreePath α) (t : RBTree α) :
    plug (inner ++ outer) t = plug outer (plug inner t) := by
  induction inner generalizing t with
  | nil => rfl
  | cons f inner ih => exact ih (f.plug t)

theorem toList_plug (path : TreePath α) (t : RBTree α) :
    (plug path t).toList = before path ++ (t.toList ++ after path) := by
  induction path generalizing t with
  | nil => simp [before, after]
  | cons f path ih =>
    obtain ⟨dir, c, a, s⟩ := f
    rw [plug_cons, ih]
    cases dir <;> simp [Frame.plug, before, after]

end TreePath

/-- How the two nodes moved by a rotation are rewritten. The arguments are the moved
nodes and the three subtrees in order, before the rotation. -/
structure Rotations (α σ : Type*) where
  left : RBTree α → α → RBTree α → α → RBTree α → σ → α × α × σ
  right : RBTree α → α → RBTree α → α → RBTree α → σ → α × α × σ

namespace Rotations

variable (R : Rotations α σ)

def leftRotate : RBTree α → σ → RBTree α × σ
  | node cx a x (node cy b y c), s =>
    let (x, y, s) := R.left a x b y c s
    (node cy (node cx a x b) y c, s)
  | t, s => (t, s)

def rightRotate : RBTree α → σ → RBTree α × σ
  | node cy (node cx a x b) y c, s =>
    let (x, y, s) := R.right a x b y c s
    (node cx a x (node cy b y c), s)
  | t, s => (t, s)

/-- Rotate a subtree towards a side. -/
def rotate : Dir → RBTree α → σ → RBTree α × σ
  | .left => R.leftRotate
  | .right => R.rightRotate

/-- Repair the tree after a red node has been linked in: `x` is the red node, and the
loop climbs two parents at a time. -/
def insertFixup : RBTree α → TreePath α → σ → RBTree α × σ
  | x, [], s => (x.setColor .black, s)
  | x, [p], s => ((p.plug x).setColor .black, s)
  | x, p :: g :: path, s =>
    if p.color = .black then ((TreePath.plug (p :: g :: path) x).setColor .black, s)
    else if g.sibling.color = .red then
      let x := { g with color := .red, sibling := g.sibling.setColor .black }.plug
        ({ p with color := .black }.plug x)
      insertFixup x path s
    else
      -- `x` on the inner side is rotated outwards first
      let (t, s) := if p.dir ≠ g.dir then R.rotate g.dir (p.plug x) s else (p.plug x, s)
      let (t, s) := R.rotate g.dir.flip ({ g with color := .red }.plug (t.setColor .black)) s
      ((TreePath.plug path t).setColor .black, s)

/-- One round for a black sibling of `x`: the subtree of the parent afterwards, and
whether the parent is the next `x`. -/
def fixSibling (x : RBTree α) (p : Frame α) (s : σ) : RBTree α × Bool × σ :=
  let w := p.sibling
  if (w.child p.dir).color = .black ∧ (w.child p.dir.flip).color = .black then
    ({ p with sibling := w.setColor .red }.plug x, true, s)
  else
    let (w, s) :=
      if (w.child p.dir.flip).color = .black then
        R.rotate p.dir.flip ((recolorChild p.dir w).setColor .red) s
      else (w, s)
    let w := (recolorChild p.dir.flip w).setColor p.color
    let (t, s) := R.rotate p.dir ({ p with color := .black, sibling := w }.plug x) s
    (t, false, s)
where
  /-- Blacken the child on a side. -/
  recolorChild : Dir → RBTree α → RBTree α
    | _, nil => nil
    | .left, node c l a r => node c (l.setColor .black) a r
    | .right, node c l a r => node c l a (r.setColor .black)

/-- Repair the tree after a black node above `x` has been unlinked. -/
def deleteFixup : RBTree α → TreePath α → σ → RBTree α × σ
  | x, [], s => (x.setColor .black, s)
  | x, p :: path, s =>
    if x.color = .red then (TreePath.plug (p :: path) (x.setColor .black), s)
    else if p.sibling.color = .red then
      -- the red sibling becomes the black grandparent of `x`
      let (t, s) := R.rotate p.dir
        ({ p with color := .red, sibling := p.sibling.setColor .black }.plug x) s
      match p.dir, t with
      | .left, node cw (node cp _ a l) w r =>
        finish (fixSibling R x ⟨.left, cp, a, l⟩ s) (⟨.left, cw, w, r⟩ :: path)
      | .right, node cw l w (node cp r a _) =>
        finish (fixSibling R x ⟨.right, cp, a, r⟩ s) (⟨.right, cw, w, l⟩ :: path)
      | _, t => (TreePath.plug path t, s)
    else
      match fixSibling R x p s with
      | (t, true, s) => deleteFixup t path s
      | (t, false, s) => ((TreePath.plug path t).setColor .black, s)
where
  /-- Behind a red sibling the parent is red: the loop ends there or at the root. -/
  finish : RBTree α × Bool × σ → TreePath α → RBTree α × σ
    | (t, true, s), path => (TreePath.plug path (t.setColor .black), s)
    | (t, false, s), path => ((TreePath.plug path t).setColor .black, s)

end Rotations

/-- A relation that holds between a tree and what rotations and recolourings make of
it, anywhere in the tree. -/
structure Invariance (R : Rotations α σ) (Sim : RBTree α → RBTree α → Prop) : Prop where
  refl : ∀ t, Sim t t
  trans : ∀ {t u v}, Sim t u → Sim u v → Sim t v
  congr : ∀ {c l l' a r r'}, Sim l l' → Sim r r' → Sim (node c l a r) (node c l' a r')
  setColor : ∀ c t, Sim t (t.setColor c)
  leftRotate : ∀ t s, Sim t (R.leftRotate t s).1
  rightRotate : ∀ t s, Sim t (R.rightRotate t s).1

namespace Invariance

variable {R : Rotations α σ} {Sim : RBTree α → RBTree α → Prop}

theorem rotate (h : Invariance R Sim) (d : Dir) (t : RBTree α) (s : σ) :
    Sim t (R.rotate d t s).1 := by
  cases d
  · exact h.leftRotate t s
  · exact h.rightRotate t s

theorem plugFrame (h : Invariance R Sim) {t t' : RBTree α} (f : Frame α) (c : Color)
    {sibling : RBTree α} (ht : Sim t t') (hs : Sim f.sibling sibling) :
    Sim (f.plug t) ({ f with color := c, sibling := sibling }.plug t') := by
  obtain ⟨dir, c', a, s⟩ := f
  cases dir
  · exact h.trans (h.setColor c _) (h.congr ht hs)
  · exact h.trans (h.setColor c _) (h.congr hs ht)

theorem plug (h : Invariance R Sim) {t t' : RBTree α} (path : TreePath α) (ht : Sim t t') :
    Sim (path.plug t) (path.plug t') := by
  induction path generalizing t t' with
  | nil => exact ht
  | cons f path ih => exact ih (h.plugFrame f f.color ht (h.refl f.sibling))

theorem insertFixup (h : Invariance R Sim) (x : RBTree α) (path : TreePath α) (s : σ) :
    Sim (path.plug x) (R.insertFixup x path s).1 := by
  induction x, path, s using Rotations.insertFixup.induct R with
  | case1 x s => exact h.setColor _ x
  | case2 x p s => exact h.setColor _ _
  | case3 x p g path s hp =>
    rw [Rotations.insertFixup, if_pos hp]
    exact h.setColor _ _
  | case4 x p g path s hp hu x' ih =>
    rw [Rotations.insertFixup, if_neg hp, if_pos hu]
    exact h.trans (h.plug path (h.plugFrame g .red
      (h.plugFrame p .black (h.refl x) (h.refl _)) (h.setColor _ _))) ih
  | case5 x p g path s hp hu =>
    rw [Rotations.insertFixup, if_neg hp, if_neg hu]
    dsimp only
    generalize hinner :
      (if p.dir ≠ g.dir then R.rotate g.dir (p.plug x) s else (p.plug x, s)) = inner
    have hsim : Sim (p.plug x) inner.1 := by
      rw [← hinner]
      split_ifs
      · exact h.rotate _ _ _
      · exact h.refl _
    refine h.trans (h.plug path ?_) (h.setColor _ _)
    exact h.trans (h.plugFrame g .red (h.trans hsim (h.setColor _ _)) (h.refl _))
      (h.rotate _ _ _)

theorem recolorChild (h : Invariance R Sim) (d : Dir) (t : RBTree α) :
    Sim t (Rotations.fixSibling.recolorChild d t) := by
  cases t with
  | nil => exact h.refl _
  | node c l a r =>
    cases d
    · exact h.congr (h.setColor _ l) (h.refl r)
    · exact h.congr (h.refl l) (h.setColor _ r)

theorem fixSibling (h : Invariance R Sim) (x : RBTree α) (p : Frame α) (s : σ) :
    Sim (p.plug x) (R.fixSibling x p s).1 := by
  unfold Rotations.fixSibling
  dsimp only
  split_ifs with hboth hfar
  · exact h.plugFrame p p.color (h.refl x) (h.setColor _ _)
  · refine h.trans (h.plugFrame p .black (h.refl x) ?_) (h.rotate _ _ _)
    refine h.trans ?_ (h.setColor _ _)
    refine h.trans ?_ (h.recolorChild _ _)
    refine h.trans ?_ (h.rotate _ _ _)
    exact h.trans (h.recolorChild _ _) (h.setColor _ _)
  · refine h.trans (h.plugFrame p .black (h.refl x) ?_) (h.rotate _ _ _)
    exact h.trans (h.recolorChild _ _) (h.setColor _ _)

theorem finish (h : Invariance R Sim) {t : RBTree α} {out : RBTree α × Bool × σ} (path : TreePath α)
    (ht : Sim t out.1) : Sim (path.plug t) (Rotations.deleteFixup.finish out path).1 := by
  obtain ⟨t', again, s⟩ := out
  cases again
  · exact h.trans (h.plug path ht) (h.setColor _ _)
  · exact h.plug path (h.trans ht (h.setColor _ _))

theorem deleteFixup (h : Invariance R Sim) (x : RBTree α) (path : TreePath α) (s : σ) :
    Sim (path.plug x) (R.deleteFixup x path s).1 := by
  induction path generalizing x s with
  | nil => exact h.setColor _ x
  | cons p path ih =>
    unfold Rotations.deleteFixup
    split_ifs with hx hw
    · exact h.plug (p :: path) (h.setColor _ x)
    · have hrot := h.trans (h.plugFrame p .red (h.refl x) (h.setColor .black p.sibling))
        (h.rotate p.dir _ s)
      obtain ⟨dir, c, a, sibling⟩ := p
      cases sibling with
      | nil => cases hw
      | node cw l w r =>
        cases dir
        · rcases hl : R.left x a l w r s with ⟨a', w', s'⟩
          simp only [Rotations.rotate, Rotations.leftRotate, Frame.plug, RBTree.setColor, hl]
            at hrot ⊢
          exact h.trans (h.plug path hrot)
            (h.finish (⟨.left, .black, w', r⟩ :: path) (h.fixSibling x ⟨.left, .red, a', l⟩ s'))
        · rcases hr : R.right l w r a x s with ⟨w', a', s'⟩
          simp only [Rotations.rotate, Rotations.rightRotate, Frame.plug, RBTree.setColor, hr]
            at hrot ⊢
          exact h.trans (h.plug path hrot)
            (h.finish (⟨.right, .black, w', l⟩ :: path) (h.fixSibling x ⟨.right, .red, a', r⟩ s'))
    · have hround := h.fixSibling x p s
      rcases hout : R.fixSibling x p s with ⟨t, again, s'⟩
      rw [hout] at hround
      cases again
      · exact h.trans (h.plug path hround) (h.setColor _ _)
      · exact h.trans (h.plug path hround) (ih t s')

end Invariance
end NexgileIde.Library

/-!
## Balance of red-black trees under repair

The repair loops keep a tree red-black: black root, no red node with a red child,
and the same number of black nodes on every way down. The data that rotations rewrite
plays no role here.
-/
namespace NexgileIde.Library

variable {α σ : Type*} {R : Rotations α σ}

open RBTree

namespace RBTree

/-- A subtree with a root of the given colour and `n` black nodes on every way down. -/
inductive Balanced : RBTree α → Color → ℕ → Prop
  | nil : Balanced nil .black 0
  | red {l r : RBTree α} {a : α} {n : ℕ} : Balanced l .black n → Balanced r .black n →
      Balanced (node .red l a r) .red n
  | black {l r : RBTree α} {a : α} {cl cr : Color} {n : ℕ} : Balanced l cl n → Balanced r cr n →
      Balanced (node .black l a r) .black (n + 1)

def IsRedBlack (t : RBTree α) : Prop := ∃ n, t.Balanced .black n

theorem isRedBlack_nil : IsRedBlack (nil : RBTree α) := ⟨0, .nil⟩

theorem Balanced.color_eq {t : RBTree α} {c : Color} {n : ℕ} (h : t.Balanced c n) :
    t.color = c := by
  cases h <;> rfl

theorem Balanced.setColor_black {t : RBTree α} {n : ℕ} (h : t.Balanced .black n) :
    t.setColor .black = t := by
  cases h <;> rfl

theorem Balanced.blacken_red {t : RBTree α} {n : ℕ} (h : t.Balanced .red n) :
    (t.setColor .black).Balanced .black (n + 1) := by
  cases h with
  | red hl hr => exact .black hl hr

theorem Balanced.isRedBlack_blacken {t : RBTree α} {c : Color} {n : ℕ} (h : t.Balanced c n) :
    IsRedBlack (t.setColor .black) := by
  cases h with
  | nil => exact ⟨_, .nil⟩
  | red hl hr => exact ⟨_, .black hl hr⟩
  | black hl hr => exact ⟨_, .black hl hr⟩

end RBTree

namespace TreePath

/-- A subtree of the given colour with `n` black nodes may stand at the end of the path. -/
inductive Accepts : TreePath α → Color → ℕ → Prop
  | root {n : ℕ} : Accepts [] .black n
  | red {d : Dir} {a : α} {s : RBTree α} {path : TreePath α} {n : ℕ} : s.Balanced .black n →
      Accepts path .red n → Accepts (⟨d, .red, a, s⟩ :: path) .black n
  | black {d : Dir} {a : α} {s : RBTree α} {path : TreePath α} {c cs : Color} {n : ℕ} :
      s.Balanced cs n → Accepts path .black (n + 1) → Accepts (⟨d, .black, a, s⟩ :: path) c n

theorem Accepts.toBlack {path : TreePath α} {c : Color} {n : ℕ} (h : path.Accepts c n) :
    path.Accepts .black n := by
  cases h with
  | root => exact .root
  | red hs hp => exact .red hs hp
  | black hs hp => exact .black hs hp

theorem Accepts.plug {path : TreePath α} {c : Color} {n : ℕ} {t : RBTree α} (h : path.Accepts c n)
    (ht : t.Balanced c n) : IsRedBlack (path.plug t) := by
  induction h generalizing t with
  | root => exact ⟨_, ht⟩
  | @red d a s path n hs _ ih =>
    refine ih ?_
    cases d
    · exact .red ht hs
    · exact .red hs ht
  | @black d a s path c cs n hs _ ih =>
    refine ih ?_
    cases d
    · exact .black ht hs
    · exact .black hs ht

theorem accepts_of_plug {path : TreePath α} {t : RBTree α} (h : IsRedBlack (path.plug t)) :
    ∃ c n, t.Balanced c n ∧ path.Accepts c n := by
  induction path generalizing t with
  | nil =>
    obtain ⟨n, h⟩ := h
    exact ⟨.black, n, h, .root⟩
  | cons f path ih =>
    obtain ⟨d, cf, a, s⟩ := f
    obtain ⟨c, n, hf, hpath⟩ := ih h
    cases d
    · cases hf with
      | red ht hs => exact ⟨_, _, ht, .red hs hpath⟩
      | black ht hs => exact ⟨_, _, ht, .black hs hpath⟩
    · cases hf with
      | red hs ht => exact ⟨_, _, ht, .red hs hpath⟩
      | black hs ht => exact ⟨_, _, ht, .black hs hpath⟩

theorem plug_setColor_black {path : TreePath α} {t : RBTree α} (h : IsRedBlack (path.plug t)) :
    (path.plug t).setColor .black = path.plug t := by
  obtain ⟨n, h⟩ := h
  exact h.setColor_black

end TreePath

namespace TreePath

/-- Paths that differ at most in the data of their nodes. -/
def SameShape (p q : TreePath α) : Prop :=
  List.Forall₂ (fun f g => f.dir = g.dir ∧ f.color = g.color ∧ f.sibling = g.sibling) p q

theorem SameShape.trans {p q r : TreePath α} (h : SameShape p q) (h' : SameShape q r) :
    SameShape p r := by
  induction h generalizing r with
  | nil => exact h'
  | cons hf _ ih =>
    cases h' with
    | cons hg hrest =>
      exact .cons ⟨hf.1.trans hg.1, hf.2.1.trans hg.2.1, hf.2.2.trans hg.2.2⟩ (ih hrest)

theorem Accepts.sameShape {p q : TreePath α} {c : Color} {n : ℕ} (h : p.Accepts c n)
    (hpq : SameShape p q) : q.Accepts c n := by
  induction h generalizing q with
  | root =>
    cases hpq
    exact .root
  | red hs _ ih =>
    cases hpq with
    | @cons _ g _ _ hf hrest =>
      obtain ⟨d, cg, b, s⟩ := g
      obtain ⟨-, rfl, rfl⟩ := hf
      exact .red hs (ih hrest)
  | black hs _ ih =>
    cases hpq with
    | @cons _ g _ _ hf hrest =>
      obtain ⟨d, cg, b, s⟩ := g
      obtain ⟨-, rfl, rfl⟩ := hf
      exact .black hs (ih hrest)

/-- The data of a node and of its ancestors play no role. -/
theorem isRedBlack_plug_node {p q : TreePath α} {c : Color} {l r : RBTree α} {a b : α}
    (h : IsRedBlack (p.plug (node c l a r))) (hpq : p.SameShape q) :
    IsRedBlack (q.plug (node c l b r)) := by
  obtain ⟨c', n, hnode, hp⟩ := accepts_of_plug h
  refine (hp.sameShape hpq).plug ?_
  cases hnode with
  | red hl hr => exact .red hl hr
  | black hl hr => exact .black hl hr

/-- A new red node may be linked in at an empty place. -/
theorem accepts_nil {path : TreePath α} (h : IsRedBlack (path.plug nil)) : path.Accepts .black 0 := by
  obtain ⟨c, n, hnil, hpath⟩ := accepts_of_plug h
  cases hnil
  exact hpath

end TreePath

namespace Rotations

/-- A red node on the inner side is rotated outwards, a red node below a red node. -/
theorem rotate_inner {dp dg : Dir} {ap : α} {sp x : RBTree α} {n : ℕ} (s : σ)
    (hx : x.Balanced .red n) (hsp : sp.Balanced .black n) :
    ∃ (w c : RBTree α) (z : α) (s' : σ),
      (if dp ≠ dg then R.rotate dg (Frame.plug ⟨dp, .red, ap, sp⟩ x) s
        else (Frame.plug ⟨dp, .red, ap, sp⟩ x, s)) = (Frame.plug ⟨dg, .red, z, c⟩ w, s') ∧
      w.Balanced .red n ∧ c.Balanced .black n := by
  cases hx with
  | @red l r a _ hl hr =>
    cases dp <;> cases dg
    · exact ⟨_, sp, ap, s, rfl, .red hl hr, hsp⟩
    · rcases h : R.right l a r ap sp s with ⟨a', ap', s'⟩
      refine ⟨node .red r ap' sp, l, a', s', ?_, .red hr hsp, hl⟩
      simp [rotate, rightRotate, Frame.plug, h]
    · rcases h : R.left sp ap l a r s with ⟨ap', a', s'⟩
      refine ⟨node .red sp ap' l, r, a', s', ?_, .red hsp hl, hr⟩
      simp [rotate, leftRotate, Frame.plug, h]
    · exact ⟨_, sp, ap, s, rfl, .red hl hr, hsp⟩

/-- Rotating a red node over its red grandparent, itself coloured black. -/
theorem balanced_rotate_outer {d : Dir} {ag z : α} {sg c w : RBTree α} {n : ℕ} (s : σ)
    (hw : w.Balanced .red n) (hc : c.Balanced .black n) (hsg : sg.Balanced .black n) :
    (R.rotate d.flip (Frame.plug ⟨d, .red, ag, sg⟩ (Frame.plug ⟨d, .black, z, c⟩ w)) s).1.Balanced
      .black (n + 1) := by
  cases d
  · exact .black hw (.red hc hsg)
  · exact .black (.red hsg hc) hw

/-- A red node with black children, linked in where black was accepted, is repaired. -/
theorem isRedBlack_insertFixup : ∀ {x : RBTree α} {path : TreePath α} {n : ℕ} (s : σ),
    x.Balanced .red n → path.Accepts .black n → IsRedBlack (R.insertFixup x path s).1
  | x, [], n, s, hx, hpath => hx.isRedBlack_blacken
  | x, [p], n, s, hx, hpath => by
    have hp : TreePath.Accepts [p] .red n := by
      cases hpath with
      | red _ hroot => cases hroot
      | black hs hroot => exact .black hs hroot
    have hrb := TreePath.Accepts.plug hp hx
    have hblack := TreePath.plug_setColor_black hrb
    rw [TreePath.plug_cons, TreePath.plug_nil] at hrb hblack
    rwa [insertFixup, hblack]
  | x, p :: g :: path, n, s, hx, hpath => by
    rw [insertFixup]
    cases hpath with
    | @black dp ap sp _ _ _ _ hs hrest =>
      have hred : TreePath.Accepts (⟨dp, .black, ap, sp⟩ :: g :: path) .red n := .black hs hrest
      have hrb := hred.plug hx
      rw [if_pos rfl, TreePath.plug_setColor_black hrb]
      exact hrb
    | @red dp ap sp _ _ hsp hg =>
    rw [if_neg Color.noConfusion]
    cases hg with
    | @black dg ag sg _ _ cs _ hsg hrest =>
    cases cs with
    | red =>
      rw [if_pos hsg.color_eq]
      have hparent : Balanced (Frame.plug ⟨dp, .black, ap, sp⟩ x) .black (n + 1) := by
        cases dp
        · exact .black hx hsp
        · exact .black hsp hx
      refine isRedBlack_insertFixup s ?_ hrest
      cases dg
      · exact .red hparent hsg.blacken_red
      · exact .red hsg.blacken_red hparent
    | black =>
      rw [if_neg (by rw [hsg.color_eq]; decide)]
      obtain ⟨w, c, z, s', hinner, hw, hc⟩ := @rotate_inner _ _ R dp dg ap _ _ _ s hx hsp
      dsimp only
      rw [hinner]
      have houter := @balanced_rotate_outer _ _ R dg ag z _ _ _ _ s' hw hc hsg
      have hrb := hrest.plug houter
      have hblack := TreePath.plug_setColor_black hrb
      cases dg <;> exact hblack.symm ▸ hrb

/-- What may stand where one black node more is expected: the loop either blackens a
red root and stops, or goes on with a black one. -/
def Deficient (x : RBTree α) (n : ℕ) : Prop :=
  if x.color = .red then (x.setColor .black).Balanced .black (n + 1) else x.Balanced .black n

theorem deficient_of_balanced {x : RBTree α} {c : Color} {n : ℕ} (h : x.Balanced c n) :
    Deficient x n := by
  unfold Deficient
  cases h with
  | nil => exact .nil
  | red hl hr => exact .black hl hr
  | black hl hr => exact .black hl hr

theorem balanced_node {l r : RBTree α} {a : α} {c : Color} {n : ℕ}
    (hl : l.Balanced .black (n + 1)) (hr : r.Balanced .black (n + 1)) :
    (node c l a r).Balanced c (if c = .black then n + 2 else n + 1) := by
  cases c
  · exact .black hl hr
  · exact .red hl hr

/-- `x` is the only subtree, if any, below a node. -/
def OnlyChild (x l r : RBTree α) : Prop := l = nil ∧ x = r ∨ r = nil ∧ x = l

theorem OnlyChild.balanced {x l r : RBTree α} {cl cr : Color} {n : ℕ} (h : OnlyChild x l r)
    (hl : l.Balanced cl n) (hr : r.Balanced cr n) : ∃ c, x.Balanced c n ∧ (c = cl ∨ c = cr) := by
  rcases h with ⟨-, rfl⟩ | ⟨-, rfl⟩
  · exact ⟨cr, hr, .inr rfl⟩
  · exact ⟨cl, hl, .inl rfl⟩

/-- Unlinking a red node with at most one child breaks nothing. -/
theorem isRedBlack_unlink_red {x l r : RBTree α} {a : α} {path path' : TreePath α}
    (h : IsRedBlack (path.plug (node .red l a r))) (hx : OnlyChild x l r)
    (hshape : path.SameShape path') : IsRedBlack (path'.plug x) := by
  obtain ⟨c, n, hnode, hpath⟩ := TreePath.accepts_of_plug h
  cases hnode with
  | red hl hr =>
    obtain ⟨c, hbal, rfl | rfl⟩ := hx.balanced hl hr
    · exact (hpath.sameShape hshape).toBlack.plug hbal
    · exact (hpath.sameShape hshape).toBlack.plug hbal

/-- Unlinking a black node with at most one child leaves a black node too few. -/
theorem deficient_unlink_black {x l r : RBTree α} {a : α} {path path' : TreePath α}
    (h : IsRedBlack (path.plug (node .black l a r))) (hx : OnlyChild x l r)
    (hshape : path.SameShape path') : ∃ n, Deficient x n ∧ path'.Accepts .black (n + 1) := by
  obtain ⟨c, n, hnode, hpath⟩ := TreePath.accepts_of_plug h
  cases hnode with
  | black hl hr =>
    obtain ⟨c, hbal, -⟩ := hx.balanced hl hr
    exact ⟨_, deficient_of_balanced hbal, hpath.sameShape hshape⟩

/-- The only child of the root becomes the root. -/
theorem isRedBlack_unlink_root {x l r : RBTree α} {c : Color} {a : α}
    (h : IsRedBlack (node c l a r)) (hx : OnlyChild x l r) : IsRedBlack (x.setColor .black) := by
  obtain ⟨n, hnode⟩ := h
  cases hnode with
  | black hl hr =>
    obtain ⟨c, hbal, -⟩ := hx.balanced hl hr
    exact hbal.isRedBlack_blacken

/-- The outcome of a round for a black sibling: either the parent is the next deficient
subtree, or its subtree is as high as before the removal. -/
def Round (cp : Color) (n : ℕ) (out : RBTree α × Bool × σ) : Prop :=
  if out.2.1 then out.1.color = cp ∧ (out.1.setColor .black).Balanced .black (n + 1)
  else out.1.Balanced cp (if cp = .black then n + 2 else n + 1)

theorem fixSibling_spec {x w : RBTree α} {d : Dir} {cp : Color} {ap : α} {n : ℕ} (s : σ)
    (hx : x.Balanced .black n) (hw : w.Balanced .black (n + 1)) :
    Round cp n (R.fixSibling x ⟨d, cp, ap, w⟩ s) := by
  cases hw with
  | @black l r aw cl cr _ hl hr =>
  have hlc := hl.color_eq
  have hrc := hr.color_eq
  unfold fixSibling
  cases cl <;> cases cr <;> cases d <;>
    simp only [child, Dir.flip, hlc, hrc, and_self, if_true, reduceCtorEq, and_false, false_and,
      if_false]
  · exact ⟨rfl, .black hx (.red hl hr)⟩
  · exact ⟨rfl, .black (.red hl hr) hx⟩
  · exact balanced_node (.black hx hl) hr.blacken_red
  · -- the red nephew on the inner side of a left sibling
    cases hr with
    | red h1 h2 => exact balanced_node (.black hl h1) (.black h2 hx)
  · -- the red nephew on the inner side of a right sibling
    cases hl with
    | red h1 h2 => exact balanced_node (.black hx h1) (.black h2 hr)
  · exact balanced_node hl.blacken_red (.black hr hx)
  · exact balanced_node (.black hx hl) hr.blacken_red
  · exact balanced_node hl.blacken_red (.black hr hx)

theorem finish_spec {out : RBTree α × Bool × σ} {path : TreePath α} {n : ℕ}
    (h : Round .red n out) (hpath : path.Accepts .red (n + 1)) :
    IsRedBlack (deleteFixup.finish out path).1 := by
  obtain ⟨t, again, s⟩ := out
  cases again
  · have hrb := hpath.plug h
    rw [deleteFixup.finish, TreePath.plug_setColor_black hrb]
    exact hrb
  · exact hpath.toBlack.plug h.2

/-- A subtree with one black node too few is repaired. -/
theorem isRedBlack_deleteFixup {x : RBTree α} {path : TreePath α} {n : ℕ} (s : σ)
    (hx : Deficient x n) (hpath : path.Accepts .black (n + 1)) :
    IsRedBlack (R.deleteFixup x path s).1 := by
  induction path generalizing x n s with
  | nil =>
    rw [deleteFixup]
    unfold Deficient at hx
    split_ifs at hx
    · exact ⟨_, hx⟩
    · exact hx.isRedBlack_blacken
  | cons p path ih =>
    rw [deleteFixup]
    unfold Deficient at hx
    split_ifs at hx ⊢ with hred hsib
    · exact hpath.plug hx
    · -- a red sibling: the parent is black and the nephews are black
      cases hpath with
      | red hs => exact absurd (hs.color_eq.symm.trans hsib) Color.noConfusion
      | @black d a sib _ _ _ _ hs hrest =>
      cases hs with
      | black => cases hsib
      | @red l r aw _ hl hr =>
        cases d
        · exact finish_spec (fixSibling_spec _ hx hl) (.black hr hrest)
        · exact finish_spec (fixSibling_spec _ hx hr) (.black hl hrest)
    · have hblack : ∀ {c m}, p.sibling.Balanced c m → p.sibling.Balanced .black m := by
        intro c m h
        cases c with
        | black => exact h
        | red => exact absurd h.color_eq hsib
      cases hpath with
      | @red d a sib _ _ hs hrest =>
        have hround := @fixSibling_spec _ _ R _ _ d .red a _ s hx hs
        rcases hout : R.fixSibling x ⟨d, .red, a, sib⟩ s with ⟨t, again, s'⟩
        rw [hout] at hround
        cases again
        · have hrb := hrest.plug hround
          simp only [TreePath.plug_setColor_black hrb]
          exact hrb
        · refine ih s' ?_ hrest.toBlack
          unfold Deficient
          rw [if_pos hround.1]
          exact hround.2
      | @black d a sib _ _ _ _ hs hrest =>
        have hround := @fixSibling_spec _ _ R _ _ d .black a _ s hx (hblack hs)
        rcases hout : R.fixSibling x ⟨d, .black, a, sib⟩ s with ⟨t, again, s'⟩
        rw [hout] at hround
        cases again
        · have hrb := hrest.plug hround
          simp only [TreePath.plug_setColor_black hrb]
          exact hrb
        · refine ih s' ?_ hrest
          unfold Deficient
          have hc : ¬ t.color = .red := by rw [hround.1]; exact Color.noConfusion
          rw [if_neg hc]
          have hbal := hround.2
          cases t with
          | nil => exact hbal
          | node c l b r =>
            obtain rfl : c = .black := hround.1
            exact hbal

end Rotations
end NexgileIde.Library
