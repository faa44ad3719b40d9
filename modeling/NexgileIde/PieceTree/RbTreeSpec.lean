import NexgileIde.PieceTree.RbTreeBase

/-!
# Insertion, deletion and updates on the sequence of pieces

A tree stands for its in-order sequence of nodes with their pieces. Every operation
acts on that sequence, keeps the stored sums exact and the tree red-black.
-/
namespace NexgileIde.PieceTree

open Library RBTree

/-- Text length and line feeds as one quantity. -/
def Piece.measure (p : Piece) : Int × Int := (p.length, p.lineFeedCnt)

def TreeNode.leftMeasure (a : TreeNode) : Int × Int := (a.sizeLeft, a.lfLeft)

def TreeNode.entry (a : TreeNode) : ℕ × Piece := (a.id, a.piece)

@[simp] theorem TreeNode.addLeft_entry (a : TreeNode) (d e : Int) :
    (a.addLeft d e).entry = a.entry := rfl
@[simp] theorem TreeNode.addLeft_piece (a : TreeNode) (d e : Int) :
    (a.addLeft d e).piece = a.piece := rfl
@[simp] theorem TreeNode.addLeft_leftMeasure (a : TreeNode) (d e : Int) :
    (a.addLeft d e).leftMeasure = a.leftMeasure + (d, e) := rfl

/-- The sum over a sequence of nodes. -/
def total (es : List (ℕ × Piece)) : Int × Int := (es.map fun e => e.2.measure).sum

@[simp] theorem total_nil : total [] = 0 := rfl
@[simp] theorem total_cons (e : ℕ × Piece) (es : List (ℕ × Piece)) :
    total (e :: es) = e.2.measure + total es := rfl
@[simp] theorem total_append (es es' : List (ℕ × Piece)) :
    total (es ++ es') = total es + total es' := by
  simp [total]

def entries (t : Nodes) : List (ℕ × Piece) := t.toList.map TreeNode.entry

@[simp] theorem entries_nil : entries nil = [] := rfl
@[simp] theorem entries_node (c : Color) (l : Nodes) (a : TreeNode) (r : Nodes) :
    entries (node c l a r) = entries l ++ a.entry :: entries r := by
  simp [entries]
@[simp] theorem entries_setColor (c : Color) (t : Nodes) :
    entries (t.setColor c) = entries t := by
  cases t <;> rfl

def measure (t : Nodes) : Int × Int := total (entries t)

@[simp] theorem measure_nil : measure nil = 0 := rfl
@[simp] theorem measure_node (c : Color) (l : Nodes) (a : TreeNode) (r : Nodes) :
    measure (node c l a r) = measure l + (a.piece.measure + measure r) := by
  simp [measure, TreeNode.entry]

/-- Every node stores the sums of its left subtree. -/
def Exact : Nodes → Prop
  | nil => True
  | node _ l a r => a.leftMeasure = measure l ∧ Exact l ∧ Exact r

theorem Exact.setColor {t : Nodes} (h : Exact t) (c : Color) : Exact (t.setColor c) := by
  cases t <;> exact h

def calculate (t : Nodes) : Int × Int := (calculateSize t, calculateLF t)

@[simp] theorem calculate_nil : calculate nil = 0 := rfl
theorem calculate_node (c : Color) (l : Nodes) (a : TreeNode) (r : Nodes) :
    calculate (node c l a r) = a.leftMeasure + (a.piece.measure + calculate r) := by
  simp only [calculate, calculateSize, calculateLF, TreeNode.leftMeasure, Piece.measure,
    Prod.mk_add_mk, add_assoc]

theorem Exact.calculate_eq {t : Nodes} (h : Exact t) : calculate t = measure t := by
  induction t with
  | nil => rfl
  | node c l a r _ ihr =>
    rw [calculate_node, measure_node, h.1, ihr h.2.2]

/-- The path is exact if a subtree with the sums `m` stands at its end. -/
def Hole : TreePath TreeNode → Int × Int → Prop
  | [], _ => True
  | ⟨.left, _, a, s⟩ :: path, m =>
    a.leftMeasure = m ∧ Exact s ∧ Hole path (m + (a.piece.measure + measure s))
  | ⟨.right, _, a, s⟩ :: path, m =>
    a.leftMeasure = measure s ∧ Exact s ∧ Hole path (measure s + (a.piece.measure + m))

theorem exact_plug {path : TreePath TreeNode} {t : Nodes} :
    Exact (path.plug t) ↔ Exact t ∧ Hole path (measure t) := by
  induction path generalizing t with
  | nil => simp [Hole]
  | cons f path ih =>
    obtain ⟨d, c, a, s⟩ := f
    rw [TreePath.plug_cons, ih]
    cases d <;> simp only [Frame.plug, Exact, Hole, measure_node] <;> tauto

/-- The sums of what the path makes of a subtree with the sums `m`. -/
def grow : TreePath TreeNode → Int × Int → Int × Int
  | [], m => m
  | f :: path, m => grow path (m + (f.val.piece.measure + measure f.sibling))

theorem hole_append {inner outer : TreePath TreeNode} {m : Int × Int} :
    Hole (inner ++ outer) m ↔ Hole inner m ∧ Hole outer (grow inner m) := by
  induction inner generalizing m with
  | nil => simp [Hole, grow]
  | cons f inner ih =>
    obtain ⟨d, c, a, s⟩ := f
    cases d
    · simp only [List.cons_append, Hole, grow, ih, and_assoc]
    · have hm : measure s + (a.piece.measure + m) = m + (a.piece.measure + measure s) := by abel
      simp only [List.cons_append, Hole, grow, ih, and_assoc, hm]

/-- Paths with the same pieces in the same places: only stored sums may differ. -/
def Alike (p q : TreePath TreeNode) : Prop :=
  List.Forall₂ (fun f g => f.dir = g.dir ∧ f.color = g.color ∧ f.sibling = g.sibling ∧
    f.val.entry = g.val.entry) p q

theorem Alike.refl (p : TreePath TreeNode) : Alike p p :=
  List.forall₂_same.mpr fun _ _ => ⟨rfl, rfl, rfl, rfl⟩

theorem Alike.trans {p q r : TreePath TreeNode} (h : Alike p q) (h' : Alike q r) : Alike p r := by
  induction h generalizing r with
  | nil => exact h'
  | cons hf _ ih =>
    cases h' with
    | cons hg hrest =>
      exact .cons ⟨hf.1.trans hg.1, hf.2.1.trans hg.2.1, hf.2.2.1.trans hg.2.2.1,
        hf.2.2.2.trans hg.2.2.2⟩ (ih hrest)

theorem Alike.sameShape {p q : TreePath TreeNode} (h : Alike p q) : p.SameShape q :=
  h.imp fun _ _ hf => ⟨hf.1, hf.2.1, hf.2.2.1⟩

/-- The sequence a path puts around a subtree. -/
def around (path : TreePath TreeNode) (es : List (ℕ × Piece)) : List (ℕ × Piece) :=
  path.before.map TreeNode.entry ++ (es ++ path.after.map TreeNode.entry)

theorem entries_plug (path : TreePath TreeNode) (t : Nodes) :
    entries (path.plug t) = around path (entries t) := by
  simp [entries, around, TreePath.toList_plug]

theorem Alike.around {p q : TreePath TreeNode} (h : Alike p q) (es : List (ℕ × Piece)) :
    around p es = around q es := by
  have hboth : p.before.map TreeNode.entry = q.before.map TreeNode.entry ∧
      p.after.map TreeNode.entry = q.after.map TreeNode.entry := by
    induction h with
    | nil => exact ⟨rfl, rfl⟩
    | @cons f g _ _ hf _ ih =>
      obtain ⟨d, c, a, s⟩ := f
      obtain ⟨d', c', a', s'⟩ := g
      obtain ⟨rfl, rfl, rfl, hval⟩ := hf
      simp only at hval
      cases d
      · exact ⟨ih.1, by simp [TreePath.after, hval, ih.2]⟩
      · exact ⟨by simp [TreePath.before, hval, ih.1], ih.2⟩
  rw [PieceTree.around, PieceTree.around, hboth.1, hboth.2]

theorem Alike.cons_val {f : Frame TreeNode} {a : TreeNode} {p q : TreePath TreeNode}
    (hval : a.entry = f.val.entry) (h : Alike p q) : Alike (f :: p) ({ f with val := a } :: q) :=
  .cons ⟨rfl, rfl, rfl, hval.symm⟩ h

theorem alike_addToLeftParents (d e : Int) (path : TreePath TreeNode) :
    Alike path (addToLeftParents d e path) := by
  induction path with
  | nil => exact .nil
  | cons f path ih =>
    obtain ⟨dir, c, a, s⟩ := f
    cases dir
    · exact Alike.cons_val rfl ih
    · exact Alike.cons_val rfl ih

theorem alike_recomputeParent (t : Nodes) (f : Frame TreeNode) (path : TreePath TreeNode) :
    Alike (f :: path) (recomputeParent t f path) := by
  unfold recomputeParent
  dsimp only
  split_ifs
  · exact Alike.cons_val rfl (alike_addToLeftParents _ _ path)
  · exact Alike.cons_val rfl (.refl path)

theorem alike_recomputeTreeMetadata (x : Nodes) (path : TreePath TreeNode) :
    Alike path (recomputeTreeMetadata x path) := by
  induction path generalizing x with
  | nil => exact .nil
  | cons f path ih =>
    rw [recomputeTreeMetadata]
    split_ifs
    · exact Alike.cons_val rfl (ih _)
    · exact alike_recomputeParent x f path

theorem hole_addToLeftParents {path : TreePath TreeNode} {m : Int × Int} (h : Hole path m)
    (d e : Int) : Hole (addToLeftParents d e path) (m + (d, e)) := by
  induction path generalizing m with
  | nil => trivial
  | cons f path ih =>
    obtain ⟨dir, c, a, s⟩ := f
    cases dir
    · obtain ⟨h1, h2, h3⟩ := h
      refine ⟨by rw [TreeNode.addLeft_leftMeasure, h1], h2, ?_⟩
      have hm : m + (d, e) + (a.piece.measure + measure s) =
          m + (a.piece.measure + measure s) + (d, e) := by abel
      rw [TreeNode.addLeft_piece, hm]
      exact ih h3
    · obtain ⟨h1, h2, h3⟩ := h
      refine ⟨h1, h2, ?_⟩
      have hm : measure s + (a.piece.measure + (m + (d, e))) =
          measure s + (a.piece.measure + m) + (d, e) := by abel
      rw [hm]
      exact ih h3

/-- What `recomputeParent` makes of a parent with outdated sums. -/
theorem recomputeParent_eq {t : Nodes} {f : Frame TreeNode} {path : TreePath TreeNode}
    {m : Int × Int} (h : Hole path m) :
    ∃ path', recomputeParent t f path =
        { f with val := { f.val with sizeLeft := calculateSize t, lfLeft := calculateLF t } } ::
          path' ∧ Hole path' (m + (calculate t - f.val.leftMeasure)) := by
  have hdelta : calculate t - f.val.leftMeasure =
      (calculateSize t - f.val.sizeLeft, calculateLF t - f.val.lfLeft) := rfl
  have hval : f.val.addLeft (calculateSize t - f.val.sizeLeft) (calculateLF t - f.val.lfLeft) =
      { f.val with sizeLeft := calculateSize t, lfLeft := calculateLF t } := by
    simp [TreeNode.addLeft]
  unfold recomputeParent
  simp only [hval]
  refine ⟨_, rfl, ?_⟩
  split_ifs with hzero
  · rw [hdelta]
    exact hole_addToLeftParents h _ _
  · rw [not_or, not_not, not_not] at hzero
    rwa [hdelta, hzero.1, hzero.2, Prod.mk_zero_zero, add_zero]

/-- An empty subtree that is taken for a right child. -/
def Twin (x : Nodes) : TreePath TreeNode → Prop
  | [] => False
  | f :: _ => f.dir = .left ∧ x.isNil ∧ f.sibling.isNil

theorem not_twin_node {c : Color} {l : Nodes} {a : TreeNode} {r : Nodes}
    (path : TreePath TreeNode) : ¬ Twin (node c l a r) path := by
  cases path with
  | nil => exact id
  | cons f path => exact fun h => absurd h.2.1 Bool.false_ne_true

theorem not_twin_plug (f : Frame TreeNode) (x : Nodes) (path : TreePath TreeNode) :
    ¬ Twin (f.plug x) path := by
  obtain ⟨d, c, a, s⟩ := f
  cases d <;> exact not_twin_node path

/-- Recomputing makes a path fit the sums of the subtree at its end. -/
theorem hole_recompute {x : Nodes} {path : TreePath TreeNode} {m : Int × Int} (h : Hole path m)
    (hx : ¬ Twin x path) : Hole (recomputeTreeMetadata x path) (calculate x) := by
  induction path generalizing x m with
  | nil => trivial
  | cons f path ih =>
    obtain ⟨d, c, a, s⟩ := f
    rw [recomputeTreeMetadata]
    cases d
    · obtain ⟨h1, h2, h3⟩ := h
      rw [if_neg (by simpa [Twin] using hx)]
      obtain ⟨path', hpath, hhole⟩ := recomputeParent_eq (t := x) (f := ⟨.left, c, a, s⟩) h3
      rw [hpath]
      refine ⟨rfl, h2, ?_⟩
      have hm : m + (a.piece.measure + measure s) + (calculate x - a.leftMeasure) =
          calculate x + (a.piece.measure + measure s) := by
        rw [h1]
        abel
      rw [hm] at hhole
      exact hhole
    · obtain ⟨h1, h2, h3⟩ := h
      rw [if_pos (.inl rfl)]
      refine ⟨h1, h2, ?_⟩
      have hcalc := calculate_node c s a x
      rw [h1] at hcalc
      rw [← hcalc]
      exact ih h3 (not_twin_node path)

/-- For a twin nothing is recomputed. -/
theorem hole_recompute_twin {x : Nodes} {path : TreePath TreeNode} {m : Int × Int}
    (h : Hole path m) (hx : Twin x path) : Hole (recomputeTreeMetadata x path) m := by
  cases path with
  | nil => exact hx.elim
  | cons f path =>
    obtain ⟨d, c, a, s⟩ := f
    obtain ⟨rfl, hx, hs⟩ := hx
    simp only at hs
    obtain ⟨h1, h2, h3⟩ := h
    rw [recomputeTreeMetadata, if_pos (.inr ⟨hx, hs⟩)]
    refine ⟨h1, h2, ?_⟩
    have hcalc := hole_recompute h3 (not_twin_plug ⟨.left, c, a, s⟩ x path)
    rw [Frame.plug, calculate_node, h1, h2.calculate_eq] at hcalc
    exact hcalc

/-- Rotations and recolourings change neither the sequence nor the exactness of sums. -/
theorem invariance_rotations :
    Invariance rotations fun t u => entries u = entries t ∧ (Exact t → Exact u) where
  refl t := ⟨rfl, id⟩
  trans h h' := ⟨h'.1.trans h.1, fun ht => h'.2 (h.2 ht)⟩
  congr {c l l' a r r'} hl hr := by
    refine ⟨by rw [entries_node, entries_node, hl.1, hr.1], fun h => ⟨?_, hl.2 h.2.1, hr.2 h.2.2⟩⟩
    rw [measure, hl.1]
    exact h.1
  setColor c t := ⟨entries_setColor c t, fun h => h.setColor c⟩
  leftRotate t s := by
    rcases t with _ | ⟨cx, a, x, _ | ⟨cy, b, y, c⟩⟩
    · exact ⟨rfl, id⟩
    · exact ⟨rfl, id⟩
    · refine ⟨by simp [Rotations.leftRotate, rotations], fun h => ?_⟩
      obtain ⟨h1, h2, h3, h4, h5⟩ := h
      refine ⟨?_, ⟨h1, h2, h4⟩, h5⟩
      have hx : (x.sizeLeft + x.piece.length, x.lfLeft + x.piece.lineFeedCnt) =
          x.leftMeasure + x.piece.measure := rfl
      simp only [TreeNode.addLeft_leftMeasure, hx, h1, h3, measure_node]
      abel
  rightRotate t s := by
    rcases t with _ | ⟨cy, _ | ⟨cx, a, x, b⟩, y, c⟩
    · exact ⟨rfl, id⟩
    · exact ⟨rfl, id⟩
    · refine ⟨by simp [Rotations.rightRotate, rotations], fun h => ?_⟩
      obtain ⟨h1, ⟨h2, h3, h4⟩, h5⟩ := h
      refine ⟨h2, h3, ?_, h4, h5⟩
      have hx : (-(x.sizeLeft + x.piece.length), -(x.lfLeft + x.piece.lineFeedCnt)) =
          -(x.leftMeasure + x.piece.measure) := rfl
      simp only [TreeNode.addLeft_leftMeasure, hx, h1, h2, measure_node]
      abel

/-- A well-formed tree for a sequence of pieces. -/
structure Holds (t : Nodes) (es : List (ℕ × Piece)) : Prop where
  balanced : IsRedBlack t
  exact : Exact t
  entries : entries t = es

theorem holds_nil : Holds nil [] := ⟨isRedBlack_nil, trivial, rfl⟩

theorem Holds.eq_nil_iff {t : Nodes} {es : List (ℕ × Piece)} (h : Holds t es) :
    t = nil ↔ es = [] := by
  rw [← h.entries]
  cases t with
  | nil => simp
  | node => simp

theorem Holds.measure_eq {t : Nodes} {es : List (ℕ × Piece)} (h : Holds t es) :
    measure t = total es := by
  rw [measure, h.entries]

/-- No two nodes are the same object. -/
def Distinct (es : List (ℕ × Piece)) : Prop := (es.map Prod.fst).Nodup

theorem Distinct.not_mem {A B : List (ℕ × Piece)} {i : ℕ} {p : Piece}
    (h : Distinct (A ++ (i, p) :: B)) : ∀ e ∈ A ++ B, e.1 ≠ i := by
  intro e he heq
  rw [Distinct, List.map_append, List.map_cons, List.nodup_middle, List.nodup_cons,
    ← List.map_append] at h
  exact h.1 (List.mem_map.mpr ⟨e, he, heq⟩)

/-- The node of an entry is found in the tree. -/
theorem Holds.locate {t : Nodes} {A B : List (ℕ × Piece)} {i : ℕ} {p : Piece}
    (h : Holds t (A ++ (i, p) :: B)) (hd : Distinct (A ++ (i, p) :: B)) :
    ∃ (c : Color) (l r : Nodes) (a : TreeNode) (path : TreePath TreeNode),
      RBTree.locate (fun b : TreeNode => b.id = i) t [] = some (node c l a r, path) ∧
      path.plug (node c l a r) = t ∧ a.entry = (i, p) ∧
      A = path.before.map TreeNode.entry ++ PieceTree.entries l ∧
      B = PieceTree.entries r ++ path.after.map TreeNode.entry := by
  have hlist := h.entries
  rw [PieceTree.entries, List.map_eq_append_iff] at hlist
  obtain ⟨xs, ys, hxy, rfl, hys⟩ := hlist
  rw [List.map_eq_cons_iff] at hys
  obtain ⟨a, zs, rfl, ha, rfl⟩ := hys
  have hid : a.id = i := congrArg Prod.fst ha
  have hunique : ∀ b ∈ xs ++ zs, ¬ (decide (b.id = i)) = true := by
    intro b hb
    have hne := hd.not_mem b.entry (by
      rw [← List.map_append]
      exact List.mem_map_of_mem hb)
    simpa [TreeNode.entry] using hne
  obtain ⟨c, l, r, path, hlocate, hplug, rfl, rfl⟩ :=
    locate_split (q := fun b : TreeNode => b.id = i) hxy (by simpa using hid) hunique
  exact ⟨c, l, r, a, path, hlocate, hplug, ha, by simp [PieceTree.entries],
    by simp [PieceTree.entries]⟩

theorem Holds.hole {t u : Nodes} {path : TreePath TreeNode} {es : List (ℕ × Piece)}
    (h : Holds t es) (hplug : path.plug u = t) : Exact u ∧ Hole path (measure u) := by
  rw [← exact_plug, hplug]
  exact h.exact

/-- A new node linked in at an empty place. -/
theorem fixInsert_holds {path : TreePath TreeNode} {z : TreeNode} {es : List (ℕ × Piece)}
    (h : Holds (path.plug nil) es) (hz : z.leftMeasure = 0) :
    Holds (fixInsert (node .red nil z nil) path) (around path [z.entry]) := by
  have hx : Exact (node .red nil z nil) := ⟨hz, trivial, trivial⟩
  have halike := alike_recomputeTreeMetadata (node .red nil z nil) path
  have hexact : Exact (TreePath.plug (recomputeTreeMetadata (node .red nil z nil) path)
      (node .red nil z nil)) := by
    rw [exact_plug, ← hx.calculate_eq]
    exact ⟨hx, hole_recompute (h.hole rfl).2 (not_twin_node path)⟩
  have hsim := invariance_rotations.insertFixup (node .red nil z nil)
    (recomputeTreeMetadata (node .red nil z nil) path) ()
  refine ⟨?_, hsim.2 hexact, ?_⟩
  · exact Rotations.isRedBlack_insertFixup () (.red .nil .nil)
      ((TreePath.accepts_nil h.balanced).sameShape halike.sameShape)
  · rw [fixInsert, hsim.1, entries_plug, ← halike.around]
    rfl

/-- The check of `x.parent.left` repairs the sums a twin has left outdated. -/
theorem hole_checkParent {x : Nodes} {f : Frame TreeNode} {path : TreePath TreeNode}
    {m : Int × Int} (hx : Exact x) (h : Hole (f :: path) m)
    (hm : m = measure x ∨ f.dir = .left) :
    Hole (if f.dir = .left ∨ (x.isNil ∧ f.sibling.isNil) then recomputeParent x f path
      else f :: path) (measure x) := by
  obtain ⟨d, c, a, s⟩ := f
  have hcalc := hx.calculate_eq
  cases d
  · obtain ⟨h1, h2, h3⟩ := h
    obtain ⟨path', hpath, hhole⟩ := recomputeParent_eq (t := x) (f := ⟨.left, c, a, s⟩) h3
    rw [if_pos (.inl rfl), hpath]
    refine ⟨hcalc, h2, ?_⟩
    have heq : m + (a.piece.measure + measure s) + (calculate x - a.leftMeasure) =
        measure x + (a.piece.measure + measure s) := by
      rw [h1, hcalc]
      abel
    rwa [heq] at hhole
  · obtain rfl : m = measure x := hm.resolve_right Dir.noConfusion
    by_cases hnil : x.isNil ∧ s.isNil
    · obtain ⟨h1, h2, h3⟩ := h
      obtain ⟨path', hpath, hhole⟩ := recomputeParent_eq (t := x) (f := ⟨.right, c, a, s⟩) h3
      have hs : measure s = 0 := by
        cases s with
        | nil => rfl
        | node => cases hnil.2
      have hx0 : measure x = 0 := by
        cases x with
        | nil => rfl
        | node => cases hnil.1
      rw [if_pos (.inr hnil), hpath]
      refine ⟨by rw [hs, ← hx0, ← hcalc]; rfl, h2, ?_⟩
      have heq : measure s + (a.piece.measure + measure x) + (calculate x - a.leftMeasure) =
          measure s + (a.piece.measure + measure x) := by
        rw [h1, hcalc, hs, hx0]
        abel
      rwa [heq] at hhole
    · rwa [if_neg (not_or.mpr ⟨Dir.noConfusion, hnil⟩)]

/-- Linking `x` where `y` was, with the sums above `x` repaired. -/
theorem finishDelete_holds {x l r : Nodes} {cy : Color} {y : TreeNode}
    {path₀ path : TreePath TreeNode} {m : Int × Int} (hx : Exact x)
    (h : IsRedBlack (path₀.plug (node cy l y r))) (hchild : Rotations.OnlyChild x l r)
    (hshape : path₀.SameShape path) (hhole : Hole path m)
    (hm : m = measure x ∨ Twin x path) :
    Holds (finishDelete cy x path) (around path (entries x)) := by
  obtain ⟨path', hpath', halike, hhole'⟩ : ∃ path', finishDelete cy x path =
      (if cy = .red then TreePath.plug path' x else (rotations.deleteFixup x path' ()).1) ∧
      Alike path path' ∧ Hole path' (measure x) := by
    cases path with
    | nil => exact ⟨[], rfl, .refl _, trivial⟩
    | cons f path =>
      have hcheck := hole_checkParent hx hhole (hm.imp_right fun h => h.1)
      have halike : Alike (f :: path) (if f.dir = .left ∨ (x.isNil ∧ f.sibling.isNil) then
          recomputeParent x f path else f :: path) := by
        split_ifs
        · exact alike_recomputeParent x f path
        · exact .refl _
      unfold finishDelete
      dsimp only
      generalize (if f.dir = .left ∨ (x.isNil ∧ f.sibling.isNil) then
        recomputeParent x f path else f :: path) = path₁ at hcheck halike
      cases path₁ with
      | nil => cases halike
      | cons g path₁ =>
        refine ⟨_, rfl, halike.trans (Alike.cons_val rfl
          (alike_recomputeTreeMetadata (g.plug x) path₁)), ?_⟩
        obtain ⟨hgx, hrest⟩ : Exact (g.plug x) ∧ Hole path₁ (measure (g.plug x)) := by
          have hwhole := exact_plug.mpr ⟨hx, hcheck⟩
          rw [TreePath.plug_cons, exact_plug] at hwhole
          exact hwhole
        have hrec := hole_recompute hrest (not_twin_plug g x path₁)
        rw [hgx.calculate_eq] at hrec
        exact (exact_plug.mp (by rw [TreePath.plug_cons]; exact exact_plug.mpr ⟨hgx, hrec⟩)).2
  have hexact : Exact (TreePath.plug path' x) := exact_plug.mpr ⟨hx, hhole'⟩
  have hshape' := hshape.trans halike.sameShape
  rw [hpath', halike.around]
  split_ifs with hred
  · subst hred
    exact ⟨Rotations.isRedBlack_unlink_red h hchild hshape', hexact, entries_plug _ _⟩
  · obtain rfl : cy = .black := by
      cases cy with
      | black => rfl
      | red => exact absurd rfl hred
    obtain ⟨n, hdef, hacc⟩ := Rotations.deficient_unlink_black h hchild hshape'
    have hsim := invariance_rotations.deleteFixup x path' ()
    exact ⟨Rotations.isRedBlack_deleteFixup () hdef hacc, hsim.2 hexact,
      hsim.1.trans (entries_plug _ _)⟩

/-- Recomputing above `x`: afterwards only a twin leaves the path as it was. -/
theorem hole_recompute_or_twin {x : Nodes} {path : TreePath TreeNode} {m : Int × Int}
    (hx : Exact x) (h : Hole path m) :
    ∃ m', Hole (recomputeTreeMetadata x path) m' ∧
      (m' = measure x ∨ m' = m ∧ Twin x (recomputeTreeMetadata x path)) := by
  by_cases htwin : Twin x path
  · refine ⟨m, hole_recompute_twin h htwin, .inr ⟨rfl, ?_⟩⟩
    cases path with
    | nil => exact htwin
    | cons f path =>
      rw [recomputeTreeMetadata, if_pos (.inr htwin.2)]
      exact htwin
  · exact ⟨_, hole_recompute h htwin, .inl hx.calculate_eq⟩

theorem unlinkSingle_holds {c : Color} {l r x : Nodes} {a : TreeNode}
    {path : TreePath TreeNode} {es : List (ℕ × Piece)}
    (h : Holds (path.plug (node c l a r)) es) (hchild : Rotations.OnlyChild x l r) :
    Holds (unlinkSingle c x path) (around path (entries x)) := by
  obtain ⟨⟨-, hl, hr⟩, hhole⟩ := h.hole rfl
  have hx : Exact x := by
    rcases hchild with ⟨-, rfl⟩ | ⟨-, rfl⟩
    · exact hr
    · exact hl
  cases path with
  | nil =>
    refine ⟨Rotations.isRedBlack_unlink_root h.balanced hchild, hx.setColor _, ?_⟩
    simp [unlinkSingle, around, TreePath.before, TreePath.after]
  | cons f path =>
    obtain ⟨m, hm, hcase⟩ := hole_recompute_or_twin hx hhole
    have halike := alike_recomputeTreeMetadata x (f :: path)
    rw [unlinkSingle.eq_2 _ _ _ (by simp), halike.around]
    exact finishDelete_holds hx h.balanced hchild halike.sameShape hm
      (hcase.imp_right fun h => h.2)

theorem Alike.append_split {p₁ p₂ q : TreePath TreeNode} (h : Alike (p₁ ++ p₂) q) :
    ∃ q₁ q₂, q = q₁ ++ q₂ ∧ Alike p₁ q₁ ∧ Alike p₂ q₂ := by
  induction p₁ generalizing q with
  | nil => exact ⟨[], q, rfl, .nil, h⟩
  | cons f p₁ ih =>
    cases h with
    | @cons _ g _ q hf hrest =>
      obtain ⟨q₁, q₂, rfl, h₁, h₂⟩ := ih hrest
      exact ⟨g :: q₁, q₂, rfl, .cons hf h₁, h₂⟩

theorem Alike.append {p₁ p₂ q₁ q₂ : TreePath TreeNode} (h₁ : Alike p₁ q₁) (h₂ : Alike p₂ q₂) :
    Alike (p₁ ++ p₂) (q₁ ++ q₂) := by
  induction h₁ with
  | nil => exact h₂
  | cons hf _ ih => exact .cons hf ih

theorem Alike.exists_cons {f : Frame TreeNode} {p q : TreePath TreeNode} (h : Alike (f :: p) q) :
    ∃ a q', q = { f with val := a } :: q' ∧ a.entry = f.val.entry ∧ Alike p q' := by
  cases h with
  | @cons _ g _ q' hf hrest =>
    obtain ⟨d, c, a, s⟩ := g
    obtain ⟨rfl, rfl, rfl, hval⟩ := hf
    exact ⟨a, q', rfl, hval.symm, hrest⟩

theorem Alike.dir {p q : TreePath TreeNode} {d : Dir} (h : Alike p q)
    (hp : ∀ f ∈ p, f.dir = d) : ∀ g ∈ q, g.dir = d := by
  induction h with
  | nil => exact hp
  | cons hf _ ih =>
    rw [List.forall_mem_cons] at hp ⊢
    exact ⟨hf.1.symm.trans hp.1, ih hp.2⟩

/-- Along left children the stored sums alone determine the computed ones. -/
theorem calculate_plug {inner : TreePath TreeNode} {m : Int × Int} (x : Nodes)
    (hdir : ∀ f ∈ inner, f.dir = .left) (hne : inner ≠ []) (h : Hole inner m) :
    calculate (inner.plug x) = grow inner m := by
  induction inner generalizing x m with
  | nil => exact absurd rfl hne
  | cons f inner ih =>
    obtain ⟨d, c, a, s⟩ := f
    obtain rfl : d = .left := hdir _ List.mem_cons_self
    obtain ⟨h1, h2, h3⟩ := h
    have hcalc : calculate (Frame.plug ⟨.left, c, a, s⟩ x) = m + (a.piece.measure + measure s) := by
      rw [Frame.plug, calculate_node, h1, h2.calculate_eq]
    rw [TreePath.plug_cons, grow]
    cases inner with
    | nil => exact hcalc
    | cons g inner =>
      exact ih _ (fun f hf => hdir f (List.mem_cons_of_mem _ hf)) (List.cons_ne_nil g inner) h3

theorem unlinkDouble_holds {cz cy : Color} {lz x : Nodes} {z y : TreeNode}
    {inner path : TreePath TreeNode} {es : List (ℕ × Piece)}
    (h : Holds (path.plug (node cz lz z (inner.plug (node cy nil y x)))) es)
    (hdir : ∀ f ∈ inner, f.dir = .left) :
    Holds (unlinkDouble cz lz z cy y x inner path)
      (around (inner ++ ⟨.right, cz, y, lz⟩ :: path) (entries x)) := by
  have hwhole : TreePath.plug (inner ++ ⟨.right, cz, z, lz⟩ :: path) (node cy nil y x) =
      path.plug (node cz lz z (inner.plug (node cy nil y x))) := by
    rw [TreePath.plug_append]
    rfl
  have hbal := h.balanced
  rw [← hwhole] at hbal
  obtain ⟨⟨-, -, hx⟩, hhole⟩ := h.hole hwhole
  -- the path to `x` when `y` has taken the place of `z`
  obtain ⟨inner₁, y₁, path₁, m, heq, hinner, hpath, hy, hhole₁, hm⟩ :
      ∃ (inner₁ : TreePath TreeNode) (y₁ : TreeNode) (path₁ : TreePath TreeNode) (m : Int × Int),
        unlinkDouble cz lz z cy y x inner path =
          finishDelete cy x (inner₁ ++ ⟨.right, cz, y₁, lz⟩ :: path₁) ∧
        Alike inner inner₁ ∧ Alike path path₁ ∧ y₁.entry = y.entry ∧
        Hole (inner₁ ++ ⟨.right, cz, y₁, lz⟩ :: path₁) m ∧
        (m = measure x ∨ Twin x (inner₁ ++ ⟨.right, cz, y₁, lz⟩ :: path₁)) := by
    cases inner with
    | nil =>
      obtain ⟨h1, h2, h3⟩ := hhole
      obtain ⟨path₁, hpath, hhole⟩ := recomputeParent_eq (t := lz) (f := ⟨.right, cz, z, lz⟩) h3
      have halike := alike_recomputeParent lz ⟨.right, cz, z, lz⟩ path
      rw [hpath] at halike
      obtain ⟨_, _, hcons, -, hrest⟩ := halike.exists_cons
      obtain ⟨-, rfl⟩ := List.cons.inj hcons
      refine ⟨[], { y with sizeLeft := calculateSize lz, lfLeft := calculateLF lz },
        recomputeTreeMetadata (node cz lz
          { y with sizeLeft := calculateSize lz, lfLeft := calculateLF lz } x) path₁, measure x,
        ?_, .nil, hrest.trans (alike_recomputeTreeMetadata _ _), rfl,
        ⟨h2.calculate_eq, h2, ?_⟩, .inl rfl⟩
      · simp only [unlinkDouble, hpath]
        rfl
      · have hnew := hole_recompute hhole (not_twin_node (c := cz) (l := lz) (r := x)
          (a := { y with sizeLeft := calculateSize lz, lfLeft := calculateLF lz }) path₁)
        rw [calculate_node, hx.calculate_eq] at hnew
        rw [← h2.calculate_eq]
        exact hnew
    | cons f inner =>
      obtain ⟨m, hm, hcase⟩ := hole_recompute_or_twin hx hhole
      have halike := alike_recomputeTreeMetadata x ((f :: inner) ++ ⟨.right, cz, z, lz⟩ :: path)
      obtain ⟨inner₁, rest, hrest, hinner, hzpath⟩ := halike.append_split
      obtain ⟨z₁, path₁, rfl, -, hpath⟩ := hzpath.exists_cons
      rw [hrest] at hm hcase
      obtain ⟨hi, hz, hlz, hp⟩ := hole_append.mp hm
      have hlen : (f :: inner).length = inner₁.length := hinner.length_eq
      have hne : inner₁ ≠ [] := by
        rintro rfl
        simp at hlen
      set y₁ : TreeNode := { y with sizeLeft := z₁.sizeLeft, lfLeft := z₁.lfLeft } with hy₁
      have hplug : TreePath.plug (inner₁ ++ [⟨.right, cz, y₁, lz⟩]) x =
          node cz lz y₁ (inner₁.plug x) := by
        rw [TreePath.plug_append]
        rfl
      refine ⟨inner₁, y₁, recomputeTreeMetadata (node cz lz y₁ (inner₁.plug x)) path₁, m,
        ?_, hinner, hpath.trans (alike_recomputeTreeMetadata _ _), rfl, ?_, ?_⟩
      · have hmodify : (inner₁ ++ ⟨.right, cz, z₁, lz⟩ :: path₁).modify (f :: inner).length
            (fun g : Frame TreeNode => { g with val :=
              { y with sizeLeft := g.val.sizeLeft, lfLeft := g.val.lfLeft } }) =
            (inner₁ ++ [⟨.right, cz, y₁, lz⟩]) ++ path₁ := by
          rw [hlen, List.modify_eq_take_cons_drop (by simp)]
          simp [hy₁]
        have hlen' : (f :: inner).length + 1 =
            (inner₁ ++ [(⟨.right, cz, y₁, lz⟩ : Frame TreeNode)]).length := by
          rw [List.length_append, hlen]
          rfl
        simp only [unlinkDouble, hrest]
        rw [hmodify, hlen', List.take_left, List.drop_left, hplug, List.append_assoc]
        rfl
      · refine hole_append.mpr ⟨hi, hz, hlz, ?_⟩
        have hnew := hole_recompute hp (not_twin_node (c := cz) (l := lz) (a := y₁)
          (r := inner₁.plug x) path₁)
        rw [calculate_node, calculate_plug x (hinner.dir hdir) hne hi] at hnew
        rw [← hz]
        exact hnew
      · refine hcase.imp_right fun h => ?_
        cases inner₁ with
        | nil => exact absurd rfl hne
        | cons g inner₁ => exact h.2
  have halike : Alike (inner ++ ⟨.right, cz, y, lz⟩ :: path)
      (inner₁ ++ ⟨.right, cz, y₁, lz⟩ :: path₁) :=
    hinner.append (Alike.cons_val (f := ⟨.right, cz, y, lz⟩) hy hpath)
  have hshape : TreePath.SameShape (inner ++ ⟨.right, cz, z, lz⟩ :: path)
      (inner₁ ++ ⟨.right, cz, y₁, lz⟩ :: path₁) :=
    List.rel_append hinner.sameShape (.cons ⟨rfl, rfl, rfl⟩ hpath.sameShape)
  rw [heq, halike.around]
  exact finishDelete_holds hx hbal (.inl ⟨rfl, rfl⟩) hshape hhole₁ hm

section Operations

variable {t : Nodes} {A B : List (ℕ × Piece)} {i : ℕ} {p : Piece} {z : TreeNode}

theorem rbInsertRight_nil (at? : Option ℕ) (hz : z.leftMeasure = 0) :
    ∃ t', rbInsertRight nil at? z = some t' ∧ Holds t' [z.entry] := by
  refine ⟨_, rfl, ⟨1, .black .nil .nil⟩, ⟨hz, trivial, trivial⟩, ?_⟩
  simp [fixInsert, recomputeTreeMetadata, Rotations.insertFixup, RBTree.setColor]

theorem rbInsertLeft_nil (at? : Option ℕ) (hz : z.leftMeasure = 0) :
    ∃ t', rbInsertLeft nil at? z = some t' ∧ Holds t' [z.entry] := rbInsertRight_nil at? hz

theorem rbInsertRight_holds (h : Holds t (A ++ (i, p) :: B))
    (hd : Distinct (A ++ (i, p) :: B)) (hz : z.leftMeasure = 0) :
    ∃ t', rbInsertRight t (some i) z = some t' ∧ Holds t' (A ++ (i, p) :: z.entry :: B) := by
  obtain ⟨c, l, r, a, path, hlocate, hplug, ha, rfl, rfl⟩ := h.locate hd
  have hne : t ≠ nil := by
    rw [Ne, h.eq_nil_iff]
    simp
  have hfind : locate (fun b : TreeNode => some i = some b.id) t [] =
      some (node c l a r, path) := by
    simpa only [Option.some.injEq, eq_comm] using hlocate
  rw [rbInsertRight.eq_2 _ _ _ hne]
  subst hplug
  cases r with
  | nil =>
    refine ⟨_, by simp only [hfind, bind, Option.bind, pure]; rfl, ?_⟩
    have hnew := @fixInsert_holds (⟨.right, c, a, l⟩ :: path) _ _ h hz
    simpa [around, TreePath.before, TreePath.after, entries, ha] using hnew
  | node c' l' a' r' =>
    rcases hleft : leftest c' a' r' l' (⟨.right, c, a, l⟩ :: path) with ⟨c'', a'', r'', path''⟩
    obtain ⟨inner, rfl, hdir, hinner⟩ := leftest_spec hleft
    refine ⟨_, by simp only [hfind, hleft, bind, Option.bind, pure]; rfl, ?_⟩
    have hwhole : TreePath.plug (⟨.left, c'', a'', r''⟩ :: (inner ++ ⟨.right, c, a, l⟩ :: path))
        nil = path.plug (node c l a (node c' l' a' r')) := by
      rw [TreePath.plug_cons, TreePath.plug_append, Frame.plug, hinner]
      rfl
    have hnew := fixInsert_holds (hwhole ▸ h) hz
    have hright : entries (node c' l' a' r') =
        a''.entry :: (entries r'' ++ inner.after.map TreeNode.entry) := by
      rw [← hinner, entries_plug, around, TreePath.before_of_left hdir]
      simp
    rw [hright]
    simpa [around, TreePath.before, TreePath.after, TreePath.before_append, TreePath.after_append,
      TreePath.before_of_left hdir, entries, ha] using hnew

theorem rbInsertLeft_holds (h : Holds t (A ++ (i, p) :: B))
    (hd : Distinct (A ++ (i, p) :: B)) (hz : z.leftMeasure = 0) :
    ∃ t', rbInsertLeft t (some i) z = some t' ∧ Holds t' (A ++ z.entry :: (i, p) :: B) := by
  obtain ⟨c, l, r, a, path, hlocate, hplug, ha, rfl, rfl⟩ := h.locate hd
  have hne : t ≠ nil := by
    rw [Ne, h.eq_nil_iff]
    simp
  have hfind : locate (fun b : TreeNode => some i = some b.id) t [] =
      some (node c l a r, path) := by
    simpa only [Option.some.injEq, eq_comm] using hlocate
  rw [rbInsertLeft.eq_2 _ _ _ hne]
  subst hplug
  cases l with
  | nil =>
    refine ⟨_, by simp only [hfind, bind, Option.bind, pure]; rfl, ?_⟩
    have hnew := @fixInsert_holds (⟨.left, c, a, r⟩ :: path) _ _ h hz
    simpa [around, TreePath.before, TreePath.after, entries, ha] using hnew
  | node c' l' a' r' =>
    rcases hright : righttest c' l' a' r' (⟨.left, c, a, r⟩ :: path) with ⟨c'', l'', a'', path''⟩
    obtain ⟨inner, rfl, hdir, hinner⟩ := righttest_spec hright
    refine ⟨_, by simp only [hfind, hright, bind, Option.bind, pure]; rfl, ?_⟩
    have hwhole : TreePath.plug (⟨.right, c'', a'', l''⟩ :: (inner ++ ⟨.left, c, a, r⟩ :: path))
        nil = path.plug (node c (node c' l' a' r') a r) := by
      rw [TreePath.plug_cons, TreePath.plug_append, Frame.plug, hinner]
      rfl
    have hnew := fixInsert_holds (hwhole ▸ h) hz
    have hleft : entries (node c' l' a' r') =
        inner.before.map TreeNode.entry ++ (entries l'' ++ [a''.entry]) := by
      rw [← hinner, entries_plug, around, TreePath.after_of_right hdir]
      simp
    rw [hleft]
    simpa [around, TreePath.before, TreePath.after, TreePath.before_append, TreePath.after_append,
      TreePath.after_of_right hdir, entries, ha] using hnew

theorem next_eq (h : Holds t (A ++ (i, p) :: B)) (hd : Distinct (A ++ (i, p) :: B)) :
    t.next (some i) = some (B.head?.map Prod.fst) := by
  obtain ⟨c, l, r, a, path, hlocate, hplug, ha, rfl, rfl⟩ := h.locate hd
  simp only [Nodes.next, hlocate, bind, Option.bind, pure, Library.next_eq]
  rw [entries, ← List.map_append, List.head?_map, Option.map_map]
  rfl

theorem prev_eq (h : Holds t (A ++ (i, p) :: B)) (hd : Distinct (A ++ (i, p) :: B)) :
    t.prev (some i) = some (A.getLast?.map Prod.fst) := by
  obtain ⟨c, l, r, a, path, hlocate, hplug, ha, rfl, rfl⟩ := h.locate hd
  simp only [Nodes.prev, hlocate, bind, Option.bind, pure, Library.prev_eq]
  rw [entries, ← List.map_append, List.getLast?_map, Option.map_map]
  rfl

theorem pieceOf_eq (h : Holds t (A ++ (i, p) :: B)) (hd : Distinct (A ++ (i, p) :: B)) :
    t.pieceOf i = some p := by
  obtain ⟨c, l, r, a, path, hlocate, hplug, ha, rfl, rfl⟩ := h.locate hd
  simp only [Nodes.pieceOf, hlocate, bind, Option.bind, pure, Option.some.injEq]
  exact congrArg Prod.snd ha

/-- Assigning a piece and passing the change on to the parents. -/
theorem setPiece_holds (h : Holds t (A ++ (i, p) :: B)) (hd : Distinct (A ++ (i, p) :: B))
    (p' : Piece) :
    ∃ t₁ t₂, t.setPiece i p' = some t₁ ∧
      updateTreeMetadata t₁ i (p'.length - p.length) (p'.lineFeedCnt - p.lineFeedCnt) = some t₂ ∧
      Holds t₂ (A ++ (i, p') :: B) := by
  obtain ⟨c, l, r, a, path, hlocate, hplug, ha, rfl, rfl⟩ := h.locate hd
  obtain ⟨hnode, hhole⟩ := h.hole hplug
  obtain ⟨hid, hpiece⟩ : a.id = i ∧ a.piece = p := Prod.mk.inj ha
  have hothers : ∀ b ∈ path.before ++ path.after, ¬ (decide (b.id = i)) = true := by
    intro b hb
    have hmem : b.entry ∈ path.before.map TreeNode.entry ++ path.after.map TreeNode.entry := by
      rw [← List.map_append]
      exact List.mem_map_of_mem hb
    have hne := hd.not_mem b.entry (by
      rcases List.mem_append.mp hmem with hmem | hmem <;> simp [hmem])
    simpa [TreeNode.entry] using hne
  have hfind : locate (fun b : TreeNode => b.id = i)
      (path.plug (node c l { a with piece := p' } r)) [] =
      some (node c l { a with piece := p' } r, path) :=
    locate_self (by simpa using hid) (fun b hb => hothers b (by simp [hb]))
      (fun b hb => hothers b (by simp [hb]))
  have halike := alike_addToLeftParents (p'.length - p.length) (p'.lineFeedCnt - p.lineFeedCnt) path
  refine ⟨path.plug (node c l { a with piece := p' } r),
    (addToLeftParents (p'.length - p.length) (p'.lineFeedCnt - p.lineFeedCnt) path).plug
      (node c l { a with piece := p' } r), ?_, ?_, ⟨?_, ?_, ?_⟩⟩
  · simp only [Nodes.setPiece, hlocate, bind, Option.bind, pure]
  · simp only [updateTreeMetadata, hfind, bind, Option.bind, pure]
  · subst hplug
    exact TreePath.isRedBlack_plug_node h.balanced halike.sameShape
  · rw [exact_plug]
    refine ⟨hnode, ?_⟩
    have hm : measure (node c l { a with piece := p' } r) =
        measure (node c l a r) + (p'.length - p.length, p'.lineFeedCnt - p.lineFeedCnt) := by
      have hdelta : (p'.length - p.length, p'.lineFeedCnt - p.lineFeedCnt) =
          p'.measure - p.measure := rfl
      rw [hdelta, measure_node, measure_node, hpiece]
      abel
    rw [hm]
    exact hole_addToLeftParents hhole _ _
  · rw [entries_plug, ← halike.around, around]
    simp [TreeNode.entry, hid]

theorem rbDelete_holds (h : Holds t (A ++ (i, p) :: B)) (hd : Distinct (A ++ (i, p) :: B)) :
    ∃ t', rbDelete t i = some t' ∧ Holds t' (A ++ B) := by
  obtain ⟨c, l, r, a, path, hlocate, hplug, ha, rfl, rfl⟩ := h.locate hd
  subst hplug
  simp only [rbDelete, hlocate, bind, Option.bind, pure]
  cases l with
  | nil =>
    refine ⟨_, rfl, ?_⟩
    have hnew := unlinkSingle_holds h (.inl ⟨rfl, rfl⟩)
    simpa [around] using hnew
  | node cl ll al rl =>
    cases r with
    | nil =>
      refine ⟨_, rfl, ?_⟩
      have hnew := unlinkSingle_holds h (.inr ⟨rfl, rfl⟩)
      simpa [around] using hnew
    | node cr lr ar rr =>
      rcases hleft : leftest cr ar rr lr [] with ⟨cy, y, x, inner⟩
      obtain ⟨inner, rfl, hdir, hinner⟩ := leftest_spec hleft
      rw [List.append_nil] at hleft
      rw [← hinner] at h
      refine ⟨_, rfl, ?_⟩
      have hnew := unlinkDouble_holds h hdir
      have hright : entries (node cr lr ar rr) =
          y.entry :: (entries x ++ inner.after.map TreeNode.entry) := by
        rw [← hinner, entries_plug, around, TreePath.before_of_left hdir]
        simp
      rw [hleft, hright]
      simpa [around, TreePath.before, TreePath.after, TreePath.before_append,
        TreePath.after_append, TreePath.before_of_left hdir, entries] using hnew

end Operations

end NexgileIde.PieceTree
