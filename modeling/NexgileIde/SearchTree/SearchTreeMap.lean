import NexgileIde.SearchTree.SearchTreeBalance

/-!
# A tree as a map

When every comparison agrees with one linear order of segments, a tree is a map from
sequences of segments to elements. Rotations do not change it, `set` and `delete` change it
at one sequence, and what the readers return can be read off it.
-/

namespace NexgileIde.SearchTree

open TernarySearchTreeNode TernarySearchTree

variable {K S V : Type} [LinearOrder S]

/-- The comparison of a position is that of its segment. -/
def Position.Exact (p : Position S) : Prop :=
  ∀ a, (0 < p.cmp a ↔ p.value < a) ∧ (p.cmp a < 0 ↔ a < p.value)

theorem Position.Exact.cmp_self {p : Position S} (h : p.Exact) : p.cmp p.value = 0 := by
  obtain ⟨h1, h2⟩ := h p.value
  simp only [lt_irrefl, iff_false] at h1 h2
  omega

theorem cmp_eq_of_not {p : Position S} {s : S} (hp : p.Exact) (h1 : ¬ p.cmp s > 0)
    (h2 : ¬ p.cmp s < 0) : p.value = s := by
  obtain ⟨hgt, hlt⟩ := hp s
  exact le_antisymm (not_lt.mp fun h => h2 (hlt.mpr h)) (not_lt.mp fun h => h1 (hgt.mpr h))

/-- The segments of a list of positions. -/
abbrev path (p : Position S) (rest : List (Position S)) : List S :=
  p.value :: rest.map Position.value

/-- All segments on the level of the root satisfy `P`. -/
def AllLevel (P : S → Prop) : Node K S V → Prop
  | empty => True
  | node _ s _ _ l _ r => P s ∧ AllLevel P l ∧ AllLevel P r

/-- Every level is a search tree. -/
def Ordered : Node K S V → Prop
  | empty => True
  | node _ s _ _ l m r =>
    AllLevel (· < s) l ∧ AllLevel (s < ·) r ∧ Ordered l ∧ Ordered m ∧ Ordered r

/-- The entry at a sequence of segments. -/
def lookup : Node K S V → List S → Option (Option K × V)
  | empty, _ => none
  | node .., [] => none
  | node _ s v k l m r, a :: as =>
    if a < s then lookup l (a :: as)
    else if s < a then lookup r (a :: as)
    else
      match as with
      | [] => v.map fun v => (k, v)
      | as => lookup m as

section Lookup

variable {h : ℕ} {s a : S} {v : Option V} {k : Option K} {l m r t : Node K S V} {as : List S}

@[simp] theorem lookup_empty (as : List S) : lookup (empty : Node K S V) as = none := rfl

@[simp] theorem lookup_nil (t : Node K S V) : lookup t [] = none := by
  cases t <;> rfl

theorem lookup_left (hlt : a < s) :
    lookup (node h s v k l m r) (a :: as) = lookup l (a :: as) := by
  rw [lookup.eq_def]
  simp [hlt]

theorem lookup_right (hlt : s < a) :
    lookup (node h s v k l m r) (a :: as) = lookup r (a :: as) := by
  rw [lookup.eq_def]
  simp [hlt, hlt.not_gt]

theorem lookup_here : lookup (node h s v k l m r) [s] = v.map fun v => (k, v) := by
  rw [lookup.eq_def]
  simp

theorem lookup_mid : lookup (node h s v k l m r) (s :: a :: as) = lookup m (a :: as) := by
  rw [lookup.eq_def]
  simp

omit [LinearOrder S] in
theorem AllLevel.mono {P Q : S → Prop} (hPQ : ∀ a, P a → Q a) {t : Node K S V}
    (ht : AllLevel P t) : AllLevel Q t := by
  induction t with
  | empty => trivial
  | node h s v k l m r ihl ihm ihr => exact ⟨hPQ s ht.1, ihl ht.2.1, ihr ht.2.2⟩

theorem lookup_eq_none {t : Node K S V} (ht : AllLevel (· ≠ a) t) : lookup t (a :: as) = none := by
  induction t with
  | empty => rfl
  | node h s v k l m r ihl ihm ihr =>
    rcases lt_trichotomy a s with hlt | rfl | hlt
    · rw [lookup_left hlt]
      exact ihl ht.2.1
    · exact absurd rfl ht.1
    · rw [lookup_right hlt]
      exact ihr ht.2.2

end Lookup

/-- The same map in another shape. -/
structure Same (t t' : Node K S V) : Prop where
  level : ∀ P, AllLevel P t' ↔ AllLevel P t
  ordered : Ordered t → Ordered t'
  lookup : Ordered t → ∀ as, lookup t' as = lookup t as

namespace Same

variable {h h' : ℕ} {s : S} {v : Option V} {k : Option K} {l l' m r r' t t' t'' : Node K S V}

theorem refl (t : Node K S V) : Same t t := ⟨fun _ => .rfl, id, fun _ _ => rfl⟩

theorem trans (h : Same t t') (h' : Same t' t'') : Same t t'' where
  level P := (h'.level P).trans (h.level P)
  ordered ht := h'.ordered (h.ordered ht)
  lookup ht as := (h'.lookup (h.ordered ht) as).trans (h.lookup ht as)

theorem height_irrel : Same (node h s v k l m r) (node h' s v k l m r) where
  level _ := .rfl
  ordered ht := ht
  lookup _ as := by cases as <;> rfl

theorem updateHeight (t : Node K S V) : Same t t.updateHeight := by
  cases t with
  | empty => exact refl _
  | node h s v k l m r => exact height_irrel

theorem left (hl : Same l l') : Same (node h s v k l m r) (node h s v k l' m r) where
  level P := by simp only [AllLevel, hl.level]
  ordered := by
    rintro ⟨h1, h2, h3, h4⟩
    exact ⟨(hl.level _).mpr h1, h2, hl.ordered h3, h4⟩
  lookup := by
    rintro ⟨-, -, h3, -⟩ (_ | ⟨a, as⟩)
    · simp
    · rcases lt_trichotomy a s with hlt | rfl | hlt
      · rw [lookup_left hlt, lookup_left hlt, hl.lookup h3]
      · cases as <;> simp [lookup_here, lookup_mid]
      · rw [lookup_right hlt, lookup_right hlt]

theorem right (hr : Same r r') : Same (node h s v k l m r) (node h s v k l m r') where
  level P := by simp only [AllLevel, hr.level]
  ordered := by
    rintro ⟨h1, h2, h3, h4, h5⟩
    exact ⟨h1, (hr.level _).mpr h2, h3, h4, hr.ordered h5⟩
  lookup := by
    rintro ⟨-, -, -, -, h5⟩ (_ | ⟨a, as⟩)
    · simp
    · rcases lt_trichotomy a s with hlt | rfl | hlt
      · rw [lookup_left hlt, lookup_left hlt]
      · cases as <;> simp [lookup_here, lookup_mid]
      · rw [lookup_right hlt, lookup_right hlt, hr.lookup h5]

theorem rotateRight (ht : t.rotateRight = some t') : Same t t' := by
  rcases t with _ | ⟨h, s, v, k, _ | ⟨h', s', v', k', l', m', r'⟩, m, r⟩
  · cases ht
  · cases ht
  cases ht
  refine ⟨?_, ?_, ?_⟩
  · intro P
    simp only [TernarySearchTreeNode.updateHeight, AllLevel]
    tauto
  · rintro ⟨⟨h1, h2, h3⟩, h4, ⟨h5, h6, h7, h8, h9⟩, h10, h11⟩
    exact ⟨h5, ⟨h1, h6, h4.mono fun a ha => h1.trans ha⟩, h7, h8, h3, h4, h9, h10, h11⟩
  · rintro ⟨⟨h1, -⟩, -⟩ (_ | ⟨a, as⟩)
    · simp
    simp only [TernarySearchTreeNode.updateHeight]
    rcases lt_trichotomy a s' with hlt | rfl | hlt
    · rw [lookup_left hlt, lookup_left (hlt.trans h1), lookup_left hlt]
    · rw [lookup_left h1]
      cases as <;> simp [lookup_here, lookup_mid]
    · rw [lookup_right hlt]
      rcases lt_trichotomy a s with hlt' | rfl | hlt'
      · rw [lookup_left hlt', lookup_left hlt', lookup_right hlt]
      · cases as <;> simp [lookup_here, lookup_mid]
      · rw [lookup_right hlt', lookup_right hlt']

theorem rotateLeft (ht : t.rotateLeft = some t') : Same t t' := by
  rcases t with _ | ⟨h, s, v, k, l, m, _ | ⟨h', s', v', k', l', m', r'⟩⟩
  · cases ht
  · cases ht
  cases ht
  refine ⟨?_, ?_, ?_⟩
  · intro P
    simp only [TernarySearchTreeNode.updateHeight, AllLevel]
    tauto
  · rintro ⟨h1, ⟨h2, h3, h4⟩, h5, h6, h7, h8, h9, h10, h11⟩
    exact ⟨⟨h2, h1.mono fun a ha => ha.trans h2, h7⟩, h8, ⟨h1, h3, h5, h6, h9⟩, h10, h11⟩
  · rintro ⟨-, ⟨h2, -⟩, -⟩ (_ | ⟨a, as⟩)
    · simp
    simp only [TernarySearchTreeNode.updateHeight]
    rcases lt_trichotomy a s' with hlt | rfl | hlt
    · rw [lookup_left hlt]
      rcases lt_trichotomy a s with hlt' | rfl | hlt'
      · rw [lookup_left hlt', lookup_left hlt']
      · cases as <;> simp [lookup_here, lookup_mid]
      · rw [lookup_right hlt', lookup_right hlt', lookup_left hlt]
    · rw [lookup_right h2]
      cases as <;> simp [lookup_here, lookup_mid]
    · rw [lookup_right hlt, lookup_right (h2.trans hlt), lookup_right hlt]

theorem rotateRightLeft (ht : t.rotateRightLeft = some t') : Same t t' := by
  cases t with
  | empty => cases ht
  | node h s v k l m r =>
    simp only [TernarySearchTreeNode.rotateRightLeft, Option.bind_eq_bind,
      Option.bind_eq_some_iff] at ht
    obtain ⟨child, hc, ht⟩ := ht
    exact (right (rotateRight hc)).trans (rotateLeft ht)

theorem rotateLeftRight (ht : t.rotateLeftRight = some t') : Same t t' := by
  cases t with
  | empty => cases ht
  | node h s v k l m r =>
    simp only [TernarySearchTreeNode.rotateLeftRight, Option.bind_eq_bind,
      Option.bind_eq_some_iff] at ht
    obtain ⟨child, hc, ht⟩ := ht
    exact (left (rotateLeft hc)).trans (rotateRight ht)

theorem balanceHeavy (ht : balanceHeavy t = some t') : Same t t' := by
  refine (updateHeight t).trans ?_
  unfold TernarySearchTree.balanceHeavy at ht
  dsimp only at ht
  split_ifs at ht
  · exact rotateLeft ht
  · exact rotateRightLeft ht
  · exact rotateRight ht
  · exact rotateLeftRight ht
  · cases ht
    exact refl _

theorem balanceNode {d1 : Dir} {d2 : Option Dir} (ht : balanceNode d1 d2 t = some t') :
    Same t t' := by
  refine (updateHeight t).trans ?_
  unfold TernarySearchTree.balanceNode at ht
  dsimp only at ht
  split_ifs at ht
  · split at ht
    · exact rotateLeft ht
    · exact rotateRight ht
    · exact rotateRightLeft ht
    · exact rotateLeftRight ht
    · cases ht
  · cases ht
    exact refl _

end Same

/-- The map of `t'` is that of `t` with the entry at one sequence replaced. -/
structure Updated (t t' : Node K S V) (a : S) (as : List S) (e : Option (Option K × V)) : Prop where
  level : ∀ P, AllLevel P t → P a → AllLevel P t'
  ordered : Ordered t'
  lookup : ∀ bs, lookup t' bs = if bs = a :: as then e else lookup t bs

namespace Updated

variable {h : ℕ} {s a : S} {v v' : Option V} {k k' : Option K} {l m r t t' t'' : Node K S V}
  {as : List S} {e : Option (Option K × V)}

theorem same (hu : Updated t t' a as e) (hs : Same t' t'') : Updated t t'' a as e where
  level P hP ha := (hs.level P).mpr (hu.level P hP ha)
  ordered := hs.ordered hu.ordered
  lookup bs := (hs.lookup hu.ordered bs).trans (hu.lookup bs)

theorem left (ht : Ordered (node h s v k l m r)) (hlt : a < s) (hu : Updated l t a as e) :
    Updated (node h s v k l m r) (node h s v k t m r) a as e where
  level P hP ha := ⟨hP.1, hu.level P hP.2.1 ha, hP.2.2⟩
  ordered := ⟨hu.level _ ht.1 hlt, ht.2.1, hu.ordered, ht.2.2.2⟩
  lookup := by
    rintro (_ | ⟨b, bs⟩)
    · simp
    · rcases lt_trichotomy b s with hb | rfl | hb
      · rw [lookup_left hb, lookup_left hb, hu.lookup]
      · rw [if_neg (by simp [hlt.ne'])]
        cases bs <;> simp [lookup_here, lookup_mid]
      · rw [if_neg (by simp [(hlt.trans hb).ne']), lookup_right hb, lookup_right hb]

theorem right (ht : Ordered (node h s v k l m r)) (hlt : s < a) (hu : Updated r t a as e) :
    Updated (node h s v k l m r) (node h s v k l m t) a as e where
  level P hP ha := ⟨hP.1, hP.2.1, hu.level P hP.2.2 ha⟩
  ordered := ⟨ht.1, hu.level _ ht.2.1 hlt, ht.2.2.1, ht.2.2.2.1, hu.ordered⟩
  lookup := by
    rintro (_ | ⟨b, bs⟩)
    · simp
    · rcases lt_trichotomy b s with hb | rfl | hb
      · rw [if_neg (by simp [(hb.trans hlt).ne]), lookup_left hb, lookup_left hb]
      · rw [if_neg (by simp [hlt.ne])]
        cases bs <;> simp [lookup_here, lookup_mid]
      · rw [lookup_right hb, lookup_right hb, hu.lookup]

theorem mid (ht : Ordered (node h s v k l m r)) (hu : Updated m t a as e) :
    Updated (node h s v k l m r) (node h s v k l t r) s (a :: as) e where
  level P hP _ := hP
  ordered := ⟨ht.1, ht.2.1, ht.2.2.1, hu.ordered, ht.2.2.2.2⟩
  lookup := by
    rintro (_ | ⟨b, bs⟩)
    · simp
    · rcases lt_trichotomy b s with hb | rfl | hb
      · rw [if_neg (by simp [hb.ne]), lookup_left hb, lookup_left hb]
      · cases bs with
        | nil => simp [lookup_here]
        | cons c cs => simp [lookup_mid, hu.lookup]
      · rw [if_neg (by simp [hb.ne']), lookup_right hb, lookup_right hb]

theorem here (ht : Ordered (node h s v k l m r)) :
    Updated (node h s v k l m r) (node h s v' k' l m r) s [] (v'.map fun v => (k', v)) where
  level P hP _ := hP
  ordered := ht
  lookup := by
    rintro (_ | ⟨b, bs⟩)
    · simp
    · rcases lt_trichotomy b s with hb | rfl | hb
      · rw [if_neg (by simp [hb.ne]), lookup_left hb, lookup_left hb]
      · cases bs with
        | nil => simp [lookup_here]
        | cons c cs => simp [lookup_mid]
      · rw [if_neg (by simp [hb.ne']), lookup_right hb, lookup_right hb]

end Updated

section Insert

variable {key : K} {element : V}

theorem ordered_new (segment : S) : Ordered (new segment : Node K S V) :=
  ⟨trivial, trivial, trivial, trivial, trivial⟩

theorem lookup_new (segment : S) (as : List S) :
    lookup (new segment : Node K S V) as = none := by
  rcases as with _ | ⟨a, as⟩
  · rfl
  · rcases lt_trichotomy a segment with hlt | rfl | hlt
    · exact lookup_left hlt
    · cases as
      · exact lookup_here
      · exact lookup_mid
    · exact lookup_right hlt

theorem Updated.of_new {segment : S} {t : Node K S V} {as : List S} {e : Option (Option K × V)}
    (hu : Updated (new segment) t segment as e) : Updated empty t segment as e where
  level P _ ha := hu.level P ⟨ha, trivial, trivial⟩ ha
  ordered := hu.ordered
  lookup bs := by
    rw [hu.lookup, lookup_new]
    rfl

theorem insertNew_updated {p : Position S} {rest : List (Position S)} {t : Node K S V}
    {d : Option Dir} (ht : insertNew key element p rest = some (t, d)) :
    Updated empty t p.value (rest.map Position.value) (some (some key, element)) := by
  induction rest generalizing p t d with
  | nil =>
    rw [insertNew] at ht
    split_ifs at ht
    cases ht
    exact .of_new (.here (ordered_new p.value))
  | cons q rest ih =>
    rw [insertNew] at ht
    split_ifs at ht
    simp only [Option.bind_eq_bind, Option.bind_eq_some_iff, Option.some.injEq] at ht
    obtain ⟨⟨child, d2⟩, hc, n, hn, ht⟩ := ht
    cases ht
    exact .of_new ((Updated.mid (ordered_new p.value) (ih hc)).same (Same.balanceNode hn))

/-- `set` changes the map at the segments of its key only. -/
theorem insert_updated {t t' : Node K S V} {p : Position S} {rest : List (Position S)}
    {d : Option Dir} (hp : ∀ q ∈ p :: rest, q.Exact) (hord : Ordered t)
    (ht : insert key element t p rest = some (t', d)) :
    Updated t t' p.value (rest.map Position.value) (some (some key, element)) := by
  induction t generalizing p rest t' d with
  | empty => exact insertNew_updated ht
  | node h s v k l m r ihl ihm ihr =>
    obtain ⟨hgt, hlt⟩ := hp p (by simp) s
    unfold insert at ht
    split_ifs at ht with h1 h2
    · simp only [Option.bind_eq_bind, Option.bind_eq_some_iff, Option.some.injEq] at ht
      obtain ⟨⟨child, d2⟩, hc, n, hn, ht⟩ := ht
      cases ht
      exact (Updated.left hord (hgt.mp h1) (ihl hp hord.2.2.1 hc)).same (Same.balanceNode hn)
    · simp only [Option.bind_eq_bind, Option.bind_eq_some_iff, Option.some.injEq] at ht
      obtain ⟨⟨child, d2⟩, hc, n, hn, ht⟩ := ht
      cases ht
      exact (Updated.right hord (hlt.mp h2) (ihr hp hord.2.2.2.2 hc)).same (Same.balanceNode hn)
    · obtain rfl := cmp_eq_of_not (hp p (by simp)) h1 h2
      cases rest with
      | nil =>
        cases ht
        exact .here hord
      | cons q rest =>
        simp only [Option.bind_eq_bind, Option.bind_eq_some_iff, Option.some.injEq] at ht
        obtain ⟨⟨child, d2⟩, hc, n, hn, ht⟩ := ht
        cases ht
        have hu := ihm (fun x hx => hp x (List.mem_cons_of_mem _ hx)) hord.2.2.2.1 hc
        exact (Updated.mid hord hu).same (Same.balanceNode hn)

end Insert

section Erase

variable {truthy : K → Bool}

/-- The defect of `delete`: a full node is replaced by a min-node that has nodes below it,
which are not moved with it. -/
def losesSubtree (truthy : K → Bool) : Node K S V → Bool
  | empty => false
  | node _ _ _ _ l m r =>
    m.isUndefined && !l.isUndefined && !r.isUndefined &&
      match (minNode r []).2 with
      | node _ _ _ (some k') _ m' _ => truthy k' && !(entries m').isEmpty
      | _ => false

theorem lookup_of_entries_eq_nil {t : Node K S V} (ht : entries t = []) (as : List S) :
    lookup t as = none := by
  induction t generalizing as with
  | empty => rfl
  | node h s v k l m r ihl ihm ihr =>
    simp only [entries, List.append_eq_nil_iff, Option.toList_eq_nil_iff,
      Option.map_eq_none_iff] at ht
    obtain ⟨⟨⟨hl, rfl⟩, hm⟩, hr⟩ := ht
    rcases as with _ | ⟨a, as⟩
    · rfl
    · rcases lt_trichotomy a s with hlt | rfl | hlt
      · rw [lookup_left hlt]
        exact ihl hl _
      · cases as with
        | nil => exact lookup_here
        | cons b bs =>
          rw [lookup_mid]
          exact ihm hm _
      · rw [lookup_right hlt]
        exact ihr hr _

/-- What is left of a level without its min-node. -/
structure MinRemoved (t t' : Node K S V) (s : S) (e : Option (Option K × V)) (m : Node K S V) :
    Prop where
  level : ∀ P, AllLevel P t → P s ∧ AllLevel P t'
  above : AllLevel (s < ·) t'
  ordered : Ordered t'
  here : lookup t [s] = e
  below : ∀ a as, lookup t (s :: a :: as) = lookup m (a :: as)
  lookup : ∀ a as, a ≠ s → lookup t' (a :: as) = lookup t (a :: as)

theorem AllLevel.lookup_below {t : Node K S V} {s a : S} (ht : AllLevel (s < ·) t) (ha : a ≤ s)
    (as : List S) : lookup t (a :: as) = none :=
  lookup_eq_none (ht.mono fun _ hb => (ha.trans_lt hb).ne')

theorem AllLevel.lookup_above {t : Node K S V} {s a : S} (ht : AllLevel (· < s) t) (ha : s ≤ a)
    (as : List S) : lookup t (a :: as) = none :=
  lookup_eq_none (ht.mono fun _ hb => (hb.trans_le ha).ne)

theorem removeMin_spec {t t' : Node K S V} {h : ℕ} {s : S} {v : Option V} {k : Option K}
    {l m r : Node K S V} (hord : Ordered t) (hmin : (minNode t []).2 = node h s v k l m r)
    (ht : removeMin t = some t') : MinRemoved t t' s (v.map fun v => (k, v)) m := by
  induction t generalizing t' with
  | empty => cases hmin
  | node h0 s0 v0 k0 l0 m0 r0 ihl =>
    obtain ⟨h1, h2, h3, h4, h5⟩ := hord
    cases hl : l0.isUndefined with
    | true =>
      cases l0 with
      | node => cases hl
      | empty =>
        cases hmin
        cases ht
        refine ⟨fun P hP => ⟨hP.1, hP.2.2⟩, h2, h5, lookup_here, fun a as => lookup_mid, ?_⟩
        intro a as ha
        rcases lt_or_gt_of_ne ha with hlt | hgt
        · rw [lookup_left hlt, h2.lookup_below hlt.le]
          rfl
        · rw [lookup_right hgt]
    | false =>
      rw [minNode_left hl, (minNode_stack _ _).1] at hmin
      rw [removeMin_left hl, Option.bind_eq_some_iff] at ht
      obtain ⟨child, hc, hbal⟩ := ht
      have ih := ihl h3 hmin hc
      have hs : s < s0 := (ih.level _ h1).1
      have hsame := Same.balanceHeavy hbal
      have hord' : Ordered (node h0 s0 v0 k0 child m0 r0) :=
        ⟨(ih.level _ h1).2, h2, ih.ordered, h4, h5⟩
      refine ⟨?_, ?_, hsame.ordered hord', ?_, ?_, ?_⟩
      · intro P hP
        obtain ⟨hs, hchild⟩ := ih.level P hP.2.1
        exact ⟨hs, (hsame.level P).mpr ⟨hP.1, hchild, hP.2.2⟩⟩
      · exact (hsame.level _).mpr ⟨hs, ih.above, h2.mono fun _ ha => hs.trans ha⟩
      · rw [lookup_left hs]
        exact ih.here
      · intro a as
        rw [lookup_left hs]
        exact ih.below a as
      · intro a as ha
        rw [hsame.lookup hord']
        rcases lt_trichotomy a s0 with hlt | rfl | hgt
        · rw [lookup_left hlt, lookup_left hlt, ih.lookup a as ha]
        · cases as <;> simp [lookup_here, lookup_mid]
        · rw [lookup_right hgt, lookup_right hgt]

section

variable {h : ℕ} {s : S} {v : Option V} {k : Option K} {l r t : Node K S V}

theorem Updated.only_right (hord : Ordered (node h s v k empty empty r)) :
    Updated (node h s v k empty empty r) r s [] none where
  level P hP _ := hP.2.2
  ordered := hord.2.2.2.2
  lookup := by
    rintro (_ | ⟨b, bs⟩)
    · simp
    · rcases lt_trichotomy b s with hb | rfl | hb
      · rw [if_neg (by simp [hb.ne]), lookup_left hb, hord.2.1.lookup_below hb.le]
        rfl
      · rw [hord.2.1.lookup_below le_rfl]
        cases bs <;> simp [lookup_mid]
      · rw [if_neg (by simp [hb.ne']), lookup_right hb]

theorem Updated.only_left (hord : Ordered (node h s v k l empty empty)) :
    Updated (node h s v k l empty empty) l s [] none where
  level P hP _ := hP.2.1
  ordered := hord.2.2.1
  lookup := by
    rintro (_ | ⟨b, bs⟩)
    · simp
    · rcases lt_trichotomy b s with hb | rfl | hb
      · rw [if_neg (by simp [hb.ne]), lookup_left hb]
      · rw [hord.1.lookup_above le_rfl]
        cases bs <;> simp [lookup_mid]
      · rw [if_neg (by simp [hb.ne']), lookup_right hb, hord.1.lookup_above hb.le]
        rfl

/-- The min-node takes the place of a full node without losing anything when it has no
entries below it. -/
theorem Updated.full {s' : S} {v' : Option V} {k' : K} {m' : Node K S V}
    (hord : Ordered (node h s v k l empty r))
    (hmin : MinRemoved r t s' (v'.map fun v => (some k', v)) m') (hm : entries m' = []) :
    Updated (node h s v k l empty r) (node h s' v' (some k') l empty t) s [] none := by
  obtain ⟨h1, h2, h3, -, -⟩ := hord
  have hs : s < s' := (hmin.level _ h2).1
  refine ⟨?_, ?_, ?_⟩
  · intro P hP _
    obtain ⟨hs', ht⟩ := hmin.level P hP.2.2
    exact ⟨hs', hP.2.1, ht⟩
  · exact ⟨h1.mono fun _ ha => ha.trans hs, hmin.above, h3, trivial, hmin.ordered⟩
  · rintro (_ | ⟨b, bs⟩)
    · simp
    rcases lt_trichotomy b s' with hb | rfl | hb
    · rw [lookup_left hb]
      rcases lt_trichotomy b s with hb' | rfl | hb'
      · rw [if_neg (by simp [hb'.ne]), lookup_left hb']
      · rw [h1.lookup_above le_rfl]
        cases bs <;> simp [lookup_mid]
      · rw [if_neg (by simp [hb'.ne']), lookup_right hb', h1.lookup_above hb'.le,
          ← hmin.lookup b bs hb.ne, hmin.above.lookup_below hb.le]
    · rw [if_neg (by simp [hs.ne']), lookup_right hs]
      cases bs with
      | nil => rw [lookup_here, hmin.here]
      | cons c cs => rw [lookup_mid, hmin.below, lookup_of_entries_eq_nil hm, lookup_empty]
    · rw [if_neg (by simp [(hs.trans hb).ne']), lookup_right hb, lookup_right (hs.trans hb),
        hmin.lookup b bs hb.ne']

end

theorem removeNode_updated {h : ℕ} {s : S} {v : Option V} {k : Option K} {l m r t : Node K S V}
    (hord : Ordered (node h s v k l m r))
    (hlose : losesSubtree truthy (node h s v k l m r) = false)
    (ht : removeNode truthy (node h s none none l m r) = some t) :
    Updated (node h s v k l m r) t s [] none := by
  have hhere : Updated (node h s v k l m r) (node h s none none l m r) s [] none := .here hord
  cases m with
  | node =>
    cases ht
    exact hhere
  | empty =>
    cases hlu : l.isUndefined with
    | true =>
      cases l with
      | node => cases hlu
      | empty =>
        cases ht
        exact .only_right hord
    | false =>
      cases hru : r.isUndefined with
      | true =>
        cases r with
        | node => cases hru
        | empty =>
          cases l with
          | empty => cases hlu
          | node =>
            cases ht
            exact .only_left hord
      | false =>
        rw [removeNode_full hlu hru] at ht
        simp only [losesSubtree, hlu, hru] at hlose
        split at ht
        · next h' s' v' k' l' m' r' hmin =>
          split_ifs at ht with htruthy
          · rw [Option.bind_eq_some_iff] at ht
            obtain ⟨t', ht', hbal⟩ := ht
            have hm : entries m' = [] := by simpa [hmin, htruthy, isUndefined] using hlose
            have hspec := removeMin_spec hord.2.2.2.2 hmin ht'
            exact (Updated.full hord hspec hm).same (Same.balanceHeavy hbal)
          · cases ht
            exact hhere
        · cases ht
          exact hhere

/-- `delete` changes the map at the segments of its key only, unless it loses a subtree. -/
theorem erase_updated {t t' : Node K S V} {p : Position S} {rest : List (Position S)}
    (hp : ∀ q ∈ p :: rest, q.Exact) (hord : Ordered t)
    (hlose : losesSubtree truthy (getNode t p rest) = false)
    (ht : erase truthy t p rest = some (some t')) :
    Updated t t' p.value (rest.map Position.value) none := by
  induction t generalizing p rest t' with
  | empty => cases ht
  | node h s v k l m r ihl ihm ihr =>
    obtain ⟨hgt, hlt⟩ := hp p (by simp) s
    unfold erase at ht
    unfold getNode at hlose
    dsimp only at hlose
    split_ifs at ht hlose with h1 h2
    · simp only [Option.map_eq_some_iff, Option.bind_eq_some_iff] at ht
      obtain ⟨o, ho, child, rfl, hbal⟩ := ht
      exact (Updated.left hord (hgt.mp h1) (ihl hp hord.2.2.1 hlose ho)).same
        (Same.balanceHeavy hbal)
    · simp only [Option.map_eq_some_iff, Option.bind_eq_some_iff] at ht
      obtain ⟨o, ho, child, rfl, hbal⟩ := ht
      exact (Updated.right hord (hlt.mp h2) (ihr hp hord.2.2.2.2 hlose ho)).same
        (Same.balanceHeavy hbal)
    · obtain rfl := cmp_eq_of_not (hp p (by simp)) h1 h2
      cases rest with
      | nil => exact removeNode_updated hord hlose (Option.some.inj ht)
      | cons q rest =>
        simp only [Option.map_eq_some_iff, Option.bind_eq_some_iff] at ht
        obtain ⟨o, ho, child, rfl, hbal⟩ := ht
        have hu := ihm (fun x hx => hp x (List.mem_cons_of_mem _ hx)) hord.2.2.2.1 hlose ho
        exact (Updated.mid hord hu).same (Same.balanceHeavy hbal)

theorem erase_eq_none {t : Node K S V} {p : Position S} {rest : List (Position S)}
    (hp : ∀ q ∈ p :: rest, q.Exact) (ht : erase truthy t p rest = none) :
    lookup t (path p rest) = none := by
  induction t generalizing p rest with
  | empty => rfl
  | node h s v k l m r ihl ihm ihr =>
    obtain ⟨hgt, hlt⟩ := hp p (by simp) s
    unfold erase at ht
    split_ifs at ht with h1 h2
    · rw [lookup_left (hgt.mp h1)]
      exact ihl hp (by simpa using ht)
    · rw [lookup_right (hlt.mp h2)]
      exact ihr hp (by simpa using ht)
    · obtain rfl := cmp_eq_of_not (hp p (by simp)) h1 h2
      cases rest with
      | nil => cases ht
      | cons q rest =>
        have := ihm (fun x hx => hp x (List.mem_cons_of_mem _ hx)) (by simpa using ht)
        rwa [path, List.map_cons, lookup_mid]

end Erase

end NexgileIde.SearchTree
