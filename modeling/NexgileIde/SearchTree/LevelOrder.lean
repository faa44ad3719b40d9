import NexgileIde.SearchTree.UriKeys

/-!
# The levels of a tree under any iterator

Balance does not depend on how segments compare: `set` and `delete` keep every level an AVL
tree as long as a position compares equal to its own segment. Where all comparisons of an
iterator agree with one strict order the levels are search trees for it, whether or not the
order tells all segments apart.
-/
namespace NexgileIde.SearchTree

open TernarySearchTreeNode TernarySearchTree Text

variable {K S V : Type}

/-- Every level is strictly ordered. -/
def OrderedBy (R : S → S → Prop) : Node K S V → Prop
  | empty => True
  | node _ s _ _ l m r =>
    AllLevel (R · s) l ∧ AllLevel (R s) r ∧ OrderedBy R l ∧ OrderedBy R m ∧ OrderedBy R r

/-- The position compares by the order. -/
def Position.ComparesBy (R : S → S → Prop) (p : Position S) : Prop :=
  ∀ a, (0 < p.cmp a ↔ R p.value a) ∧ (p.cmp a < 0 ↔ R a p.value)

section Order

variable {R : S → S → Prop} {h h' : ℕ} {s : S} {v v' : Option V} {k k' : Option K}
  {l l' m m' r r' t t' : Node K S V}

/-- A change of shape that keeps the levels. -/
structure Reshaped (R : S → S → Prop) (t t' : Node K S V) : Prop where
  level : ∀ P, AllLevel P t' ↔ AllLevel P t
  ordered : OrderedBy R t → OrderedBy R t'

namespace Reshaped

theorem refl (t : Node K S V) : Reshaped R t t := ⟨fun _ => .rfl, id⟩

theorem trans {t'' : Node K S V} (h : Reshaped R t t') (h' : Reshaped R t' t'') :
    Reshaped R t t'' :=
  ⟨fun P => (h'.level P).trans (h.level P), fun ht => h'.ordered (h.ordered ht)⟩

theorem updateHeight (t : Node K S V) : Reshaped R t t.updateHeight := by
  cases t with
  | empty => exact refl _
  | node => exact ⟨fun _ => .rfl, id⟩

theorem left (hl : Reshaped R l l') : Reshaped R (node h s v k l m r) (node h s v k l' m r) := by
  constructor
  · intro P
    unfold AllLevel
    rw [hl.level]
  · rintro ⟨h1, h2, h3, h4⟩
    exact ⟨(hl.level _).mpr h1, h2, hl.ordered h3, h4⟩

theorem right (hr : Reshaped R r r') :
    Reshaped R (node h s v k l m r) (node h s v k l m r') := by
  constructor
  · intro P
    unfold AllLevel
    rw [hr.level]
  · rintro ⟨h1, h2, h3, h4, h5⟩
    exact ⟨h1, (hr.level _).mpr h2, h3, h4, hr.ordered h5⟩

theorem rotateRight [IsTrans S R] (ht : t.rotateRight = some t') : Reshaped R t t' := by
  rcases t with _ | ⟨h, s, v, k, _ | ⟨h', s', v', k', l', m', r'⟩, m, r⟩
  · cases ht
  · cases ht
  cases ht
  constructor
  · intro P
    unfold TernarySearchTreeNode.updateHeight AllLevel
    rw [AllLevel, AllLevel]
    tauto
  · rintro ⟨⟨h1, h2, h3⟩, h4, ⟨h5, h6, h7, h8, h9⟩, h10, h11⟩
    exact ⟨h5, ⟨h1, h6, h4.mono fun a ha => trans_of R h1 ha⟩, h7, h8, h3, h4, h9, h10, h11⟩

theorem rotateLeft [IsTrans S R] (ht : t.rotateLeft = some t') : Reshaped R t t' := by
  rcases t with _ | ⟨h, s, v, k, l, m, _ | ⟨h', s', v', k', l', m', r'⟩⟩
  · cases ht
  · cases ht
  cases ht
  constructor
  · intro P
    unfold TernarySearchTreeNode.updateHeight AllLevel
    rw [AllLevel, AllLevel]
    tauto
  · rintro ⟨h1, ⟨h2, h3, h4⟩, h5, h6, h7, h8, h9, h10, h11⟩
    exact ⟨⟨h2, h1.mono fun a ha => trans_of R ha h2, h7⟩, h8, ⟨h1, h3, h5, h6, h9⟩, h10, h11⟩

theorem rotateRightLeft [IsTrans S R] (ht : t.rotateRightLeft = some t') : Reshaped R t t' := by
  cases t with
  | empty => cases ht
  | node h s v k l m r =>
    unfold TernarySearchTreeNode.rotateRightLeft at ht
    obtain ⟨child, hc, ht⟩ := Option.bind_eq_some_iff.mp ht
    exact (right (rotateRight hc)).trans (rotateLeft ht)

theorem rotateLeftRight [IsTrans S R] (ht : t.rotateLeftRight = some t') : Reshaped R t t' := by
  cases t with
  | empty => cases ht
  | node h s v k l m r =>
    unfold TernarySearchTreeNode.rotateLeftRight at ht
    obtain ⟨child, hc, ht⟩ := Option.bind_eq_some_iff.mp ht
    exact (left (rotateLeft hc)).trans (rotateRight ht)

theorem balanceHeavy [IsTrans S R] (ht : balanceHeavy t = some t') : Reshaped R t t' := by
  apply (updateHeight t).trans
  unfold TernarySearchTree.balanceHeavy at ht
  dsimp only at ht
  split_ifs at ht
  · exact rotateLeft ht
  · exact rotateRightLeft ht
  · exact rotateRight ht
  · exact rotateLeftRight ht
  · cases ht
    exact refl _

theorem balanceNode [IsTrans S R] {d1 : Dir} {d2 : Option Dir}
    (ht : balanceNode d1 d2 t = some t') : Reshaped R t t' := by
  apply (updateHeight t).trans
  unfold TernarySearchTree.balanceNode at ht
  dsimp only at ht
  split_ifs at ht
  · split at ht
    · exact rotateLeft ht
    · exact rotateRight ht
    · exact rotateRightLeft ht
    · exact rotateLeftRight ht
    · cases ht
  · cases ht
    exact refl _

end Reshaped

theorem orderedBy_new (segment : S) : OrderedBy R (new segment : Node K S V) :=
  ⟨trivial, trivial, trivial, trivial, trivial⟩

theorem insertNew_orderedBy [IsTrans S R] {key : K} {element : V} {p : Position S}
    {rest : List (Position S)} {d : Option Dir} (ht : insertNew key element p rest = some (t, d)) :
    (∀ P, P p.value → AllLevel P t) ∧ OrderedBy R t := by
  induction rest generalizing p t d with
  | nil =>
    unfold insertNew at ht
    split_ifs at ht
    cases ht
    exact ⟨fun P hP => ⟨hP, trivial, trivial⟩, orderedBy_new p.value⟩
  | cons q rest ih =>
    unfold insertNew at ht
    split_ifs at ht
    obtain ⟨⟨child, d2⟩, hc, ht⟩ := Option.bind_eq_some_iff.mp ht
    obtain ⟨n, hn, ht⟩ := Option.bind_eq_some_iff.mp ht
    cases ht
    have hsame := Reshaped.balanceNode (R := R) hn
    have hchild := (ih hc).2
    refine ⟨fun P hP => (hsame.level P).mpr ⟨hP, trivial, trivial⟩, hsame.ordered ?_⟩
    exact ⟨trivial, trivial, trivial, hchild, trivial⟩

/-- `set` adds its first segment to the level at most. -/
theorem insert_orderedBy [IsTrans S R] {key : K} {element : V} {p : Position S}
    {rest : List (Position S)} {d : Option Dir} (hp : ∀ q ∈ p :: rest, q.ComparesBy R)
    (hord : OrderedBy R t) (ht : insert key element t p rest = some (t', d)) :
    (∀ P, AllLevel P t → P p.value → AllLevel P t') ∧ OrderedBy R t' := by
  induction t generalizing p rest t' d with
  | empty =>
    obtain ⟨hlevel, hord⟩ := insertNew_orderedBy (R := R) ht
    exact ⟨fun P _ => hlevel P, hord⟩
  | node h s v k l m r ihl ihm ihr =>
    obtain ⟨hgt, hlt⟩ := hp p List.mem_cons_self s
    obtain ⟨h1, h2, h3, h4, h5⟩ := hord
    unfold insert at ht
    split_ifs at ht with hleft hright
    · obtain ⟨⟨child, d2⟩, hc, ht⟩ := Option.bind_eq_some_iff.mp ht
      obtain ⟨n, hn, ht⟩ := Option.bind_eq_some_iff.mp ht
      cases ht
      obtain ⟨hlevel, hchild⟩ := ihl hp h3 hc
      have hsame := Reshaped.balanceNode (R := R) hn
      refine ⟨fun P hP hv => (hsame.level P).mpr ⟨hP.1, hlevel P hP.2.1 hv, hP.2.2⟩, ?_⟩
      exact hsame.ordered ⟨hlevel _ h1 (hgt.mp hleft), h2, hchild, h4, h5⟩
    · obtain ⟨⟨child, d2⟩, hc, ht⟩ := Option.bind_eq_some_iff.mp ht
      obtain ⟨n, hn, ht⟩ := Option.bind_eq_some_iff.mp ht
      cases ht
      obtain ⟨hlevel, hchild⟩ := ihr hp h5 hc
      have hsame := Reshaped.balanceNode (R := R) hn
      refine ⟨fun P hP hv => (hsame.level P).mpr ⟨hP.1, hP.2.1, hlevel P hP.2.2 hv⟩, ?_⟩
      exact hsame.ordered ⟨h1, hlevel _ h2 (hlt.mp hright), h3, h4, hchild⟩
    · cases rest with
      | nil =>
        cases ht
        exact ⟨fun P hP _ => hP, h1, h2, h3, h4, h5⟩
      | cons q rest =>
        obtain ⟨⟨child, d2⟩, hc, ht⟩ := Option.bind_eq_some_iff.mp ht
        obtain ⟨n, hn, ht⟩ := Option.bind_eq_some_iff.mp ht
        cases ht
        obtain ⟨-, hchild⟩ := ihm (fun x hx => hp x (List.mem_cons_of_mem _ hx)) h4 hc
        have hsame := Reshaped.balanceNode (R := R) hn
        exact ⟨fun P hP _ => (hsame.level P).mpr hP, hsame.ordered ⟨h1, h2, h3, hchild, h5⟩⟩

/-- Without its min-node a level keeps the other segments, all behind the one removed. -/
theorem removeMin_orderedBy [IsTrans S R] {h : ℕ} {s : S} {v : Option V} {k : Option K}
    {l m r : Node K S V} (hord : OrderedBy R t) (hmin : (minNode t []).2 = node h s v k l m r)
    (ht : removeMin t = some t') :
    (∀ P, AllLevel P t → P s ∧ AllLevel P t') ∧ AllLevel (R s) t' ∧ OrderedBy R t' := by
  induction t generalizing t' with
  | empty => cases hmin
  | node h0 s0 v0 k0 l0 m0 r0 ihl =>
    obtain ⟨h1, h2, h3, h4, h5⟩ := hord
    cases hl : l0.isUndefined with
    | true =>
      cases l0 with
      | node => cases hl
      | empty =>
        cases hmin
        cases ht
        exact ⟨fun P hP => ⟨hP.1, hP.2.2⟩, h2, h5⟩
    | false =>
      rw [minNode_left hl, (minNode_stack _ _).1] at hmin
      rw [removeMin_left hl, Option.bind_eq_some_iff] at ht
      obtain ⟨child, hc, hbal⟩ := ht
      obtain ⟨hlevel, habove, hchild⟩ := ihl h3 hmin hc
      have hs : R s s0 := (hlevel _ h1).1
      have hsame := Reshaped.balanceHeavy (R := R) hbal
      refine ⟨?_, ?_, ?_⟩
      · intro P hP
        obtain ⟨hs, hchild⟩ := hlevel P hP.2.1
        exact ⟨hs, (hsame.level P).mpr ⟨hP.1, hchild, hP.2.2⟩⟩
      · exact (hsame.level _).mpr ⟨hs, habove, h2.mono fun _ ha => trans_of R hs ha⟩
      · exact hsame.ordered ⟨(hlevel _ h1).2, h2, hchild, h4, h5⟩

theorem removeNode_orderedBy [IsTrans S R] {truthy : K → Bool}
    (hord : OrderedBy R (node h s v k l m r))
    (ht : removeNode truthy (node h s none none l m r) = some t) :
    (∀ P, AllLevel P (node h s v k l m r) → AllLevel P t) ∧ OrderedBy R t := by
  obtain ⟨h1, h2, h3, h4, h5⟩ := id hord
  cases m with
  | node =>
    cases ht
    exact ⟨fun P hP => hP, hord⟩
  | empty =>
    cases hlu : l.isUndefined with
    | true =>
      cases l with
      | node => cases hlu
      | empty =>
        cases ht
        exact ⟨fun P hP => hP.2.2, h5⟩
    | false =>
      cases hru : r.isUndefined with
      | true =>
        cases r with
        | node => cases hru
        | empty =>
          cases l with
          | empty => cases hlu
          | node =>
            cases ht
            exact ⟨fun P hP => hP.2.1, h3⟩
      | false =>
        rw [removeNode_full hlu hru] at ht
        split at ht
        · next h' s' v' k' l' m' r' hmin =>
          split_ifs at ht with htruthy
          · obtain ⟨t', ht', hbal⟩ := Option.bind_eq_some_iff.mp ht
            obtain ⟨hlevel, habove, hord'⟩ := removeMin_orderedBy h5 hmin ht'
            have hs : R s s' := (hlevel _ h2).1
            have hsame := Reshaped.balanceHeavy (R := R) hbal
            refine ⟨?_, ?_⟩
            · intro P hP
              obtain ⟨hs', ht'⟩ := hlevel P hP.2.2
              exact (hsame.level P).mpr ⟨hs', hP.2.1, ht'⟩
            · exact hsame.ordered ⟨h1.mono fun a ha => trans_of R ha hs, habove, h3, trivial,
                hord'⟩
          · cases ht
            exact ⟨fun P hP => hP, hord⟩
        · cases ht
          exact ⟨fun P hP => hP, hord⟩

/-- `delete` adds no segment to a level. -/
theorem erase_orderedBy [IsTrans S R] {truthy : K → Bool} {p : Position S}
    {rest : List (Position S)} (hord : OrderedBy R t)
    (ht : erase truthy t p rest = some (some t')) :
    (∀ P, AllLevel P t → AllLevel P t') ∧ OrderedBy R t' := by
  induction t generalizing p rest t' with
  | empty => cases ht
  | node h s v k l m r ihl ihm ihr =>
    obtain ⟨h1, h2, h3, h4, h5⟩ := id hord
    unfold erase at ht
    split_ifs at ht
    · obtain ⟨o, ho, hbind⟩ := Option.map_eq_some_iff.mp ht
      obtain ⟨child, rfl, hbal⟩ := Option.bind_eq_some_iff.mp hbind
      obtain ⟨hlevel, hchild⟩ := ihl h3 ho
      have hsame := Reshaped.balanceHeavy (R := R) hbal
      exact ⟨fun P hP => (hsame.level P).mpr ⟨hP.1, hlevel P hP.2.1, hP.2.2⟩,
        hsame.ordered ⟨hlevel _ h1, h2, hchild, h4, h5⟩⟩
    · obtain ⟨o, ho, hbind⟩ := Option.map_eq_some_iff.mp ht
      obtain ⟨child, rfl, hbal⟩ := Option.bind_eq_some_iff.mp hbind
      obtain ⟨hlevel, hchild⟩ := ihr h5 ho
      have hsame := Reshaped.balanceHeavy (R := R) hbal
      exact ⟨fun P hP => (hsame.level P).mpr ⟨hP.1, hP.2.1, hlevel P hP.2.2⟩,
        hsame.ordered ⟨h1, hlevel _ h2, h3, h4, hchild⟩⟩
    · cases rest with
      | nil => exact removeNode_orderedBy hord (Option.some.inj ht)
      | cons q rest =>
        obtain ⟨o, ho, hbind⟩ := Option.map_eq_some_iff.mp ht
        obtain ⟨child, rfl, hbal⟩ := Option.bind_eq_some_iff.mp hbind
        obtain ⟨-, hchild⟩ := ihm h4 ho
        have hsame := Reshaped.balanceHeavy (R := R) hbal
        exact ⟨fun P hP => (hsame.level P).mpr hP, hsame.ordered ⟨h1, h2, h3, hchild, h5⟩⟩

end Order

section Run

variable (iter : KeyIterator K S)

/-- An element removed from a full node: the walk to the min-node only goes to the left. -/
theorem minNode_dirs (t : Node K S V) {stack : Stack K S V} (h : ∀ e ∈ stack, e.1 = .left) :
    ∀ e ∈ (minNode t stack).1, e.1 = .left := by
  induction t generalizing stack with
  | empty => exact h
  | node h' s v k l m r ihl =>
    cases hl : l.isUndefined with
    | true =>
      cases l with
      | node => cases hl
      | empty => exact h
    | false =>
      rw [minNode_left hl]
      apply ihl
      rw [List.forall_mem_cons]
      exact ⟨rfl, h⟩

/-- The state of a tree between two operations. -/
structure IsAvl (t : Node K S V) : Prop where
  balanced : Balanced t
  /-- the order of an iterator that has one -/
  ordered : ∀ R : S → S → Prop, IsTrans S R →
    (∀ key, ∀ q ∈ iter.all key, q.ComparesBy R) → OrderedBy R t

theorem IsAvl.step {t : Node K S V} (h : IsAvl iter t)
    (hself : ∀ key, ∀ q ∈ iter.all key, q.cmp q.value = 0) (op : Op K V) :
    ∃ t', iter.step t op = some t' ∧ IsAvl iter t' := by
  cases op with
  | set key element =>
    obtain ⟨t', d, hins, hspec⟩ := insert_balanced key element h.balanced (hself key)
    refine ⟨t', ?_, hspec.balanced, ?_⟩
    · show (iter.set t key element).map Prod.snd = some t'
      have hins' : insert key element t (iter.positions key).1 (iter.positions key).2 =
          some (t', d) := hins
      unfold KeyIterator.set
      dsimp only
      rw [set_eq, hins', Option.map_some]
    · intro R htrans hlt
      exact (insert_orderedBy (hlt key) (h.ordered R htrans hlt) hins).2
  | delete key =>
    have hstep : iter.step t (.delete key) =
        (erase iter.truthy t (iter.positions key).1 (iter.positions key).2).getD (some t) :=
      delete_eq iter.truthy t _ _
    cases herase : erase iter.truthy t (iter.positions key).1 (iter.positions key).2 with
    | none =>
      rw [hstep, herase]
      exact ⟨t, rfl, h⟩
    | some o =>
      obtain ⟨t', rfl, hspec⟩ := erase_balanced h.balanced herase
      rw [hstep, herase]
      refine ⟨t', rfl, hspec.balanced, ?_⟩
      intro R htrans hlt
      exact (erase_orderedBy (h.ordered R htrans hlt) herase).2

/-- `foo:/B`, `foo://a` and `foo:/a`: an authority is compared without its case, a path with
it, so that the third segment does not meet the second one. -/
def mixedOps : List (Op URI ℕ) :=
  [.set ⟨[102, 111, 111], [], [47, 66], [], [], withQuery.scheme_set⟩ 1,
    .set ⟨[102, 111, 111], [97], [], [], [], withQuery.scheme_set⟩ 2,
    .set ⟨[102, 111, 111], [], [47, 97], [], [], withQuery.scheme_set⟩ 3]

/-- The segments of a level from left to right. -/
def levelSegments : Node K S V → List S
  | empty => []
  | node _ s _ _ l _ r => levelSegments l ++ s :: levelSegments r

theorem AllLevel.forall_mem {P : S → Prop} {t : Node K S V} (h : AllLevel P t) :
    ∀ a ∈ levelSegments t, P a := by
  induction t with
  | empty => simp [levelSegments]
  | node h s v k l m r ihl ihm ihr =>
    unfold levelSegments
    rw [List.forall_mem_append, List.forall_mem_cons]
    exact ⟨ihl h.2.1, h.1, ihr h.2.2⟩

theorem OrderedBy.pairwise {R : S → S → Prop} [IsTrans S R] {t : Node K S V}
    (h : OrderedBy R t) : (levelSegments t).Pairwise R := by
  induction t with
  | empty => exact .nil
  | node h s v k l m r ihl ihm ihr =>
    obtain ⟨h1, h2, h3, h4, h5⟩ := h
    unfold levelSegments
    rw [List.pairwise_append, List.pairwise_cons]
    refine ⟨ihl h3, ⟨h2.forall_mem, ihr h5⟩, ?_⟩
    intro a ha b hb
    have has := h1.forall_mem a ha
    rcases List.mem_cons.mp hb with rfl | hb
    · exact has
    · exact trans_of R has (h2.forall_mem b hb)

end Run

end NexgileIde.SearchTree
