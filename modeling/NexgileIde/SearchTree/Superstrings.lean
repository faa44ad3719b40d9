import NexgileIde.SearchTree.OccupiedPaths
import NexgileIde.SearchTree.SearchTreeRun

/-!
# Deleting what extends a key

`deleteSuperstr` empties the node of its key: what is below it, and its siblings, which have other
keys. Without siblings it removes the keys that extend the key and no others, and the levels stay
balanced.
-/

namespace NexgileIde.SearchTree

open TernarySearchTreeNode TernarySearchTree Text

variable {K S V : Type}

section Alter

/-- A change of the node of a key as a recursion over the tree; no value when there is no node. -/
def alter (f : Node K S V → Option (Node K S V)) : Node K S V → Position S → List (Position S) →
    Option (Option (Node K S V))
  | empty, _, _ => none
  | node h s v k l m r, p, rest =>
    if p.cmp s > 0 then
      (alter f l p rest).map fun t => t.bind fun t => balanceHeavy (node h s v k t m r)
    else if p.cmp s < 0 then
      (alter f r p rest).map fun t => t.bind fun t => balanceHeavy (node h s v k l m t)
    else
      match rest with
      | q :: rest =>
        (alter f m q rest).map fun t => t.bind fun t => balanceHeavy (node h s v k l t r)
      | [] => some (f (node h s v k l m r))

theorem find_alter (f : Node K S V → Option (Node K S V)) (t : Node K S V) (p : Position S)
    (rest : List (Position S)) (stack : Stack K S V) :
    ((find t p rest stack).map fun (stack, n) => (f n).bind (balanceByStack stack)) =
      (alter f t p rest).map fun t => t.bind (balanceByStack stack) := by
  induction t generalizing p rest stack with
  | empty => rfl
  | node h s v k l m r ihl ihm ihr =>
    unfold find alter
    dsimp only
    split_ifs
    · rw [ihl, Option.map_map]
      simp only [balanceByStack, setChild, Function.comp_def, Option.bind_eq_bind,
        Option.bind_assoc]
    · rw [ihr, Option.map_map]
      simp only [balanceByStack, setChild, Function.comp_def, Option.bind_eq_bind,
        Option.bind_assoc]
    · cases rest with
      | nil => rfl
      | cons q rest =>
        dsimp only
        rw [ihm, Option.map_map]
        simp only [balanceByStack, setChild, Function.comp_def, Option.bind_eq_bind,
          Option.bind_assoc]

theorem deleteSuperstr_eq (truthy : K → Bool) (root : Node K S V) (p : Position S)
    (rest : List (Position S)) :
    TernarySearchTree.deleteSuperstr truthy p rest root =
      (alter (fun n => removeNode truthy n.removeChildren) root p rest).getD (some root) := by
  have h : _ = (alter (fun n => removeNode truthy n.removeChildren) root p rest).map
    fun t => t.bind some := find_alter _ root p rest []
  rw [TernarySearchTree.deleteSuperstr]
  cases hf : find root p rest [] with
  | none =>
    rw [hf, Option.map_none, eq_comm, Option.map_eq_none_iff] at h
    rw [h]
    rfl
  | some walk =>
    rw [hf] at h
    cases he : alter (fun n => removeNode truthy n.removeChildren) root p rest with
    | none => simp [he] at h
    | some t => simpa [he] using h

end Alter

variable [LinearOrder S]

/-- The map of `t'` is that of `t` without the sequences that properly extend one. -/
structure Cut (t t' : Node K S V) (path : List S) : Prop where
  level : ∀ P, AllLevel P t → AllLevel P t'
  ordered : Ordered t'
  lookup : ∀ bs, lookup t' bs = if path <+: bs ∧ bs ≠ path then none else lookup t bs

namespace Cut

variable {h : ℕ} {s a : S} {v : Option V} {k : Option K} {l m r t t' t'' : Node K S V}
  {as : List S}

theorem balanceHeavy (hc : Cut t t' as) (hn : balanceHeavy t' = some t'') : Cut t t'' as where
  level P hP := ((Same.balanceHeavy hn).level P).mpr (hc.level P hP)
  ordered := (Same.balanceHeavy hn).ordered hc.ordered
  lookup bs := ((Same.balanceHeavy hn).lookup hc.ordered bs).trans (hc.lookup bs)

theorem left (ht : Ordered (node h s v k l m r)) (hlt : a < s) (hc : Cut l t (a :: as)) :
    Cut (node h s v k l m r) (node h s v k t m r) (a :: as) where
  level P hP := ⟨hP.1, hc.level P hP.2.1, hP.2.2⟩
  ordered := ⟨hc.level _ ht.1, ht.2.1, hc.ordered, ht.2.2.2⟩
  lookup := by
    rintro (_ | ⟨b, bs⟩)
    · simp
    · rcases lt_trichotomy b s with hb | rfl | hb
      · rw [lookup_left hb, lookup_left hb, hc.lookup]
      · rw [if_neg (by simp [hlt.ne])]
        cases bs <;> simp [lookup_here, lookup_mid]
      · rw [if_neg (by simp [(hlt.trans hb).ne]), lookup_right hb, lookup_right hb]

theorem right (ht : Ordered (node h s v k l m r)) (hlt : s < a) (hc : Cut r t (a :: as)) :
    Cut (node h s v k l m r) (node h s v k l m t) (a :: as) where
  level P hP := ⟨hP.1, hP.2.1, hc.level P hP.2.2⟩
  ordered := ⟨ht.1, hc.level _ ht.2.1, ht.2.2.1, ht.2.2.2.1, hc.ordered⟩
  lookup := by
    rintro (_ | ⟨b, bs⟩)
    · simp
    · rcases lt_trichotomy b s with hb | rfl | hb
      · rw [if_neg (by simp [(hb.trans hlt).ne']), lookup_left hb, lookup_left hb]
      · rw [if_neg (by simp [hlt.ne'])]
        cases bs <;> simp [lookup_here, lookup_mid]
      · rw [lookup_right hb, lookup_right hb, hc.lookup]

theorem mid (ht : Ordered (node h s v k l m r)) (hc : Cut m t (a :: as)) :
    Cut (node h s v k l m r) (node h s v k l t r) (s :: a :: as) where
  level P hP := hP
  ordered := ⟨ht.1, ht.2.1, ht.2.2.1, hc.ordered, ht.2.2.2.2⟩
  lookup := by
    rintro (_ | ⟨b, bs⟩)
    · simp
    · rcases lt_trichotomy b s with hb | rfl | hb
      · rw [if_neg (by simp [hb.ne']), lookup_left hb, lookup_left hb]
      · cases bs with
        | nil => simp [lookup_here]
        | cons c cs => simp [lookup_mid, hc.lookup]
      · rw [if_neg (by simp [hb.ne]), lookup_right hb, lookup_right hb]

/-- A node without siblings that keeps its element -/
theorem here (ht : Ordered (node h s v k empty m empty)) :
    Cut (node h s v k empty m empty) (node 1 s v k empty empty empty) [s] where
  level P hP := hP
  ordered := ⟨ht.1, ht.2.1, ht.2.2.1, trivial, ht.2.2.2.2⟩
  lookup := by
    rintro (_ | ⟨b, bs⟩)
    · simp
    · rcases lt_trichotomy b s with hb | rfl | hb
      · rw [if_neg (by simp [hb.ne']), lookup_left hb, lookup_left hb]
      · cases bs with
        | nil => simp [lookup_here]
        | cons c cs => simp [lookup_mid]
      · rw [if_neg (by simp [hb.ne]), lookup_right hb, lookup_right hb]

/-- A node without siblings and without an element -/
theorem gone : Cut (node h s none k empty m empty) (empty : Node K S V) [s] where
  level _ _ := trivial
  ordered := trivial
  lookup := by
    rintro (_ | ⟨b, bs⟩)
    · simp
    · rcases lt_trichotomy b s with hb | rfl | hb
      · rw [if_neg (by simp [hb.ne']), lookup_left hb]
      · cases bs with
        | nil => simp [lookup_here]
        | cons c cs => simp
      · rw [if_neg (by simp [hb.ne]), lookup_right hb]

theorem of_lookup_none (ht : Ordered t) (hnone : ∀ bs, as <+: bs → SearchTree.lookup t bs = none) :
    Cut t t as where
  level _ hP := hP
  ordered := ht
  lookup bs := by
    split_ifs with hbs
    · exact hnone bs hbs.1
    · rfl

end Cut

section Superstr

variable {truthy : K → Bool} {t : Node K S V} {p : Position S} {rest : List (Position S)}

/-- The node, if there is one, has no siblings in the tree of its level below it. -/
def hasNoSiblings (n : Node K S V) : Bool := n.left.isUndefined && n.right.isUndefined

theorem alter_cut {o : Option (Node K S V)} (hb : Balanced t) (hord : Ordered t)
    (hp : ∀ q ∈ p :: rest, q.Exact) (halone : hasNoSiblings (getNode t p rest) = true)
    (ho : alter (fun n => removeNode truthy n.removeChildren) t p rest = some o) :
    ∃ t', o = some t' ∧ Erased t t' ∧ Cut t t' (path p rest) := by
  induction t generalizing p rest o with
  | empty => cases ho
  | node h s v k l m r ihl ihm ihr =>
    obtain ⟨hgt, hlt⟩ := hp p (by simp) s
    obtain ⟨hh, hlr, hrl, hl, hm, hr⟩ := id hb
    unfold alter at ho
    unfold getNode at halone
    dsimp only at halone
    split_ifs at ho halone with h1 h2
    · rw [Option.map_eq_some_iff] at ho
      obtain ⟨o', ho', rfl⟩ := ho
      obtain ⟨t, rfl, he, hc⟩ := ihl hl hord.2.2.1 hp halone ho'
      obtain ⟨n, hn, hn'⟩ := balanceHeavy_left hb he
      exact ⟨n, hn, hn', (Cut.left hord (hgt.mp h1) hc).balanceHeavy hn⟩
    · rw [Option.map_eq_some_iff] at ho
      obtain ⟨o', ho', rfl⟩ := ho
      obtain ⟨t, rfl, he, hc⟩ := ihr hr hord.2.2.2.2 hp halone ho'
      obtain ⟨n, hn, hn'⟩ := balanceHeavy_right hb he
      exact ⟨n, hn, hn', (Cut.right hord (hlt.mp h2) hc).balanceHeavy hn⟩
    · obtain rfl := cmp_eq_of_not (hp p (by simp)) h1 h2
      cases rest with
      | nil =>
        cases l with
        | node => simp [hasNoSiblings, left, isUndefined] at halone
        | empty =>
          cases r with
          | node => simp [hasNoSiblings, right, isUndefined] at halone
          | empty =>
            cases ho
            rw [height_empty] at hh
            cases v with
            | none => exact ⟨empty, rfl, ⟨trivial, by simp, by simp [hh]⟩, .gone⟩
            | some v =>
              refine ⟨_, rfl, ⟨by simp [Balanced], ?_, ?_⟩, .here hord⟩ <;> simp [hh]
      | cons q rest =>
        dsimp only at ho
        rw [Option.map_eq_some_iff] at ho
        obtain ⟨o', ho', rfl⟩ := ho
        have hq := fun x hx => hp x (List.mem_cons_of_mem _ hx)
        obtain ⟨t, rfl, he, hc⟩ := ihm hm hord.2.2.2.1 hq halone ho'
        obtain ⟨n, hn, hn'⟩ := balanceHeavy_mid hb he.balanced
        exact ⟨n, hn, hn', (Cut.mid hord hc).balanceHeavy hn⟩

theorem alter_eq_none {f : Node K S V → Option (Node K S V)} (hp : ∀ q ∈ p :: rest, q.Exact)
    (ht : alter f t p rest = none) (cs : List S) : lookup t (path p rest ++ cs) = none := by
  induction t generalizing p rest with
  | empty => rfl
  | node h s v k l m r ihl ihm ihr =>
    obtain ⟨hgt, hlt⟩ := hp p (by simp) s
    unfold alter at ht
    split_ifs at ht with h1 h2
    · rw [path, List.cons_append, lookup_left (hgt.mp h1)]
      exact ihl hp (by simpa using ht)
    · rw [path, List.cons_append, lookup_right (hlt.mp h2)]
      exact ihr hp (by simpa using ht)
    · obtain rfl := cmp_eq_of_not (hp p (by simp)) h1 h2
      cases rest with
      | nil => cases ht
      | cons q rest =>
        have := ihm (fun x hx => hp x (List.mem_cons_of_mem _ hx)) (by simpa using ht)
        rwa [path, List.map_cons, List.cons_append, List.cons_append, lookup_mid]

/-- Where the node of the key has no siblings, `deleteSuperstr` returns, and deletes the extensions of
the key. -/
theorem deleteSuperstr_cut (hb : Balanced t) (hord : Ordered t) (hp : ∀ q ∈ p :: rest, q.Exact)
    (halone : hasNoSiblings (getNode t p rest) = true) :
    ∃ t', TernarySearchTree.deleteSuperstr truthy p rest t = some t' ∧ Balanced t' ∧
      Cut t t' (path p rest) := by
  rw [deleteSuperstr_eq]
  cases ho : alter (fun n => removeNode truthy n.removeChildren) t p rest with
  | none =>
    refine ⟨t, rfl, hb, .of_lookup_none hord ?_⟩
    rintro bs ⟨cs, rfl⟩
    exact alter_eq_none hp ho cs
  | some o =>
    obtain ⟨t', rfl, he, hc⟩ := alter_cut hb hord hp halone ho
    exact ⟨t', rfl, he.balanced, hc⟩

end Superstr

/-- A change of a tree by its user, `deleteSuperstr` included. -/
inductive Change (K V : Type)
  | op (op : Op K V)
  | deleteSuperstr (key : K)
  deriving DecidableEq, Repr

namespace KeyIterator

variable (iter : KeyIterator K S)

def change (root : Node K S V) : Change K V → Option (Node K S V)
  | .op op => iter.step root op
  | .deleteSuperstr key => iter.deleteSuperstr root key

/-- The tree after the changes; none when one of them throws or does not return. -/
def runChanges (changes : List (Change K V)) : Option (Node K S V) :=
  changes.foldlM iter.change .empty

end KeyIterator

section Run

variable {iter : KeyIterator K S}

/-- What a run keeps: the levels are balanced and ordered, and entries are at the segments of their
keys. -/
structure Kept (iter : KeyIterator K S) (t : Node K S V) : Prop where
  balanced : Balanced t
  ordered : Ordered t
  key : ∀ as e, lookup t as = some e → ∃ key, e.1 = some key ∧ iter.segments key = as

/-- The node that a `deleteSuperstr` empties has no siblings. -/
def Alone (iter : KeyIterator K S) (t : Node K S V) : Change K V → Prop
  | .op _ => True
  | .deleteSuperstr key =>
    hasNoSiblings (getNode t (iter.positions key).1 (iter.positions key).2) = true

def RunAlone (iter : KeyIterator K S) (changes : List (Change K V)) : Prop :=
  ∀ before c after t, changes = before ++ c :: after → iter.runChanges before = some t →
    Alone iter t c

theorem kept_empty (iter : KeyIterator K S) : Kept iter (empty : Node K S V) where
  balanced := trivial
  ordered := trivial
  key _ _ h := by cases h

theorem Kept.op {t : Node K S V} (h : Kept iter t) (hexact : iter.Exact) (op : Op K V) :
    ∃ t', iter.step t op = some t' ∧ Kept iter t' := by
  cases op with
  | set key element =>
    have hp := exact_positions hexact key
    obtain ⟨t', d, ht, hi⟩ := insert_balanced key element h.balanced fun q hq => (hp q hq).cmp_self
    have hu := insert_updated hp h.ordered ht
    refine ⟨t', ?_, hi.balanced, hu.ordered, ?_⟩
    · have hset := set_eq key element t (iter.positions key).1 (iter.positions key).2
      rw [ht] at hset
      exact hset
    · intro as e he
      rw [hu.lookup] at he
      split_ifs at he with heq
      · cases he
        exact ⟨key, rfl, heq.symm⟩
      · exact h.key as e he
  | delete key =>
    have hdelete := delete_eq iter.truthy t (iter.positions key).1 (iter.positions key).2
    cases ho : erase iter.truthy t (iter.positions key).1 (iter.positions key).2 with
    | none =>
      rw [ho] at hdelete
      exact ⟨t, hdelete, h⟩
    | some o =>
      obtain ⟨t', rfl, hi⟩ := erase_balanced h.balanced ho
      rw [ho] at hdelete
      have hs := erase_shrunk h.ordered ho
      exact ⟨t', hdelete, hi.balanced, hs.ordered, fun as e he => h.key as e (hs.entries as e he)⟩

theorem Kept.deleteSuperstr {t : Node K S V} (h : Kept iter t) (hexact : iter.Exact) {key : K}
    (halone : Alone iter t (.deleteSuperstr key)) :
    ∃ t', iter.deleteSuperstr t key = some t' ∧ Kept iter t' ∧ Cut t t' (iter.segments key) := by
  have hcut : ∃ t', iter.deleteSuperstr t key = some t' ∧ Balanced t' ∧
      Cut t t' (iter.segments key) :=
    deleteSuperstr_cut h.balanced h.ordered (exact_positions hexact key) halone
  obtain ⟨t', ht, hb, hc⟩ := hcut
  refine ⟨t', ht, ⟨hb, hc.ordered, fun as e he => ?_⟩, hc⟩
  rw [hc.lookup] at he
  split_ifs at he
  exact h.key as e he

omit [LinearOrder S] in
theorem runChanges_append_singleton (changes : List (Change K V)) (c : Change K V) :
    iter.runChanges (changes ++ [c]) = (iter.runChanges changes).bind fun t => iter.change t c := by
  simp [KeyIterator.runChanges, List.foldlM_append]

theorem runChanges_kept (hexact : iter.Exact) (changes : List (Change K V))
    (halone : RunAlone iter changes) : ∃ t, iter.runChanges changes = some t ∧ Kept iter t := by
  induction changes using List.reverseRecOn with
  | nil => exact ⟨.empty, rfl, kept_empty iter⟩
  | append_singleton changes c ih =>
    obtain ⟨t, ht, hkept⟩ := ih fun before c' after t' heq =>
      halone before c' (after ++ [c]) t' (by simp [heq])
    rw [runChanges_append_singleton, ht, Option.bind_some]
    cases c with
    | op op => exact hkept.op hexact op
    | deleteSuperstr key =>
      obtain ⟨t', ht', hkept', -⟩ := hkept.deleteSuperstr hexact (halone changes _ [] t rfl ht)
      exact ⟨t', ht', hkept'⟩

end Run

/-- The entries of the second tree are those of the first but for the proper extensions of a
key. -/
structure SuperstrDeleted (iter : KeyIterator K S) (t t' : Node K S V) (key : K) : Prop where
  entries : ∀ key' element, (some key', element) ∈ entries t' ↔
    (some key', element) ∈ entries t ∧
      ¬ (iter.segments key <+: iter.segments key' ∧ iter.segments key' ≠ iter.segments key)
  get : ∀ key', iter.get t' key' =
    if iter.segments key <+: iter.segments key' ∧ iter.segments key' ≠ iter.segments key then none
    else iter.get t key'

theorem Kept.mem_entries {iter : KeyIterator K S} {t : Node K S V} (h : Kept iter t) {key : K}
    {element : V} : (some key, element) ∈ entries t ↔
      lookup t (iter.segments key) = some (some key, element) := by
  rw [entries_eq, List.mem_map]
  constructor
  · rintro ⟨⟨as, e⟩, he, rfl⟩
    have hlookup := (mem_pathEntries h.ordered).mp he
    obtain ⟨key', hkey, rfl⟩ := h.key as _ hlookup
    cases hkey
    exact hlookup
  · intro hlookup
    exact ⟨(iter.segments key, some key, element), (mem_pathEntries h.ordered).mpr hlookup, rfl⟩

theorem Cut.superstrDeleted {iter : KeyIterator K S} {t t' : Node K S V} {key : K}
    (hexact : iter.Exact) (h : Kept iter t) (h' : Kept iter t')
    (hc : Cut t t' (iter.segments key)) : SuperstrDeleted iter t t' key where
  entries key' element := by
    rw [h'.mem_entries, h.mem_entries, hc.lookup]
    split_ifs with hextends
    · simp [hextends]
    · simp [hextends]
  get key' := by
    have hget : ∀ t : Node K S V, iter.get t key' =
        (SearchTree.lookup t (iter.segments key')).map Prod.snd := fun t =>
      getNode_lookup (exact_positions hexact key')
    rw [hget, hget, hc.lookup]
    split_ifs <;> rfl

section Runs

/-- `a` and `ab`, and what extends `a` is deleted. -/
def aloneChanges : List (Change Str ℕ) :=
  [.op (.set [97] 1), .op (.set [97, 98] 2), .deleteSuperstr [97]]

theorem runAlone_aloneChanges : RunAlone forStrings aloneChanges := by
  intro before c after t heq ht
  rcases before with _ | ⟨a, _ | ⟨b, _ | ⟨c, before⟩⟩⟩ <;>
    simp only [aloneChanges, List.nil_append, List.cons_append, List.cons.injEq, reduceCtorEq,
      and_false, List.nil_eq, List.append_eq_nil_iff] at heq
  · obtain ⟨rfl, rfl⟩ := heq
    trivial
  · obtain ⟨rfl, rfl, rfl⟩ := heq
    trivial
  · obtain ⟨rfl, rfl, rfl, -⟩ := heq
    have hcheck : (forStrings.runChanges (aloneChanges.take 2)).map (fun t => hasNoSiblings
        (getNode t (forStrings.positions [97]).1 (forStrings.positions [97]).2)) = some true := by
      decide
    have ht' : forStrings.runChanges (aloneChanges.take 2) = some t := ht
    rw [ht', Option.map_some, Option.some.injEq] at hcheck
    exact hcheck

end Runs

end NexgileIde.SearchTree
