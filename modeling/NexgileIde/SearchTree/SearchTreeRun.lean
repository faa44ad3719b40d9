import NexgileIde.SearchTree.SearchTreeReaders

/-!
# Runs of a search tree

The abstract tree is a map from sequences of segments to the entry that was set last.
Every run of `set` and `delete` ends in a tree with that map, as long as no `delete` puts a
min-node in the place of a full node and leaves behind what is below the min-node.
-/

namespace NexgileIde.SearchTree

open TernarySearchTreeNode TernarySearchTree Text

variable {K S V : Type} [LinearOrder S]

/-- All comparisons of an iterator are those of its segments. -/
def KeyIterator.Exact (iter : KeyIterator K S) : Prop := ∀ s, (iter.position s).Exact

/-- The live entries by the segments of their keys. -/
abbrev LiveMap (K S V : Type) := List S → Option (K × V)

def liveStep (iter : KeyIterator K S) (live : LiveMap K S V) : Op K V → LiveMap K S V
  | .set key element => Function.update live (iter.segments key) (some (key, element))
  | .delete key => Function.update live (iter.segments key) none

/-- What was set last and not deleted since. -/
def liveAfter (iter : KeyIterator K S) (ops : List (Op K V)) : LiveMap K S V :=
  ops.foldl (liveStep iter) fun _ => none

/-- The step does not meet the defect of `delete`. -/
def Keeps (iter : KeyIterator K S) (t : Node K S V) : Op K V → Prop
  | .set _ _ => True
  | .delete key =>
    losesSubtree iter.truthy (getNode t (iter.positions key).1 (iter.positions key).2) = false

/-- The entries are listed once each, by the order of their segments. -/
structure Lists (iter : KeyIterator K S) (es : List (Option K × V)) (P : K → V → Prop) : Prop where
  sorted : ∃ entries : List (K × V), es = entries.map (fun e => (some e.1, e.2)) ∧
    entries.Pairwise fun e f => iter.segments e.1 < iter.segments f.1
  mem : ∀ key element, (some key, element) ∈ es ↔ P key element

/-- The readers answer as the map. -/
structure IsMap (iter : KeyIterator K S) (t : Node K S V) (live : LiveMap K S V) : Prop where
  get : ∀ key, iter.get t key = (live (iter.segments key)).map Prod.snd
  iteration : Lists iter (entries t) fun key element =>
    live (iter.segments key) = some (key, element)
  findSuperstr : ∀ prefixKey, Lists iter ((iter.findSuperstr t prefixKey).getD [])
    fun key element => live (iter.segments key) = some (key, element) ∧
      iter.segments prefixKey <+: iter.segments key ∧
      iter.segments key ≠ iter.segments prefixKey
  findSubstr : ∀ key,
    iter.findSubstr t key = (longestPrefix live (iter.segments key)).map Prod.snd

/-- The invariant of a run. -/
structure Mirrors (iter : KeyIterator K S) (t : Node K S V) (live : LiveMap K S V) : Prop where
  balanced : Balanced t
  ordered : Ordered t
  lookup : ∀ as, lookup t as = (live as).map fun e => (some e.1, e.2)
  key : ∀ as key element, live as = some (key, element) → iter.segments key = as

section Positions

variable {iter : KeyIterator K S}

theorem exact_positionsAfter (h : iter.Exact) (n : ℕ) (s : iter.State) :
    ∀ q ∈ iter.positionsAfter n s, q.Exact := by
  induction n generalizing s with
  | zero => simp [KeyIterator.positionsAfter]
  | succ n ih =>
    rw [KeyIterator.positionsAfter]
    split_ifs
    · simpa using ⟨h _, ih _⟩
    · simp

theorem exact_positions (h : iter.Exact) (key : K) :
    ∀ q ∈ (iter.positions key).1 :: (iter.positions key).2, q.Exact := by
  simpa [KeyIterator.positions] using ⟨h _, exact_positionsAfter h _ _⟩

omit [LinearOrder S] in
theorem segments_eq (key : K) :
    iter.segments key = path (iter.positions key).1 (iter.positions key).2 := rfl

end Positions

namespace Mirrors

variable {iter : KeyIterator K S} {t : Node K S V} {live : LiveMap K S V}

theorem empty (iter : KeyIterator K S) :
    Mirrors iter (.empty : Node K S V) fun _ => none where
  balanced := trivial
  ordered := trivial
  lookup _ := rfl
  key _ _ _ h := by cases h

theorem of_updated {t' : Node K S V} (h : Mirrors iter t live) (key : K)
    (e : Option (K × V)) (he : ∀ k v, e = some (k, v) → k = key) (hb : Balanced t')
    (hu : Updated t t' (iter.positions key).1.value
      ((iter.positions key).2.map Position.value) (e.map fun e => (some e.1, e.2))) :
    Mirrors iter t' (Function.update live (iter.segments key) e) where
  balanced := hb
  ordered := hu.ordered
  lookup as := by
    rw [hu.lookup, Function.update_apply, segments_eq]
    split_ifs
    · rfl
    · exact h.lookup as
  key as k v hk := by
    rw [Function.update_apply] at hk
    split_ifs at hk with heq
    · rw [he k v hk, heq]
    · exact h.key as k v hk

theorem step (hexact : iter.Exact) (h : Mirrors iter t live) {op : Op K V}
    (hkeeps : Keeps iter t op) :
    ∃ t', iter.step t op = some t' ∧ Mirrors iter t' (liveStep iter live op) := by
  cases op with
  | set key element =>
    have hp := exact_positions hexact key
    obtain ⟨t', d, ht, hi⟩ := insert_balanced key element h.balanced fun q hq => (hp q hq).cmp_self
    refine ⟨t', ?_, ?_⟩
    · have hset := set_eq key element t (iter.positions key).1 (iter.positions key).2
      rw [ht] at hset
      exact hset
    · have hu := insert_updated hp h.ordered ht
      exact h.of_updated key (some (key, element)) (by rintro k v ⟨⟩; rfl) hi.balanced hu
  | delete key =>
    have hp := exact_positions hexact key
    have hdel := delete_eq iter.truthy t (iter.positions key).1 (iter.positions key).2
    cases he : erase iter.truthy t (iter.positions key).1 (iter.positions key).2 with
    | none =>
      rw [he] at hdel
      refine ⟨t, hdel, ?_⟩
      have hnone := erase_eq_none hp he
      have hlive : live (iter.segments key) = none := by
        have := h.lookup (iter.segments key)
        rwa [segments_eq, hnone, ← segments_eq, eq_comm, Option.map_eq_none_iff] at this
      have hsame : liveStep iter live (.delete key) = live := by
        rw [liveStep, ← hlive, Function.update_eq_self]
      rw [hsame]
      exact h
    | some o =>
      obtain ⟨t', rfl, hi⟩ := erase_balanced h.balanced he
      rw [he] at hdel
      have hu := erase_updated hp h.ordered hkeeps he
      exact ⟨t', hdel, h.of_updated key none (by rintro k v ⟨⟩) hi.balanced hu⟩

theorem lookup_eq_some (h : Mirrors iter t live) {as : List S} {e : Option K × V} :
    SearchTree.lookup t as = some e ↔ ∃ key element, e = (some key, element) ∧
      live as = some (key, element) := by
  rw [h.lookup, Option.map_eq_some_iff]
  constructor
  · rintro ⟨⟨key, element⟩, hl, rfl⟩
    exact ⟨key, element, rfl, hl⟩
  · rintro ⟨key, element, rfl, hl⟩
    exact ⟨(key, element), hl, rfl⟩

theorem append_lt_append (pre : List S) {as bs : List S} (h : as < bs) :
    pre ++ as < pre ++ bs := by
  induction pre with
  | nil => exact h
  | cons a pre ih => exact List.cons_lt_cons_iff.mpr (.inr ⟨rfl, ih⟩)

/-- A list of entries with their segments, in order, lists what it contains. -/
theorem lists (h : Mirrors iter t live) (pre : List S) {es : List (List S × Option K × V)}
    {P : K → V → Prop} (hsorted : es.Pairwise fun e f => e.1 < f.1)
    (hmem : ∀ e ∈ es, SearchTree.lookup t (pre ++ e.1) = some e.2)
    (hP : ∀ key element, P key element ↔
      ∃ as, (as, (some key, element)) ∈ es) : Lists iter (es.map Prod.snd) P where
  sorted := by
    clear hP
    induction es with
    | nil => exact ⟨[], rfl, .nil⟩
    | cons e es ih =>
      simp only [List.pairwise_cons, List.forall_mem_cons] at hsorted hmem
      obtain ⟨key, element, he, hl⟩ := h.lookup_eq_some.mp hmem.1
      obtain ⟨entries, heq, hpw⟩ := ih hsorted.2 hmem.2
      refine ⟨(key, element) :: entries, by simp [he, heq], ?_⟩
      rw [List.pairwise_cons]
      refine ⟨?_, hpw⟩
      rintro ⟨key', element'⟩ hf
      have hf' : (some key', element') ∈ es.map Prod.snd := by
        rw [heq]
        exact List.mem_map_of_mem hf
      obtain ⟨⟨bs, f⟩, hfes, hfeq⟩ := List.mem_map.mp hf'
      obtain ⟨key'', element'', hf'', hl''⟩ := h.lookup_eq_some.mp (hmem.2 _ hfes)
      have hlt := hsorted.1 _ hfes
      obtain rfl : key' = key'' := by
        dsimp only at hfeq hf''
        rw [hfeq] at hf''
        simpa using congrArg Prod.fst hf''
      rw [h.key _ _ _ hl, h.key _ _ _ hl'']
      exact append_lt_append pre hlt
  mem key element := by
    rw [hP]
    simp

theorem get (hexact : iter.Exact) (h : Mirrors iter t live) (key : K) :
    iter.get t key = (live (iter.segments key)).map Prod.snd := by
  have hnode := getNode_lookup (t := t) (exact_positions hexact key)
  rw [← segments_eq, h.lookup, Option.map_map] at hnode
  exact hnode

theorem iteration (h : Mirrors iter t live) :
    Lists iter (entries t) fun key element =>
      live (iter.segments key) = some (key, element) := by
  rw [entries_eq]
  refine h.lists [] (pathEntries_sorted h.ordered) ?_ ?_
  · rintro ⟨as, e⟩ he
    exact (mem_pathEntries h.ordered).mp he
  · intro key element
    simp only [mem_pathEntries h.ordered, h.lookup_eq_some, Prod.mk.injEq, Option.some.injEq]
    constructor
    · intro hl
      exact ⟨_, key, element, ⟨rfl, rfl⟩, hl⟩
    · rintro ⟨as, _, _, ⟨rfl, rfl⟩, hl⟩
      rwa [h.key _ _ _ hl]

theorem findSuperstr (hexact : iter.Exact) (h : Mirrors iter t live) (prefixKey : K) :
    Lists iter ((iter.findSuperstr t prefixKey).getD []) fun key element =>
      live (iter.segments key) = some (key, element) ∧
        iter.segments prefixKey <+: iter.segments key ∧
        iter.segments key ≠ iter.segments prefixKey := by
  have hp := exact_positions hexact prefixKey
  have hord := getNode_ordered h.ordered (iter.positions prefixKey).1 (iter.positions prefixKey).2
  have hmid : Ordered (getNode t (iter.positions prefixKey).1 (iter.positions prefixKey).2).mid := by
    cases hn : getNode t (iter.positions prefixKey).1 (iter.positions prefixKey).2 with
    | empty => trivial
    | node =>
      rw [hn] at hord
      exact hord.2.2.2.1
  have hentries : (iter.findSuperstr t prefixKey).getD [] =
      entries (getNode t (iter.positions prefixKey).1 (iter.positions prefixKey).2).mid := by
    simp only [KeyIterator.findSuperstr, TernarySearchTree.findSuperstr]
    split <;> simp_all [entries]
  have hlookup : ∀ as e, as ≠ [] →
      (SearchTree.lookup (getNode t (iter.positions prefixKey).1
        (iter.positions prefixKey).2).mid as = some e ↔
        SearchTree.lookup t (iter.segments prefixKey ++ as) = some e) := by
    intro as e hne
    obtain ⟨a, as, rfl⟩ := List.exists_cons_of_ne_nil hne
    rw [lookup_getNode_mid hp, segments_eq]
  rw [hentries, entries_eq]
  refine h.lists (iter.segments prefixKey) (pathEntries_sorted hmid) ?_ ?_
  · rintro ⟨as, e⟩ he
    exact (hlookup as e (pathEntries_ne_nil he)).mp ((mem_pathEntries hmid).mp he)
  · intro key element
    constructor
    · rintro ⟨hl, ⟨as, has⟩, hne⟩
      have hnil : as ≠ [] := by
        rintro rfl
        exact hne (by simpa using has.symm)
      refine ⟨as, (mem_pathEntries hmid).mpr ((hlookup as _ hnil).mpr ?_)⟩
      rw [has]
      exact h.lookup_eq_some.mpr ⟨key, element, rfl, hl⟩
    · rintro ⟨as, he⟩
      have hnil := pathEntries_ne_nil he
      have hl := (hlookup as _ hnil).mp ((mem_pathEntries hmid).mp he)
      obtain ⟨key', element', heq, hl⟩ := h.lookup_eq_some.mp hl
      cases heq
      have hkey := h.key _ _ _ hl
      refine ⟨by rw [hkey, hl], ⟨as, hkey.symm⟩, ?_⟩
      rw [hkey]
      simpa using hnil

theorem findSubstr (hexact : iter.Exact) (h : Mirrors iter t live) (key : K) :
    iter.findSubstr t key = (longestPrefix live (iter.segments key)).map Prod.snd := by
  have hspec := findSubstrFrom_spec (t := t) (exact_positions hexact key) none
  rw [← segments_eq, Option.or_none] at hspec
  refine Eq.trans hspec ?_
  have hfun : SearchTree.lookup t = fun as => (live as).map fun e => (some e.1, e.2) :=
    funext h.lookup
  rw [hfun, longestPrefix, longestPrefix, List.map_findSome?, List.map_findSome?]
  simp [Function.comp_def]

theorem isMap (hexact : iter.Exact) (h : Mirrors iter t live) : IsMap iter t live where
  get := h.get hexact
  iteration := h.iteration
  findSuperstr := h.findSuperstr hexact
  findSubstr := h.findSubstr hexact

end Mirrors

section Run

variable {iter : KeyIterator K S}

/-- Every step is outside the defect of `delete`. -/
def RunKeeps (iter : KeyIterator K S) (ops : List (Op K V)) : Prop :=
  ∀ before op after t, ops = before ++ op :: after → iter.run before = some t → Keeps iter t op

omit [LinearOrder S] in
theorem run_append_singleton (ops : List (Op K V)) (op : Op K V) :
    iter.run (ops ++ [op]) = (iter.run ops).bind fun t => iter.step t op := by
  simp [KeyIterator.run, List.foldlM_append]

theorem run_mirrors (hexact : iter.Exact) (ops : List (Op K V)) (hkeeps : RunKeeps iter ops) :
    ∃ t, iter.run ops = some t ∧ Mirrors iter t (liveAfter iter ops) := by
  induction ops using List.reverseRecOn with
  | nil => exact ⟨.empty, rfl, .empty iter⟩
  | append_singleton ops op ih =>
    obtain ⟨t, ht, hm⟩ := ih fun before op' after t' heq =>
      hkeeps before op' (after ++ [op]) t' (by simp [heq])
    obtain ⟨t', hstep, hm'⟩ := hm.step hexact (hkeeps ops op [] t rfl ht)
    refine ⟨t', ?_, ?_⟩
    · rw [run_append_singleton, ht]
      exact hstep
    · rw [liveAfter, List.foldl_append]
      exact hm'

end Run

section Iterators

theorem exact_forStrings : forStrings.Exact := by
  intro s a
  simp only [forStrings, KeyIterator.position, StringIterator, UInt16.lt_iff_toNat_lt]
  omega

theorem exact_of_caseSensitive (toLowerCase : Str → Str) (s : SegmentState) :
    (⟨s.segment, s.cmp toLowerCase true⟩ : Position Str).Exact := by
  intro a
  have hcmp : s.cmp toLowerCase true a = compareUnits a s.segment := by
    simp [SegmentState.cmp, compareSubstring, SegmentState.segment, substring]
  have := compareUnits_spec a s.segment
  dsimp only
  rw [hcmp]
  exact ⟨this.2, this.1⟩

theorem exact_forPaths (toLowerCase : Str → Str) : (forPaths toLowerCase false).Exact :=
  exact_of_caseSensitive toLowerCase

theorem exact_forConfigKeys (toLowerCase : Str → Str) : (forConfigKeys toLowerCase).Exact :=
  exact_of_caseSensitive toLowerCase

end Iterators

/-- In every run without a lossy `delete` the trees for paths, strings and configuration keys
are maps from segments to values. -/
theorem tree_is_map {V : Type} (toLowerCase : Str → Str) :
    (∀ ops : List (Op Str V), RunKeeps (forPaths toLowerCase false) ops →
      ∃ t, (forPaths toLowerCase false).run ops = some t ∧
        IsMap (forPaths toLowerCase false) t (liveAfter (forPaths toLowerCase false) ops)) ∧
    (∀ ops : List (Op Str V), RunKeeps forStrings ops →
      ∃ t, forStrings.run ops = some t ∧ IsMap forStrings t (liveAfter forStrings ops)) ∧
    (∀ ops : List (Op Str V), RunKeeps (forConfigKeys toLowerCase) ops →
      ∃ t, (forConfigKeys toLowerCase).run ops = some t ∧
        IsMap (forConfigKeys toLowerCase) t (liveAfter (forConfigKeys toLowerCase) ops)) := by
  refine ⟨?_, ?_, ?_⟩
  · intro ops hkeeps
    obtain ⟨t, ht, hm⟩ := run_mirrors (exact_forPaths toLowerCase) ops hkeeps
    exact ⟨t, ht, hm.isMap (exact_forPaths toLowerCase)⟩
  · intro ops hkeeps
    obtain ⟨t, ht, hm⟩ := run_mirrors exact_forStrings ops hkeeps
    exact ⟨t, ht, hm.isMap exact_forStrings⟩
  · intro ops hkeeps
    obtain ⟨t, ht, hm⟩ := run_mirrors (exact_forConfigKeys toLowerCase) ops hkeeps
    exact ⟨t, ht, hm.isMap (exact_forConfigKeys toLowerCase)⟩

/-- `b`, `a`, `c`, and `b` is deleted: nothing is below `c`, which takes its place. -/
def plainOps : List (Op Str ℕ) := [.set [98] 1, .set [97] 2, .set [99] 3, .delete [98]]

theorem runKeeps_plainOps : RunKeeps forStrings plainOps := by
  intro before op after t heq ht
  rcases before with _ | ⟨a, _ | ⟨b, _ | ⟨c, _ | ⟨d, before⟩⟩⟩⟩ <;>
    simp only [plainOps, List.nil_append, List.cons_append, List.cons.injEq, reduceCtorEq,
      and_false, List.nil_eq, List.append_eq_nil_iff] at heq
  · obtain ⟨rfl, rfl⟩ := heq
    trivial
  · obtain ⟨rfl, rfl, rfl⟩ := heq
    trivial
  · obtain ⟨rfl, rfl, rfl, rfl⟩ := heq
    trivial
  · obtain ⟨rfl, rfl, rfl, rfl, -⟩ := heq
    have hcheck : (forStrings.run (plainOps.take 3)).map (fun t => losesSubtree forStrings.truthy
        (getNode t (forStrings.positions [98]).1 (forStrings.positions [98]).2)) = some false := by
      decide
    have ht' : forStrings.run (plainOps.take 3) = some t := ht
    rw [ht', Option.map_some, Option.some.injEq] at hcheck
    exact hcheck

theorem tree_is_map_plainOps :
    ∃ t, forStrings.run plainOps = some t ∧
      IsMap forStrings t (liveAfter forStrings plainOps) :=
  (tree_is_map id).2.1 plainOps runKeeps_plainOps

/-- `b`, `a`, `c`, `cd`, and `b` is deleted: `c` takes its place, and `cd` is gone. -/
def lossyOps : List (Op Str ℕ) :=
  [.set [98] 1, .set [97] 2, .set [99] 3, .set [99, 100] 4, .delete [98]]

theorem tree_is_not_map :
    ¬ ∃ t, forStrings.run lossyOps = some t ∧
      IsMap forStrings t (liveAfter forStrings lossyOps) := by
  rintro ⟨t, ht, hmap⟩
  have hget : (forStrings.run lossyOps).map (fun t => forStrings.get t [99, 100]) = some none := by
    decide
  have hlive : (liveAfter forStrings lossyOps (forStrings.segments [99, 100])).map Prod.snd =
      some 4 := by decide
  rw [ht, Option.map_some, hmap.get, hlive] at hget
  cases hget

end NexgileIde.SearchTree
