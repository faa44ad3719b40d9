import NexgileIde.SearchTree.SearchTreeMap

/-!
# What the readers return

`get`, `findSubstr`, `findSuperstr` and the iteration, each by the map of the tree.
-/

namespace NexgileIde.SearchTree

open TernarySearchTreeNode TernarySearchTree

variable {K S V : Type} [LinearOrder S]

section GetNode

theorem getNode_lookup {t : Node K S V} {p : Position S} {rest : List (Position S)}
    (hp : ∀ q ∈ p :: rest, q.Exact) :
    (getNode t p rest).value = (lookup t (path p rest)).map Prod.snd := by
  induction t generalizing p rest with
  | empty => rfl
  | node h s v k l m r ihl ihm ihr =>
    obtain ⟨hgt, hlt⟩ := hp p (by simp) s
    unfold getNode
    dsimp only
    split_ifs with h1 h2
    · rw [lookup_left (hgt.mp h1)]
      exact ihl hp
    · rw [lookup_right (hlt.mp h2)]
      exact ihr hp
    · obtain rfl := cmp_eq_of_not (hp p (by simp)) h1 h2
      cases rest with
      | nil => simp [path, lookup_here, value, Function.comp_def]
      | cons q rest =>
        rw [path, List.map_cons, lookup_mid]
        exact ihm (fun x hx => hp x (List.mem_cons_of_mem _ hx))

theorem getNode_ordered {t : Node K S V} (ht : Ordered t) (p : Position S)
    (rest : List (Position S)) : Ordered (getNode t p rest) := by
  induction t generalizing p rest with
  | empty => trivial
  | node h s v k l m r ihl ihm ihr =>
    unfold getNode
    dsimp only
    split_ifs
    · exact ihl ht.2.2.1 p rest
    · exact ihr ht.2.2.2.2 p rest
    · cases rest with
      | nil => exact ht
      | cons q rest => exact ihm ht.2.2.2.1 q rest

/-- Below the node of a key are the entries of its extensions. -/
theorem lookup_getNode_mid {t : Node K S V} {p : Position S} {rest : List (Position S)}
    (hp : ∀ q ∈ p :: rest, q.Exact) (a : S) (as : List S) :
    lookup (getNode t p rest).mid (a :: as) = lookup t (path p rest ++ a :: as) := by
  induction t generalizing p rest with
  | empty => rfl
  | node h s v k l m r ihl ihm ihr =>
    obtain ⟨hgt, hlt⟩ := hp p (by simp) s
    unfold getNode
    dsimp only
    split_ifs with h1 h2
    · rw [path, List.cons_append, lookup_left (hgt.mp h1)]
      exact ihl hp
    · rw [path, List.cons_append, lookup_right (hlt.mp h2)]
      exact ihr hp
    · obtain rfl := cmp_eq_of_not (hp p (by simp)) h1 h2
      cases rest with
      | nil => exact lookup_mid.symm
      | cons q rest =>
        rw [path, List.map_cons, List.cons_append, List.cons_append, lookup_mid]
        exact ihm (fun x hx => hp x (List.mem_cons_of_mem _ hx))

end GetNode

section Longest

/-- The value of `f` at the longest prefix that has one. -/
def longestPrefix {β : Type} (f : List S → Option β) (as : List S) : Option β :=
  as.inits.reverse.findSome? f

omit [LinearOrder S] in
theorem longestPrefix_cons {β : Type} (f : List S → Option β) (a : S) (as : List S) :
    longestPrefix f (a :: as) = (longestPrefix (fun bs => f (a :: bs)) as).or (f []) := by
  simp only [longestPrefix, List.inits_cons, List.reverse_cons, List.findSome?_append,
    ← List.map_reverse, List.findSome?_map]
  congr 1
  cases h : f [] <;> simp [h]

theorem longestPrefix_left {h : ℕ} {s a : S} {v : Option V} {k : Option K} {l m r : Node K S V}
    (as : List S) (ha : a < s) :
    longestPrefix (lookup (node h s v k l m r)) (a :: as) = longestPrefix (lookup l) (a :: as) := by
  simp only [longestPrefix_cons, lookup_left ha, lookup_nil]

theorem longestPrefix_right {h : ℕ} {s a : S} {v : Option V} {k : Option K} {l m r : Node K S V}
    (as : List S) (ha : s < a) :
    longestPrefix (lookup (node h s v k l m r)) (a :: as) = longestPrefix (lookup r) (a :: as) := by
  simp only [longestPrefix_cons, lookup_right ha, lookup_nil]

theorem longestPrefix_here {h : ℕ} {s a : S} {v : Option V} {k : Option K} {l m r : Node K S V}
    (as : List S) :
    longestPrefix (lookup (node h s v k l m r)) (s :: a :: as) =
      (longestPrefix (lookup m) (a :: as)).or (v.map fun v => (k, v)) := by
  simp only [longestPrefix_cons, lookup_mid, lookup_here, lookup_nil, Option.or_none]

theorem findSubstrFrom_spec {t : Node K S V} {p : Position S} {rest : List (Position S)}
    (hp : ∀ q ∈ p :: rest, q.Exact) (candidate : Option V) :
    findSubstrFrom candidate t p rest =
      ((longestPrefix (lookup t) (path p rest)).map Prod.snd).or candidate := by
  induction t generalizing p rest candidate with
  | empty =>
    have hnone : longestPrefix (lookup (empty : Node K S V)) (path p rest) = none := by
      simp [longestPrefix, List.findSome?_eq_none_iff]
    rw [hnone]
    rfl
  | node h s v k l m r ihl ihm ihr =>
    obtain ⟨hgt, hlt⟩ := hp p (by simp) s
    unfold findSubstrFrom
    dsimp only
    split_ifs with h1 h2
    · rw [path, longestPrefix_left _ (hgt.mp h1)]
      exact ihl hp candidate
    · rw [path, longestPrefix_right _ (hlt.mp h2)]
      exact ihr hp candidate
    · obtain rfl := cmp_eq_of_not (hp p (by simp)) h1 h2
      cases rest with
      | nil =>
        rw [path, List.map_nil, longestPrefix_cons]
        cases v <;> simp [longestPrefix, lookup_here]
      | cons q rest =>
        rw [path, List.map_cons, longestPrefix_here, Option.map_or, Option.or_assoc]
        have ih := ihm (fun x hx => hp x (List.mem_cons_of_mem _ hx)) (v.or candidate)
        dsimp only
        rw [ih]
        cases v <;> rfl

end Longest

section Entries

section

omit [LinearOrder S]

/-- The entries with the segments on the way to them. -/
def pathEntries : Node K S V → List (List S × Option K × V)
  | empty => []
  | node _ s v k l m r =>
    pathEntries l ++ (v.map fun v => ([s], k, v)).toList ++
      (pathEntries m).map (fun e => (s :: e.1, e.2)) ++ pathEntries r

theorem pathEntries_node (h : ℕ) (s : S) (v : Option V) (k : Option K) (l m r : Node K S V) :
    pathEntries (node h s v k l m r) =
      pathEntries l ++ (v.map fun v => ([s], k, v)).toList ++
        (pathEntries m).map (fun e => (s :: e.1, e.2)) ++ pathEntries r := rfl

theorem mem_pathEntries_node {h : ℕ} {s : S} {v : Option V} {k : Option K} {l m r : Node K S V}
    {as : List S} {e : Option K × V} :
    (as, e) ∈ pathEntries (node h s v k l m r) ↔
      (as, e) ∈ pathEntries l ∨ (as = [s] ∧ v.map (fun v => (k, v)) = some e) ∨
        (∃ bs, as = s :: bs ∧ (bs, e) ∈ pathEntries m) ∨ (as, e) ∈ pathEntries r := by
  simp only [pathEntries_node, List.mem_append, List.mem_map, Option.mem_toList,
    Option.map_eq_some_iff, Prod.mk.injEq, Prod.exists, or_assoc]
  grind

theorem entries_eq (t : Node K S V) : entries t = (pathEntries t).map Prod.snd := by
  induction t with
  | empty => rfl
  | node h s v k l m r ihl ihm ihr =>
    rw [pathEntries_node]
    unfold entries
    cases v <;> simp [ihl, ihm, ihr, Function.comp_def]

theorem AllLevel.pathEntries {P : S → Prop} {t : Node K S V} (ht : AllLevel P t)
    {as : List S} {e : Option K × V} (he : (as, e) ∈ pathEntries t) :
    ∃ a bs, as = a :: bs ∧ P a := by
  induction t with
  | empty => cases he
  | node h s v k l m r ihl ihm ihr =>
    rcases mem_pathEntries_node.mp he with he | ⟨rfl, -⟩ | ⟨bs, rfl, -⟩ | he
    · exact ihl ht.2.1 he
    · exact ⟨s, [], rfl, ht.1⟩
    · exact ⟨s, bs, rfl, ht.1⟩
    · exact ihr ht.2.2 he

theorem pathEntries_ne_nil {t : Node K S V} {as : List S} {e : Option K × V}
    (he : (as, e) ∈ pathEntries t) : as ≠ [] := by
  induction t with
  | empty => cases he
  | node h s v k l m r ihl ihm ihr =>
    rcases mem_pathEntries_node.mp he with he | ⟨rfl, -⟩ | ⟨bs, rfl, -⟩ | he
    · exact ihl he
    · simp
    · simp
    · exact ihr he

end

/-- The iteration meets each entry of the map. -/
theorem mem_pathEntries {t : Node K S V} (ht : Ordered t) {as : List S} {e : Option K × V} :
    (as, e) ∈ pathEntries t ↔ lookup t as = some e := by
  induction t generalizing as with
  | empty =>
    constructor
    · intro he
      cases he
    · intro he
      cases he
  | node h s v k l m r ihl ihm ihr =>
    obtain ⟨h1, h2, h3, h4, h5⟩ := ht
    have hl : ∀ {a bs}, (a :: bs, e) ∈ pathEntries l → a < s := by
      intro a bs he
      obtain ⟨b, cs, heq, hb⟩ := h1.pathEntries he
      cases heq
      exact hb
    have hr : ∀ {a bs}, (a :: bs, e) ∈ pathEntries r → s < a := by
      intro a bs he
      obtain ⟨b, cs, heq, hb⟩ := h2.pathEntries he
      cases heq
      exact hb
    rw [mem_pathEntries_node]
    rcases as with _ | ⟨a, as⟩
    · have hn : ∀ t : Node K S V, ([], e) ∉ pathEntries t := fun t he => pathEntries_ne_nil he rfl
      simp [hn]
    rcases lt_trichotomy a s with hlt | rfl | hlt
    · rw [lookup_left hlt, ← ihl h3]
      have : (a :: as, e) ∉ pathEntries r := fun he => hlt.not_gt (hr he)
      simp [this, hlt.ne]
    · have hl' : (a :: as, e) ∉ pathEntries l := fun he => lt_irrefl a (hl he)
      have hr' : (a :: as, e) ∉ pathEntries r := fun he => lt_irrefl a (hr he)
      cases as with
      | nil =>
        have hn : ([], e) ∉ pathEntries m := fun he => pathEntries_ne_nil he rfl
        simp [hl', hr', hn, lookup_here]
      | cons b bs => simp [hl', hr', lookup_mid, ihm h4]
    · rw [lookup_right hlt, ← ihr h5]
      have : (a :: as, e) ∉ pathEntries l := fun he => hlt.not_gt (hl he)
      simp [this, hlt.ne']

/-- The iteration goes by the order of segments. -/
theorem pathEntries_sorted {t : Node K S V} (ht : Ordered t) :
    (pathEntries t).Pairwise fun e f => e.1 < f.1 := by
  induction t with
  | empty => exact .nil
  | node h s v k l m r ihl ihm ihr =>
    obtain ⟨h1, h2, h3, h4, h5⟩ := ht
    have hl : ∀ e ∈ pathEntries l, ∀ as, e.1 < s :: as := by
      rintro ⟨_, e⟩ he as
      obtain ⟨a, bs, rfl, ha⟩ := h1.pathEntries he
      exact List.cons_lt_cons_iff.mpr (.inl ha)
    have hr : ∀ e ∈ pathEntries r, ∀ a as, a ≤ s → a :: as < e.1 := by
      rintro ⟨_, e⟩ he a as ha
      obtain ⟨b, bs, rfl, hb⟩ := h2.pathEntries he
      exact List.cons_lt_cons_iff.mpr (.inl (ha.trans_lt hb))
    rw [pathEntries_node, List.pairwise_append, List.pairwise_append, List.pairwise_append]
    refine ⟨⟨⟨ihl h3, ?_, ?_⟩, ?_, ?_⟩, ihr h5, ?_⟩
    · cases v <;> simp
    · intro e he f hf
      obtain ⟨w, -, rfl⟩ := by simpa using hf
      exact hl e he []
    · rw [List.pairwise_map]
      refine (ihm h4).imp fun {e f} hef => ?_
      exact List.cons_lt_cons_iff.mpr (.inr ⟨rfl, hef⟩)
    · intro e he f hf
      obtain ⟨⟨bs, g⟩, hg, rfl⟩ := List.mem_map.mp hf
      rcases List.mem_append.mp he with he | he
      · exact hl e he bs
      · obtain ⟨w, -, rfl⟩ := by simpa using he
        obtain ⟨b, cs, rfl⟩ := List.exists_cons_of_ne_nil (pathEntries_ne_nil hg)
        exact List.cons_lt_cons_iff.mpr (.inr ⟨rfl, List.nil_lt_cons b cs⟩)
    · intro e he f hf
      rcases List.mem_append.mp he with he | he
      · rcases List.mem_append.mp he with he | he
        · obtain ⟨as, e⟩ := e
          obtain ⟨a, bs, rfl, ha⟩ := h1.pathEntries he
          exact hr f hf a bs ha.le
        · obtain ⟨w, -, rfl⟩ := by simpa using he
          exact hr f hf s [] le_rfl
      · obtain ⟨g, -, rfl⟩ := List.mem_map.mp he
        exact hr f hf s g.1 le_rfl

end Entries

end NexgileIde.SearchTree
