import NexgileIde.SearchTree.OccupiedPaths
import NexgileIde.SearchTree.SearchTreeRun

/-!
# Stale nodes

`has` and `hasElementOrSubtree` take a node with something below it for content. `delete` removes
one node, and leaves those above it where they are, so that a chain of nodes may be left with no
element below it.
-/

namespace NexgileIde.SearchTree

open TernarySearchTreeNode TernarySearchTree Text

variable {K S V : Type} [LinearOrder S]

section Queries

variable {t : Node K S V} {p : Position S} {rest : List (Position S)}

omit [LinearOrder S] in
theorem getNode_filled (t : Node K S V) (p : Position S) (rest : List (Position S)) :
    getNode (filled t) p rest = filled (getNode t p rest) := by
  induction t generalizing p rest with
  | empty => rfl
  | node h s v k l m r ihl ihm ihr =>
    rw [filled_node]
    unfold getNode
    dsimp only
    split_ifs
    · exact ihl p rest
    · exact ihr p rest
    · cases rest with
      | nil => rfl
      | cons q rest => exact ihm q rest

theorem isUndefined_eq_false (t : Node K S V) :
    t.isUndefined = false ↔ ∃ b, Occupied t [b] := by
  cases t with
  | empty => simp [isUndefined]
  | node h s v k l m r => exact ⟨fun _ => ⟨s, occupied_here⟩, fun _ => rfl⟩

theorem getNode_mid (hp : ∀ q ∈ p :: rest, q.Exact) :
    (getNode t p rest).mid.isUndefined = false ↔ ∃ b, Occupied t (path p rest ++ [b]) := by
  have hmid : filled (getNode t p rest).mid = (getNode (filled t) p rest).mid := by
    rw [getNode_filled]
    cases getNode t p rest <;> rfl
  simp only [isUndefined_eq_false, Occupied, hmid, lookup_getNode_mid hp]

/-- There is an element at a node, or there is a node below it. -/
theorem has_iff (hp : ∀ q ∈ p :: rest, q.Exact) :
    TernarySearchTree.has t p rest = true ↔
      (lookup t (path p rest)).isSome ∨ ∃ b, Occupied t (path p rest ++ [b]) := by
  rw [← getNode_mid hp]
  have hvalue := getNode_lookup (t := t) hp
  unfold TernarySearchTree.has
  dsimp only
  rw [hvalue]
  cases lookup t (path p rest) <;> simp

omit [LinearOrder S] in
theorem hasElementOrSubtree_eq (t : Node K S V) (p : Position S) (rest : List (Position S)) :
    TernarySearchTree.hasElementOrSubtree t p rest = TernarySearchTree.has t p rest := by
  unfold TernarySearchTree.hasElementOrSubtree findSuperstrOrElement TernarySearchTree.has
  dsimp only
  cases (getNode t p rest).mid with
  | empty => cases (getNode t p rest).value <;> rfl
  | node => simp [isUndefined]

end Queries

/-- Below every node that has nodes below it there is an element. -/
def Clean (t : Node K S V) : Prop :=
  ∀ as b, as ≠ [] → Occupied t (as ++ [b]) →
    ∃ bs, as <+: bs ∧ bs ≠ as ∧ (lookup t bs).isSome

theorem clean_empty : Clean (empty : Node K S V) := by
  intro as b _ hb
  simp at hb

theorem Clean.has_iff {t : Node K S V} (h : Clean t) {p : Position S} {rest : List (Position S)}
    (hp : ∀ q ∈ p :: rest, q.Exact) :
    TernarySearchTree.has t p rest = true ↔
      ∃ bs, path p rest <+: bs ∧ (lookup t bs).isSome := by
  rw [SearchTree.has_iff hp]
  constructor
  · rintro (hvalue | ⟨b, hb⟩)
    · exact ⟨_, List.prefix_refl _, hvalue⟩
    · obtain ⟨bs, hinit, -, hlive⟩ := h _ b (by simp) hb
      exact ⟨bs, hinit, hlive⟩
  · rintro ⟨bs, ⟨cs, rfl⟩, hlive⟩
    cases cs with
    | nil => exact .inl (by simpa using hlive)
    | cons c cs =>
      refine .inr ⟨c, ?_⟩
      have hoccupied := occupied_of_lookup hlive
      rw [List.append_cons] at hoccupied
      exact hoccupied.of_append (by simp)

section Steps

variable {t t' : Node K S V} {p : Position S} {rest : List (Position S)} {key : K} {element : V}

theorem Clean.of_insert {d : Option Dir} (h : Clean t) (hord : Ordered t)
    (hp : ∀ q ∈ p :: rest, q.Exact) (ht : insert key element t p rest = some (t', d)) :
    Clean t' := by
  have hu := insert_updated hp hord ht
  intro as b has hb
  rcases insert_grownAt hp hord ht _ hb with hb | hinit
  · obtain ⟨bs, hbs, hne, hlive⟩ := h as b has hb
    refine ⟨bs, hbs, hne, ?_⟩
    rw [hu.lookup]
    split_ifs
    · rfl
    · exact hlive
  · refine ⟨path p rest, (List.prefix_append as [b]).trans hinit, ?_, ?_⟩
    · rintro heq
      have hlength := hinit.length_le
      rw [heq, List.length_append, List.length_singleton] at hlength
      omega
    · rw [hu.lookup, if_pos rfl]
      rfl

variable {h : ℕ} {s : S} {v : Option V} {k : Option K} {l m r : Node K S V} {truthy : K → Bool}

theorem occupied_mid_of_ne_nil {as : List S} (has : as ≠ []) :
    Occupied (node h s v k l m r) (s :: as) ↔ Occupied m as := by
  obtain ⟨a, as, rfl⟩ := List.exists_cons_of_ne_nil has
  exact occupied_mid

theorem eq_empty_of_not_occupied (ht : ∀ b, ¬ Occupied t [b]) : t = empty := by
  cases t with
  | empty => rfl
  | node h s v k l m r => exact absurd occupied_here (ht s)

theorem occupied_level {b : S} (hl : AllLevel (· < s) l) (hb : Occupied l [b]) : b < s := by
  by_contra hle
  exact not_occupied (hl.mono fun a ha => (ha.trans_le (not_lt.mp hle)).ne) hb

theorem occupied_level' {b : S} (hr : AllLevel (s < ·) r) (hb : Occupied r [b]) : s < b := by
  by_contra hle
  exact not_occupied (hr.mono fun a ha => ((not_lt.mp hle).trans_lt ha).ne') hb

/-- A node with none beside it and none below it goes with its element. -/
theorem erase_alone (hord : Ordered t) (hp : ∀ q ∈ p :: rest, q.Exact)
    (ht : erase truthy t p rest = some (some t'))
    (halone : ∀ b, Occupied t ((path p rest).dropLast ++ [b]) →
      (path p rest).dropLast ++ [b] = path p rest)
    (hleaf : ∀ b, ¬ Occupied t (path p rest ++ [b])) : ¬ Occupied t' (path p rest) := by
  induction t generalizing p rest t' with
  | empty => cases ht
  | node h s v k l m r ihl ihm ihr =>
    obtain ⟨hgt, hlt⟩ := hp p (by simp) s
    unfold erase at ht
    split_ifs at ht with h1 h2
    · simp only [Option.map_eq_some_iff, Option.bind_eq_some_iff] at ht
      obtain ⟨o, ho, child, rfl, hbal⟩ := ht
      have hchild := erase_shrunk hord.2.2.1 ho
      have hps := hgt.mp h1
      rw [occupied_balanceHeavy (hchild.left hord).ordered hbal, occupied_left hps]
      apply ihl hord.2.2.1 hp ho
      · intro b hb
        cases rest with
        | nil =>
          have := halone s occupied_here
          simp only [path, List.map_nil, List.dropLast_singleton, List.nil_append,
            List.cons.injEq, and_true] at this
          exact absurd this hps.ne'
        | cons q rest => exact halone b ((occupied_left hps).mpr hb)
      · exact fun b hb => hleaf b ((occupied_left hps).mpr hb)
    · simp only [Option.map_eq_some_iff, Option.bind_eq_some_iff] at ht
      obtain ⟨o, ho, child, rfl, hbal⟩ := ht
      have hchild := erase_shrunk hord.2.2.2.2 ho
      have hps := hlt.mp h2
      rw [occupied_balanceHeavy (hchild.right hord).ordered hbal, occupied_right hps]
      apply ihr hord.2.2.2.2 hp ho
      · intro b hb
        cases rest with
        | nil =>
          have := halone s occupied_here
          simp only [path, List.map_nil, List.dropLast_singleton, List.nil_append,
            List.cons.injEq, and_true] at this
          exact absurd this hps.ne
        | cons q rest => exact halone b ((occupied_right hps).mpr hb)
      · exact fun b hb => hleaf b ((occupied_right hps).mpr hb)
    · obtain rfl := cmp_eq_of_not (hp p (by simp)) h1 h2
      cases rest with
      | nil =>
        have hl : l = empty := by
          apply eq_empty_of_not_occupied
          intro b hb
          have hlt' := occupied_level hord.1 hb
          have := halone b ((occupied_left hlt').mpr hb)
          simp only [path, List.map_nil, List.dropLast_singleton, List.nil_append,
            List.cons.injEq, and_true] at this
          exact hlt'.ne this
        have hr : r = empty := by
          apply eq_empty_of_not_occupied
          intro b hb
          have hlt' := occupied_level' hord.2.1 hb
          have := halone b ((occupied_right hlt').mpr hb)
          simp only [path, List.map_nil, List.dropLast_singleton, List.nil_append,
            List.cons.injEq, and_true] at this
          exact hlt'.ne' this
        have hm : m = empty :=
          eq_empty_of_not_occupied fun b hb => hleaf b (occupied_mid.mpr hb)
        subst hl hr hm
        cases ht
        exact not_occupied_empty _
      | cons q rest =>
        simp only [Option.map_eq_some_iff, Option.bind_eq_some_iff] at ht
        obtain ⟨o, ho, child, rfl, hbal⟩ := ht
        have hchild := erase_shrunk hord.2.2.2.1 ho
        have hq := fun x hx => hp x (List.mem_cons_of_mem _ hx)
        rw [occupied_balanceHeavy (hchild.mid hord).ordered hbal, path, List.map_cons,
          occupied_mid]
        apply ihm hord.2.2.2.1 hq ho
        · intro b hb
          have := halone b ((occupied_mid_of_ne_nil (by simp)).mpr hb)
          exact (List.cons.inj this).2
        · exact fun b hb => hleaf b ((occupied_mid_of_ne_nil (by simp)).mpr hb)

/-- What is needed of a `delete` of an element: above it there are nodes with other elements below
them only, but for the one right above it, which may have no other node below it. -/
def ClearsAt (t : Node K S V) (path : List S) : Prop :=
  (lookup t path).isSome → ∀ as, as ≠ [] → as <+: path → as ≠ path →
    (∃ bs, as <+: bs ∧ bs ≠ as ∧ bs ≠ path ∧ (lookup t bs).isSome) ∨
      ∀ b, Occupied t (as ++ [b]) → as ++ [b] = path

theorem Clean.of_erase (hclean : Clean t) (hord : Ordered t) (hp : ∀ q ∈ p :: rest, q.Exact)
    (hlose : losesSubtree truthy (getNode t p rest) = false) (hclears : ClearsAt t (path p rest))
    (ht : erase truthy t p rest = some (some t')) : Clean t' := by
  have hu := erase_updated hp hord hlose ht
  have hkept : ∀ bs, bs ≠ path p rest → lookup t' bs = lookup t bs := by
    intro bs hbs
    rw [hu.lookup, if_neg hbs]
  intro as b has hb
  have hbefore := (erase_shrunk hord ht).occupied hb
  obtain ⟨bs, hinit, hne, hlive⟩ := hclean as b has hbefore
  by_cases hbs : bs = path p rest
  · subst hbs
    rcases hclears hlive as has hinit hne.symm with ⟨bs, hinit', hne', hbs, hlive'⟩ | halone
    · exact ⟨bs, hinit', hne', by rwa [hkept bs hbs]⟩
    · have heq := halone b hbefore
      by_cases hleaf : ∀ c, ¬ Occupied t (path p rest ++ [c])
      · have hdrop : (path p rest).dropLast = as := by
          rw [← heq, List.dropLast_concat]
        rw [← hdrop] at halone
        rw [heq] at hb
        exact absurd hb (erase_alone hord hp ht halone hleaf)
      · push Not at hleaf
        obtain ⟨c, hc⟩ := hleaf
        obtain ⟨bs, hinit', hne', hlive'⟩ := hclean _ c (by simp) hc
        refine ⟨bs, hinit.trans hinit', ?_, by rwa [hkept bs hne']⟩
        rintro rfl
        exact hne' (hinit'.eq_of_length_le hinit.length_le).symm
  · exact ⟨bs, hinit, hne, by rwa [hkept bs hbs]⟩

end Steps

section Run

variable {iter : KeyIterator K S}

/-- The step leaves no stale nodes below one another. -/
def Clears (iter : KeyIterator K S) (t : Node K S V) : Op K V → Prop
  | .set _ _ => True
  | .delete key => ClearsAt t (iter.segments key)

def RunClears (iter : KeyIterator K S) (ops : List (Op K V)) : Prop :=
  ∀ before op after t, ops = before ++ op :: after → iter.run before = some t → Clears iter t op

theorem Clean.step {t t' : Node K S V} {op : Op K V} (hclean : Clean t) (hord : Ordered t)
    (hexact : iter.Exact) (hkeeps : Keeps iter t op) (hclears : Clears iter t op)
    (hstep : iter.step t op = some t') : Clean t' := by
  cases op with
  | set key element =>
    have hset := set_eq key element t (iter.positions key).1 (iter.positions key).2
    have hinsert : ((insert key element t (iter.positions key).1 (iter.positions key).2).map
        Prod.fst) = some t' := hset.symm.trans hstep
    rw [Option.map_eq_some_iff] at hinsert
    obtain ⟨⟨t', d⟩, hinsert, rfl⟩ := hinsert
    exact hclean.of_insert hord (exact_positions hexact key) hinsert
  | delete key =>
    have hdelete := delete_eq iter.truthy t (iter.positions key).1 (iter.positions key).2
    have hdelete' : (erase iter.truthy t (iter.positions key).1
        (iter.positions key).2).getD (some t) = some t' := hdelete.symm.trans hstep
    cases herase : erase iter.truthy t (iter.positions key).1
        (iter.positions key).2 with
    | none =>
      rw [herase, Option.getD_none, Option.some.injEq] at hdelete'
      exact hdelete' ▸ hclean
    | some o =>
      rw [herase, Option.getD_some] at hdelete'
      subst hdelete'
      exact hclean.of_erase hord (exact_positions hexact key) hkeeps hclears herase

theorem run_clean (hexact : iter.Exact) (ops : List (Op K V)) (hkeeps : RunKeeps iter ops)
    (hclears : RunClears iter ops) :
    ∃ t, iter.run ops = some t ∧ Mirrors iter t (liveAfter iter ops) ∧ Clean t := by
  induction ops using List.reverseRecOn with
  | nil => exact ⟨.empty, rfl, .empty iter, clean_empty⟩
  | append_singleton ops op ih =>
    obtain ⟨t, ht, hm, hclean⟩ := ih
      (fun before op' after t' heq => hkeeps before op' (after ++ [op]) t' (by simp [heq]))
      (fun before op' after t' heq => hclears before op' (after ++ [op]) t' (by simp [heq]))
    obtain ⟨t', hstep, hm'⟩ := hm.step hexact (hkeeps ops op [] t rfl ht)
    refine ⟨t', ?_, ?_, ?_⟩
    · rw [run_append_singleton, ht]
      exact hstep
    · rw [liveAfter, List.foldl_append]
      exact hm'
    · exact hclean.step hm.ordered hexact (hkeeps ops op [] t rfl ht) (hclears ops op [] t rfl ht)
        hstep

end Run

/-- Some live key equals a key or extends it. -/
def Extended (iter : KeyIterator K S) (live : LiveMap K S V) (key : K) : Prop :=
  ∃ key' element, live (iter.segments key') = some (key', element) ∧
    iter.segments key <+: iter.segments key'

theorem Mirrors.extended_iff {iter : KeyIterator K S} {t : Node K S V} {live : LiveMap K S V}
    (h : Mirrors iter t live) (key : K) :
    Extended iter live key ↔ ∃ bs, iter.segments key <+: bs ∧ (SearchTree.lookup t bs).isSome := by
  constructor
  · rintro ⟨key', element, hlive, hinit⟩
    refine ⟨_, hinit, ?_⟩
    rw [h.lookup, hlive]
    rfl
  · rintro ⟨bs, hinit, hsome⟩
    rw [h.lookup, Option.isSome_map, Option.isSome_iff_exists] at hsome
    obtain ⟨⟨key', element⟩, hlive⟩ := hsome
    obtain rfl := h.key bs key' element hlive
    exact ⟨key', element, hlive, hinit⟩

section Runs

/-- `ab` and `a`, and `ab` is deleted. -/
def clearedOps : List (Op Str ℕ) := [.set [97, 98] 1, .set [97] 2, .delete [97, 98]]

theorem run_clearedOps_two : forStrings.run (clearedOps.take 2) =
    some (node 1 97 (some 2) (some [97]) empty
      (node 1 98 (some 1) (some [97, 98]) empty empty empty) empty) := by
  decide

theorem keeps_clears_clearedOps (before : List (Op Str ℕ)) (op : Op Str ℕ)
    (after : List (Op Str ℕ)) (t : Node Str CodeUnit ℕ) (heq : clearedOps = before ++ op :: after)
    (ht : forStrings.run before = some t) : Keeps forStrings t op ∧ Clears forStrings t op := by
  rcases before with _ | ⟨a, _ | ⟨b, _ | ⟨c, before⟩⟩⟩ <;>
    simp only [clearedOps, List.nil_append, List.cons_append, List.cons.injEq, reduceCtorEq,
      and_false, List.nil_eq, List.append_eq_nil_iff] at heq
  · obtain ⟨rfl, rfl⟩ := heq
    exact ⟨trivial, trivial⟩
  · obtain ⟨rfl, rfl, rfl⟩ := heq
    exact ⟨trivial, trivial⟩
  · obtain ⟨rfl, rfl, rfl, rfl⟩ := heq
    obtain rfl := Option.some.inj (run_clearedOps_two.symm.trans ht)
    refine ⟨?_, ?_⟩
    · unfold Keeps
      decide
    rintro - as has hinit hne
    -- the only node above is that of `a`
    have hsegments : forStrings.segments [97, 98] = [97, 98] := by decide
    rw [hsegments] at hinit hne ⊢
    rcases as with _ | ⟨a, _ | ⟨b, as⟩⟩
    · exact absurd rfl has
    · obtain ⟨rfl, -⟩ := List.cons_prefix_cons.mp hinit
      refine .inr fun b hb => ?_
      rw [List.singleton_append, occupied_mid] at hb
      by_contra hne'
      apply not_occupied _ hb
      refine ⟨?_, trivial, trivial⟩
      rintro rfl
      exact hne' rfl
    · exact absurd (hinit.eq_of_length_le (by simp)) hne

end Runs

end NexgileIde.SearchTree
