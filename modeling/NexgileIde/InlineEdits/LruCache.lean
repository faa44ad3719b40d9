import NexgileIde.Library.RecencyList

/-!
# The cache that forgets what was used longest ago

The list of nodes between the sentinels, from the head to the tail, with a map from the keys
to the nodes.
-/
namespace NexgileIde.InlineEdits

open Library

structure LRUCache (K V : Type) where
  capacity : ℕ
  nodes : List (K × V)

namespace LRUCache

variable {K V : Type} [DecidableEq K]

def new (size : ℕ) : LRUCache K V := ⟨size, []⟩

/-- `this._cache.get(key)` -/
def node (cache : LRUCache K V) (key : K) : Option V :=
  (cache.nodes.find? fun entry => entry.1 = key).map Prod.snd

def clear (cache : LRUCache K V) : LRUCache K V := { cache with nodes := [] }

def deleteKey (cache : LRUCache K V) (key : K) : LRUCache K V :=
  { cache with nodes := Recency.remove cache.nodes key }

def get (cache : LRUCache K V) (key : K) : Option V × LRUCache K V :=
  match cache.node key with
  | none => (none, cache)
  | some value => (some value, { cache with nodes := Recency.write cache.nodes key value })

/-- The cache and the entry that was evicted. -/
def put (cache : LRUCache K V) (key : K) (value : V) : LRUCache K V × Option (K × V) :=
  match cache.node key with
  | some _ => ({ cache with nodes := Recency.write cache.nodes key value }, none)
  | none =>
    let nodes := (key, value) :: cache.nodes
    if nodes.length > cache.capacity then
      ({ cache with nodes := nodes.dropLast }, nodes.getLast?)
    else ({ cache with nodes }, none)

/-- The keys are different and no more than there is room for. -/
structure Bounded (cache : LRUCache K V) : Prop where
  keys : Recency.Keys cache.nodes
  length_le : cache.nodes.length ≤ cache.capacity

variable {cache : LRUCache K V} {key : K} {value : V}

theorem mem_of_node (h : cache.node key = some value) : (key, value) ∈ cache.nodes := by
  unfold node at h
  obtain ⟨entry, hfind, rfl⟩ := Option.map_eq_some_iff.1 h
  have hkey : entry.1 = key := by simpa using List.find?_some hfind
  have hmem := List.mem_of_find?_eq_some hfind
  rw [← hkey]
  exact hmem

theorem ne_of_node (h : cache.node key = none) : ∀ entry ∈ cache.nodes, entry.1 ≠ key := by
  unfold node at h
  simpa using h

theorem Bounded.node_of_mem (h : cache.Bounded) (hmem : (key, value) ∈ cache.nodes) :
    cache.node key = some value := by
  cases hnode : cache.node key with
  | none => exact absurd rfl (ne_of_node hnode _ hmem)
  | some value' =>
    have heq := h.keys.eq (mem_of_node hnode) hmem rfl
    rw [(Prod.mk.inj heq).2]

theorem mem_write {nodes : List (K × V)} {entry : K × V} :
    entry ∈ Recency.write nodes key value ↔
      entry = (key, value) ∨ entry ∈ nodes ∧ entry.1 ≠ key := by
  rw [Recency.write, List.mem_cons, Recency.mem_remove]

theorem keys_write {nodes : List (K × V)} (h : Recency.Keys nodes) :
    Recency.Keys (Recency.write nodes key value) := by
  unfold Recency.Keys Recency.write
  rw [List.map_cons, List.nodup_cons]
  refine ⟨fun hmem => ?_, h.sublist (List.filter_sublist.map _)⟩
  obtain ⟨entry, hentry, rfl⟩ := List.mem_map.1 hmem
  exact (Recency.mem_remove.1 hentry).2 rfl

/-- Writing a key that is there does not need more room. -/
theorem length_write (h : cache.node key = some value) (value' : V) :
    (Recency.write cache.nodes key value').length ≤ cache.nodes.length := by
  have hmem := mem_of_node h
  unfold Recency.write Recency.remove
  rw [List.length_cons]
  exact List.length_filter_lt_length_iff_exists.2 ⟨_, hmem, by simp⟩

theorem Bounded.deleteKey (h : cache.Bounded) (key : K) : (cache.deleteKey key).Bounded where
  keys := h.keys.sublist (List.filter_sublist.map _)
  length_le := (List.length_filter_le ..).trans h.length_le

theorem Bounded.get (h : cache.Bounded) (key : K) : (cache.get key).2.Bounded ∧
    (∀ entry, entry ∈ (cache.get key).2.nodes ↔ entry ∈ cache.nodes) ∧
      (cache.get key).1 = cache.node key := by
  unfold LRUCache.get
  cases hnode : cache.node key with
  | none => exact ⟨h, fun _ => Iff.rfl, rfl⟩
  | some value =>
    have hmem := mem_of_node hnode
    refine ⟨⟨keys_write h.keys, (length_write hnode value).trans h.length_le⟩, fun entry => ?_, rfl⟩
    rw [mem_write]
    constructor
    · rintro (rfl | ⟨hentry, -⟩)
      · exact hmem
      · exact hentry
    · intro hentry
      by_cases hkey : entry.1 = key
      · exact .inl (h.keys.eq hentry hmem hkey)
      · exact .inr ⟨hentry, hkey⟩

/-- What is in the cache after an entry was put, and what was evicted. -/
theorem Bounded.put (h : cache.Bounded) (hcapacity : 0 < cache.capacity) (key : K) (value : V) :
    (cache.put key value).1.Bounded ∧
      (∀ entry, entry ∈ (cache.put key value).1.nodes ↔
        (entry = (key, value) ∨ entry ∈ cache.nodes ∧ entry.1 ≠ key) ∧
          (cache.put key value).2 ≠ some entry) ∧
      ∀ evicted, (cache.put key value).2 = some evicted →
        evicted ∈ cache.nodes ∧ evicted.1 ≠ key := by
  unfold LRUCache.put
  cases hnode : cache.node key with
  | some old =>
    refine ⟨⟨keys_write h.keys, (length_write hnode value).trans h.length_le⟩, fun entry => ?_, nofun⟩
    simp [mem_write]
  | none =>
    have hfresh := ne_of_node hnode
    have hall : Recency.Keys ((key, value) :: cache.nodes) := by
      have hwrite : Recency.Keys (Recency.write cache.nodes key value) := keys_write h.keys
      rwa [Recency.write, Recency.remove_eq_self hfresh] at hwrite
    have hmem : ∀ entry, entry ∈ (key, value) :: cache.nodes ↔
        entry = (key, value) ∨ entry ∈ cache.nodes ∧ entry.1 ≠ key := by
      intro entry
      rw [List.mem_cons]
      exact or_congr_right ⟨fun hentry => ⟨hentry, hfresh entry hentry⟩, And.left⟩
    dsimp only
    split
    · next hfull =>
      obtain ⟨last, hlast⟩ : ∃ last, ((key, value) :: cache.nodes).getLast? = some last :=
        Option.isSome_iff_exists.1 (by simp)
      have hnodes : last ∈ cache.nodes := by
        cases hcache : cache.nodes with
        | nil =>
          rw [hcache] at hfull
          simp only [List.length_singleton, gt_iff_lt] at hfull
          omega
        | cons entry entries =>
          rw [hcache, List.getLast?_cons_cons] at hlast
          exact List.mem_of_getLast? hlast
      have hsplit := List.dropLast_append_getLast? last hlast
      generalize hrest : ((key, value) :: cache.nodes).dropLast = rest at hsplit ⊢
      rw [← hsplit] at hall
      have hremoved := hall.remove_last
      have hlength := congrArg List.length hsplit
      have hle := h.length_le
      rw [hlast]
      refine ⟨⟨hall.sublist ?_, ?_⟩, fun entry => ?_, fun evicted hevicted => ?_⟩
      · exact (List.sublist_append_left rest [last]).map _
      · simp only [List.length_append, List.length_cons, List.length_nil] at hlength
        dsimp only
        omega
      · have hrest : entry ∈ rest ↔ entry ∈ rest ++ [last] ∧ entry.1 ≠ last.1 := by
          conv_lhs => rw [← hremoved]
          exact Recency.mem_remove
        rw [← hmem, ← hsplit]
        dsimp only
        rw [hrest]
        refine and_congr_right fun hentry => not_congr ⟨fun hkey => ?_, fun heq => ?_⟩
        · rw [hall.eq hentry (by simp) hkey]
        · rw [Option.some.inj heq]
      · cases hevicted
        exact ⟨hnodes, hfresh last hnodes⟩
    · next hroom =>
      refine ⟨⟨hall, Nat.le_of_not_gt hroom⟩, fun entry => ?_, nofun⟩
      simp only [ne_eq, reduceCtorEq, not_false_eq_true, and_true]
      exact hmem entry

end LRUCache

end NexgileIde.InlineEdits
