import NexgileIde.Caches.LinkedMapRun

/-!
# Runs of linked maps and caches

Every run of a linked map keeps its links, its ends and its inner map in step. A cache trims to a
rounded share of its limit: when that is zero, a new entry is dropped at once, or the list is trimmed to
a negative size and left with one end only. A cache that evicts the oldest entries keeps its list in
the order in which the keys were last touched.
-/

namespace NexgileIde.Caches

open Library

variable {K V : Type} [DecidableEq K]

/-- The links lead through the same items in opposite orders, and these have the keys of the inner
map, each of them once; the size is their number. -/
def Consistent (m : LinkedMap K V) : Prop :=
  ∃ xs : List ℕ, Follows m.next m.head xs ∧ Follows m.previous m.tail xs.reverse ∧
    (xs.filterMap m.key).Nodup ∧ (xs.filterMap m.key).length = xs.length ∧
    (∀ key, m.has key = true ↔ key ∈ xs.filterMap m.key) ∧ m.size = xs.length

section Keys

variable {m m' : LinkedMap K V} {xs : List ℕ} {i : ℕ} {key : K}

/-- The keys in the order of the list -/
def keys (m : LinkedMap K V) (xs : List ℕ) : List K := xs.filterMap m.key

omit [DecidableEq K] in
theorem Holds.mem_keys (h : Holds m xs) : key ∈ keys m xs ↔ ∃ i, m.map key = some i := by
  unfold keys
  rw [List.mem_filterMap]
  simp only [h.map]

omit [DecidableEq K] in
theorem Holds.notMem_keys (h : Holds m xs) (hmap : m.map key = none) : key ∉ keys m xs := by
  intro hmem
  obtain ⟨i, hi⟩ := h.mem_keys.mp hmem
  rw [hmap] at hi
  cases hi

omit [DecidableEq K] in
theorem Holds.has (h : Holds m xs) (key : K) : m.has key = true ↔ key ∈ keys m xs := by
  rw [h.mem_keys, LinkedMap.has, Option.isSome_iff_exists]

omit [DecidableEq K] in
theorem Holds.nodup_keys (h : Holds m xs) : (keys m xs).Nodup := by
  unfold keys
  have hinj : ∀ i ∈ xs, ∀ j ∈ xs, ∀ a ∈ m.key i, a ∈ m.key j → i = j := by
    intro i hi j hj a ha ha'
    exact h.eq_of_key hi hj (ha.trans ha'.symm)
  have hnodup := h.chain.nodup
  clear h
  induction xs with
  | nil => exact .nil
  | cons i xs ih =>
    obtain ⟨hi, hxs⟩ := List.nodup_cons.mp hnodup
    have hrest := ih (fun i hi j hj => hinj i (List.mem_cons_of_mem _ hi) j
      (List.mem_cons_of_mem _ hj)) hxs
    rw [List.filterMap_cons]
    cases hkey : m.key i with
    | none => exact hrest
    | some a =>
      refine List.nodup_cons.mpr ⟨fun hmem => ?_, hrest⟩
      obtain ⟨j, hj, hkeyj⟩ := List.mem_filterMap.mp hmem
      have := hinj i (by simp) j (List.mem_cons_of_mem _ hj) a hkey hkeyj
      exact hi (this ▸ hj)

omit [DecidableEq K] in
theorem Holds.length_keys (h : Holds m xs) : (keys m xs).length = xs.length :=
  List.filterMap_length_eq_length.mpr h.items

omit [DecidableEq K] in
theorem Holds.consistent (h : Holds m xs) : Consistent m := by
  exact ⟨xs, h.chain.follows.1, h.chain.follows.2, h.nodup_keys, h.length_keys, h.has, h.size⟩

omit [DecidableEq K] in
theorem keys_congr (h : ∀ i ∈ xs, m'.key i = m.key i) : keys m' xs = keys m xs :=
  List.filterMap_congr h

omit [DecidableEq K] in
theorem key_of_items (h : m'.items = m.items) : m'.key = m.key := by
  funext i
  unfold LinkedMap.key
  rw [h]

end Keys

section Maps

theorem step_holds {m : LinkedMap K V} {xs : List ℕ} (h : Holds m xs) (op : MapOp K V) :
    ∃ m' xs', m.step op = some m' ∧ Holds m' xs' := by
  cases op with
  | set key value touch =>
    obtain ⟨m', hm', hm, -⟩ := set_holds h key value touch
    exact ⟨m', _, hm', hm⟩
  | get key touch =>
    obtain ⟨value, m', hm', -, hm⟩ := get_holds h key touch
    rw [LinkedMap.step, hm']
    exact ⟨m', _, rfl, hm⟩
  | remove key =>
    obtain ⟨value, m', hm', -, hm⟩ := remove_holds h key
    rw [LinkedMap.step, hm']
    exact ⟨m', _, rfl, hm⟩
  | shift =>
    obtain ⟨value, m', hm', -, hm⟩ := shift_holds h
    rw [LinkedMap.step, hm']
    exact ⟨m', _, rfl, hm⟩
  | clear => exact ⟨m.clear, [], rfl, holds_clear m⟩

theorem run_holds (ops : List (MapOp K V)) :
    ∃ m xs, LinkedMap.run ops = some m ∧ Holds m xs := by
  induction ops using List.reverseRecOn with
  | nil => exact ⟨.new, [], rfl, holds_new⟩
  | append_singleton ops op ih =>
    obtain ⟨m, xs, hrun, h⟩ := ih
    obtain ⟨m', xs', hstep, h'⟩ := step_holds h op
    refine ⟨m', xs', ?_, h'⟩
    unfold LinkedMap.run at hrun ⊢
    rw [List.foldlM_append, hrun]
    simpa using hstep

end Maps

section Keyed

/-- The map holds a list of items with these keys. -/
def Keyed (m : LinkedMap K V) (ks : List K) : Prop := ∃ xs, Holds m xs ∧ keys m xs = ks

variable {m : LinkedMap K V} {xs : List ℕ} {ks : List K} {i : ℕ} {key : K}

omit [DecidableEq K] in
theorem keys_drop (h : ∀ i ∈ xs, (m.key i).isSome) (n : ℕ) :
    keys m (xs.drop n) = (keys m xs).drop n := by
  unfold keys
  induction xs generalizing n with
  | nil => simp
  | cons i xs ih =>
    obtain ⟨key, hkey⟩ := Option.isSome_iff_exists.mp (h i (by simp))
    rw [List.filterMap_cons_some hkey]
    cases n with
    | zero =>
      rw [List.drop_zero, List.drop_zero, List.filterMap_cons_some hkey]
    | succ n =>
      rw [List.drop_succ_cons, List.drop_succ_cons]
      exact ih (fun j hj => h j (List.mem_cons_of_mem i hj)) n

omit [DecidableEq K] in
theorem keys_take (h : ∀ i ∈ xs, (m.key i).isSome) (n : ℕ) :
    keys m (xs.take n) = (keys m xs).take n := by
  unfold keys
  induction xs generalizing n with
  | nil => simp
  | cons i xs ih =>
    obtain ⟨key, hkey⟩ := Option.isSome_iff_exists.mp (h i (by simp))
    rw [List.filterMap_cons_some hkey]
    cases n with
    | zero => rfl
    | succ n =>
      rw [List.take_succ_cons, List.take_succ_cons, List.filterMap_cons_some hkey,
        ih fun j hj => h j (List.mem_cons_of_mem i hj)]

theorem Holds.keys_erase (h : Holds m xs) (hi : i ∈ xs) (hkey : m.key i = some key) :
    keys m (xs.erase i) = (keys m xs).erase key := by
  obtain ⟨as, bs, rfl⟩ := List.append_of_mem hi
  have hnot := notMem_of_nodup h.chain.nodup
  have hnodup := h.nodup_keys
  unfold keys at *
  rw [List.erase_append_right _ (fun hmem => hnot (by simp [hmem])), List.erase_cons_head]
  simp only [List.filterMap_append, List.filterMap_cons_some hkey] at hnodup ⊢
  have hkeys := (List.nodup_cons.mp (List.nodup_middle.mp hnodup)).1
  rw [List.mem_append, not_or] at hkeys
  rw [List.erase_append_right _ hkeys.1, List.erase_cons_head]

/-- The keys after an item is touched -/
def touchedKeys (ks : List K) (key : K) : Touch → List K
  | .none => ks
  | .asOld => key :: ks.erase key
  | .asNew => ks.erase key ++ [key]

theorem Holds.keys_touched (h : Holds m xs) (hi : i ∈ xs) (hkey : m.key i = some key)
    (touch : Touch) : keys m (touched xs i touch) = touchedKeys (keys m xs) key touch := by
  cases touch with
  | none => rfl
  | asOld =>
    unfold touched touchedKeys
    rw [← h.keys_erase hi hkey]
    exact List.filterMap_cons_some hkey
  | asNew =>
    unfold touched touchedKeys
    rw [← h.keys_erase hi hkey]
    simp [keys, hkey]

namespace Keyed

omit [DecidableEq K] in
theorem consistent (h : Keyed m ks) : Consistent m := by
  obtain ⟨xs, hm, -⟩ := h
  exact hm.consistent

omit [DecidableEq K] in
theorem has (h : Keyed m ks) (key : K) : m.has key = true ↔ key ∈ ks := by
  obtain ⟨xs, hm, rfl⟩ := h
  exact hm.has key

omit [DecidableEq K] in
theorem nodup (h : Keyed m ks) : ks.Nodup := by
  obtain ⟨xs, hm, rfl⟩ := h
  exact hm.nodup_keys

omit [DecidableEq K] in
theorem size (h : Keyed m ks) : m.size = ks.length := by
  obtain ⟨xs, hm, rfl⟩ := h
  rw [hm.size, hm.length_keys]

theorem get (h : Keyed m ks) (key : K) (touch : Touch) :
    ∃ value m', m.get key touch = some (value, m') ∧
      Keyed m' (if key ∈ ks then touchedKeys ks key touch else ks) := by
  obtain ⟨xs, hm, rfl⟩ := h
  obtain ⟨value, m', hm', hitems, hholds⟩ := get_holds hm key touch
  refine ⟨value, m', hm', _, hholds, ?_⟩
  rw [keys_congr fun i _ => congrFun (key_of_items hitems) i]
  cases hmap : m.map key with
  | none =>
    rw [if_neg (hm.notMem_keys hmap)]
    rfl
  | some i =>
    rw [if_pos (hm.mem_keys.mpr ⟨i, hmap⟩)]
    obtain ⟨hi, hkey⟩ := (hm.map key i).mp hmap
    exact hm.keys_touched hi hkey touch

theorem set (h : Keyed m ks) (key : K) (value : V) :
    ∃ m', m.set key value .asNew = some m' ∧ Keyed m' (ks.erase key ++ [key]) := by
  obtain ⟨xs, hm, rfl⟩ := h
  obtain ⟨m', hm', hholds, hitems⟩ := set_holds hm key value .asNew
  refine ⟨m', hm', _, hholds, ?_⟩
  have hkey : ∀ i, m'.key i = if i = itemFor m key then some key else m.key i := by
    intro i
    unfold LinkedMap.key
    rw [hitems]
    exact key_update m value i
  unfold placed itemFor at *
  cases hmap : m.map key with
  | none =>
    rw [hmap] at hkey
    have hfresh : ∀ i ∈ xs, m'.key i = m.key i := by
      intro i hi
      rw [hkey, Option.getD_none, if_neg (hm.fresh i hi).ne]
    rw [List.erase_of_not_mem (hm.notMem_keys hmap), ← keys_congr hfresh]
    simp [keys, hkey]
  | some i =>
    obtain ⟨hi, hkeyi⟩ := (hm.map key i).mp hmap
    rw [hmap] at hkey
    have hsame : ∀ j ∈ touched xs i .asNew, m'.key j = m.key j := by
      intro j _
      rw [hkey]
      split_ifs with hj
      · rw [hj, Option.getD_some, hkeyi]
      · rfl
    exact (keys_congr hsame).trans (hm.keys_touched hi hkeyi .asNew)

theorem remove (h : Keyed m ks) (key : K) :
    ∃ value m', m.remove key = some (value, m') ∧ Keyed m' (ks.erase key) := by
  obtain ⟨xs, hm, rfl⟩ := h
  obtain ⟨value, m', hm', hitems, hholds⟩ := remove_holds hm key
  refine ⟨value, m', hm', _, hholds, ?_⟩
  rw [keys_congr fun i _ => congrFun (key_of_items hitems) i]
  cases hmap : m.map key with
  | none =>
    rw [List.erase_of_not_mem (hm.notMem_keys hmap)]
    rfl
  | some i =>
    obtain ⟨hi, hkey⟩ := (hm.map key i).mp hmap
    exact hm.keys_erase hi hkey

theorem shift (h : Keyed m ks) : ∃ value m', m.shift = some (value, m') ∧ Keyed m' ks.tail := by
  obtain ⟨xs, hm, rfl⟩ := h
  obtain ⟨value, m', hm', hitems, hholds⟩ := shift_holds hm
  refine ⟨value, m', hm', _, hholds, ?_⟩
  rw [keys_congr fun i _ => congrFun (key_of_items hitems) i, ← List.drop_one, ← List.drop_one,
    keys_drop hm.items]

omit [DecidableEq K] in
theorem clear (m : LinkedMap K V) : Keyed m.clear [] := ⟨[], holds_clear m, rfl⟩

theorem trimOld (h : Keyed m ks) {newSize : ℤ} (hsize : 0 ≤ newSize) :
    Keyed (m.trimOld newSize) (ks.drop (ks.length - newSize.toNat)) := by
  obtain ⟨xs, hm, rfl⟩ := h
  obtain ⟨hholds, hitems⟩ := trimOld_holds hm hsize
  refine ⟨_, hholds, ?_⟩
  rw [keys_congr fun i _ => congrFun (key_of_items hitems) i, keys_drop hm.items,
    hm.length_keys]

theorem trimNew (h : Keyed m ks) {newSize : ℤ} (hsize : 0 ≤ newSize) :
    Keyed (m.trimNew newSize) (ks.take newSize.toNat) := by
  obtain ⟨xs, hm, rfl⟩ := h
  obtain ⟨hholds, hitems⟩ := trimNew_holds hm hsize
  refine ⟨_, hholds, ?_⟩
  rw [keys_congr fun i _ => congrFun (key_of_items hitems) i, keys_take hm.items]

end Keyed

end Keyed

section Recency

/-- When the keys were last touched, by the number of the call; touches as old count backwards. -/
def touchedAt (s : ℕ × (K → ℤ)) : CacheOp K V → ℕ × (K → ℤ)
  | .set key _ | .get key .asNew => (s.1 + 1, Function.update s.2 key (s.1 + 1))
  | .get key .asOld => (s.1 + 1, Function.update s.2 key (-(s.1 + 1)))
  | _ => (s.1 + 1, s.2)

def recency (ops : List (CacheOp K V)) : ℕ × (K → ℤ) := ops.foldl touchedAt (0, fun _ => 0)

/-- The keys are in the order of their stamps. -/
structure InOrder (s : ℕ × (K → ℤ)) (ks : List K) : Prop where
  sorted : ks.Pairwise fun a b => s.2 a < s.2 b
  bound : ∀ k, -(s.1 : ℤ) ≤ s.2 k ∧ s.2 k ≤ s.1

namespace InOrder

variable {s : ℕ × (K → ℤ)} {ks ks' : List K} {key : K}

omit [DecidableEq K] in
theorem later (h : InOrder s ks) : InOrder (s.1 + 1, s.2) ks where
  sorted := h.sorted
  bound k := by
    have := h.bound k
    push_cast
    omega

omit [DecidableEq K] in
theorem sublist (h : InOrder s ks) (hsub : ks'.Sublist ks) : InOrder s ks' where
  sorted := h.sorted.sublist hsub
  bound := h.bound

theorem bound_update (h : InOrder s ks) {stamp : ℤ} (hstamp : stamp = s.1 + 1 ∨ stamp = -(s.1 + 1))
    (k : K) : -((s.1 + 1 : ℕ) : ℤ) ≤ Function.update s.2 key stamp k ∧
      Function.update s.2 key stamp k ≤ ((s.1 + 1 : ℕ) : ℤ) := by
  have := h.bound k
  rw [Function.update_apply]
  push_cast
  split_ifs <;> omega

theorem sorted_update (h : ks.Pairwise fun a b => s.2 a < s.2 b) (hkey : key ∉ ks) (stamp : ℤ) :
    ks.Pairwise fun a b => Function.update s.2 key stamp a < Function.update s.2 key stamp b := by
  refine h.imp_of_mem fun {a b} ha hb hab => ?_
  rwa [Function.update_of_ne (ne_of_mem_of_not_mem ha hkey),
    Function.update_of_ne (ne_of_mem_of_not_mem hb hkey)]

/-- A key that is touched as new is put behind the others. -/
theorem asNew (h : InOrder s ks) (hkey : key ∉ ks) :
    InOrder (s.1 + 1, Function.update s.2 key (s.1 + 1)) (ks ++ [key]) where
  sorted := by
    refine List.pairwise_append.mpr ⟨sorted_update h.sorted hkey _, by simp, fun a ha b hb => ?_⟩
    rw [List.mem_singleton] at hb
    subst hb
    have := h.bound a
    dsimp only
    rw [Function.update_self, Function.update_of_ne (ne_of_mem_of_not_mem ha hkey)]
    omega
  bound k := h.bound_update (.inl rfl) k

/-- A key that is touched as old is put before the others. -/
theorem asOld (h : InOrder s ks) (hkey : key ∉ ks) :
    InOrder (s.1 + 1, Function.update s.2 key (-(s.1 + 1))) (key :: ks) where
  sorted := by
    refine List.pairwise_cons.mpr ⟨fun b hb => ?_, sorted_update h.sorted hkey _⟩
    have := h.bound b
    dsimp only
    rw [Function.update_self, Function.update_of_ne (ne_of_mem_of_not_mem hb hkey)]
    omega
  bound k := h.bound_update (.inr rfl) k

/-- A key that is not there is touched. -/
theorem absent (h : InOrder s ks) (hkey : key ∉ ks) {stamp : ℤ}
    (hstamp : stamp = s.1 + 1 ∨ stamp = -(s.1 + 1)) :
    InOrder (s.1 + 1, Function.update s.2 key stamp) ks where
  sorted := sorted_update h.sorted hkey _
  bound k := h.bound_update hstamp k

omit [DecidableEq K] in
/-- What is cut off at the front is older than what stays. -/
theorem older (h : InOrder s ks) {n : ℕ} {a b : K} (ha : a ∈ ks) (hcut : a ∉ ks.drop n)
    (hb : b ∈ ks.drop n) : s.2 a < s.2 b := by
  have hsorted := h.sorted
  rw [← List.take_append_drop n ks] at ha hsorted
  have hfront := (List.mem_append.mp ha).resolve_right hcut
  exact (List.pairwise_append.mp hsorted).2.2 a hfront b hb

end InOrder

/-- The keys after a call, before the list is trimmed -/
def keysAfter (ks : List K) : CacheOp K V → List K
  | .set key _ => touchedKeys ks key .asNew
  | .get key touch => if key ∈ ks then touchedKeys ks key touch else ks
  | .remove key => ks.erase key
  | .shift => ks.tail
  | .clear => []
  | _ => ks

theorem InOrder.keysAfter {s : ℕ × (K → ℤ)} {ks : List K} (h : InOrder s ks) (hnodup : ks.Nodup)
    (op : CacheOp K V) : InOrder (touchedAt s op) (keysAfter ks op) := by
  have herase : ∀ key, InOrder s (ks.erase key) := fun key => h.sublist List.erase_sublist
  cases op with
  | set key value => exact (herase key).asNew hnodup.not_mem_erase
  | get key touch =>
    dsimp only [Caches.keysAfter]
    split_ifs with hmem
    · cases touch with
      | none => exact h.later
      | asOld => exact (herase key).asOld hnodup.not_mem_erase
      | asNew => exact (herase key).asNew hnodup.not_mem_erase
    · cases touch with
      | none => exact h.later
      | asOld => exact h.absent hmem (.inr rfl)
      | asNew => exact h.absent hmem (.inl rfl)
  | peek key => exact h.later
  | remove key => exact (herase key).later
  | shift => exact (h.sublist (List.tail_sublist ks)).later
  | clear => exact (h.sublist (List.nil_sublist ks)).later
  | setLimit limit => exact h.later
  | setRatio ratio => exact h.later

end Recency

section Caches

/-- A `set` that has to trim trims to a size that leaves room for the entry, and no longer than
the limit; one that does not trim ends within the limit. -/
def Cache.Fits (c : Cache K V) : CacheOp K V → Prop
  | .set key _ =>
    match c.kind with
    | .lru =>
      c.limit < (if c.list.has key then c.list.size else c.list.size + 1 : ℤ) →
        1 ≤ c.trimSize ∧ c.trimSize ≤ c.limit
    | .mru =>
      if c.list.has key then c.list.size ≤ c.limit
      else if c.limit ≤ c.list.size then 1 ≤ c.trimSize ∧ c.trimSize ≤ c.limit
      else c.list.size + 1 ≤ c.limit
  | _ => True

omit [DecidableEq K] in
theorem Cache.fits_lru {c : Cache K V} (hkind : c.kind = .lru)
    (htrim : 1 ≤ c.trimSize ∧ c.trimSize ≤ c.limit) (op : CacheOp K V) : c.Fits op := by
  unfold Cache.Fits
  rw [hkind]
  cases op with
  | set => exact fun _ => htrim
  | get | peek | remove | shift | clear | setLimit | setRatio => trivial

/-- A cache with a list of keys, a limit of at least one and a ratio between zero and one -/
structure Sound (kind : CacheKind) (c : Cache K V) (ks : List K) : Prop where
  keyed : Keyed c.list ks
  kind : c.kind = kind
  limit : 1 ≤ c.limit
  ratio : 0 ≤ c.ratio

/-- What a cache with some keys is after a call: the oldest entries of a cache that evicts these
may be cut off. -/
structure After (c : Cache K V) (ks : List K) (op : CacheOp K V) (c' : Cache K V) (ks' : List K) :
    Prop where
  sound : Sound c.kind c' ks'
  evicts : c.kind = .lru → ∃ n, ks' = (keysAfter ks op).drop n
  keeps : ∀ key value, op = .set key value → key ∈ ks' ∧ (ks'.length : ℚ) ≤ c'.limit

variable {kind : CacheKind} {c : Cache K V} {ks : List K}

omit [DecidableEq K] in
theorem clampRatio_nonneg (ratio : ℚ) : 0 ≤ Cache.clampRatio ratio :=
  le_min (le_max_left 0 ratio) zero_le_one

namespace Sound

omit [DecidableEq K] in
theorem trimSize_nonneg (h : Sound kind c ks) : 0 ≤ c.trimSize := by
  unfold Cache.trimSize mathRound
  have := mul_nonneg (zero_le_one.trans h.limit) h.ratio
  exact Int.floor_nonneg.mpr (by linarith)

theorem trim (h : Sound kind c ks) {newSize : ℤ} (hsize : 0 ≤ newSize) :
    ∃ ks', Sound kind (c.trim newSize) ks' ∧
      match kind with
      | .lru => ks' = ks.drop (ks.length - newSize.toNat)
      | .mru => ks' = ks.take newSize.toNat := by
  have hkind := h.kind
  unfold Cache.trim
  cases kind with
  | lru =>
    rw [hkind]
    exact ⟨_, ⟨h.keyed.trimOld hsize, rfl, h.limit, h.ratio⟩, rfl⟩
  | mru =>
    rw [hkind]
    exact ⟨_, ⟨h.keyed.trimNew hsize, rfl, h.limit, h.ratio⟩, rfl⟩

theorem checkTrim (h : Sound kind c ks) :
    ∃ ks', Sound kind c.checkTrim ks' ∧ (kind = .lru → ∃ n, ks' = ks.drop n) := by
  unfold Cache.checkTrim
  split_ifs
  · obtain ⟨ks', hsound, htrimmed⟩ := h.trim h.trimSize_nonneg
    refine ⟨ks', hsound, fun hlru => ?_⟩
    subst hlru
    exact ⟨_, htrimmed⟩
  · exact ⟨ks, h, fun _ => ⟨0, rfl⟩⟩

omit [DecidableEq K] in
theorem length_le_of_toNat {n : ℤ} (h : ks.length ≤ n.toNat) (hn : 0 ≤ n) :
    (ks.length : ℚ) ≤ n := by
  have : (ks.length : ℤ) ≤ n := by omega
  exact_mod_cast this

theorem length_set (h : Sound kind c ks) (key : K) :
    ((ks.erase key ++ [key]).length : ℤ) =
      if c.list.has key then c.list.size else c.list.size + 1 := by
  rw [h.keyed.size, List.length_append, List.length_singleton]
  split_ifs with hhas
  · have hmem := (h.keyed.has key).mp hhas
    have := List.length_pos_of_mem hmem
    rw [List.length_erase_of_mem hmem]
    omega
  · rw [List.erase_of_not_mem fun hmem => hhas ((h.keyed.has key).mpr hmem)]
    push_cast
    rfl

theorem set_lru (h : Sound .lru c ks) {key : K} {value : V} (hfits : c.Fits (.set key value)) :
    ∃ c' ks', c.set key value = some c' ∧ After c ks (.set key value) c' ks' := by
  have hlength := h.length_set key
  obtain ⟨kind, list, limit, ratio⟩ := c
  obtain ⟨hkeyed, rfl, hlimit, hratio⟩ := h
  obtain ⟨m', hm', hkeyed'⟩ := hkeyed.set key value
  have hset : Sound .lru (⟨.lru, m', limit, ratio⟩ : Cache K V) (ks.erase key ++ [key]) :=
    ⟨hkeyed', rfl, hlimit, hratio⟩
  have hsize := hkeyed'.size
  have hrun : Cache.set ⟨.lru, list, limit, ratio⟩ key value =
      some (Cache.checkTrim ⟨.lru, m', limit, ratio⟩) := by
    unfold Cache.set
    dsimp only
    rw [hm']
    rfl
  rw [hrun]
  dsimp only [Cache.Fits] at hfits hlength
  unfold Cache.checkTrim
  split_ifs with hlarge
  · obtain ⟨hone, htrim⟩ := hfits (by rwa [← hlength, ← hsize])
    obtain ⟨ks', hsound, rfl⟩ := hset.trim (zero_le_one.trans hone)
    refine ⟨_, _, rfl, hsound, fun _ => ⟨_, rfl⟩, fun key' value' heq => ?_⟩
    cases heq
    constructor
    · rw [List.drop_append_of_le_length (by rw [List.length_append, List.length_singleton]; omega)]
      simp
    · refine (length_le_of_toNat ?_ (zero_le_one.trans hone)).trans htrim
      rw [List.length_drop]
      omega
  · refine ⟨_, _, rfl, hset, fun _ => ⟨0, rfl⟩, fun key' value' heq => ?_⟩
    cases heq
    refine ⟨by simp, ?_⟩
    rw [not_lt, hsize] at hlarge
    exact_mod_cast hlarge

/-- Before an entry is set, the list has room for it. -/
theorem room (h : Sound .mru c ks) {key : K} {value : V} (hfits : c.Fits (.set key value)) :
    ∃ ks', Sound .mru (if c.limit ≤ c.list.size ∧ !c.list.has key then
        c.trim (c.trimSize - 1) else c) ks' ∧
      ((ks'.erase key ++ [key]).length : ℚ) ≤ c.limit := by
  have hlength := h.length_set key
  unfold Cache.Fits at hfits
  rw [h.kind] at hfits
  dsimp only at hfits
  cases hhas : c.list.has key with
  | true =>
    rw [hhas, if_pos rfl] at hfits hlength
    refine ⟨ks, by simpa using h, ?_⟩
    rw [← hlength] at hfits
    exact_mod_cast hfits
  | false =>
    rw [hhas, if_neg (by simp)] at hfits hlength
    split_ifs at hfits with hfull
    · have hmem : key ∉ ks.take (c.trimSize - 1).toNat := by
        intro hmem
        have := (h.keyed.has key).mpr (List.mem_of_mem_take hmem)
        rw [hhas] at this
        cases this
      obtain ⟨hone, hlimit⟩ := hfits
      obtain ⟨ks', hsound, rfl⟩ := h.trim (show 0 ≤ c.trimSize - 1 by omega)
      refine ⟨ks.take (c.trimSize - 1).toNat, by simpa [hfull] using hsound, le_trans ?_ hlimit⟩
      refine length_le_of_toNat ?_ (zero_le_one.trans hone)
      rw [List.erase_of_not_mem hmem, List.length_append, List.length_take, List.length_singleton]
      omega
    · refine ⟨ks, by simpa [hfull] using h, ?_⟩
      have : (((ks.erase key ++ [key]).length : ℤ) : ℚ) ≤ c.limit := by
        rw [hlength]
        exact_mod_cast hfits
      exact_mod_cast this

theorem set_mru (h : Sound .mru c ks) {key : K} {value : V} (hfits : c.Fits (.set key value)) :
    ∃ c' ks', c.set key value = some c' ∧ After c ks (.set key value) c' ks' := by
  obtain ⟨ks', hsound, hlength⟩ := h.room hfits
  have hkind := h.kind
  have hlimit : (if c.limit ≤ c.list.size ∧ !c.list.has key then
      c.trim (c.trimSize - 1) else c).limit = c.limit := by
    unfold Cache.trim
    rw [hkind]
    split_ifs <;> rfl
  unfold Cache.set
  rw [hkind]
  dsimp only
  generalize (if c.limit ≤ c.list.size ∧ !c.list.has key then
    c.trim (c.trimSize - 1) else c) = trimmed at hsound hlimit ⊢
  obtain ⟨m', hm', hkeyed⟩ := hsound.keyed.set key value
  rw [hm']
  refine ⟨_, _, rfl, ⟨hkeyed, ?_, hsound.limit, hsound.ratio⟩, fun hlru => ?_,
    fun key' value' heq => ?_⟩
  · exact hsound.kind.trans hkind.symm
  · rw [hkind] at hlru
    cases hlru
  · cases heq
    exact ⟨by simp, hlength.trans_eq hlimit.symm⟩

/-- The list of a cache is replaced by one with the keys after a call. -/
theorem after_list (h : Sound kind c ks) {op : CacheOp K V} {list : LinkedMap K V}
    (hkeyed : Keyed list (keysAfter ks op)) (hset : ∀ key value, op ≠ .set key value) :
    After c ks op { c with list } (keysAfter ks op) where
  sound := ⟨hkeyed, rfl, h.limit, h.ratio⟩
  evicts _ := ⟨0, rfl⟩
  keeps key value heq := absurd heq (hset key value)

/-- Every call but a `set` keeps the list in step, and a `set` does where it fits. -/
theorem step (h : Sound kind c ks) {op : CacheOp K V} (hfits : c.Fits op)
    (hlimit : ∀ limit, op = .setLimit limit → 1 ≤ limit) :
    ∃ c' ks', c.step op = some c' ∧ After c ks op c' ks' := by
  have hkind := h.kind
  cases op with
  | set key value =>
    cases kind with
    | lru => exact h.set_lru hfits
    | mru => exact h.set_mru hfits
  | get key touch =>
    obtain ⟨value, m', hm', hkeyed⟩ := h.keyed.get key touch
    dsimp only [Cache.step, Cache.get]
    rw [hm']
    exact ⟨_, _, rfl, h.after_list hkeyed nofun⟩
  | peek key =>
    obtain ⟨value, m', hm', hkeyed⟩ := h.keyed.get key .none
    dsimp only [Cache.step, Cache.peek, Cache.get]
    rw [hm']
    exact ⟨_, _, rfl, h.after_list (by simpa [touchedKeys, keysAfter] using hkeyed) nofun⟩
  | remove key =>
    obtain ⟨value, m', hm', hkeyed⟩ := h.keyed.remove key
    dsimp only [Cache.step]
    rw [hm']
    exact ⟨_, _, rfl, h.after_list hkeyed nofun⟩
  | shift =>
    obtain ⟨value, m', hm', hkeyed⟩ := h.keyed.shift
    dsimp only [Cache.step]
    rw [hm']
    exact ⟨_, _, rfl, h.after_list hkeyed nofun⟩
  | clear => exact ⟨_, _, rfl, h.after_list (.clear _) nofun⟩
  | setLimit limit =>
    have hnew : Sound kind { c with limit } ks := ⟨h.keyed, hkind, hlimit limit rfl, h.ratio⟩
    obtain ⟨ks', hsound, hcut⟩ := hnew.checkTrim
    exact ⟨_, ks', rfl, hkind ▸ hsound, fun hlru => hcut (hkind.symm.trans hlru), nofun⟩
  | setRatio ratio =>
    have hnew : Sound kind { c with ratio := Cache.clampRatio ratio } ks :=
      ⟨h.keyed, hkind, h.limit, clampRatio_nonneg ratio⟩
    obtain ⟨ks', hsound, hcut⟩ := hnew.checkTrim
    exact ⟨_, ks', rfl, hkind ▸ hsound, fun hlru => hcut (hkind.symm.trans hlru), nofun⟩

end Sound

omit [DecidableEq K] in
theorem sound_new (kind : CacheKind) {limit : ℚ} (hlimit : 1 ≤ limit) (ratio : ℚ) :
    Sound kind (.new kind limit ratio : Cache K V) [] :=
  ⟨⟨[], holds_new, rfl⟩, rfl, hlimit, clampRatio_nonneg ratio⟩

/-- Every call fits the cache that the calls before it left. -/
def AllFit (kind : CacheKind) (limit ratio : ℚ) (ops : List (CacheOp K V)) : Prop :=
  ∀ before op, before ++ [op] <+: ops →
    ∀ c, Cache.run kind limit ratio before = some c → c.Fits op

theorem AllFit.of_start {limit ratio : ℚ} {ops ops' : List (CacheOp K V)}
    (h : AllFit kind limit ratio ops) (hinit : ops' <+: ops) : AllFit kind limit ratio ops' :=
  fun before op hbefore => h before op (hbefore.trans hinit)

theorem Cache.run_append_singleton {kind : CacheKind} {limit ratio : ℚ}
    {ops : List (CacheOp K V)} (hrun : Cache.run kind limit ratio ops = some c)
    (op : CacheOp K V) : Cache.run kind limit ratio (ops ++ [op]) = c.step op := by
  unfold Cache.run at hrun ⊢
  rw [List.foldlM_append, hrun]
  simp

theorem recency_append_singleton (ops : List (CacheOp K V)) (op : CacheOp K V) :
    recency (ops ++ [op]) = touchedAt (recency ops) op := by
  unfold recency
  rw [List.foldl_append]
  rfl

/-- A run whose calls fit returns; a cache that evicts the oldest keeps its keys in order. -/
theorem Cache.run_sound {limit ratio : ℚ} (hlimit : 1 ≤ limit) {ops : List (CacheOp K V)}
    (hlimits : ∀ limit, .setLimit limit ∈ ops → 1 ≤ limit) (hfits : AllFit kind limit ratio ops) :
    ∃ c ks, Cache.run kind limit ratio ops = some c ∧ Sound kind c ks ∧
      (kind = .lru → InOrder (recency ops) ks) := by
  induction ops using List.reverseRecOn with
  | nil =>
    exact ⟨_, [], rfl, sound_new kind hlimit ratio, fun _ => ⟨.nil, fun _ => by simp [recency]⟩⟩
  | append_singleton ops op ih =>
    obtain ⟨c, ks, hrun, hsound, horder⟩ := ih (fun limit hmem => hlimits limit (by simp [hmem]))
      (hfits.of_start (List.prefix_append ops [op]))
    obtain ⟨c', ks', hstep, hafter⟩ := hsound.step (hfits ops op (List.prefix_refl _) c hrun)
      (fun limit heq => hlimits limit (by simp [heq]))
    refine ⟨c', ks', (Cache.run_append_singleton hrun op).trans hstep, hsound.kind ▸ hafter.sound,
      fun hlru => ?_⟩
    obtain ⟨n, rfl⟩ := hafter.evicts (hsound.kind.trans hlru)
    rw [recency_append_singleton]
    exact ((horder hlru).keysAfter hsound.keyed.nodup op).sublist (List.drop_sublist n _)

/-- A call that is not a removal -/
def CacheOp.keeps : CacheOp K V → Prop
  | .remove _ | .shift | .clear => False
  | _ => True

/-- The key has an entry before the call, or is set by it. -/
def HadOrSet (c : Cache K V) (op : CacheOp K V) (key : K) : Prop :=
  c.list.has key = true ∨ ∃ value, op = .set key value

theorem mem_keysAfter {op : CacheOp K V} {key : K} (hkeeps : op.keeps)
    (h : key ∈ ks ∨ ∃ value, op = .set key value) : key ∈ keysAfter ks op := by
  have htouched : ∀ other touch, key ∈ ks → key ∈ touchedKeys ks other touch := by
    intro other touch hmem
    by_cases heq : key = other
    · cases touch <;> simp [touchedKeys, heq ▸ hmem, heq]
    · cases touch <;> simp [touchedKeys, hmem, heq, List.mem_erase_of_ne heq]
  rcases h with hmem | ⟨value, rfl⟩
  · cases op with
    | set other value => exact htouched other .asNew hmem
    | get other touch =>
      dsimp only [keysAfter]
      split_ifs
      · exact htouched other touch hmem
      · exact hmem
    | remove | shift | clear => exact hkeeps.elim
    | peek | setLimit | setRatio => exact hmem
  · exact List.mem_append_right _ (List.mem_singleton.mpr rfl)

end Caches

end NexgileIde.Caches
