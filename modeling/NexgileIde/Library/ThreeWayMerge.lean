import Mathlib

/-!
# Dictionaries

Lookups in dictionaries that are put together and from which keys are removed, where
all values have the same type.
-/
namespace NexgileIde.Library

section Dictionary

variable {κ ν : Type*} [DecidableEq κ]

theorem lookup_union (d e : AList fun _ : κ => ν) (key : κ) :
    (d ∪ e).lookup key = (d.lookup key).or (e.lookup key) := by
  by_cases hkey : key ∈ d
  · rw [AList.lookup_union_left hkey]
    obtain ⟨value, hvalue⟩ := Option.isSome_iff_exists.mp (AList.lookup_isSome.mpr hkey)
    rw [hvalue, Option.some_or]
  · rw [AList.lookup_union_right hkey, AList.lookup_eq_none.mpr hkey, Option.none_or]

theorem lookup_foldl_erase (keys : List κ) (d : AList fun _ : κ => ν) (key : κ) :
    (keys.foldl (fun d key => d.erase key) d).lookup key =
      if key ∈ keys then none else d.lookup key := by
  induction keys generalizing d with
  | nil => simp
  | cons first keys ih =>
    rw [List.foldl_cons, ih]
    by_cases hfirst : key = first
    · subst hfirst
      simp
    · simp [hfirst]

theorem mem_keys_iff_lookup {d : AList fun _ : κ => ν} {key : κ} :
    key ∈ d.keys ↔ d.lookup key ≠ none := by
  rw [← Option.isSome_iff_ne_none, AList.lookup_isSome, AList.mem_keys]

end Dictionary

end NexgileIde.Library

/-!
## Three-way merge

Two values that started from a common one are merged: the side that has changed
wins, and there is no result where both have changed it in different ways. A loop
over names whose step looks at one name at a time is described name by name.
-/
namespace NexgileIde.Library

section ThreeWay

variable {α : Type*} [DecidableEq α]

/-- The merge of `a` and `b`, which started from `base`. -/
def threeWay (base a b : α) : Option α :=
  if a = b then some a
  else if a = base then some b
  else if b = base then some a
  else none

@[simp] theorem threeWay_self (base a : α) : threeWay base a a = some a := by
  simp [threeWay]

/-- Only the second side has changed. -/
@[simp] theorem threeWay_left (base b : α) : threeWay base base b = some b := by
  by_cases h : base = b
  · simp [threeWay, h]
  · simp [threeWay, h]

/-- Only the first side has changed. -/
@[simp] theorem threeWay_right (base a : α) : threeWay base a base = some a := by
  by_cases h : a = base
  · simp [threeWay, h]
  · simp [threeWay, h]

/-- There is no result exactly where both sides have changed in different ways. -/
theorem threeWay_eq_none {base a b : α} :
    threeWay base a b = none ↔ a ≠ base ∧ b ≠ base ∧ a ≠ b := by
  unfold threeWay
  split_ifs <;> simp_all

end ThreeWay

section Pointwise

variable {σ κ ν : Type*} [DecidableEq κ]

/-- A loop over keys without duplicates, each step of which changes what is seen at
its own key. -/
theorem foldl_pointwise {view : σ → κ → ν} {step : σ → κ → σ} {change : κ → ν → ν}
    (hsame : ∀ s k, view (step s k) k = change k (view s k))
    (hother : ∀ s k k', k' ≠ k → view (step s k) k' = view s k') {keys : List κ}
    (hnodup : keys.Nodup) (s : σ) (k : κ) :
    view (keys.foldl step s) k = if k ∈ keys then change k (view s k) else view s k := by
  induction keys generalizing s with
  | nil => simp
  | cons key keys ih =>
    obtain ⟨hfirst, hrest⟩ := List.nodup_cons.mp hnodup
    rw [List.foldl_cons, ih hrest]
    by_cases hkey : k = key
    · subst hkey
      rw [if_neg hfirst, if_pos List.mem_cons_self, hsame]
    · rw [hother s key k hkey]
      simp [hkey]

end Pointwise

end NexgileIde.Library
