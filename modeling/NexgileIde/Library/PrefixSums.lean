import Mathlib.Algebra.BigOperators.Group.List.Basic
import Mathlib.Algebra.Order.BigOperators.Group.List
import Mathlib.Algebra.Order.Monoid.Canonical.Defs

/-!
# Prefix sums

Sums of the first values of a list, tables of them, and the value that a sum falls into.
-/
namespace NexgileIde.Library

namespace PrefixSums

section Tables

variable {M : Type} [AddMonoid M]

/-- The sum of the first values. -/
def sumOf (values : List M) (count : ℕ) : M := (values.take count).sum

@[simp] theorem sumOf_zero (values : List M) : sumOf values 0 = 0 := by
  simp [sumOf]

theorem sumOf_succ {values : List M} {count : ℕ} {value : M} (h : values[count]? = some value) :
    sumOf values (count + 1) = sumOf values count + value := by
  obtain ⟨hlt, rfl⟩ := List.getElem?_eq_some_iff.1 h
  rw [sumOf, sumOf, List.take_succ_eq_append_getElem hlt, List.sum_append, List.sum_singleton]

theorem sumOf_of_length_le {values : List M} {count : ℕ} (h : values.length ≤ count) :
    sumOf values count = values.sum := by
  rw [sumOf, List.take_of_length_le h]

theorem sumOf_congr {values values' : List M} {count : ℕ}
    (h : values.take count = values'.take count) {i : ℕ} (hi : i ≤ count) :
    sumOf values i = sumOf values' i := by
  have htake : (values.take count).take i = (values'.take count).take i := by rw [h]
  rw [List.take_take, List.take_take, min_eq_left hi] at htake
  rw [sumOf, sumOf, htake]

/-- The first entries of a table are the prefix sums. -/
def Summed (values : List M) (table : ℕ → Option M) (count : ℕ) : Prop :=
  ∀ i < count, table i = some (sumOf values (i + 1))

variable {values values' : List M} {table table' : ℕ → Option M} {count : ℕ}

theorem summed_zero : Summed values table 0 := fun i hi => absurd hi (Nat.not_lt_zero i)

/-- Values and entries behind the valid ones may change. -/
theorem Summed.congr (h : Summed values table count) {n : ℕ} (hn : n ≤ count)
    (hvalues : values.take n = values'.take n) (htable : ∀ i < n, table' i = table i) :
    Summed values' table' n := by
  intro i hi
  rw [htable i hi, h i (by omega), sumOf_congr hvalues hi]

theorem Summed.succ (h : Summed values table count) {value : M}
    (hvalue : values[count]? = some value) (hentry : table count =
      some (sumOf values count + value)) : Summed values table (count + 1) := by
  intro i hi
  rcases Nat.lt_succ_iff_lt_or_eq.1 hi with hi | rfl
  · exact h i hi
  · rw [hentry, sumOf_succ hvalue]

end Tables

section Order

variable {M : Type} [AddMonoid M] [LinearOrder M] [CanonicallyOrderedAdd M]
  {values : List M} {s : M}

theorem sumOf_mono (values : List M) : Monotone (sumOf values) := by
  refine monotone_nat_of_le_succ fun count => ?_
  cases hvalue : values[count]? with
  | none =>
    have hlength := List.getElem?_eq_none_iff.1 hvalue
    rw [sumOf_of_length_le hlength, sumOf_of_length_le (Nat.le_succ_of_le hlength)]
  | some value =>
    rw [sumOf_succ hvalue]
    exact le_self_add

theorem sumOf_le_sum (values : List M) (count : ℕ) : sumOf values count ≤ values.sum := by
  rcases le_total count values.length with h | h
  · rw [← sumOf_of_length_le (le_refl values.length)]
    exact sumOf_mono values h
  · rw [sumOf_of_length_le h]

/-- A sum falls into a value when it is reached with it but not before. -/
def Locates (values : List M) (s : M) (index : ℕ) : Prop :=
  sumOf values index ≤ s ∧ s < sumOf values (index + 1)

theorem Locates.unique {index index' : ℕ} (h : Locates values s index)
    (h' : Locates values s index') : index = index' := by
  rcases lt_trichotomy index index' with hlt | heq | hlt
  · exact absurd ((sumOf_mono values hlt).trans h'.1) (not_le_of_gt h.2)
  · exact heq
  · exact absurd ((sumOf_mono values hlt).trans h.1) (not_le_of_gt h'.2)

omit [CanonicallyOrderedAdd M] in
theorem Locates.lt_length {index : ℕ} (h : Locates values s index) : index < values.length := by
  by_contra hlength
  have hle := Nat.le_of_not_lt hlength
  have hlt := h.1.trans_lt h.2
  rw [sumOf_of_length_le hle, sumOf_of_length_le (Nat.le_succ_of_le hle)] at hlt
  exact lt_irrefl _ hlt

/-- Every sum below that of some first values falls into one of them. -/
theorem exists_locates {count : ℕ} (h : s < sumOf values count) :
    ∃ index < count, Locates values s index := by
  induction count with
  | zero =>
    rw [sumOf_zero] at h
    exact absurd h not_lt_zero
  | succ count ih =>
    by_cases hlt : s < sumOf values count
    · obtain ⟨index, hindex, hlocates⟩ := ih hlt
      exact ⟨index, Nat.lt_succ_of_lt hindex, hlocates⟩
    · exact ⟨count, Nat.lt_succ_self count, le_of_not_gt hlt, h⟩

/-- Every sum below that of all values falls into one of them. -/
theorem exists_locates_of_lt_sum (h : s < values.sum) :
    ∃ index < values.length, Locates values s index :=
  exists_locates (h.trans_eq (sumOf_of_length_le (le_refl values.length)).symm)

end Order

end PrefixSums

end NexgileIde.Library
