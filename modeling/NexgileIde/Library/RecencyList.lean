import Mathlib.Data.List.Nodup
import Mathlib.Tactic

/-!
# Bounded maps that forget what was used longest ago

A map is the list of its entries, the one used last first. A use moves an entry to the
front, and a bound keeps the first entries.
-/
namespace NexgileIde.Library

namespace Recency

variable {κ ν : Type*} [DecidableEq κ]

def remove (entries : List (κ × ν)) (key : κ) : List (κ × ν) :=
  entries.filter fun entry => entry.1 ≠ key

/-- Write the value of a key. -/
def write (entries : List (κ × ν)) (key : κ) (value : ν) : List (κ × ν) :=
  (key, value) :: remove entries key

theorem mem_remove {entries : List (κ × ν)} {key : κ} {entry : κ × ν} :
    entry ∈ remove entries key ↔ entry ∈ entries ∧ entry.1 ≠ key := by
  simp [remove]

theorem remove_eq_self {entries : List (κ × ν)} {key : κ} (h : ∀ entry ∈ entries, entry.1 ≠ key) :
    remove entries key = entries := by
  simpa [remove] using h

/-- The keys of a map are different. -/
def Keys (entries : List (κ × ν)) : Prop := (entries.map Prod.fst).Nodup

omit [DecidableEq κ] in
theorem Keys.eq {entries : List (κ × ν)} (h : Keys entries) {a b : κ × ν} (ha : a ∈ entries)
    (hb : b ∈ entries) (hab : a.1 = b.1) : a = b :=
  List.inj_on_of_nodup_map h ha hb hab

/-- Beyond the bound the entry that was used longest ago is forgotten. -/
theorem Keys.remove_last {entries : List (κ × ν)} {last : κ × ν}
    (h : Keys (entries ++ [last])) : remove (entries ++ [last]) last.1 = entries := by
  have hne : ∀ entry ∈ entries, entry.1 ≠ last.1 := by
    rw [Keys, List.map_append, List.nodup_append] at h
    intro entry hmem
    exact h.2.2 _ (List.mem_map_of_mem hmem) _ (by simp)
  rw [remove, List.filter_append]
  have hleft := remove_eq_self hne
  rw [remove] at hleft
  rw [hleft]
  simp

end Recency

end NexgileIde.Library
