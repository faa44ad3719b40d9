import Mathlib.Data.List.Range
import Mathlib.Tactic

/-!
# Numbered items accepted in order

A receiver that has taken `next` items takes the item `next + 1` and ignores the others.
-/
namespace NexgileIde.Library

def accept (next id : ℕ) : ℕ := if id = next + 1 then id else next

def acceptAll (next : ℕ) (ids : List ℕ) : ℕ := ids.foldl accept next

@[simp] theorem acceptAll_nil (next : ℕ) : acceptAll next [] = next := rfl

@[simp] theorem acceptAll_cons (next id : ℕ) (ids : List ℕ) :
    acceptAll next (id :: ids) = acceptAll (accept next id) ids := rfl

theorem acceptAll_append (next : ℕ) (ids ids' : List ℕ) :
    acceptAll next (ids ++ ids') = acceptAll (acceptAll next ids) ids' := List.foldl_append

theorem accept_mono {next next' : ℕ} (h : next ≤ next') (id : ℕ) :
    accept next id ≤ accept next' id := by
  unfold accept
  split_ifs <;> omega

theorem le_accept (next id : ℕ) : next ≤ accept next id := by
  unfold accept
  split_ifs <;> omega

theorem acceptAll_mono {next next' : ℕ} (h : next ≤ next') (ids : List ℕ) :
    acceptAll next ids ≤ acceptAll next' ids := by
  induction ids generalizing next next' with
  | nil => exact h
  | cons id ids ih => exact ih (accept_mono h id)

theorem le_acceptAll (next : ℕ) (ids : List ℕ) : next ≤ acceptAll next ids := by
  induction ids generalizing next with
  | nil => exact Nat.le_refl _
  | cons id ids ih => exact (le_accept next id).trans (ih _)

theorem acceptAll_le {next n : ℕ} {ids : List ℕ} (h : next ≤ n) (hids : ∀ id ∈ ids, id ≤ n) :
    acceptAll next ids ≤ n := by
  induction ids generalizing next with
  | nil => exact h
  | cons id ids ih =>
    refine ih ?_ fun id hid => hids id (List.mem_cons_of_mem _ hid)
    have hid := hids id List.mem_cons_self
    unfold accept
    split_ifs <;> omega

/-- Items that were taken already change nothing. -/
theorem acceptAll_of_le {n : ℕ} {ids : List ℕ} (hids : ∀ id ∈ ids, id ≤ n) :
    acceptAll n ids = n :=
  Nat.le_antisymm (acceptAll_le (Nat.le_refl n) hids) (le_acceptAll n ids)

/-- A receiver that is further ahead ends where the other does, if that is the end. -/
theorem acceptAll_of_mono {next next' n : ℕ} {ids : List ℕ} (h : next ≤ next') (h' : next' ≤ n)
    (hids : ∀ id ∈ ids, id ≤ n) (hall : acceptAll next ids = n) : acceptAll next' ids = n :=
  Nat.le_antisymm (acceptAll_le h' hids) (hall ▸ acceptAll_mono h ids)

/-- Items that follow each other from one that was taken on are all taken. -/
theorem acceptAll_range' {k next count : ℕ} (hk : k ≤ next) (hnext : next ≤ k + count) :
    acceptAll next (List.range' (k + 1) count) = k + count := by
  induction count generalizing k next with
  | zero => exact Nat.le_antisymm hnext hk
  | succ count ih =>
    rw [List.range'_succ, acceptAll_cons, ih (k := k + 1), Nat.add_right_comm, Nat.add_assoc]
    · unfold accept
      split_ifs <;> omega
    · unfold accept
      split_ifs <;> omega

end NexgileIde.Library
