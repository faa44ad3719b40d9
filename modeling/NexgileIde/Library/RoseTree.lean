import Mathlib

/-!
# Labelled trees and places in them

A node has a label and a list of children; a place is the list of the indices on the way to it.
What is done at a place leaves alone what is beside the way to it.
-/

namespace NexgileIde.Library

inductive RoseTree (α : Type)
  | node (label : α) (children : List (RoseTree α))

namespace RoseTree

variable {α : Type}

def label : RoseTree α → α
  | node a _ => a

def children : RoseTree α → List (RoseTree α)
  | node _ ts => ts

@[simp] theorem label_node (a : α) (ts : List (RoseTree α)) : (node a ts).label = a := rfl

@[simp] theorem children_node (a : α) (ts : List (RoseTree α)) : (node a ts).children = ts := rfl

section Places

/-- The subtree at a place. -/
def get? : RoseTree α → List ℕ → Option (RoseTree α)
  | t, [] => some t
  | node _ ts, i :: is => ts[i]?.bind fun t => t.get? is

/-- Puts another subtree at a place. -/
def replaceAt (s : RoseTree α) : List ℕ → RoseTree α → RoseTree α
  | [], _ => s
  | i :: is, node a ts => node a (ts.modify i (replaceAt s is))

/-- Changes the labels on the way to a place, the one at the place included. -/
def mapPath (f : α → α) : List ℕ → RoseTree α → RoseTree α
  | [], node a ts => node (f a) ts
  | i :: is, node a ts => node (f a) (ts.modify i (mapPath f is))

/-- The labels on the way to a place, the one at the place left out. -/
def labelsAbove : List ℕ → RoseTree α → List α
  | [], _ => []
  | i :: is, node a ts => a :: (ts[i]?.elim [] (labelsAbove is))

@[simp] theorem get?_nil (t : RoseTree α) : t.get? [] = some t := by
  cases t
  rfl

@[simp] theorem get?_cons (a : α) (ts : List (RoseTree α)) (i : ℕ) (is : List ℕ) :
    (node a ts).get? (i :: is) = ts[i]?.bind fun t => t.get? is := rfl

/-- A list around one of its elements. -/
theorem exists_around {γ : Type*} {xs : List γ} {i : ℕ} {x : γ} (h : xs[i]? = some x) :
    ∃ as bs, xs = as ++ x :: bs ∧ as.length = i := by
  obtain ⟨hi, rfl⟩ := List.getElem?_eq_some_iff.mp h
  refine ⟨xs.take i, xs.drop (i + 1), ?_, by simp [hi.le]⟩
  rw [List.cons_getElem_drop_succ, List.take_append_drop]

@[simp] theorem modify_around {γ : Type*} (as : List γ) (x : γ) (bs : List γ) (f : γ → γ) :
    (as ++ x :: bs).modify as.length f = as ++ f x :: bs := by
  induction as with
  | nil => rfl
  | cons a as ih => simp [ih]

theorem forall_mem_around {γ : Type*} {P : γ → Prop} {as bs : List γ} {x y : γ}
    (h : ∀ s ∈ as ++ x :: bs, P s) (hy : P y) : ∀ s ∈ as ++ y :: bs, P s := by
  intro s hs
  rcases List.mem_append.mp hs with hs | hs
  · exact h s (by simp [hs])
  · rcases List.mem_cons.mp hs with rfl | hs
    · exact hy
    · exact h s (by simp [hs])

/-- The children around the one on the way to a place. -/
theorem get?_cons_eq_some {a : α} {ts : List (RoseTree α)} {i : ℕ} {is : List ℕ}
    {u : RoseTree α} (h : (node a ts).get? (i :: is) = some u) :
    ∃ as t bs, ts = as ++ t :: bs ∧ as.length = i ∧ t.get? is = some u := by
  rw [get?_cons, Option.bind_eq_some_iff] at h
  obtain ⟨t, ht, hu⟩ := h
  obtain ⟨as, bs, hts, hi⟩ := exists_around ht
  exact ⟨as, t, bs, hts, hi, hu⟩

theorem get?_append (t : RoseTree α) (p q : List ℕ) :
    t.get? (p ++ q) = (t.get? p).bind fun u => u.get? q := by
  induction p generalizing t with
  | nil => simp
  | cons i p ih =>
    cases t with
    | node a ts =>
      rw [List.cons_append, get?_cons, get?_cons]
      cases ts[i]? with
      | none => rfl
      | some t => exact ih t

theorem mapPath_id {f : α → α} (h : ∀ a, f a = a) (p : List ℕ) (t : RoseTree α) :
    mapPath f p t = t := by
  induction p generalizing t with
  | nil =>
    cases t
    rw [mapPath, h]
  | cons i p ih =>
    cases t
    rw [mapPath, h, funext ih]
    exact congrArg _ (List.modify_id ..)

end Places

end RoseTree

end NexgileIde.Library
