import Mathlib.Data.List.Basic
import Mathlib.Tactic

/-!
# Doubly linked chains

Two links for every item, and two ends, hold a list. A change of a chain is stated by what the links
of the items that stay become; the mirror image of a chain is a chain, so that each change at one end
gives the change at the other.
-/

namespace NexgileIde.Library

/-- The links and the ends hold the list. -/
structure IsChain (next previous : ℕ → Option ℕ) (head tail : Option ℕ) (xs : List ℕ) : Prop where
  nodup : xs.Nodup
  head : head = xs.head?
  tail : tail = xs.getLast?
  next : ∀ as i bs, xs = as ++ i :: bs → next i = bs.head?
  previous : ∀ as i bs, xs = as ++ i :: bs → previous i = as.getLast?

namespace IsChain

variable {next previous next' previous' : ℕ → Option ℕ} {head tail : Option ℕ} {xs as bs : List ℕ}
  {i : ℕ}

theorem nil (next previous : ℕ → Option ℕ) : IsChain next previous none none [] where
  nodup := .nil
  head := rfl
  tail := rfl
  next as i bs h := by simp at h
  previous as i bs h := by simp at h

/-- The mirror image -/
theorem reverse (h : IsChain next previous head tail xs) :
    IsChain previous next tail head xs.reverse where
  nodup := List.nodup_reverse.mpr h.nodup
  head := by rw [List.head?_reverse, h.tail]
  tail := by rw [List.getLast?_reverse, h.head]
  next as i bs heq := by
    rw [List.reverse_eq_iff, List.reverse_append, List.reverse_cons, List.append_assoc] at heq
    rw [h.previous _ i _ heq, List.getLast?_reverse]
  previous as i bs heq := by
    rw [List.reverse_eq_iff, List.reverse_append, List.reverse_cons, List.append_assoc] at heq
    exact (h.next bs.reverse i as.reverse heq).trans List.head?_reverse

theorem of_reverse (h : IsChain previous next tail head xs.reverse) :
    IsChain next previous head tail xs := by
  have := h.reverse
  rwa [List.reverse_reverse] at this

/-- Only the links of the items matter. -/
theorem congr (h : IsChain next previous head tail xs) (hnext : ∀ j ∈ xs, next' j = next j)
    (hprevious : ∀ j ∈ xs, previous' j = previous j) :
    IsChain next' previous' head tail xs where
  nodup := h.nodup
  head := h.head
  tail := h.tail
  next as i bs heq := (hnext i (heq ▸ by simp)).trans (h.next as i bs heq)
  previous as i bs heq := (hprevious i (heq ▸ by simp)).trans (h.previous as i bs heq)

theorem head_eq_none (h : IsChain next previous head tail xs) : head = none ↔ xs = [] := by
  rw [h.head, List.head?_eq_none_iff]

theorem tail_eq_none (h : IsChain next previous head tail xs) : tail = none ↔ xs = [] := by
  rw [h.tail, List.getLast?_eq_none_iff]

/-- The first link of an item that is not the last one is to what follows. -/
theorem getLast?_ne_of_split (hnodup : (as ++ i :: bs).Nodup) (hbs : bs ≠ []) :
    (as ++ i :: bs).getLast? ≠ some i := by
  rw [List.getLast?_append_cons, List.getLast?_cons_of_ne_nil hbs]
  intro hlast
  exact (List.nodup_cons.mp (List.nodup_append.mp hnodup).2.1).1 (List.mem_of_getLast? hlast)

/-- A new item behind the last one -/
theorem append (h : IsChain next previous head tail xs) (hi : i ∉ xs)
    (hnext : next' i = none) (hprevious : previous' i = tail)
    (hnext' : ∀ j ∈ xs, next' j = if tail = some j then some i else next j)
    (hprevious' : ∀ j ∈ xs, previous' j = previous j) :
    IsChain next' previous' (head.or (some i)) (some i) (xs ++ [i]) where
  nodup := h.nodup.append (List.nodup_singleton i) (by simpa using hi)
  head := by rw [h.head, List.head?_append]; rfl
  tail := by simp
  next as j bs heq := by
    rcases List.eq_nil_or_concat bs with rfl | ⟨bs, k, rfl⟩
    · obtain ⟨rfl, hij⟩ := List.append_inj' heq rfl
      cases hij
      exact hnext
    · rw [List.concat_eq_append, ← List.cons_append, ← List.append_assoc] at heq
      obtain ⟨rfl, hik⟩ := List.append_inj' heq rfl
      cases hik
      rw [hnext' j (by simp), h.tail, h.next as j bs rfl, List.concat_eq_append, List.head?_append]
      cases bs with
      | nil => simp
      | cons b bs => rw [if_neg (getLast?_ne_of_split h.nodup (by simp))]; rfl
  previous as j bs heq := by
    rcases List.eq_nil_or_concat bs with rfl | ⟨bs, k, rfl⟩
    · obtain ⟨rfl, hij⟩ := List.append_inj' heq rfl
      cases hij
      rw [hprevious, h.tail]
    · rw [List.concat_eq_append, ← List.cons_append, ← List.append_assoc] at heq
      obtain ⟨rfl, hik⟩ := List.append_inj' heq rfl
      rw [hprevious' j (by simp), h.previous as j bs rfl]

theorem next_remove (h : IsChain next previous head tail (as ++ i :: bs))
    (hnext : ∀ j ∈ as ++ bs, next' j = if as.getLast? = some j then bs.head? else next j)
    (cs : List ℕ) (j : ℕ) (ds : List ℕ) (heq : as ++ bs = cs ++ j :: ds) : next' j = ds.head? := by
  obtain ⟨has, hibs, hdisjoint⟩ := List.nodup_append.mp h.nodup
  have hbehind : ∀ ts, bs = ts ++ j :: ds → next' j = ds.head? := by
    rintro ts rfl
    have hlast : as.getLast? ≠ some j := fun hlast =>
      hdisjoint j (List.mem_of_getLast? hlast) j (by simp) rfl
    rw [hnext j (by simp), if_neg hlast]
    exact h.next (as ++ i :: ts) j ds (by simp)
  rcases List.append_eq_append_iff.mp heq with ⟨ts, -, hbs⟩ | ⟨ts, rfl, hds⟩
  · exact hbehind ts hbs
  · cases ts with
    | nil => exact hbehind [] hds.symm
    | cons t ts =>
      rw [List.cons_append, List.cons.injEq] at hds
      obtain ⟨rfl, rfl⟩ := hds
      rw [hnext j (by simp)]
      cases ts with
      | nil => simp
      | cons t ts =>
        rw [if_neg (getLast?_ne_of_split has (by simp))]
        exact h.next cs j (t :: ts ++ i :: bs) (by simp)

/-- The item is taken out: its neighbours are linked. -/
theorem remove (h : IsChain next previous head tail (as ++ i :: bs))
    (hnext : ∀ j ∈ as ++ bs, next' j = if as.getLast? = some j then bs.head? else next j)
    (hprevious : ∀ j ∈ as ++ bs,
      previous' j = if bs.head? = some j then as.getLast? else previous j) :
    IsChain next' previous' (as ++ bs).head? (as ++ bs).getLast? (as ++ bs) := by
  obtain ⟨has, hibs, hdisjoint⟩ := List.nodup_append.mp h.nodup
  refine ⟨?_, rfl, rfl, h.next_remove hnext, fun cs j ds heq => ?_⟩
  · exact List.nodup_append.mpr ⟨has, (List.nodup_cons.mp hibs).2, fun a ha b hb =>
      hdisjoint a ha b (List.mem_cons_of_mem i hb)⟩
  · have hreverse : IsChain previous next tail head (bs.reverse ++ i :: as.reverse) := by
      have := h.reverse
      rwa [List.reverse_append, List.reverse_cons, List.append_assoc] at this
    rw [← List.head?_reverse]
    refine hreverse.next_remove (fun j hj => ?_) ds.reverse j cs.reverse ?_
    · rw [List.getLast?_reverse, List.head?_reverse]
      exact hprevious j (by simpa [or_comm] using hj)
    · rw [← List.reverse_append, heq]
      simp

/-- The first items are cut off. -/
theorem drop (h : IsChain next previous head tail (as ++ bs)) (hbs : bs ≠ [])
    (hnext : ∀ j ∈ bs, next' j = next j)
    (hprevious : ∀ j ∈ bs, previous' j = if bs.head? = some j then none else previous j) :
    IsChain next' previous' bs.head? tail bs where
  nodup := (List.nodup_append.mp h.nodup).2.1
  head := rfl
  tail := by
    rw [h.tail, List.getLast?_append]
    cases hlast : bs.getLast? with
    | none => exact absurd (List.getLast?_eq_none_iff.mp hlast) hbs
    | some j => rfl
  next cs j ds heq := by
    rw [hnext j (heq ▸ by simp)]
    exact h.next (as ++ cs) j ds (by rw [heq, List.append_assoc])
  previous cs j ds heq := by
    subst heq
    have hnodup := (List.nodup_append.mp h.nodup).2.1
    rw [hprevious j (by simp), h.previous (as ++ cs) j ds (by simp)]
    cases cs with
    | nil => simp
    | cons c cs =>
      have hne : c ≠ j := fun heq => (List.nodup_cons.mp hnodup).1 (by simp [heq])
      rw [if_neg (by simpa using hne), List.getLast?_append_cons]

end IsChain

/-- What is met on following a link until there is none. -/
inductive Follows (link : ℕ → Option ℕ) : Option ℕ → List ℕ → Prop
  | done : Follows link none []
  | step {i : ℕ} {xs : List ℕ} : Follows link (link i) xs → Follows link (some i) (i :: xs)

theorem IsChain.follows_next {next previous : ℕ → Option ℕ} {head tail : Option ℕ} {xs : List ℕ}
    (h : IsChain next previous head tail xs) : Follows next head xs := by
  have hsuffix : ∀ as bs, xs = as ++ bs → Follows next bs.head? bs := by
    intro as bs
    induction bs generalizing as with
    | nil => exact fun _ => .done
    | cons i bs ih =>
      intro heq
      have hrest := ih (as ++ [i]) (by rw [heq, List.append_assoc]; rfl)
      rw [← h.next as i bs heq] at hrest
      exact .step hrest
  rw [h.head]
  exact hsuffix [] xs rfl

/-- One link gives the list, and the other one its reverse. -/
theorem IsChain.follows {next previous : ℕ → Option ℕ} {head tail : Option ℕ} {xs : List ℕ}
    (h : IsChain next previous head tail xs) :
    Follows next head xs ∧ Follows previous tail xs.reverse :=
  ⟨h.follows_next, h.reverse.follows_next⟩

end NexgileIde.Library
