import NexgileIde.Base.Arrays
import Mathlib.Order.Interval.Set.Basic

/-!
# Sets as lists of intervals

A set of points of a linear order is listed as half-open intervals that are not empty, in order
and with a gap between any two. The intervals are of any type that has two ends.
-/
namespace NexgileIde.Library

open Base (Border Monotonous)

namespace Intervals

variable {T α : Type} [LinearOrder α] {lo hi : T → α}

/-- The points of some intervals. -/
def members (lo hi : T → α) (intervals : List T) : Set α :=
  {x | ∃ r ∈ intervals, lo r ≤ x ∧ x < hi r}

theorem mem_members {intervals : List T} {x : α} :
    x ∈ members lo hi intervals ↔ ∃ r ∈ intervals, lo r ≤ x ∧ x < hi r := Iff.rfl

@[simp] theorem members_nil : members lo hi [] = ∅ := by
  ext x
  simp [mem_members]

@[simp] theorem members_cons (r : T) (intervals : List T) :
    members lo hi (r :: intervals) = Set.Ico (lo r) (hi r) ∪ members lo hi intervals := by
  ext x
  simp [mem_members]

@[simp] theorem members_append (front back : List T) :
    members lo hi (front ++ back) = members lo hi front ∪ members lo hi back := by
  ext x
  simp only [mem_members, List.mem_append, Set.mem_union]
  constructor
  · rintro ⟨r, hr | hr, hx⟩
    · exact .inl ⟨r, hr, hx⟩
    · exact .inr ⟨r, hr, hx⟩
  · rintro (⟨r, hr, hx⟩ | ⟨r, hr, hx⟩)
    · exact ⟨r, .inl hr, hx⟩
    · exact ⟨r, .inr hr, hx⟩

/-- The normal form. -/
structure Separated (lo hi : T → α) (intervals : List T) : Prop where
  lt : ∀ r ∈ intervals, lo r < hi r
  gaps : intervals.Pairwise fun a b => hi a < lo b

theorem separated_nil : Separated lo hi [] := ⟨nofun, .nil⟩

variable {intervals front back : List T} {r : T}

theorem separated_append : Separated lo hi (front ++ back) ↔
    Separated lo hi front ∧ Separated lo hi back ∧ ∀ a ∈ front, ∀ b ∈ back, hi a < lo b := by
  constructor
  · rintro ⟨hlt, hgaps⟩
    obtain ⟨hfront, hback, hbetween⟩ := List.pairwise_append.1 hgaps
    exact ⟨⟨fun a ha => hlt a (List.mem_append_left _ ha), hfront⟩,
      ⟨fun b hb => hlt b (List.mem_append_right _ hb), hback⟩, hbetween⟩
  · rintro ⟨hfront, hback, hbetween⟩
    refine ⟨fun a ha => ?_, List.pairwise_append.2 ⟨hfront.gaps, hback.gaps, hbetween⟩⟩
    rcases List.mem_append.1 ha with ha | ha
    · exact hfront.lt a ha
    · exact hback.lt a ha

theorem separated_cons : Separated lo hi (r :: intervals) ↔
    lo r < hi r ∧ Separated lo hi intervals ∧ ∀ b ∈ intervals, hi r < lo b := by
  constructor
  · rintro ⟨hlt, hgaps⟩
    obtain ⟨hbetween, htail⟩ := List.pairwise_cons.1 hgaps
    exact ⟨hlt r List.mem_cons_self, ⟨fun a ha => hlt a (List.mem_cons_of_mem r ha), htail⟩, hbetween⟩
  · rintro ⟨hr, htail, hbetween⟩
    refine ⟨fun a ha => ?_, List.pairwise_cons.2 ⟨hbetween, htail.gaps⟩⟩
    rcases List.mem_cons.1 ha with rfl | ha
    · exact hr
    · exact htail.lt a ha

theorem Separated.lo_mem (h : Separated lo hi intervals) (hr : r ∈ intervals) :
    lo r ∈ members lo hi intervals := ⟨r, hr, le_refl _, h.lt r hr⟩

/-- Two of the intervals are the same, or there is a gap between them. -/
theorem Separated.eq_or_gap (h : Separated lo hi intervals) {a b : T} (ha : a ∈ intervals)
    (hb : b ∈ intervals) : a = b ∨ hi a < lo b ∨ hi b < lo a := by
  induction intervals with
  | nil => cases ha
  | cons r rest ih =>
    obtain ⟨-, hrest, hbetween⟩ := separated_cons.1 h
    rcases List.mem_cons.1 ha with rfl | ha'
    · rcases List.mem_cons.1 hb with rfl | hb'
      · exact .inl rfl
      · exact .inr (.inl (hbetween b hb'))
    · rcases List.mem_cons.1 hb with rfl | hb'
      · exact .inr (.inr (hbetween a ha'))
      · exact ih hrest ha' hb'

theorem Separated.head_lo_le (h : Separated lo hi (r :: intervals)) {x : α}
    (hx : x ∈ members lo hi (r :: intervals)) : lo r ≤ x := by
  obtain ⟨hr, -, hbetween⟩ := separated_cons.1 h
  obtain ⟨a, ha, hax, -⟩ := hx
  rcases List.mem_cons.1 ha with rfl | ha
  · exact hax
  · exact (hr.trans (hbetween a ha)).le.trans hax

theorem Separated.tail_lt (h : Separated lo hi (r :: intervals)) {x : α}
    (hx : x ∈ members lo hi intervals) : hi r < x := by
  obtain ⟨a, ha, hax, -⟩ := hx
  exact ((separated_cons.1 h).2.2 a ha).trans_le hax

/-! ## Searching -/

theorem Separated.monotonous_lo_le (h : Separated lo hi intervals) (x : α) :
    Monotonous intervals fun r => lo r ≤ x := by
  refine h.gaps.imp_of_mem fun {a b} ha _ hgap hb => ?_
  exact ((h.lt a ha).trans hgap).le.trans hb

theorem Separated.monotonous_lo_lt (h : Separated lo hi intervals) (x : α) :
    Monotonous intervals fun r => lo r < x := by
  refine h.gaps.imp_of_mem fun {a b} ha _ hgap hb => ?_
  exact ((h.lt a ha).trans hgap).trans hb

theorem Separated.monotonous_hi_lt (h : Separated lo hi intervals) (x : α) :
    Monotonous intervals fun r => ¬ x ≤ hi r := by
  refine h.gaps.imp_of_mem fun {a b} _ hb hgap hbehind hle => ?_
  exact hbehind (hle.trans (hgap.trans (h.lt b hb)).le)

/-- The intervals in front of a range, those that touch it, and those behind it. -/
theorem Separated.split (h : Separated lo hi intervals) {s t : α} (hst : s ≤ t) {i e : ℕ}
    (hi' : Border intervals (fun r => ¬ s ≤ hi r) i)
    (he : Border intervals (fun r => lo r ≤ t) e) :
    i ≤ e ∧ intervals = intervals.take i ++ ((intervals.take e).drop i ++ intervals.drop e) ∧
      ∀ r ∈ (intervals.take e).drop i, s ≤ hi r ∧ lo r ≤ t := by
  have hie : i ≤ e := by
    by_contra hlt
    have hlength := hi'.le_length
    obtain ⟨r, hr⟩ : ∃ r, intervals[e]? = some r :=
      ⟨_, List.getElem?_eq_getElem (by omega)⟩
    have hfront : r ∈ intervals.take i :=
      List.mem_iff_getElem?.2 ⟨e, by rw [List.getElem?_take, if_pos (by omega), hr]⟩
    have hbehind : r ∈ intervals.drop e :=
      List.mem_iff_getElem?.2 ⟨0, by rw [List.getElem?_drop, Nat.add_zero, hr]⟩
    have hmem : r ∈ intervals := List.mem_of_mem_take hfront
    have hlt' := (h.lt r hmem).trans (lt_of_not_ge (hi'.front r hfront))
    exact he.behind r hbehind (hlt'.le.trans hst)
  refine ⟨hie, ?_, fun r hr => ⟨?_, ?_⟩⟩
  · have htake : intervals.take i = (intervals.take e).take i := by
      rw [List.take_take, min_eq_left hie]
    rw [← List.append_assoc, htake, List.take_append_drop, List.take_append_drop]
  · have hdrop : r ∈ intervals.drop i := by
      rw [List.drop_take] at hr
      exact List.mem_of_mem_take hr
    exact not_not.1 (hi'.behind r hdrop)
  · exact he.front r (List.mem_of_mem_drop hr)

/-- Intervals that touch a range fill it up to one interval. -/
theorem Separated.hull (h : Separated lo hi intervals) {s t : α}
    (htouch : ∀ r ∈ intervals, s ≤ hi r ∧ lo r ≤ t) {first last : T}
    (hfirst : intervals.head? = some first) (hlast : intervals.getLast? = some last) :
    Set.Ico (min (lo first) s) (max (hi last) t) = Set.Ico s t ∪ members lo hi intervals := by
  have hmemFirst := List.mem_of_head? hfirst
  have hmemLast := List.mem_of_getLast? hlast
  ext x
  simp only [Set.mem_Ico, min_le_iff, lt_max_iff, Set.mem_union]
  constructor
  · rintro ⟨hx, hx'⟩
    by_cases hs : s ≤ x
    · by_cases ht : x < t
      · exact .inl ⟨hs, ht⟩
      · have hlt : x < hi last := hx'.resolve_right ht
        exact .inr ⟨last, hmemLast, (htouch last hmemLast).2.trans (le_of_not_gt ht), hlt⟩
    · have hle : lo first ≤ x := hx.resolve_right hs
      exact .inr ⟨first, hmemFirst, hle, (lt_of_not_ge hs).trans_le (htouch first hmemFirst).1⟩
  · rintro (⟨hs, ht⟩ | ⟨r, hr, hlo, hhi⟩)
    · exact ⟨.inr hs, .inr ht⟩
    · obtain ⟨rest, rfl⟩ : ∃ rest, intervals = first :: rest := by
        cases intervals with
        | nil => cases hfirst
        | cons a rest => exact ⟨rest, by rw [Option.some.inj hfirst]⟩
      have hle : hi r ≤ hi last := by
        obtain ⟨init, hinit⟩ := List.getLast?_eq_some_iff.1 hlast
        rw [hinit] at hr h
        obtain ⟨-, hsingle, hbetween⟩ := separated_append.1 h
        rcases List.mem_append.1 hr with hr | hr
        · exact ((hbetween r hr last List.mem_cons_self).trans
            (hsingle.lt last List.mem_cons_self)).le
        · rw [List.mem_singleton.1 hr]
      exact ⟨.inl (h.head_lo_le ⟨r, hr, hlo, hhi⟩), .inl (hhi.trans_le hle)⟩

end Intervals

end NexgileIde.Library
