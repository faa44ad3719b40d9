import NexgileIde.Base.Arrays
import NexgileIde.Edits.StringEdit

/-!
# Annotations of a text

Annotations are kept in the order of the text. Setting some of them replaces the slice of
the array that binary searches over the starts and over the ends find.
-/
namespace NexgileIde.Tokens

open Base
open Edits (OffsetRange)

/-- An `IAnnotation`: a value for a range of offsets. -/
structure AnnotationOf (T : Type) where
  range : OffsetRange
  annotationData : T
  deriving DecidableEq

/-- An update without a value removes what it meets. -/
structure AnnotationUpdate (T : Type) where
  range : OffsetRange
  annotationData : Option T

structure AnnotatedString (T : Type) where
  annotations : List (AnnotationOf T)
  deriving DecidableEq

variable {T : Type}

/-- What the update puts in the place of the annotations it meets. -/
def AnnotationUpdate.toAnnotationOf (update : AnnotationUpdate T) : Option (AnnotationOf T) :=
  update.annotationData.map fun value => ⟨update.range, value⟩

theorem AnnotationUpdate.range_eq_of_mem {update : AnnotationUpdate T} {a : AnnotationOf T}
    (h : a ∈ update.toAnnotationOf) : a.range = update.range := by
  obtain ⟨value, -, rfl⟩ := Option.map_eq_some_iff.mp h
  rfl

/-- `array[index]` -/
def elementAt {α : Type} (array : List α) (index : ℤ) : Option α :=
  if index < 0 then none else array[index.toNat]?

theorem elementAt_natCast {α : Type} (array : List α) (index : ℕ) :
    elementAt array index = array[index]? := by
  unfold elementAt
  rw [if_neg (by omega), Int.toNat_natCast]

theorem elementAt_neg {α : Type} (array : List α) {index : ℤ} (h : index < 0) :
    elementAt array index = none := if_pos h

/-- `array.splice(start, deleteCount, ...items)` -/
def splice {α : Type} (array : List α) (start deleteCount : ℤ) (items : List α) : List α :=
  let index := if start < 0 then (array.length + start).toNat else min start.toNat array.length
  array.take index ++ items ++ array.drop (index + deleteCount.toNat)

theorem splice_natCast {α : Type} (array : List α) {start stop : ℕ} (items : List α)
    (hle : start ≤ stop) (hlength : start ≤ array.length) :
    splice array start (stop - start) items = array.take start ++ items ++ array.drop stop := by
  have hcount : ((stop : ℤ) - start).toNat = stop - start := by omega
  unfold splice
  rw [if_neg (by omega), hcount, Int.toNat_natCast, Nat.min_eq_left hlength]
  dsimp only
  rw [Nat.add_sub_cancel' hle]

namespace AnnotatedString

def getStartIndexOfIntersectingAnnotation (s : AnnotatedString T) (offset : ℤ) : ℤ :=
  let startIndexWhereToReplace := binarySearch2 s.annotations.length fun index =>
    s.annotations[index]?.elim 0 fun a => a.range.start - offset
  if 0 ≤ startIndexWhereToReplace then
    match elementAt s.annotations startIndexWhereToReplace with
    | some nextCandidate =>
      if nextCandidate.range.endExclusive = offset then startIndexWhereToReplace - 1
      else startIndexWhereToReplace
    | none => startIndexWhereToReplace
  else
    match elementAt s.annotations (-(startIndexWhereToReplace + 2)) with
    | some candidate =>
      if candidate.range.start ≤ offset ∧ offset < candidate.range.endExclusive then
        -(startIndexWhereToReplace + 2)
      else -(startIndexWhereToReplace + 1)
    | none => -(startIndexWhereToReplace + 1)

def getEndIndexOfIntersectingAnnotation (s : AnnotatedString T) (offset : ℤ) : ℤ :=
  let endIndexWhereToReplace := binarySearch2 s.annotations.length fun index =>
    s.annotations[index]?.elim 0 fun a => a.range.endExclusive - offset
  if 0 ≤ endIndexWhereToReplace then
    match elementAt s.annotations (endIndexWhereToReplace + 1) with
    | some nextCandidate =>
      -- also the next annotation if it starts exactly at the offset
      if nextCandidate.range.start = offset then endIndexWhereToReplace + 1 + 1
      else endIndexWhereToReplace + 1
    | none => endIndexWhereToReplace + 1
  else
    match elementAt s.annotations (-(endIndexWhereToReplace + 1)) with
    | some candidate =>
      if candidate.range.start ≤ offset ∧ offset ≤ candidate.range.endExclusive then
        -endIndexWhereToReplace
      else -(endIndexWhereToReplace + 1)
    | none => -(endIndexWhereToReplace + 1)

/-- One turn of the loop of `setAnnotations`. -/
def applyUpdate (s : AnnotatedString T) (update : AnnotationUpdate T) : AnnotatedString T :=
  let startIndex := s.getStartIndexOfIntersectingAnnotation update.range.start
  let endIndexExclusive := s.getEndIndexOfIntersectingAnnotation update.range.endExclusive
  ⟨splice s.annotations startIndex (endIndexExclusive - startIndex)
    update.toAnnotationOf.toList⟩

def setAnnotations (s : AnnotatedString T) (updates : List (AnnotationUpdate T)) :
    AnnotatedString T :=
  updates.foldl applyUpdate s

end AnnotatedString

/-- The ranges are sorted, disjoint and not empty. -/
def Apart (ranges : List OffsetRange) : Prop :=
  (∀ r ∈ ranges, r.start < r.endExclusive) ∧
    ranges.Pairwise fun r r' => r.endExclusive ≤ r'.start

instance (ranges : List OffsetRange) : Decidable (Apart ranges) :=
  inferInstanceAs (Decidable (_ ∧ _))

/-- The annotations are sorted, disjoint and not empty. -/
def AnnotatedString.Valid (s : AnnotatedString T) : Prop := Apart (s.annotations.map (·.range))

instance (s : AnnotatedString T) : Decidable s.Valid := inferInstanceAs (Decidable (Apart _))

namespace AnnotatedString

section Search

variable {s : AnnotatedString T}

theorem Valid.nonempty (h : s.Valid) {i : ℕ} {a : AnnotationOf T}
    (ha : s.annotations[i]? = some a) : a.range.start < a.range.endExclusive :=
  h.1 a.range (List.mem_map_of_mem (List.mem_of_getElem? ha))

theorem Valid.le (h : s.Valid) {i j : ℕ} (hij : i < j) {a b : AnnotationOf T}
    (ha : s.annotations[i]? = some a) (hb : s.annotations[j]? = some b) :
    a.range.endExclusive ≤ b.range.start := by
  obtain ⟨hi, rfl⟩ := List.getElem?_eq_some_iff.mp ha
  obtain ⟨hj, rfl⟩ := List.getElem?_eq_some_iff.mp hb
  exact List.pairwise_iff_getElem.mp (List.pairwise_map.mp h.2) i j hi hj hij

/-- A border is where a property of the annotations ends. -/
theorem border_of {property : AnnotationOf T → Prop} {i : ℕ} (hle : i ≤ s.annotations.length)
    (hfront : ∀ n a, n < i → s.annotations[n]? = some a → property a)
    (hbehind : ∀ n a, i ≤ n → s.annotations[n]? = some a → ¬ property a) :
    Border s.annotations property i :=
  Bracket.border ⟨le_rfl, hle, hfront, hbehind⟩

theorem below_succ {property : AnnotationOf T → Prop} {p : ℕ} {a : AnnotationOf T}
    (ha : s.annotations[p]? = some a) (hproperty : property a)
    (hbelow : ∀ n b, n < p → s.annotations[n]? = some b → property b) :
    ∀ n b, n < p + 1 → s.annotations[n]? = some b → property b := by
  intro n b hn hb
  rcases (Nat.lt_succ_iff.mp hn).lt_or_eq with hlt | rfl
  · exact hbelow n b hlt hb
  · obtain rfl := Option.some.inj (ha.symm.trans hb)
    exact hproperty

theorem behind_self {property : AnnotationOf T → Prop} {p : ℕ} {a : AnnotationOf T}
    (ha : s.annotations[p]? = some a) (hproperty : property a)
    (hbehind : ∀ n b, p < n → s.annotations[n]? = some b → property b) :
    ∀ n b, p ≤ n → s.annotations[n]? = some b → property b := by
  intro n b hn hb
  rcases hn.lt_or_eq with hlt | rfl
  · exact hbehind n b hlt hb
  · obtain rfl := Option.some.inj (ha.symm.trans hb)
    exact hproperty

theorem behind_none {property : AnnotationOf T → Prop} {p : ℕ} (hnone : s.annotations[p]? = none) :
    ∀ n b, p ≤ n → s.annotations[n]? = some b → property b := by
  intro n b hn hb
  have hlt := (List.getElem?_eq_some_iff.mp hb).1
  have hlength := List.getElem?_eq_none_iff.mp hnone
  omega

theorem Valid.sorted_starts (h : s.Valid) (offset : ℤ) :
    Sorted s.annotations.length fun index =>
      s.annotations[index]?.elim 0 fun a => a.range.start - offset := by
  have key : ∀ (i j : ℕ) (a b : AnnotationOf T), i ≤ j → s.annotations[i]? = some a →
      s.annotations[j]? = some b →
      a.range.start ≤ b.range.start := by
    intro i j a b hij ha hb
    rcases hij.lt_or_eq with hlt | rfl
    · exact (h.nonempty ha).le.trans (h.le hlt ha hb)
    · obtain rfl := Option.some.inj (ha.symm.trans hb)
      exact le_rfl
  constructor
  all_goals
    intro i j hij hj
    have hi : i < s.annotations.length := lt_of_le_of_lt hij hj
    have hle := key i j _ _ hij (List.getElem?_eq_getElem hi) (List.getElem?_eq_getElem hj)
    simp only [List.getElem?_eq_getElem hj, List.getElem?_eq_getElem hi, Option.elim_some]
    omega

theorem Valid.sorted_ends (h : s.Valid) (offset : ℤ) :
    Sorted s.annotations.length fun index =>
      s.annotations[index]?.elim 0 fun a => a.range.endExclusive - offset := by
  have key : ∀ (i j : ℕ) (a b : AnnotationOf T), i ≤ j → s.annotations[i]? = some a →
      s.annotations[j]? = some b →
      a.range.endExclusive ≤ b.range.endExclusive := by
    intro i j a b hij ha hb
    rcases hij.lt_or_eq with hlt | rfl
    · exact (h.le hlt ha hb).trans (h.nonempty hb).le
    · obtain rfl := Option.some.inj (ha.symm.trans hb)
      exact le_rfl
  constructor
  all_goals
    intro i j hij hj
    have hi : i < s.annotations.length := lt_of_le_of_lt hij hj
    have hle := key i j _ _ hij (List.getElem?_eq_getElem hi) (List.getElem?_eq_getElem hj)
    simp only [List.getElem?_eq_getElem hj, List.getElem?_eq_getElem hi, Option.elim_some]
    omega

/-- The annotations in front of the start index end at or before the offset. -/
theorem Valid.startIndex_border (h : s.Valid) (offset : ℤ) :
    ∃ i : ℕ, s.getStartIndexOfIntersectingAnnotation offset = i ∧
      Border s.annotations (fun a => a.range.endExclusive ≤ offset) i := by
  have hsearch := binarySearch2_searched (h.sorted_starts offset)
  unfold getStartIndexOfIntersectingAnnotation
  generalize binarySearch2 s.annotations.length _ = found at hsearch ⊢
  dsimp only
  cases hsearch with
  | @found i hi hzero =>
    obtain ⟨a, ha⟩ : ∃ a, s.annotations[i]? = some a := ⟨_, List.getElem?_eq_getElem hi⟩
    simp only [ha, Option.elim_some] at hzero
    have hne := h.nonempty ha
    rw [if_pos (Int.natCast_nonneg i), elementAt_natCast, ha]
    dsimp only
    rw [if_neg (by omega)]
    refine ⟨i, rfl, border_of hi.le ?_ (behind_self ha (by omega) ?_)⟩
    · intro n b hn hb
      have := h.le hn hb ha
      omega
    · intro n b hn hb
      have := h.le hn ha hb
      have := h.nonempty hb
      omega
  | @missing p hp hbelow habove =>
    have hbehind : ∀ n b, p ≤ n → s.annotations[n]? = some b → ¬ b.range.endExclusive ≤ offset := by
      intro n b hn hb
      have := habove n hn (List.getElem?_eq_some_iff.mp hb).1
      simp only [hb, Option.elim_some] at this
      have := h.nonempty hb
      omega
    rw [if_neg (by omega)]
    cases p with
    | zero =>
      rw [elementAt_neg _ (by omega)]
      exact ⟨0, by simp, border_of hp (by omega) hbehind⟩
    | succ p =>
      have hcandidate : -(-(((p + 1 : ℕ) : ℤ) + 1) + 2) = (p : ℤ) := by omega
      obtain ⟨a, ha⟩ : ∃ a, s.annotations[p]? = some a := ⟨_, List.getElem?_eq_getElem (by omega)⟩
      have hstart := hbelow p (Nat.lt_succ_self p)
      simp only [ha, Option.elim_some] at hstart
      have hfront : ∀ n b, n < p → s.annotations[n]? = some b → b.range.endExclusive ≤ offset := by
        intro n b hn hb
        have := h.le hn hb ha
        omega
      rw [hcandidate, elementAt_natCast, ha]
      dsimp only
      split_ifs with hin
      · exact ⟨p, rfl, border_of (by omega) hfront (behind_self ha (by omega) hbehind)⟩
      · exact ⟨p + 1, by omega, border_of hp (below_succ ha (by omega) hfront) hbehind⟩

/-- The annotations in front of the end index start at or before the offset. -/
theorem Valid.endIndex_border (h : s.Valid) (offset : ℤ) :
    ∃ i : ℕ, s.getEndIndexOfIntersectingAnnotation offset = i ∧
      Border s.annotations (fun a => a.range.start ≤ offset) i := by
  have hsearch := binarySearch2_searched (h.sorted_ends offset)
  unfold getEndIndexOfIntersectingAnnotation
  generalize binarySearch2 s.annotations.length _ = found at hsearch ⊢
  dsimp only
  cases hsearch with
  | @found i hi hzero =>
    obtain ⟨a, ha⟩ : ∃ a, s.annotations[i]? = some a := ⟨_, List.getElem?_eq_getElem hi⟩
    simp only [ha, Option.elim_some] at hzero
    have hne := h.nonempty ha
    have hfront : ∀ n b, n < i + 1 → s.annotations[n]? = some b → b.range.start ≤ offset := by
      refine below_succ ha (by omega) ?_
      intro n b hn hb
      have := h.le hn hb ha
      have := h.nonempty hb
      omega
    rw [if_pos (Int.natCast_nonneg i), ← Nat.cast_succ, elementAt_natCast]
    cases hnext : s.annotations[i + 1]? with
    | none => exact ⟨i + 1, rfl, border_of hi hfront (behind_none hnext)⟩
    | some next =>
      have hle := h.le (Nat.lt_succ_self i) ha hnext
      have hlength := (List.getElem?_eq_some_iff.mp hnext).1
      have hbehind : ∀ n b, i + 1 < n → s.annotations[n]? = some b → ¬ b.range.start ≤ offset := by
        intro n b hn hb
        have := h.le hn hnext hb
        have := h.nonempty hnext
        omega
      dsimp only
      split_ifs with htouch
      · exact ⟨i + 2, by omega, border_of hlength (below_succ hnext (by omega) hfront) hbehind⟩
      · exact ⟨i + 1, by omega, border_of hi hfront (behind_self hnext (by omega) hbehind)⟩
  | @missing p hp hbelow habove =>
    have hfront : ∀ n b, n < p → s.annotations[n]? = some b → b.range.start ≤ offset := by
      intro n b hn hb
      have := hbelow n hn
      simp only [hb, Option.elim_some] at this
      have := h.nonempty hb
      omega
    have hcandidate : -(-((p : ℤ) + 1) + 1) = (p : ℤ) := by omega
    rw [if_neg (by omega), hcandidate, elementAt_natCast]
    cases ha : s.annotations[p]? with
    | none => exact ⟨p, rfl, border_of hp hfront (behind_none ha)⟩
    | some a =>
      have hlength := (List.getElem?_eq_some_iff.mp ha).1
      have hend := habove p le_rfl hlength
      simp only [ha, Option.elim_some] at hend
      have hbehind : ∀ n b, p < n → s.annotations[n]? = some b → ¬ b.range.start ≤ offset := by
        intro n b hn hb
        have := h.le hn ha hb
        omega
      dsimp only
      split_ifs with hin
      · exact ⟨p + 1, by omega, border_of hlength (below_succ ha hin.1 hfront) hbehind⟩
      · exact ⟨p, rfl, border_of hp hfront (behind_self ha (by omega) hbehind)⟩

end Search

section Replace

/-- An update leaves an annotation that ends at or before its start, or starts behind its end.
One that starts exactly at its end goes. -/
def Leaves (update : AnnotationUpdate T) (a : AnnotationOf T) : Prop :=
  a.range.endExclusive ≤ update.range.start ∨ update.range.endExclusive < a.range.start

instance (update : AnnotationUpdate T) (a : AnnotationOf T) : Decidable (Leaves update a) :=
  inferInstanceAs (Decidable (_ ∨ _))

variable {s : AnnotatedString T} {update : AnnotationUpdate T}

/-- One update cuts the annotations it meets out of the array. -/
structure Replaces (s : AnnotatedString T) (update : AnnotationUpdate T)
    (front met behind : List (AnnotationOf T)) : Prop where
  annotations_eq : s.annotations = front ++ (met ++ behind)
  ends : ∀ a ∈ front, a.range.endExclusive ≤ update.range.start
  meets : ∀ a ∈ met, ¬ Leaves update a
  starts : ∀ a ∈ behind, update.range.endExclusive < a.range.start
  result_eq : (s.applyUpdate update).annotations = front ++ (update.toAnnotationOf.toList ++ behind)

theorem Valid.replaces (h : s.Valid) (hupdate : update.range.start < update.range.endExclusive) :
    ∃ front met behind, Replaces s update front met behind := by
  obtain ⟨i, hi, hstart⟩ := h.startIndex_border update.range.start
  obtain ⟨j, hj, hend⟩ := h.endIndex_border update.range.endExclusive
  have hstop : ∀ a ∈ s.annotations, a.range.start < a.range.endExclusive := by
    intro a ha
    exact h.1 a.range (List.mem_map_of_mem ha)
  have hij : i ≤ j := by
    by_contra hlt
    have hlength := hstart.le_length
    have hj' : j < s.annotations.length := by omega
    have hfront := hstart.front s.annotations[j] (List.mem_take_iff_getElem.mpr ⟨j, by omega, rfl⟩)
    have hbehind := hend.behind s.annotations[j] (by
      rw [List.drop_eq_getElem_cons hj']
      exact List.mem_cons_self)
    have := hstop _ (List.getElem_mem hj')
    omega
  have hdrop : (s.annotations.drop i).drop (j - i) = s.annotations.drop j := by
    rw [List.drop_drop, Nat.add_sub_cancel' hij]
  refine ⟨s.annotations.take i, (s.annotations.drop i).take (j - i), s.annotations.drop j,
    ⟨?_, hstart.front, ?_, ?_, ?_⟩⟩
  · rw [← hdrop, List.take_append_drop, List.take_append_drop]
  · intro a ha hleaves
    have hbehind := hstart.behind a (List.mem_of_mem_take ha)
    have hfront := hend.front a (by
      rw [List.take_drop, Nat.add_sub_cancel' hij] at ha
      exact List.mem_of_mem_drop ha)
    unfold Leaves at hleaves
    omega
  · intro a ha
    exact not_le.mp (hend.behind a ha)
  · unfold applyUpdate
    dsimp only
    rw [hi, hj, splice_natCast _ _ hij hstart.le_length, List.append_assoc]

theorem Replaces.valid {front met behind : List (AnnotationOf T)}
    (h : Replaces s update front met behind) (hs : s.Valid)
    (hupdate : update.range.start < update.range.endExclusive) :
    (s.applyUpdate update).Valid := by
  unfold Valid Apart at hs ⊢
  rw [h.annotations_eq] at hs
  rw [h.result_eq]
  simp only [List.forall_mem_map, List.pairwise_map, List.pairwise_append, List.mem_append] at hs ⊢
  obtain ⟨hne, pfront, ⟨-, pbehind, -⟩, hcross⟩ := hs
  have hrange : ∀ a ∈ update.toAnnotationOf.toList, a.range = update.range := by
    intro a ha
    exact AnnotationUpdate.range_eq_of_mem (Option.mem_toList.mp ha)
  refine ⟨?_, pfront, ⟨?_, pbehind, ?_⟩, ?_⟩
  · rintro a (ha | ha | ha)
    · exact hne a (.inl ha)
    · rw [hrange a ha]
      exact hupdate
    · exact hne a (.inr (.inr ha))
  · cases update.toAnnotationOf <;> simp
  · intro a ha b hb
    rw [hrange a ha]
    exact (h.starts b hb).le
  · rintro a ha b (hb | hb)
    · rw [hrange b hb]
      exact h.ends a ha
    · exact hcross a ha b (.inr hb)

/-- What the rest of an update leaves is what is in front of and behind the replaced part. -/
theorem Replaces.filter_eq {front met behind : List (AnnotationOf T)}
    (h : Replaces s update front met behind) (updates : List (AnnotationUpdate T)) :
    (s.annotations.filter fun a => ∀ update' ∈ update :: updates, Leaves update' a) =
      (front ++ behind).filter fun a => ∀ update' ∈ updates, Leaves update' a := by
  have hkept : ∀ a ∈ front ++ behind, Leaves update a := by
    intro a ha
    rcases List.mem_append.mp ha with ha | ha
    · exact .inl (h.ends a ha)
    · exact .inr (h.starts a ha)
  have hmet : (met.filter fun a => ∀ update' ∈ update :: updates, Leaves update' a) = [] := by
    rw [List.filter_eq_nil_iff]
    intro a ha
    rw [decide_eq_true_iff]
    intro hall
    exact h.meets a ha (hall update List.mem_cons_self)
  rw [h.annotations_eq, List.filter_append, List.filter_append, hmet, List.nil_append,
    ← List.filter_append]
  apply List.filter_congr
  intro a ha
  simp only [List.forall_mem_cons, hkept a ha, true_and]

/-- Setting annotations takes the values of the update and keeps exactly the old annotations
that all its entries leave. -/
theorem setAnnotations_spec (updates : List (AnnotationUpdate T)) (hs : s.Valid)
    (hupdates : Apart (updates.map (·.range))) :
    (s.setAnnotations updates).Valid ∧
      (s.setAnnotations updates).annotations.Perm
        (updates.filterMap (·.toAnnotationOf) ++
          s.annotations.filter fun a => ∀ update ∈ updates, Leaves update a) := by
  induction updates generalizing s with
  | nil =>
    refine ⟨hs, ?_⟩
    simp only [List.not_mem_nil, false_imp_iff, implies_true, decide_true, List.filter_true,
      List.filterMap_nil, List.nil_append]
    exact .rfl
  | cons update updates ih =>
    obtain ⟨hne, hpair⟩ := hupdates
    rw [List.map_cons, List.pairwise_cons] at hpair
    rw [List.map_cons, List.forall_mem_cons] at hne
    obtain ⟨front, met, behind, h⟩ := hs.replaces hne.1
    obtain ⟨hvalid, hperm⟩ := ih (h.valid hs hne.1) ⟨hne.2, hpair.2⟩
    refine ⟨hvalid, hperm.trans ?_⟩
    have hown : update.toAnnotationOf.toList.filter
        (fun a => ∀ update' ∈ updates, Leaves update' a) = update.toAnnotationOf.toList := by
      rw [List.filter_eq_self]
      intro a ha
      rw [decide_eq_true_iff]
      intro update' hmem
      have hrange := AnnotationUpdate.range_eq_of_mem (Option.mem_toList.mp ha)
      have := hpair.1 update'.range (List.mem_map_of_mem hmem)
      left
      rw [hrange]
      exact this
    have hoption : (update :: updates).filterMap (·.toAnnotationOf) =
        update.toAnnotationOf.toList ++ updates.filterMap (·.toAnnotationOf) := by
      rw [List.filterMap_cons]
      cases update.toAnnotationOf <;> rfl
    rw [h.filter_eq, h.result_eq, hoption, List.filter_append, List.filter_append, hown,
      List.filter_append, ← Multiset.coe_eq_coe]
    simp only [← Multiset.coe_add]
    abel

/-- One update over three annotations, one of which only touches it on its left. -/
theorem setAnnotations_spec_three :
    let s : AnnotatedString String :=
      ⟨[⟨⟨0, 5, by decide⟩, "a"⟩, ⟨⟨5, 8, by decide⟩, "b"⟩, ⟨⟨9, 12, by decide⟩, "c"⟩]⟩
    let updates : List (AnnotationUpdate String) :=
      [⟨⟨5, 6, by decide⟩, some "d"⟩, ⟨⟨6, 8, by decide⟩, none⟩]
    (s.setAnnotations updates).Valid ∧
      (s.setAnnotations updates).annotations.Perm
        (updates.filterMap (·.toAnnotationOf) ++
          s.annotations.filter fun a => ∀ update ∈ updates, Leaves update a) :=
  setAnnotations_spec _ (by decide) (by decide)

/-- An annotation that starts where an update ends shares no offset with it and still goes. -/
theorem setAnnotations_drops_touching :
    let s : AnnotatedString String := ⟨[⟨⟨5, 8, by decide⟩, "a"⟩]⟩
    let update : AnnotationUpdate String := ⟨⟨0, 5, by decide⟩, some "b"⟩
    s.Valid ∧ Apart [update.range] ∧ (∀ i : ℤ, ¬ ((0 ≤ i ∧ i < 5) ∧ 5 ≤ i ∧ i < 8)) ∧
      s.setAnnotations [update] = ⟨[⟨⟨0, 5, by decide⟩, "b"⟩]⟩ := by
  refine ⟨by decide, by decide, ?_, by decide +kernel⟩
  intro i hi
  omega

end Replace

end AnnotatedString

end NexgileIde.Tokens
