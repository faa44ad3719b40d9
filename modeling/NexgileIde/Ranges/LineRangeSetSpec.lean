import NexgileIde.Library.IntervalList
import NexgileIde.Ranges.LineRangeSet

/-!
# The lines of sets of line ranges

Every operation keeps the ranges in normal form and has the meaning of its name on sets of line
numbers.
-/
namespace NexgileIde.Ranges

open Base Library Library.Intervals
open MergeEditor (LineRange)

/-- The line numbers in a range. -/
def lines (range : LineRange) : Set ℤ :=
  Set.Ico range.startLineNumber range.endLineNumberExclusive

namespace LineRangeSet

/-- The line numbers in a set. -/
def lineNumbers (s : LineRangeSet) : Set ℤ :=
  members LineRange.startLineNumber LineRange.endLineNumberExclusive s.normalizedRanges

/-- Sorted ranges that are not empty and neither touch nor intersect. -/
def Normal (s : LineRangeSet) : Prop :=
  Separated LineRange.startLineNumber LineRange.endLineNumberExclusive s.normalizedRanges

variable {s t : LineRangeSet} {range : LineRange}

theorem lt_of_length_ne_zero (h : range.length ≠ 0) :
    range.startLineNumber < range.endLineNumberExclusive := by
  have hle := range.start_le_end
  unfold LineRange.length at h
  omega

/-- The ranges in front of a range, those that it is joined with, and those behind it. -/
theorem Normal.joinRange (h : s.Normal) (range : LineRange) :
    ∃ (start stop : ℕ) (front middle behind : List LineRange),
      s.joinRange range = (start, (stop : ℤ)) ∧ start ≤ stop ∧
      s.normalizedRanges = front ++ (middle ++ behind) ∧ front.length = start ∧
      (front ++ middle).length = stop ∧
      (∀ r ∈ front, r.endLineNumberExclusive < range.startLineNumber) ∧
      (∀ r ∈ middle, range.startLineNumber ≤ r.endLineNumberExclusive ∧
        r.startLineNumber ≤ range.endLineNumberExclusive) ∧
      ∀ r ∈ behind, range.endLineNumberExclusive < r.startLineNumber := by
  obtain ⟨start, hfirst, hstart⟩ : ∃ start,
      (findFirstIdxMonotonousOrArrLen s.normalizedRanges fun r =>
        decide (range.startLineNumber ≤ r.endLineNumberExclusive)) = start ∧
      Border s.normalizedRanges (fun r => ¬ range.startLineNumber ≤ r.endLineNumberExclusive) start :=
    ⟨_, rfl, findFirstIdxMonotonousOrArrLen_border
      (Separated.monotonous_hi_lt h range.startLineNumber)⟩
  obtain ⟨stop, hstop, hlast⟩ := findLastIdxMonotonous_border
    (Separated.monotonous_lo_le h range.endLineNumberExclusive)
  obtain ⟨hle, hsplit, htouch⟩ := Separated.split h range.start_le_end hstart hstop
  refine ⟨start, stop, _, _, _, ?_, hle, hsplit, ?_, ?_, ?_, htouch, ?_⟩
  · unfold LineRangeSet.joinRange
    simp only [ge_iff_le, hfirst, hlast, sub_add_cancel]
  · exact List.length_take_of_le hstart.le_length
  · have htake : s.normalizedRanges.take start = (s.normalizedRanges.take stop).take start := by
      rw [List.take_take, min_eq_left hle]
    rw [htake, List.take_append_drop, List.length_take_of_le hstop.le_length]
  · intro r hr
    exact lt_of_not_ge (hstart.front r hr)
  · intro r hr
    exact lt_of_not_ge (hstop.behind r hr)

/-- What is written in place of the ranges that are joined. -/
theorem normal_replace {front middle behind : List LineRange} {joined : LineRange}
    (h : Separated LineRange.startLineNumber LineRange.endLineNumberExclusive
      (front ++ (middle ++ behind)))
    (hfront : ∀ r ∈ front, r.endLineNumberExclusive < range.startLineNumber)
    (hbehind : ∀ r ∈ behind, range.endLineNumberExclusive < r.startLineNumber)
    (hjoined : lines joined = lines range ∪
      members LineRange.startLineNumber LineRange.endLineNumberExclusive middle)
    (hlt : joined.startLineNumber < joined.endLineNumberExclusive) :
    Normal ⟨front ++ ([joined] ++ behind)⟩ ∧
      lineNumbers ⟨front ++ ([joined] ++ behind)⟩ =
        members LineRange.startLineNumber LineRange.endLineNumberExclusive
          (front ++ (middle ++ behind)) ∪ lines range := by
  obtain ⟨hseparatedFront, hrest, hbetween⟩ := separated_append.1 h
  obtain ⟨hseparatedMiddle, hseparatedBehind, hbetween'⟩ := separated_append.1 hrest
  have hsingle : Separated LineRange.startLineNumber LineRange.endLineNumberExclusive [joined] := by
    rw [separated_cons]
    exact ⟨hlt, separated_nil, nofun⟩
  have hstart : joined.startLineNumber ∈ lines joined := ⟨le_refl _, hlt⟩
  have hend : joined.endLineNumberExclusive - 1 ∈ lines joined :=
    ⟨by omega, by omega⟩
  rw [hjoined] at hstart hend
  constructor
  · refine separated_append.2 ⟨hseparatedFront, separated_append.2 ⟨hsingle, hseparatedBehind, ?_⟩, ?_⟩
    · intro a ha b hb
      rw [List.mem_singleton.1 ha]
      rcases hend with hin | ⟨r, hr, -, hlast⟩
      · have hb' := hbehind b hb
        have hin' : joined.endLineNumberExclusive - 1 < range.endLineNumberExclusive := hin.2
        omega
      · have hgap := hbetween' r hr b hb
        omega
    · intro a ha b hb
      rcases List.mem_append.1 hb with hb | hb
      · rw [List.mem_singleton.1 hb]
        rcases hstart with hin | ⟨r, hr, hfirst, -⟩
        · exact (hfront a ha).trans_le hin.1
        · exact (hbetween a ha r (List.mem_append_left _ hr)).trans_le hfirst
      · exact hbetween a ha b (List.mem_append_right _ hb)
  · have hset : members LineRange.startLineNumber LineRange.endLineNumberExclusive [joined] =
        lines range ∪ members LineRange.startLineNumber LineRange.endLineNumberExclusive middle := by
      rw [members_cons, members_nil, Set.union_empty]
      exact hjoined
    unfold lineNumbers
    simp only [members_append, hset]
    ext x
    simp only [Set.mem_union]
    tauto

theorem Normal.addRange (h : s.Normal) (range : LineRange) :
    (s.addRange range).Normal ∧ (s.addRange range).lineNumbers = s.lineNumbers ∪ lines range := by
  unfold LineRangeSet.addRange
  split_ifs with hempty
  · refine ⟨h, ?_⟩
    have hnone : lines range = ∅ := by
      unfold LineRange.length at hempty
      exact Set.Ico_eq_empty (by omega)
    rw [hnone, Set.union_empty]
  · have hrange := lt_of_length_ne_zero hempty
    obtain ⟨start, stop, front, middle, behind, hjoin, hle, hsplit, hstart, hstop, hfront, hmiddle,
      hbehind⟩ := h.joinRange range
    simp only [hjoin]
    unfold Normal at h
    unfold lineNumbers
    rw [hsplit] at h ⊢
    have hmiddleSeparated := (separated_append.1 (separated_append.1 h).2.1).1
    rw [List.length_append, hstart] at hstop
    have htake : (front ++ (middle ++ behind)).take start = front := by
      rw [← hstart, List.take_left]
    split_ifs with hnone hone
    · have hnil : middle = [] := List.eq_nil_of_length_eq_zero (by omega)
      subst hnil
      have hdrop : (front ++ ([] ++ behind)).drop (start + 0) = behind := by
        rw [Nat.add_zero, ← hstart, List.drop_left]
        rfl
      unfold splice
      rw [htake, hdrop]
      refine normal_replace h hfront hbehind ?_ hrange
      rw [members_nil, Set.union_empty]
    · obtain ⟨joinRange, rfl⟩ : ∃ joinRange, middle = [joinRange] :=
        List.length_eq_one_iff.1 (by omega)
      have hget : (front ++ ([joinRange] ++ behind))[start]? = some joinRange := by
        rw [← hstart, List.getElem?_append_right (le_refl _), Nat.sub_self]
        rfl
      simp only [hget]
      have hset : (front ++ ([joinRange] ++ behind)).set start (joinRange.join range) =
          front ++ ([joinRange.join range] ++ behind) := by
        rw [← hstart, List.set_append_right _ _ (le_refl _), Nat.sub_self]
        rfl
      rw [hset]
      refine normal_replace h hfront hbehind ?_ ?_
      · exact Separated.hull hmiddleSeparated hmiddle rfl rfl
      · have hlt := hmiddleSeparated.lt joinRange List.mem_cons_self
        simp only [LineRange.join]
        omega
    · have hlength : 2 ≤ middle.length := by omega
      obtain ⟨first, hfirst⟩ : ∃ first, middle.head? = some first :=
        Option.isSome_iff_exists.1 (by
          rw [List.isSome_head?]
          exact List.ne_nil_of_length_pos (by omega))
      obtain ⟨last, hlast⟩ : ∃ last, middle.getLast? = some last :=
        Option.isSome_iff_exists.1 (by
          rw [List.getLast?_isSome]
          exact List.ne_nil_of_length_pos (by omega))
      have hgetFirst : (front ++ (middle ++ behind))[start]? = some first := by
        rw [← hstart, List.getElem?_append_right (le_refl _), Nat.sub_self,
          List.getElem?_append_left (by omega), ← List.head?_eq_getElem?, hfirst]
      have hgetLast : (front ++ (middle ++ behind))[((stop : ℤ) - 1).toNat]? = some last := by
        have hindex : ((stop : ℤ) - 1).toNat = front.length + (middle.length - 1) := by omega
        rw [hindex, List.getElem?_append_right (by omega), Nat.add_sub_cancel_left,
          List.getElem?_append_left (by omega), ← List.getLast?_eq_getElem?, hlast]
      have hdrop : (front ++ (middle ++ behind)).drop (start + ((stop : ℤ) - start).toNat) =
          behind := by
        have hindex : start + ((stop : ℤ) - start).toNat = (front ++ middle).length := by
          rw [List.length_append]
          omega
        rw [hindex, ← List.append_assoc, List.drop_left]
      simp only [hgetFirst, hgetLast]
      unfold splice
      rw [htake, hdrop]
      have hfirstLast : first.startLineNumber ≤ last.startLineNumber ∧
          first.endLineNumberExclusive ≤ last.endLineNumberExclusive := by
        have hhead : middle = first :: middle.tail := List.eq_cons_of_mem_head? hfirst
        have hmem := List.mem_of_getLast? hlast
        rw [hhead] at hmem hmiddleSeparated
        obtain ⟨hlt, htail, hgaps⟩ := separated_cons.1 hmiddleSeparated
        rcases List.mem_cons.1 hmem with rfl | hmem
        · exact ⟨le_refl _, le_refl _⟩
        · have hgap := hgaps last hmem
          have hlt' := htail.lt last hmem
          omega
      have hhull := Separated.hull hmiddleSeparated hmiddle hfirst hlast
      have hends : lines ((first.join last).join range) =
          Set.Ico (min first.startLineNumber range.startLineNumber)
            (max last.endLineNumberExclusive range.endLineNumberExclusive) := by
        simp only [lines, LineRange.join]
        rw [min_eq_left hfirstLast.1, max_eq_right hfirstLast.2]
      refine normal_replace h hfront hbehind (hends.trans hhull) ?_
      simp only [LineRange.join]
      omega

/-! ## Membership -/

/-- What is asked about the last range in front of a border. -/
theorem Normal.last_any (h : s.Normal) {index : ℕ} {before : LineRange → Prop}
    (hborder : Border s.normalizedRanges before index) (after : LineRange → Bool)
    (hmono : ∀ a b : LineRange, a.endLineNumberExclusive < b.endLineNumberExclusive →
      after a = true → after b = true) :
    ((s.normalizedRanges.take index).getLast?.any after = true) ↔
      ∃ r ∈ s.normalizedRanges, before r ∧ after r = true := by
  rw [Option.any_eq_true]
  constructor
  · rintro ⟨last, hlast, hafter⟩
    have hmem := List.mem_of_getLast? hlast
    exact ⟨last, List.mem_of_mem_take hmem, hborder.front last hmem, hafter⟩
  · rintro ⟨r, hr, hbefore, hafter⟩
    have htake : r ∈ s.normalizedRanges.take index := by
      rw [← List.take_append_drop index s.normalizedRanges] at hr
      exact (List.mem_append.1 hr).resolve_right fun hdrop => hborder.behind r hdrop hbefore
    have hfront : Separated LineRange.startLineNumber LineRange.endLineNumberExclusive
        (s.normalizedRanges.take index) := by
      unfold Normal at h
      rw [← List.take_append_drop index s.normalizedRanges] at h
      exact (separated_append.1 h).1
    obtain ⟨last, hlast⟩ : ∃ last, (s.normalizedRanges.take index).getLast? = some last :=
      Option.isSome_iff_exists.1 (by
        rw [List.getLast?_isSome]
        exact List.ne_nil_of_mem htake)
    refine ⟨last, hlast, ?_⟩
    obtain ⟨init, hinit⟩ := List.getLast?_eq_some_iff.1 hlast
    rw [hinit] at htake hfront
    obtain ⟨-, hsingle, hbetween⟩ := separated_append.1 hfront
    rcases List.mem_append.1 htake with hr | hr
    · exact hmono r last ((hbetween r hr last List.mem_cons_self).trans
        (hsingle.lt last List.mem_cons_self)) hafter
    · rw [← List.mem_singleton.1 hr]
      exact hafter

theorem Normal.contains_iff (h : s.Normal) (lineNumber : ℤ) :
    s.contains lineNumber = true ↔ lineNumber ∈ s.lineNumbers := by
  obtain ⟨index, hborder, hlast⟩ :=
    findLastMonotonous_eq (Separated.monotonous_lo_le h lineNumber)
  unfold contains
  simp only [hlast]
  rw [h.last_any hborder]
  · simp only [decide_eq_true_eq]
    rfl
  · intro a b hlt hafter
    simp only [gt_iff_lt, decide_eq_true_eq] at hafter ⊢
    exact hafter.trans hlt

theorem Normal.intersects_iff (h : s.Normal) (range : LineRange) :
    s.intersects range = true ↔ ∃ r ∈ s.normalizedRanges,
      r.startLineNumber < range.endLineNumberExclusive ∧
        range.startLineNumber < r.endLineNumberExclusive := by
  obtain ⟨index, hborder, hlast⟩ :=
    findLastMonotonous_eq (Separated.monotonous_lo_lt h range.endLineNumberExclusive)
  unfold intersects
  simp only [hlast]
  rw [h.last_any hborder]
  · simp only [gt_iff_lt, decide_eq_true_eq]
  · intro a b hlt hafter
    simp only [gt_iff_lt, decide_eq_true_eq] at hafter ⊢
    exact hafter.trans hlt

theorem Normal.intersects_nonempty (h : s.Normal)
    (hrange : range.startLineNumber < range.endLineNumberExclusive) :
    s.intersects range = true ↔ (s.lineNumbers ∩ lines range).Nonempty := by
  rw [h.intersects_iff]
  constructor
  · rintro ⟨r, hr, hstart, hend⟩
    have hlt := h.lt r hr
    refine ⟨max r.startLineNumber range.startLineNumber, ⟨r, hr, ?_, ?_⟩, ?_, ?_⟩
    · exact le_max_left _ _
    · exact max_lt hlt hend
    · exact le_max_right _ _
    · exact max_lt hstart hrange
  · rintro ⟨x, ⟨r, hr, hstart, hend⟩, hstart', hend'⟩
    exact ⟨r, hr, hstart.trans_lt hend', hstart'.trans_lt hend⟩

/-- An empty range intersects a set when it is inside of one of its ranges. -/
theorem Normal.intersects_empty (h : s.Normal)
    (hrange : range.startLineNumber = range.endLineNumberExclusive) :
    s.intersects range = true ↔ range.startLineNumber - 1 ∈ s.lineNumbers ∧
      range.startLineNumber ∈ s.lineNumbers := by
  rw [h.intersects_iff, ← hrange]
  constructor
  · rintro ⟨r, hr, hstart, hend⟩
    exact ⟨⟨r, hr, by omega, by omega⟩, ⟨r, hr, hstart.le, hend⟩⟩
  · rintro ⟨⟨r, hr, hstart, hend⟩, ⟨r', hr', hstart', hend'⟩⟩
    rcases Separated.eq_or_gap h hr hr' with rfl | hgap | hgap
    · exact ⟨r, hr, by omega, hend'⟩
    · omega
    · omega

/-! ## Difference -/

/-- What is left of a range when the ranges that touch it are taken out of it. -/
theorem subtractLoop_spec {start stop : ℤ} {ranges : List LineRange}
    (h : Separated LineRange.startLineNumber LineRange.endLineNumberExclusive ranges)
    (htouch : ∀ r ∈ ranges, start ≤ r.endLineNumberExclusive ∧ r.startLineNumber ≤ stop) :
    Normal ⟨subtractLoop start stop ranges⟩ ∧
      lineNumbers ⟨subtractLoop start stop ranges⟩ = Set.Ico start stop \
        members LineRange.startLineNumber LineRange.endLineNumberExclusive ranges := by
  induction ranges generalizing start with
  | nil =>
    unfold subtractLoop
    split_ifs with hlt
    · refine ⟨separated_cons.2 ⟨hlt, separated_nil, nofun⟩, ?_⟩
      simp [lineNumbers]
    · refine ⟨separated_nil, ?_⟩
      simp [lineNumbers, Set.Ico_eq_empty hlt]
  | cons r ranges ih =>
    obtain ⟨hr, hrest, hbetween⟩ := separated_cons.1 h
    obtain ⟨hstart, hstop⟩ := htouch r List.mem_cons_self
    obtain ⟨hnormal, hlines⟩ := @ih r.endLineNumberExclusive hrest fun r' hr' => by
      have hgap := hbetween r' hr'
      have hlt := hrest.lt r' hr'
      exact ⟨by omega, (htouch r' (List.mem_cons_of_mem r hr')).2⟩
    have hsubset : ∀ x ∈ lineNumbers ⟨subtractLoop r.endLineNumberExclusive stop ranges⟩,
        r.endLineNumberExclusive ≤ x := by
      intro x hx
      rw [hlines] at hx
      exact hx.1.1
    unfold subtractLoop
    dsimp only
    split_ifs with hlt
    · refine ⟨separated_cons.2 ⟨hlt, hnormal, fun b hb => ?_⟩, ?_⟩
      · exact hr.trans_le (hsubset _ (Separated.lo_mem hnormal hb))
      · have hcons : lineNumbers ⟨⟨start, r.startLineNumber, hlt.le⟩ ::
            subtractLoop r.endLineNumberExclusive stop ranges⟩ =
            Set.Ico start r.startLineNumber ∪
              lineNumbers ⟨subtractLoop r.endLineNumberExclusive stop ranges⟩ :=
          members_cons _ _
        rw [hcons, hlines, members_cons]
        ext x
        simp only [Set.mem_union, Set.mem_Ico, Set.mem_sdiff]
        constructor
        · rintro (⟨hx, hx'⟩ | ⟨⟨hx, hx'⟩, hnot⟩)
          · refine ⟨⟨hx, by omega⟩, ?_⟩
            rintro (hin | hin)
            · omega
            · have hgap := h.tail_lt hin
              omega
          · exact ⟨⟨by omega, hx'⟩, fun hin => hin.elim (fun hin => by omega) hnot⟩
        · rintro ⟨⟨hx, hx'⟩, hnot⟩
          by_cases hlast : x < r.startLineNumber
          · exact .inl ⟨hx, hlast⟩
          · refine .inr ⟨⟨?_, hx'⟩, fun hin => hnot (.inr hin)⟩
            by_contra hin
            exact hnot (.inl ⟨by omega, by omega⟩)
    · refine ⟨hnormal, ?_⟩
      rw [hlines, members_cons]
      ext x
      simp only [Set.mem_union, Set.mem_Ico, Set.mem_sdiff]
      constructor
      · rintro ⟨⟨hx, hx'⟩, hnot⟩
        exact ⟨⟨by omega, hx'⟩, fun hin => hin.elim (fun hin => by omega) hnot⟩
      · rintro ⟨⟨hx, hx'⟩, hnot⟩
        refine ⟨⟨?_, hx'⟩, fun hin => hnot (.inr hin)⟩
        by_contra hin
        exact hnot (.inl ⟨by omega, by omega⟩)

theorem Normal.subtractFrom (h : s.Normal)
    (hrange : range.startLineNumber < range.endLineNumberExclusive) :
    (s.subtractFrom range).Normal ∧
      (s.subtractFrom range).lineNumbers = lines range \ s.lineNumbers := by
  obtain ⟨start, stop, front, middle, behind, hjoin, hle, hsplit, hstart, hstop, hfront, hmiddle,
    hbehind⟩ := h.joinRange range
  unfold Normal at h
  rw [hsplit] at h
  have hmiddleSeparated := (separated_append.1 (separated_append.1 h).2.1).1
  -- what is in front of the range or behind it has no line in common with it
  have hlines : lines range \ s.lineNumbers = lines range \
      members LineRange.startLineNumber LineRange.endLineNumberExclusive middle := by
    unfold lineNumbers
    rw [hsplit]
    ext x
    simp only [members_append, Set.mem_sdiff, Set.mem_union]
    refine and_congr_right fun hx => not_congr ⟨?_, fun hin => .inr (.inl hin)⟩
    obtain ⟨hx, hx'⟩ := hx
    rintro (⟨r, hr, -, hend⟩ | hin | ⟨r, hr, hbegin, -⟩)
    · have hlt := hfront r hr
      omega
    · exact hin
    · have hlt := hbehind r hr
      omega
  obtain ⟨hnormal, hsubtract⟩ := subtractLoop_spec hmiddleSeparated hmiddle
  have hmiddleEq : (s.normalizedRanges.take stop).drop start = middle := by
    rw [hsplit, ← List.append_assoc, ← hstop, List.take_left, ← hstart, List.drop_left]
  unfold LineRangeSet.subtractFrom
  simp only [hjoin, Int.toNat_natCast, hmiddleEq]
  rw [hlines]
  split_ifs with hnone
  · have hnil : middle = [] := by
      rw [List.length_append, hstart] at hstop
      exact List.eq_nil_of_length_eq_zero (by omega)
    refine ⟨separated_cons.2 ⟨hrange, separated_nil, nofun⟩, ?_⟩
    simp [hnil, lineNumbers, lines]
  · exact ⟨hnormal, hsubtract⟩

/-! ## Union -/

theorem mergeNext_spec {current next : LineRange}
    (hle : current.startLineNumber ≤ next.startLineNumber)
    (hcurrent : current.startLineNumber < current.endLineNumberExclusive)
    (hnext : next.startLineNumber < next.endLineNumberExclusive) :
    let merged := mergeNext (some current) next
    merged.2.startLineNumber < merged.2.endLineNumberExclusive ∧
      merged.2.startLineNumber ≤ next.startLineNumber ∧
      current.startLineNumber ≤ merged.2.startLineNumber ∧
      Separated LineRange.startLineNumber LineRange.endLineNumberExclusive (merged.1 ++ [merged.2]) ∧
      members LineRange.startLineNumber LineRange.endLineNumberExclusive
        (merged.1 ++ [merged.2]) = lines current ∪ lines next := by
  unfold mergeNext
  dsimp only
  split_ifs with htouch
  · refine ⟨?_, hle, le_refl _, separated_cons.2 ⟨?_, separated_nil, nofun⟩, ?_⟩
    · dsimp only
      omega
    · dsimp only
      omega
    · ext x
      simp only [List.nil_append, members_cons, members_nil, Set.union_empty, Set.mem_Ico, lines,
        Set.mem_union]
      omega
  · refine ⟨hnext, le_refl _, hle, ?_, ?_⟩
    · refine separated_cons.2 ⟨hcurrent, separated_cons.2 ⟨hnext, separated_nil, nofun⟩, ?_⟩
      intro b hb
      rw [List.mem_singleton.1 hb]
      exact lt_of_not_ge htouch
    · simp [lines]

/-- One turn of the loop, in front of what the others make of the merged range. -/
theorem mergeNext_append {current next : LineRange} {tail : List LineRange} {others : Set ℤ}
    (hle : current.startLineNumber ≤ next.startLineNumber)
    (hcurrent : current.startLineNumber < current.endLineNumberExclusive)
    (hnext : next.startLineNumber < next.endLineNumberExclusive)
    (hothers : ∀ x ∈ others, next.startLineNumber ≤ x) (htail : Normal ⟨tail⟩)
    (hlines : lineNumbers ⟨tail⟩ = lines (mergeNext (some current) next).2 ∪ others) :
    Normal ⟨(mergeNext (some current) next).1 ++ tail⟩ ∧
      lineNumbers ⟨(mergeNext (some current) next).1 ++ tail⟩ =
        lines current ∪ lines next ∪ others := by
  obtain ⟨hmerged, hmergedLe, -, hseparated, hmembers⟩ := mergeNext_spec hle hcurrent hnext
  generalize mergeNext (some current) next = merged at *
  obtain ⟨hpushed, -, hbetween⟩ := separated_append.1 hseparated
  constructor
  · refine separated_append.2 ⟨hpushed, htail, fun a ha b hb => ?_⟩
    have hgap := hbetween a ha merged.2 List.mem_cons_self
    have hb' : b.startLineNumber ∈ lineNumbers ⟨tail⟩ := Separated.lo_mem htail hb
    rw [hlines] at hb'
    rcases hb' with hin | hin
    · exact hgap.trans_le hin.1
    · exact hgap.trans_le (hmergedLe.trans (hothers _ hin))
  · have happend : lineNumbers ⟨merged.1 ++ tail⟩ =
        members LineRange.startLineNumber LineRange.endLineNumberExclusive merged.1 ∪
          lineNumbers ⟨tail⟩ := members_append _ _
    rw [happend, hlines, ← hmembers, members_append, members_cons, members_nil, Set.union_empty]
    simp only [lines, Set.union_assoc]

/-- What a turn needs of the next range, and what it leaves to the turns behind it. -/
theorem mergeNext_turn {current next : LineRange} {rest others : List LineRange}
    (hcurrent : current.startLineNumber < current.endLineNumberExclusive)
    (hseparated : Separated LineRange.startLineNumber LineRange.endLineNumberExclusive
      (next :: rest))
    (hle : current.startLineNumber ≤ next.startLineNumber)
    (hothers : ∀ r ∈ others, next.startLineNumber ≤ r.startLineNumber) :
    let merged := mergeNext (some current) next
    merged.2.startLineNumber < merged.2.endLineNumberExclusive ∧
      (∀ r ∈ rest, merged.2.startLineNumber ≤ r.startLineNumber) ∧
      (∀ r ∈ others, merged.2.startLineNumber ≤ r.startLineNumber) ∧
      ∀ tail, Normal ⟨tail⟩ → lineNumbers ⟨tail⟩ = lines merged.2 ∪
          (members LineRange.startLineNumber LineRange.endLineNumberExclusive rest ∪
            members LineRange.startLineNumber LineRange.endLineNumberExclusive others) →
        Normal ⟨merged.1 ++ tail⟩ ∧ lineNumbers ⟨merged.1 ++ tail⟩ = lines current ∪
          (members LineRange.startLineNumber LineRange.endLineNumberExclusive (next :: rest) ∪
            members LineRange.startLineNumber LineRange.endLineNumberExclusive others) := by
  obtain ⟨hnext, -, hgaps⟩ := separated_cons.1 hseparated
  obtain ⟨hmerged, hmergedLe, -⟩ := mergeNext_spec hle hcurrent hnext
  refine ⟨hmerged, fun r hr => ?_, fun r hr => hmergedLe.trans (hothers r hr), ?_⟩
  · exact hmergedLe.trans (hnext.trans (hgaps r hr)).le
  · intro tail htail hlines
    have hbehind : ∀ x ∈ members LineRange.startLineNumber LineRange.endLineNumberExclusive rest ∪
        members LineRange.startLineNumber LineRange.endLineNumberExclusive others,
        next.startLineNumber ≤ x := by
      rintro x (hx | ⟨r, hr, hx, -⟩)
      · exact (hnext.trans (hseparated.tail_lt hx)).le
      · exact (hothers r hr).trans hx
    obtain ⟨hnormal, heq⟩ := mergeNext_append hle hcurrent hnext hbehind htail hlines
    refine ⟨hnormal, heq.trans ?_⟩
    rw [members_cons, Set.union_assoc, Set.union_assoc]
    rfl

theorem unionLoop_spec {n : ℕ} {current : LineRange} {ranges1 ranges2 : List LineRange}
    (hn : ranges1.length + ranges2.length = n)
    (hcurrent : current.startLineNumber < current.endLineNumberExclusive)
    (h1 : Separated LineRange.startLineNumber LineRange.endLineNumberExclusive ranges1)
    (h2 : Separated LineRange.startLineNumber LineRange.endLineNumberExclusive ranges2)
    (hle1 : ∀ r ∈ ranges1, current.startLineNumber ≤ r.startLineNumber)
    (hle2 : ∀ r ∈ ranges2, current.startLineNumber ≤ r.startLineNumber) :
    Normal ⟨unionLoop (some current) ranges1 ranges2⟩ ∧
      lineNumbers ⟨unionLoop (some current) ranges1 ranges2⟩ = lines current ∪
        (members LineRange.startLineNumber LineRange.endLineNumberExclusive ranges1 ∪
          members LineRange.startLineNumber LineRange.endLineNumberExclusive ranges2) := by
  induction n generalizing current ranges1 ranges2 with
  | zero =>
    obtain rfl : ranges1 = [] := List.eq_nil_of_length_eq_zero (by omega)
    obtain rfl : ranges2 = [] := List.eq_nil_of_length_eq_zero (by omega)
    unfold unionLoop
    refine ⟨separated_cons.2 ⟨hcurrent, separated_nil, nofun⟩, ?_⟩
    simp [lineNumbers, lines]
  | succ n ih =>
    -- the next range is the first one of the first list, or of the second one
    have hfirst : ∀ next rest, ranges1 = next :: rest →
        (∀ r ∈ ranges2, next.startLineNumber ≤ r.startLineNumber) →
        let merged := mergeNext (some current) next
        Normal ⟨merged.1 ++ unionLoop (some merged.2) rest ranges2⟩ ∧
          lineNumbers ⟨merged.1 ++ unionLoop (some merged.2) rest ranges2⟩ = lines current ∪
            (members LineRange.startLineNumber LineRange.endLineNumberExclusive ranges1 ∪
              members LineRange.startLineNumber LineRange.endLineNumberExclusive ranges2) := by
      rintro next rest rfl hothers
      obtain ⟨hmerged, hrest, hbehind, hturn⟩ :=
        mergeNext_turn hcurrent h1 (hle1 next List.mem_cons_self) hothers
      rw [List.length_cons] at hn
      obtain ⟨hnormal, hlines⟩ := ih (by omega) hmerged (separated_cons.1 h1).2.1 h2 hrest hbehind
      exact hturn _ hnormal hlines
    have hsecond : ∀ next rest, ranges2 = next :: rest →
        (∀ r ∈ ranges1, next.startLineNumber ≤ r.startLineNumber) →
        let merged := mergeNext (some current) next
        Normal ⟨merged.1 ++ unionLoop (some merged.2) ranges1 rest⟩ ∧
          lineNumbers ⟨merged.1 ++ unionLoop (some merged.2) ranges1 rest⟩ = lines current ∪
            (members LineRange.startLineNumber LineRange.endLineNumberExclusive ranges1 ∪
              members LineRange.startLineNumber LineRange.endLineNumberExclusive ranges2) := by
      rintro next rest rfl hothers
      obtain ⟨hmerged, hrest, hbehind, hturn⟩ :=
        mergeNext_turn hcurrent h2 (hle2 next List.mem_cons_self) hothers
      rw [List.length_cons] at hn
      obtain ⟨hnormal, hlines⟩ := ih (by omega) hmerged h1 (separated_cons.1 h2).2.1 hbehind hrest
      rw [Set.union_comm (members _ _ ranges1)] at hlines ⊢
      exact hturn _ hnormal hlines
    have hstarts : ∀ {r : LineRange} {ranges : List LineRange},
        Separated LineRange.startLineNumber LineRange.endLineNumberExclusive (r :: ranges) →
        ∀ {bound : ℤ}, bound ≤ r.startLineNumber →
          ∀ r' ∈ r :: ranges, bound ≤ r'.startLineNumber := by
      intro r ranges hseparated bound hbound r' hr'
      exact hbound.trans (hseparated.head_lo_le (hseparated.lo_mem hr'))
    unfold unionLoop
    cases ranges1 with
    | nil =>
      cases ranges2 with
      | nil => simp at hn
      | cons lineRange2 ranges2 => exact hsecond lineRange2 ranges2 rfl nofun
    | cons lineRange1 ranges1 =>
      cases ranges2 with
      | nil => exact hfirst lineRange1 ranges1 rfl nofun
      | cons lineRange2 ranges2 =>
        dsimp only
        split_ifs with hlt
        · exact hfirst lineRange1 ranges1 rfl (hstarts h2 hlt.le)
        · exact hsecond lineRange2 ranges2 rfl (hstarts h1 (le_of_not_gt hlt))

theorem Normal.getUnion (hs : s.Normal) (ht : t.Normal) :
    (s.getUnion t).Normal ∧ (s.getUnion t).lineNumbers = s.lineNumbers ∪ t.lineNumbers := by
  obtain ⟨ranges1⟩ := s
  obtain ⟨ranges2⟩ := t
  unfold LineRangeSet.getUnion
  dsimp only
  split_ifs with hempty1 hempty2
  · obtain rfl := List.eq_nil_of_length_eq_zero hempty1
    refine ⟨ht, ?_⟩
    simp [lineNumbers]
  · obtain rfl := List.eq_nil_of_length_eq_zero hempty2
    refine ⟨hs, ?_⟩
    simp [lineNumbers]
  · obtain ⟨r1, ranges1, rfl⟩ := List.exists_cons_of_length_pos (Nat.pos_of_ne_zero hempty1)
    obtain ⟨r2, ranges2, rfl⟩ := List.exists_cons_of_length_pos (Nat.pos_of_ne_zero hempty2)
    obtain ⟨hr1, hrest1, hgaps1⟩ := separated_cons.1 hs
    obtain ⟨hr2, hrest2, hgaps2⟩ := separated_cons.1 ht
    unfold unionLoop
    dsimp only [mergeNext, List.nil_append]
    split_ifs with hlt
    · obtain ⟨hnormal, hlines⟩ := unionLoop_spec rfl hr1 hrest1 ht
        (fun r hr => (hr1.trans (hgaps1 r hr)).le)
        fun r hr => hlt.le.trans (Separated.head_lo_le ht (Separated.lo_mem ht hr))
      refine ⟨hnormal, hlines.trans ?_⟩
      simp only [lineNumbers, members_cons, lines, Set.union_assoc]
    · obtain ⟨hnormal, hlines⟩ := unionLoop_spec rfl hr2 hs hrest2
        (fun r hr => (le_of_not_gt hlt).trans (Separated.head_lo_le hs (Separated.lo_mem hs hr)))
        fun r hr => (hr2.trans (hgaps2 r hr)).le
      refine ⟨hnormal, hlines.trans ?_⟩
      simp only [lineNumbers, members_cons r2, lines]
      exact Set.union_left_comm _ _ _

/-! ## Intersection -/

/-- What two ranges have in common, when it is not empty. -/
theorem intersect_spec (r1 r2 : LineRange) :
    let pushed := (intersect r1 r2).toList.filter fun i => !i.isEmpty
    Separated LineRange.startLineNumber LineRange.endLineNumberExclusive pushed ∧
      members LineRange.startLineNumber LineRange.endLineNumberExclusive pushed =
        lines r1 ∩ lines r2 := by
  unfold intersect
  dsimp only
  have hset : lines r1 ∩ lines r2 = Set.Ico (max r1.startLineNumber r2.startLineNumber)
      (min r1.endLineNumberExclusive r2.endLineNumberExclusive) := Set.Ico_inter_Ico
  rw [hset]
  split_ifs with hle
  · by_cases heq : max r1.startLineNumber r2.startLineNumber =
        min r1.endLineNumberExclusive r2.endLineNumberExclusive
    · simp [LineRange.isEmpty, heq, separated_nil]
    · have hlt := lt_of_le_of_ne hle heq
      simp only [Option.toList_some, LineRange.isEmpty, heq, decide_false, Bool.not_false,
        List.filter_cons_of_pos, List.filter_nil]
      exact ⟨separated_cons.2 ⟨hlt, separated_nil, nofun⟩, by simp⟩
  · refine ⟨separated_nil, ?_⟩
    rw [Set.Ico_eq_empty (by omega)]
    exact members_nil

theorem intersectionLoop_spec {n : ℕ} {ranges1 ranges2 : List LineRange}
    (hn : ranges1.length + ranges2.length = n)
    (h1 : Separated LineRange.startLineNumber LineRange.endLineNumberExclusive ranges1)
    (h2 : Separated LineRange.startLineNumber LineRange.endLineNumberExclusive ranges2) :
    Normal ⟨intersectionLoop ranges1 ranges2⟩ ∧
      lineNumbers ⟨intersectionLoop ranges1 ranges2⟩ =
        members LineRange.startLineNumber LineRange.endLineNumberExclusive ranges1 ∩
          members LineRange.startLineNumber LineRange.endLineNumberExclusive ranges2 := by
  induction n generalizing ranges1 ranges2 with
  | zero =>
    obtain rfl : ranges1 = [] := List.eq_nil_of_length_eq_zero (by omega)
    unfold intersectionLoop
    refine ⟨separated_nil, ?_⟩
    simp [lineNumbers]
  | succ n ih =>
    unfold intersectionLoop
    cases ranges1 with
    | nil =>
      refine ⟨separated_nil, ?_⟩
      simp [lineNumbers]
    | cons r1 ranges1 =>
      cases ranges2 with
      | nil =>
        refine ⟨separated_nil, ?_⟩
        simp [lineNumbers]
      | cons r2 ranges2 =>
        obtain ⟨hr1, hrest1, -⟩ := separated_cons.1 h1
        obtain ⟨hr2, hrest2, -⟩ := separated_cons.1 h2
        obtain ⟨hpushed, hmembers⟩ := intersect_spec r1 r2
        simp only [List.length_cons] at hn
        dsimp only
        generalize (intersect r1 r2).toList.filter (fun i => !i.isEmpty) = pushed at *
        -- what is found later is behind what the two ranges have in common
        have happend : ∀ tail : List LineRange, Normal ⟨tail⟩ →
            (∀ x ∈ lines r1 ∩ lines r2, ∀ y ∈ lineNumbers ⟨tail⟩, x + 1 < y) →
            Normal ⟨pushed ++ tail⟩ ∧ lineNumbers ⟨pushed ++ tail⟩ =
              lines r1 ∩ lines r2 ∪ lineNumbers ⟨tail⟩ := by
          intro tail htail hbehind
          refine ⟨separated_append.2 ⟨hpushed, htail, fun a ha b hb => ?_⟩, ?_⟩
          · have hlt := hpushed.lt a ha
            have hlast : a.endLineNumberExclusive - 1 ∈ lines r1 ∩ lines r2 := by
              rw [← hmembers]
              exact ⟨a, ha, by omega, by omega⟩
            have hgap := hbehind _ hlast _ (Separated.lo_mem htail hb)
            omega
          · rw [← hmembers]
            exact members_append _ _
        split_ifs with hlt
        · obtain ⟨hnormal, hlines⟩ := @ih ranges1 (r2 :: ranges2) (by simp; omega) hrest1 h2
          obtain ⟨hnormal', hlines'⟩ := happend _ hnormal fun x hx y hy => by
            rw [hlines] at hy
            have hgap := h1.tail_lt hy.1
            have hin : x < r1.endLineNumberExclusive := hx.1.2
            omega
          refine ⟨hnormal', hlines'.trans ?_⟩
          rw [hlines]
          ext x
          simp only [members_cons, Set.mem_union, Set.mem_inter_iff, lines, Set.mem_Ico]
          constructor
          · tauto
          · rintro ⟨hx | hx, hx' | hx'⟩
            · exact .inl ⟨hx, hx'⟩
            · have hgap := h2.tail_lt hx'
              omega
            · exact .inr ⟨hx, .inl hx'⟩
            · exact .inr ⟨hx, .inr hx'⟩
        · obtain ⟨hnormal, hlines⟩ := @ih (r1 :: ranges1) ranges2 (by simp; omega) h1 hrest2
          obtain ⟨hnormal', hlines'⟩ := happend _ hnormal fun x hx y hy => by
            rw [hlines] at hy
            have hgap := h2.tail_lt hy.2
            have hin : x < r2.endLineNumberExclusive := hx.2.2
            omega
          refine ⟨hnormal', hlines'.trans ?_⟩
          rw [hlines]
          ext x
          simp only [members_cons, Set.mem_union, Set.mem_inter_iff, lines, Set.mem_Ico]
          constructor
          · tauto
          · rintro ⟨hx | hx, hx' | hx'⟩
            · exact .inl ⟨hx, hx'⟩
            · exact .inr ⟨.inl hx, hx'⟩
            · have hgap := h1.tail_lt hx
              omega
            · exact .inr ⟨.inr hx, hx'⟩

theorem Normal.getIntersection (hs : s.Normal) (ht : t.Normal) :
    (s.getIntersection t).Normal ∧
      (s.getIntersection t).lineNumbers = s.lineNumbers ∩ t.lineNumbers :=
  intersectionLoop_spec rfl hs ht

theorem Normal.getWithDelta (h : s.Normal) (value : ℤ) :
    (s.getWithDelta value).Normal ∧
      (s.getWithDelta value).lineNumbers = (fun n => n + value) '' s.lineNumbers := by
  refine ⟨⟨fun r hr => ?_, ?_⟩, ?_⟩
  · obtain ⟨r, hmem, rfl⟩ := List.mem_map.1 hr
    exact Int.add_lt_add_right (h.lt r hmem) value
  · unfold LineRangeSet.getWithDelta
    rw [List.pairwise_map]
    exact h.gaps.imp fun hgap => Int.add_lt_add_right hgap value
  · ext x
    constructor
    · rintro ⟨_, hr, hx, hx'⟩
      obtain ⟨r, hmem, rfl⟩ := List.mem_map.1 hr
      unfold LineRange.delta at hx hx'
      dsimp only at hx hx'
      exact ⟨x - value, ⟨r, hmem, by omega, by omega⟩, Int.sub_add_cancel x value⟩
    · rintro ⟨n, ⟨r, hr, hn, hn'⟩, rfl⟩
      exact ⟨r.delta value, List.mem_map.2 ⟨r, hr, rfl⟩, Int.add_le_add_right hn value,
        Int.add_lt_add_right hn' value⟩

/-! ## Sets that are built by the operations -/

inductive Built : LineRangeSet → Prop
  | empty : Built empty
  | addRange {s : LineRangeSet} (hs : Built s) (range : LineRange) : Built (s.addRange range)
  | getUnion {s t : LineRangeSet} (hs : Built s) (ht : Built t) : Built (s.getUnion t)
  | getIntersection {s t : LineRangeSet} (hs : Built s) (ht : Built t) :
    Built (s.getIntersection t)
  | subtractFrom {s : LineRangeSet} (hs : Built s) {range : LineRange}
    (hrange : range.isEmpty = false) : Built (s.subtractFrom range)
  | getWithDelta {s : LineRangeSet} (hs : Built s) (value : ℤ) : Built (s.getWithDelta value)

theorem lt_of_not_isEmpty (h : range.isEmpty = false) :
    range.startLineNumber < range.endLineNumberExclusive :=
  lt_of_le_of_ne range.start_le_end (of_decide_eq_false h)

theorem Built.normal (h : Built s) : s.Normal := by
  induction h with
  | empty => exact separated_nil
  | addRange _ range ih => exact (ih.addRange range).1
  | getUnion _ _ ihs iht => exact (ihs.getUnion iht).1
  | getIntersection _ _ ihs iht => exact (ihs.getIntersection iht).1
  | subtractFrom _ hrange ih => exact (ih.subtractFrom (lt_of_not_isEmpty hrange)).1
  | getWithDelta _ value ih => exact (ih.getWithDelta value).1

end LineRangeSet

end NexgileIde.Ranges
