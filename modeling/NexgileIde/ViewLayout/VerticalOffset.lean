import Mathlib.Algebra.BigOperators.Intervals
import NexgileIde.ViewLayout.WhitespaceRun

/-!
# Lines at vertical offsets

The offset of a line is what the lines and the whitespaces above it take, and grows from line to
line by at least the height of the line, so that a binary search finds the line at an offset.
-/
namespace NexgileIde.ViewLayout

open Base Library.PrefixSums

namespace LinesLayout

variable {s s' : LinesLayout} {arr : List EditorWhitespace} {lineNumber : ℤ}

/-! ## Whitespaces above a line -/

/-- The whitespaces are ordered by the lines they are after. -/
def SortedByLine (arr : List EditorWhitespace) : Prop :=
  arr.Pairwise fun a b => a.afterLineNumber ≤ b.afterLineNumber

/-- The first whitespaces are above the line, and the others are not. -/
structure Above (arr : List EditorWhitespace) (lineNumber : ℤ) (count : ℕ) : Prop where
  le_length : count ≤ arr.length
  above : ∀ i < count, ∀ a, arr[i]? = some a → a.afterLineNumber < lineNumber
  below : ∀ i ≥ count, ∀ a, arr[i]? = some a → lineNumber ≤ a.afterLineNumber

theorem SortedByLine.le (h : SortedByLine arr) {i j : ℕ} (hij : i ≤ j) {a b : EditorWhitespace}
    (ha : arr[i]? = some a) (hb : arr[j]? = some b) : a.afterLineNumber ≤ b.afterLineNumber :=
  le_of_pairwise h hij ha hb

/-- What is known while the binary search runs. Where it starts behind the first whitespace, the
one it starts with is above the line. -/
structure FindingLast (arr : List EditorWhitespace) (lineNumber low high : ℤ) : Prop where
  low_nonneg : 0 ≤ low
  low_le : low ≤ high + 1
  high_lt : high < arr.length
  start : low = 0 ∨ ∃ a, arr[low.toNat]? = some a ∧ a.afterLineNumber < lineNumber
  below : ∀ i : ℕ, high < i → ∀ a, arr[i]? = some a → lineNumber ≤ a.afterLineNumber

theorem FindingLast.none {low high : ℤ} (h : FindingLast arr lineNumber low high)
    (hempty : high < low) : ∃ count : ℕ, (-1 : ℤ) = count - 1 ∧ Above arr lineNumber count := by
  rcases h.start with hzero | ⟨a, ha, hlt⟩
  · exact ⟨0, rfl, Nat.zero_le _, fun i hi => absurd hi (Nat.not_lt_zero i),
      fun i _ => h.below i (by omega)⟩
  · have hnonneg := h.low_nonneg
    exact absurd (h.below low.toNat (by omega) a ha) (not_le_of_gt hlt)

theorem findLastLoop_above (hsorted : SortedByLine arr) (hlength : (arr.length : ℤ) < 2 ^ 31) (fuel : ℕ)
    {low high : ℤ} (h : FindingLast arr lineNumber low high) (hfuel : high + 1 - low ≤ fuel) :
    ∃ count : ℕ, findLastLoop arr lineNumber fuel low high = count - 1 ∧
      Above arr lineNumber count := by
  induction fuel generalizing low high with
  | zero => exact h.none (by omega)
  | succ fuel ih =>
    have hnonneg := h.low_nonneg
    have hhigh := h.high_lt
    unfold findLastLoop
    by_cases hle : low ≤ high
    · obtain ⟨mid, hmid⟩ : ∃ mid : ℕ, low + (high - low) / 2 = mid :=
        Int.eq_ofNat_of_zero_le (by omega)
      have hdelta : toInt32 (high - low) = high - low := toInt32_eq (by omega) (by omega)
      have hhalf : toInt32 ((high - low).tdiv 2) = (high - low) / 2 := by
        rw [Int.tdiv_eq_ediv_of_nonneg (by omega), toInt32_eq (by omega) (by omega)]
      have hmidEq : toInt32 (low + (high - low) / 2) = mid := by
        rw [hmid, toInt32_eq (by omega) (by omega)]
      obtain ⟨middle, hmiddle⟩ : ∃ middle, arr[mid]? = some middle :=
        ⟨_, List.getElem?_eq_getElem (by omega)⟩
      rw [if_pos hle]
      simp only [hdelta, hhalf, hmidEq, if_neg (show ¬ ((mid : ℤ) < 0) by omega), Int.toNat_natCast,
        hmiddle]
      split_ifs with habove
      · have hfound (hbelow : ∀ i : ℕ, mid < i → ∀ a, arr[i]? = some a →
            lineNumber ≤ a.afterLineNumber) :
            ∃ count : ℕ, (mid : ℤ) = count - 1 ∧ Above arr lineNumber count := by
          refine ⟨mid + 1, by omega, by omega, fun i hi a ha => ?_, hbelow⟩
          exact (hsorted.le (Nat.le_of_lt_succ hi) ha hmiddle).trans_lt habove
        cases hnext : arr[mid + 1]? with
        | none =>
          refine hfound fun i hi a ha => ?_
          have hlast := List.getElem?_eq_none_iff.1 hnext
          rw [List.getElem?_eq_none (by omega)] at ha
          cases ha
        | some next =>
          dsimp only
          split_ifs with hbelow
          · exact hfound fun i hi a ha => hbelow.trans (hsorted.le hi hnext ha)
          · have hstart : toInt32 ((mid : ℤ) + 1) = (mid + 1 : ℕ) := by
              rw [Nat.cast_succ, toInt32_eq (by omega) (by omega)]
            have hlt := (List.getElem?_eq_some_iff.1 hnext).1
            have hhighLe : ((mid + 1 : ℕ) : ℤ) ≤ high := by
              by_contra hgt
              exact hbelow (h.below (mid + 1) (by omega) next hnext)
            rw [hstart]
            refine ih ⟨Int.natCast_nonneg _, by omega, hhigh, .inr ⟨next, ?_, not_le.1 hbelow⟩,
              h.below⟩ (by omega)
            rw [Int.toNat_natCast, hnext]
      · have hstop : toInt32 ((mid : ℤ) - 1) = mid - 1 := toInt32_eq (by omega) (by omega)
        rw [hstop]
        refine ih ⟨hnonneg, by omega, by omega, h.start, fun i hi a ha => ?_⟩ (by omega)
        exact (not_lt.1 habove).trans (hsorted.le (by omega) hmiddle ha)
    · rw [if_neg hle]
      exact h.none (by omega)

theorem findLastWhitespaceBeforeLineNumber_above (hsorted : SortedByLine s.arr)
    (hlength : (s.arr.length : ℤ) < 2 ^ 31) (lineNumber : ℤ) :
    ∃ count : ℕ, s.findLastWhitespaceBeforeLineNumber lineNumber = count - 1 ∧
      Above s.arr (toInt32 lineNumber) count :=
  findLastLoop_above hsorted hlength s.arr.length ⟨le_refl 0, by omega, by omega, .inl rfl,
    fun i hi a ha => by rw [List.getElem?_eq_none (by omega)] at ha; cases ha⟩ (by omega)

/-- The heights of the whitespaces above a line. -/
def heightAbove (arr : List EditorWhitespace) (lineNumber : ℤ) : ℤ :=
  ((arr.filter fun a => a.afterLineNumber < lineNumber).map EditorWhitespace.height).sum

theorem Above.filter_eq {count : ℕ} (h : Above arr lineNumber count) :
    (arr.filter fun a => a.afterLineNumber < lineNumber) = arr.take count := by
  have htake : ∀ a ∈ arr.take count, decide (a.afterLineNumber < lineNumber) = true := by
    intro a ha
    obtain ⟨i, hi⟩ := List.mem_iff_getElem?.1 ha
    rw [List.getElem?_take] at hi
    split_ifs at hi with hlt
    exact decide_eq_true (h.above i hlt a hi)
  have hdrop : ∀ a ∈ arr.drop count, ¬ decide (a.afterLineNumber < lineNumber) = true := by
    intro a ha
    obtain ⟨i, hi⟩ := List.mem_iff_getElem?.1 ha
    rw [List.getElem?_drop] at hi
    rw [decide_eq_true_eq]
    exact not_lt_of_ge (h.below (count + i) (Nat.le_add_right count i) a hi)
  conv_lhs => rw [← List.take_append_drop count arr]
  rw [List.filter_append, List.filter_eq_self.2 htake, List.filter_eq_nil_iff.2 hdrop,
    List.append_nil]

theorem Above.heightAbove_eq {count : ℕ} (h : Above arr lineNumber count) :
    heightAbove arr lineNumber = sumOf (arr.map EditorWhitespace.height) count := by
  rw [heightAbove, h.filter_eq, sumOf, List.map_take]

theorem SameButSums.heightAbove_eq {arr' : List EditorWhitespace} (h : SameButSums arr arr')
    (lineNumber : ℤ) : heightAbove arr lineNumber = heightAbove arr' lineNumber := by
  have hfilter : ∀ arr : List EditorWhitespace, heightAbove arr lineNumber =
      (((arr.map fun a => (a.afterLineNumber, a.height)).filter fun p => p.1 < lineNumber).map
        Prod.snd).sum := by
    intro arr
    rw [List.filter_map, List.map_map]
    rfl
  rw [hfilter, hfilter, h.map_eq fun _ => rfl]

theorem heightAbove_mono (hheight : ∀ a ∈ arr, 0 ≤ a.height) :
    Monotone (heightAbove arr) := by
  intro m n hle
  induction arr with
  | nil => exact le_refl 0
  | cons a arr ih =>
    have hrest := ih fun b hb => hheight b (List.mem_cons_of_mem a hb)
    have hnonneg := hheight a List.mem_cons_self
    unfold heightAbove at hrest ⊢
    rw [List.filter_cons, List.filter_cons]
    simp only [decide_eq_true_eq]
    split_ifs with hm hn hn
    · simpa using hrest
    · omega
    · rw [List.map_cons, List.sum_cons]
      omega
    · exact hrest

/-! ## Queries -/

/-- The lines have positive integral heights with the sums that go with them, and the whitespaces
are ordered by line and do not reach upwards. -/
structure Laid (s : LinesLayout) : Prop where
  lineHeights : ∀ lineNumber, 1 ≤ lineNumber → lineNumber ≤ s.lineCount →
    ∃ height : ℕ, 0 < height ∧ (s.getLineHeightForLineNumber lineNumber).1 = height
  accumulated : ∀ lineNumber : ℕ, 1 ≤ lineNumber → lineNumber ≤ s.lineCount →
    (s.getAccumulatedLineHeights lineNumber).1 =
      ∑ i ∈ Finset.Icc 1 lineNumber, (s.getLineHeightForLineNumber i).1
  sorted : SortedByLine s.arr
  height_nonneg : ∀ a ∈ s.arr, 0 ≤ a.height
  sums : SumsRight s.arr s.prefixSumValidIndex

/-- Lines, whitespaces and offsets can be numbered by 32 bits. -/
structure Fits (s : LinesLayout) : Prop where
  lineCount_nonneg : 0 ≤ s.lineCount
  lineCount_lt : s.lineCount < 2 ^ 31
  length_lt : (s.arr.length : ℤ) < 2 ^ 31
  paddingTop_ge : -2 ^ 31 ≤ s.paddingTop
  offset_lt : ∀ lineNumber, 1 ≤ lineNumber → lineNumber ≤ s.lineCount →
    (s.getVerticalOffsetForLineNumber lineNumber false).1 < 2 ^ 31

/-- Nothing that an answer depends on is different. -/
structure SameView (s s' : LinesLayout) : Prop where
  manager_eq : s.lineHeightsManager.commit = s'.lineHeightsManager.commit
  arr_eq : SameButSums s.arr s'.arr
  paddingTop_eq : s.paddingTop = s'.paddingTop

theorem SameView.trans {s'' : LinesLayout} (h : SameView s s') (h' : SameView s' s'') :
    SameView s s'' :=
  ⟨h.manager_eq.trans h'.manager_eq, h.arr_eq.trans h'.arr_eq,
    h.paddingTop_eq.trans h'.paddingTop_eq⟩

theorem commit_hasPending (m : LineHeightsManager) : m.commit.hasPending = false := by
  unfold LineHeightsManager.commit
  split_ifs with hpending
  · rfl
  · exact Bool.eq_false_of_not_eq_true hpending

theorem commit_commit (m : LineHeightsManager) : m.commit.commit = m.commit := by
  rw [LineHeightsManager.commit.eq_def m.commit, commit_hasPending, if_neg Bool.false_ne_true]

/-- The heights of the lines above a line. -/
def linesAbove (s : LinesLayout) (lineNumber : ℤ) : ℚ :=
  if lineNumber > 1 then (s.getAccumulatedLineHeights (lineNumber - 1)).1 else 0

theorem SameView.lineHeight_eq (h : SameView s s') (lineNumber : ℤ) :
    (s.getLineHeightForLineNumber lineNumber).1 = (s'.getLineHeightForLineNumber lineNumber).1 := by
  simp only [getLineHeightForLineNumber, LineHeightsManager.heightForLineNumber, h.manager_eq]

theorem SameView.linesAbove_eq (h : SameView s s') (lineNumber : ℤ) :
    s.linesAbove lineNumber = s'.linesAbove lineNumber := by
  simp only [linesAbove, getAccumulatedLineHeights,
    LineHeightsManager.getAccumulatedLineHeightsIncludingLineNumber, h.manager_eq]

/-- A query has committed the changes of the line heights. -/
theorem sameView_commit (s : LinesLayout) :
    SameView { s with lineHeightsManager := s.lineHeightsManager.commit } s :=
  ⟨commit_commit s.lineHeightsManager, rfl, rfl⟩

/-- What the search works on, in whatever state the queries before it left the layout. -/
structure Searched (s s' : LinesLayout) : Prop where
  view : SameView s' s
  sums : SumsRight s'.arr s'.prefixSumValidIndex

theorem Searched.getLineHeightForLineNumber (h : Searched s s') (lineNumber : ℤ) :
    (s'.getLineHeightForLineNumber lineNumber).1 = (s.getLineHeightForLineNumber lineNumber).1 ∧
      Searched s (s'.getLineHeightForLineNumber lineNumber).2 :=
  ⟨h.view.lineHeight_eq lineNumber, (sameView_commit s').trans h.view, h.sums⟩

theorem Searched.getWhitespaceAccumulatedHeightBeforeLineNumber (h : Searched s s')
    (hsorted : SortedByLine s.arr) (hlength : (s.arr.length : ℤ) < 2 ^ 31)
    (hfits : toInt32 lineNumber = lineNumber) :
    (s'.getWhitespaceAccumulatedHeightBeforeLineNumber lineNumber).1 =
        heightAbove s.arr lineNumber ∧
      Searched s (s'.getWhitespaceAccumulatedHeightBeforeLineNumber lineNumber).2 := by
  have hlengthEq := h.view.arr_eq.length_eq
  have hsorted' : SortedByLine s'.arr := by
    have hlines : s'.arr.map EditorWhitespace.afterLineNumber =
        s.arr.map EditorWhitespace.afterLineNumber := h.view.arr_eq.map_eq fun _ => rfl
    rw [SortedByLine, ← List.pairwise_map] at hsorted ⊢
    rwa [hlines]
  obtain ⟨count, hcount, habove⟩ := s'.findLastWhitespaceBeforeLineNumber_above hsorted'
    (by rwa [hlengthEq]) lineNumber
  have hle := habove.le_length
  rw [hfits] at habove
  unfold LinesLayout.getWhitespaceAccumulatedHeightBeforeLineNumber
  rw [hfits, hcount, ← h.view.arr_eq.heightAbove_eq, habove.heightAbove_eq]
  by_cases hzero : count = 0
  · rw [if_pos (by omega), hzero, sumOf_zero]
    exact ⟨rfl, h⟩
  · have hindex : toInt32 ((count : ℤ) - 1) = count - 1 := toInt32_eq (by omega) (by omega)
    have hlt : toInt32 ((count : ℤ) - 1) < s'.arr.length := by omega
    obtain ⟨hsame, hsums, hresult⟩ := h.sums.accumulated (by omega) hlt
    have hnat : (toInt32 ((count : ℤ) - 1) + 1).toNat = count := by omega
    rw [if_neg (by omega)]
    refine ⟨?_, ⟨?_, ?_, ?_⟩, hsums⟩
    · rw [hresult (by omega), hnat]
    · exact h.view.manager_eq
    · exact hsame.trans h.view.arr_eq
    · exact h.view.paddingTop_eq

theorem Searched.getVerticalOffsetForLineNumber (h : Searched s s')
    (hsorted : SortedByLine s.arr) (hlength : (s.arr.length : ℤ) < 2 ^ 31)
    (hfits : toInt32 lineNumber = lineNumber) :
    (s'.getVerticalOffsetForLineNumber lineNumber false).1 =
        s.linesAbove lineNumber + heightAbove s.arr lineNumber + s.paddingTop ∧
      Searched s (s'.getVerticalOffsetForLineNumber lineNumber false).2 := by
  have hlines := h.view.linesAbove_eq lineNumber
  unfold LinesLayout.getVerticalOffsetForLineNumber
  simp only [hfits, Bool.false_eq_true, ↓reduceIte, sub_zero]
  unfold linesAbove at hlines
  by_cases hone : lineNumber > 1
  · have hcommitted : Searched s (s'.getAccumulatedLineHeights (lineNumber - 1)).2 :=
      ⟨(sameView_commit s').trans h.view, h.sums⟩
    obtain ⟨hheight, hnext⟩ :=
      hcommitted.getWhitespaceAccumulatedHeightBeforeLineNumber hsorted hlength hfits
    rw [if_pos hone] at hlines ⊢
    refine ⟨?_, hnext⟩
    rw [hlines, hheight, hnext.view.paddingTop_eq]
    simp only [linesAbove, if_pos hone]
  · obtain ⟨hheight, hnext⟩ :=
      h.getWhitespaceAccumulatedHeightBeforeLineNumber hsorted hlength hfits
    rw [if_neg hone]
    refine ⟨?_, hnext⟩
    rw [hheight, hnext.view.paddingTop_eq]
    simp only [linesAbove, if_neg hone]

/-! ## The line at an offset -/

/-- The line is the first one whose bottom is below the offset, or the last line when there is
none. -/
def IsHit {α : Type} [LinearOrder α] (lineCount : ℤ) (bottom : ℤ → α) (verticalOffset : α)
    (lineNumber : ℤ) : Prop :=
  (1 ≤ lineNumber ∧ lineNumber ≤ lineCount ∧ verticalOffset < bottom lineNumber ∧
    ∀ before, 1 ≤ before → before < lineNumber → bottom before ≤ verticalOffset) ∨
  (lineNumber = lineCount ∧
    ∀ line, 1 ≤ line → line ≤ lineCount → bottom line ≤ verticalOffset)

/-- Integral bottoms may be compared as integers. -/
theorem IsHit.cast {lineCount : ℤ} {bottom : ℤ → ℤ} {bottom' : ℤ → ℚ} {verticalOffset : ℤ}
    (h : IsHit lineCount bottom verticalOffset lineNumber)
    (heq : ∀ line, 1 ≤ line → line ≤ lineCount → bottom' line = bottom line) :
    IsHit lineCount bottom' verticalOffset lineNumber := by
  rcases h with ⟨hone, hle, hlt, hbefore⟩ | ⟨hlast, hall⟩
  · refine .inl ⟨hone, hle, ?_, fun before hbeforeOne hbeforeLt => ?_⟩
    · rw [heq lineNumber hone hle]
      exact_mod_cast hlt
    · rw [heq before hbeforeOne (by omega)]
      exact_mod_cast hbefore before hbeforeOne hbeforeLt
  · refine .inr ⟨hlast, fun line hlineOne hlineLe => ?_⟩
    rw [heq line hlineOne hlineLe]
    exact_mod_cast hall line hlineOne hlineLe

/-- Where the lines start and how high they are, without the padding. -/
structure Stacked (s : LinesLayout) (top height : ℤ → ℤ) : Prop where
  lineHeight : ∀ lineNumber, 1 ≤ lineNumber → lineNumber ≤ s.lineCount →
    (s.getLineHeightForLineNumber lineNumber).1 = height lineNumber
  top_eq : ∀ lineNumber, 1 ≤ lineNumber → lineNumber ≤ s.lineCount →
    s.linesAbove lineNumber + heightAbove s.arr lineNumber = top lineNumber
  top_nonneg : ∀ lineNumber, 1 ≤ lineNumber → lineNumber ≤ s.lineCount → 0 ≤ top lineNumber
  height_pos : ∀ lineNumber, 1 ≤ lineNumber → lineNumber ≤ s.lineCount → 0 < height lineNumber
  top_succ : ∀ lineNumber, 1 ≤ lineNumber → lineNumber < s.lineCount →
    top lineNumber + height lineNumber ≤ top (lineNumber + 1)

theorem Stacked.le {top height : ℤ → ℤ} (h : s.Stacked top height) {line line' : ℤ}
    (hone : 1 ≤ line) (hlt : line < line') (hle : line' ≤ s.lineCount) :
    top line + height line ≤ top line' := by
  induction line', hlt using Int.leInduction with
  | base => exact h.top_succ line hone (by omega)
  | succ line' hlt ih =>
    have hline : line + 1 ≤ line' := hlt
    have hprevious := ih (by omega)
    have hstep := h.top_succ line' (by omega) (by omega)
    have hpos := h.height_pos line' (by omega) (by omega)
    omega

/-- The lines above one stand on each other. -/
theorem Laid.linesAbove_eq (h : s.Laid) {count : ℕ} (hle : count ≤ s.lineCount) :
    s.linesAbove (count + 1) =
      ∑ i ∈ Finset.Icc 1 count, (s.getLineHeightForLineNumber i).1 := by
  unfold linesAbove
  cases count with
  | zero => rw [if_neg (by omega), Finset.Icc_eq_empty (by omega), Finset.sum_empty]
  | succ count =>
    have haccumulated := h.accumulated (count + 1) (by omega) hle
    rw [if_pos (by omega), add_sub_cancel_right, haccumulated]

theorem Laid.stacked (h : s.Laid) : ∃ top height, s.Stacked top height := by
  choose! height hpos hheight using h.lineHeights
  have hlines : ∀ count : ℕ, count ≤ s.lineCount →
      s.linesAbove (count + 1) = ((∑ i ∈ Finset.Icc 1 count, height i : ℕ) : ℚ) := by
    intro count hle
    rw [h.linesAbove_eq hle, Nat.cast_sum]
    refine Finset.sum_congr rfl fun i hi => hheight i ?_ ?_
    · exact_mod_cast (Finset.mem_Icc.1 hi).1
    · exact le_trans (by exact_mod_cast (Finset.mem_Icc.1 hi).2) hle
  have hnonneg : ∀ lineNumber, 0 ≤ heightAbove s.arr lineNumber := by
    intro lineNumber
    refine List.sum_nonneg fun x hx => ?_
    obtain ⟨a, ha, rfl⟩ := List.mem_map.1 hx
    exact h.height_nonneg a (List.mem_of_mem_filter ha)
  refine ⟨fun lineNumber => (∑ i ∈ Finset.Icc 1 (lineNumber - 1).toNat, height i : ℕ) +
    heightAbove s.arr lineNumber, fun lineNumber => height lineNumber, ⟨?_, ?_, ?_, ?_, ?_⟩⟩
  · intro lineNumber hone hle
    exact_mod_cast hheight lineNumber hone hle
  · intro lineNumber hone hle
    obtain ⟨count, rfl⟩ : ∃ count : ℕ, lineNumber = count + 1 :=
      ⟨(lineNumber - 1).toNat, by omega⟩
    rw [hlines count (by omega), add_sub_cancel_right, Int.toNat_natCast]
    push_cast
    rfl
  · intro lineNumber _ _
    exact add_nonneg (Int.natCast_nonneg _) (hnonneg lineNumber)
  · intro lineNumber hone hle
    exact_mod_cast hpos lineNumber hone hle
  · intro lineNumber hone hlt
    obtain ⟨count, rfl⟩ : ∃ count : ℕ, lineNumber = count + 1 :=
      ⟨(lineNumber - 1).toNat, by omega⟩
    have hmono := heightAbove_mono h.height_nonneg
      (show (count + 1 : ℤ) ≤ count + 1 + 1 by omega)
    have hnext : ((count : ℤ) + 1 + 1 - 1).toNat = count + 1 := by omega
    rw [hnext, add_sub_cancel_right, Int.toNat_natCast, Finset.sum_Icc_succ_top (by omega)]
    push_cast
    omega

/-- A padding is cut to an integer once, whatever stands on it. -/
theorem truncate_add {top : ℤ} {padding : ℚ} (hpadding : 0 ≤ padding ∨ ∃ p : ℤ, padding = p)
    (hnonneg : 0 ≤ top) (hge : -2 ^ 31 ≤ padding) (hlt : top + padding < 2 ^ 31) :
    truncate (top + padding) = top + ⌊padding⌋ := by
  unfold truncate
  rcases hpadding with hpos | ⟨p, rfl⟩
  · have hsum : 0 ≤ (top : ℚ) + padding := add_nonneg (by exact_mod_cast hnonneg) hpos
    have hfloor : ⌊(top : ℚ) + padding⌋ < 2 ^ 31 := Int.floor_lt.2 (by exact_mod_cast hlt)
    have hfloorNonneg := Int.floor_nonneg.2 hsum
    rw [if_neg (not_lt_of_ge hsum), toInt32_eq (by omega) hfloor, Int.floor_intCast_add]
  · have hsum : (top : ℚ) + (p : ℚ) = ((top + p : ℤ) : ℚ) := by push_cast; rfl
    have hge' : -2 ^ 31 ≤ p := by exact_mod_cast hge
    have hlt' : top + p < 2 ^ 31 := by exact_mod_cast hlt
    rw [hsum, Int.ceil_intCast, Int.floor_intCast, ite_self, toInt32_eq (by omega) hlt',
      Int.floor_intCast]

/-- What is known while the binary search runs. -/
structure Hitting (s : LinesLayout) (bottom : ℤ → ℤ) (verticalOffset minLineNumber maxLineNumber : ℤ) :
    Prop where
  one_le : 1 ≤ minLineNumber
  min_le : minLineNumber ≤ maxLineNumber
  max_le : maxLineNumber ≤ s.lineCount
  below : ∀ line, 1 ≤ line → line < minLineNumber → bottom line ≤ verticalOffset
  above : maxLineNumber = s.lineCount ∨ verticalOffset < bottom maxLineNumber

theorem Hitting.isHit {bottom : ℤ → ℤ} {verticalOffset line line' : ℤ}
    (h : Hitting s bottom verticalOffset line line') (heq : line = line') :
    IsHit s.lineCount bottom verticalOffset line := by
  subst heq
  by_cases hlt : verticalOffset < bottom line
  · exact .inl ⟨h.one_le, h.max_le, hlt, h.below⟩
  · have hlast := h.above.resolve_right hlt
    refine .inr ⟨hlast, fun line' hone hle => ?_⟩
    rcases lt_or_eq_of_le (hlast ▸ hle) with hbefore | rfl
    · exact h.below line' hone hbefore
    · exact not_lt.1 hlt

theorem lineNumberLoop_isHit {top height : ℤ → ℤ} (hstacked : s.Stacked top height)
    (hsorted : SortedByLine s.arr) (hfits : s.Fits) {padding : ℤ}
    (htruncate : ∀ line, 1 ≤ line → line ≤ s.lineCount →
      truncate (top line + s.paddingTop) = top line + padding)
    {verticalOffset : ℤ} (fuel : ℕ) {minLineNumber maxLineNumber : ℤ} (hsearched : Searched s s')
    (h : Hitting s (fun line => top line + padding + height line) verticalOffset minLineNumber
      maxLineNumber) (hfuel : maxLineNumber - minLineNumber ≤ fuel) :
    IsHit s.lineCount (fun line => top line + padding + height line) verticalOffset
      (lineNumberLoop verticalOffset s.lineCount s' fuel minLineNumber maxLineNumber).1 := by
  induction fuel generalizing s' minLineNumber maxLineNumber with
  | zero =>
    have hone := h.one_le
    have hle := h.min_le
    have hmax := h.max_le
    unfold lineNumberLoop
    rw [if_neg (by omega)]
    exact h.isHit (by omega)
  | succ fuel ih =>
    have hone := h.one_le
    have hle := h.min_le
    have hmax := h.max_le
    have hcount := hfits.lineCount_lt
    unfold lineNumberLoop
    by_cases hlt : minLineNumber < maxLineNumber
    · obtain ⟨mid, hmid⟩ : ∃ mid, (minLineNumber + maxLineNumber) / 2 = mid := ⟨_, rfl⟩
      have hmidFits : toInt32 mid = mid := toInt32_eq (by omega) (by omega)
      obtain ⟨hheight, hafterHeight⟩ := hsearched.getLineHeightForLineNumber mid
      obtain ⟨hoffset, hafterOffset⟩ :=
        hafterHeight.getVerticalOffsetForLineNumber hsorted hfits.length_lt hmidFits
      rw [hstacked.top_eq mid (by omega) (by omega)] at hoffset
      rw [hstacked.lineHeight mid (by omega) (by omega)] at hheight
      rw [if_pos hlt]
      simp only [hmid, hmidFits, hheight, hoffset, htruncate mid (by omega) (by omega)]
      have hbefore : ∀ line, 1 ≤ line → line < mid → top line + height line ≤ top mid :=
        fun line hline hlineLt => hstacked.le hline hlineLt (by omega)
      have hpos := hstacked.height_pos mid (by omega) (by omega)
      split_ifs with hafter hhit
      · have hafter' : verticalOffset ≥ top mid + padding + height mid := by exact_mod_cast hafter
        refine ih hafterOffset ⟨by omega, by omega, hmax, fun line hline hlineLt => ?_, h.above⟩
          (by omega)
        rcases Int.lt_or_eq_of_le (Int.le_of_lt_add_one hlineLt) with hlineLt | rfl
        · have hlineLe := hbefore line hline hlineLt
          omega
        · exact hafter'
      · have hafter' : ¬ verticalOffset ≥ top mid + padding + height mid :=
          fun hge => hafter (by exact_mod_cast hge)
        refine .inl ⟨by omega, by omega, not_le.1 hafter', fun line hline hlineLt => ?_⟩
        have hlineLe := hbefore line hline hlineLt
        dsimp only
        omega
      · refine ih hafterOffset ⟨hone, by omega, by omega, h.below, .inr ?_⟩ (by omega)
        omega
    · rw [if_neg hlt, if_neg (by omega)]
      exact h.isHit (by omega)

/-- The search finds the line at an offset when paddings are cut to integers. With an integral
padding nothing is cut. -/
theorem getLineNumberAtOrAfterVerticalOffset_isHit (h : s.Laid) (hfits : s.Fits)
    (hpadding : 0 ≤ s.paddingTop ∨ ∃ p : ℤ, s.paddingTop = p) {verticalOffset : ℕ}
    (hoffset : verticalOffset < 2 ^ 31) :
    IsHit s.lineCount (fun line => ⌊(s.getVerticalOffsetForLineNumber line false).1⌋ +
        (s.getLineHeightForLineNumber line).1) (verticalOffset : ℚ)
        (s.getLineNumberAtOrAfterVerticalOffset verticalOffset).1 ∧
      ((∃ p : ℤ, s.paddingTop = p) →
        IsHit s.lineCount (fun line => (s.getVerticalOffsetForLineNumber line false).1 +
          (s.getLineHeightForLineNumber line).1) (verticalOffset : ℚ)
          (s.getLineNumberAtOrAfterVerticalOffset verticalOffset).1) := by
  obtain ⟨top, height, hstacked⟩ := h.stacked
  have hcount := hfits.lineCount_lt
  have hcountNonneg := hfits.lineCount_nonneg
  have hself : Searched s s := ⟨⟨rfl, rfl, rfl⟩, h.sums⟩
  have hoffsetEq : ∀ line, 1 ≤ line → line ≤ s.lineCount →
      (s.getVerticalOffsetForLineNumber line false).1 = top line + s.paddingTop := by
    intro line hone hle
    have hanswer := hself.getVerticalOffsetForLineNumber h.sorted hfits.length_lt
      (toInt32_eq (show -2 ^ 31 ≤ line by omega) (by omega))
    rw [hanswer.1, hstacked.top_eq line hone hle]
  have htruncate : ∀ line, 1 ≤ line → line ≤ s.lineCount →
      truncate (top line + s.paddingTop) = top line + ⌊s.paddingTop⌋ := by
    intro line hone hle
    refine truncate_add hpadding (hstacked.top_nonneg line hone hle) hfits.paddingTop_ge ?_
    rw [← hoffsetEq line hone hle]
    exact hfits.offset_lt line hone hle
  have hhit : IsHit s.lineCount (fun line => top line + ⌊s.paddingTop⌋ + height line)
      verticalOffset (s.getLineNumberAtOrAfterVerticalOffset verticalOffset).1 := by
    have hcut : truncate (verticalOffset : ℚ) = verticalOffset := by
      unfold truncate
      rw [if_neg (not_lt_of_ge (Nat.cast_nonneg _)), Int.floor_natCast,
        toInt32_eq (by omega) (by exact_mod_cast hoffset)]
    have hlines : toInt32 s.lineCount = s.lineCount := toInt32_eq (by omega) (by omega)
    unfold LinesLayout.getLineNumberAtOrAfterVerticalOffset
    simp only [hcut, hlines]
    rw [if_neg (by omega)]
    by_cases hempty : s.lineCount = 0
    · rw [hempty]
      exact .inr ⟨rfl, fun line hone hle => absurd hle (by omega)⟩
    · exact lineNumberLoop_isHit hstacked h.sorted hfits htruncate _ hself
        ⟨le_refl 1, by omega, le_refl _, fun line hone hlt => absurd hlt (by omega), .inl rfl⟩
        (by omega)
  constructor
  · refine hhit.cast fun line hone hle => ?_
    rw [hoffsetEq line hone hle, hstacked.lineHeight line hone hle, Int.floor_intCast_add]
    push_cast
    rfl
  · rintro ⟨p, hp⟩
    refine hhit.cast fun line hone hle => ?_
    rw [hoffsetEq line hone hle, hstacked.lineHeight line hone hle, hp, Int.floor_intCast]
    push_cast
    rfl

/-! ## Layouts of equal lines -/

/-- Lines of one height. -/
def plain (lineCount : ℤ) (lineHeight : ℕ) (paddingTop : ℚ) (arr : List EditorWhitespace) :
    LinesLayout :=
  { new "a" lineCount lineHeight paddingTop 0 [] with arr }

theorem plain_laid {lineCount : ℤ} {lineHeight : ℕ} {paddingTop : ℚ} (hpos : 0 < lineHeight)
    (hsorted : SortedByLine arr) (hheight : ∀ a ∈ arr, 0 ≤ a.height) :
    (plain lineCount lineHeight paddingTop arr).Laid where
  lineHeights _ _ _ := ⟨lineHeight, hpos, rfl⟩
  accumulated lineNumber _ _ := by
    have hsum : ∑ i ∈ Finset.Icc 1 lineNumber,
        ((plain lineCount lineHeight paddingTop arr).getLineHeightForLineNumber i).1 =
        ∑ _i ∈ Finset.Icc 1 lineNumber, (lineHeight : ℚ) := Finset.sum_congr rfl fun _ _ => rfl
    have haccumulated : ((plain lineCount lineHeight paddingTop arr).getAccumulatedLineHeights
        lineNumber).1 = (lineHeight : ℚ) * lineNumber := rfl
    rw [hsum, haccumulated, Finset.sum_const, Nat.card_Icc, nsmul_eq_mul, Nat.add_sub_cancel,
      mul_comm]
  sorted := hsorted
  height_nonneg := hheight
  sums := sumsRight_invalid arr

/-- The offset is in a whitespace, so the line below it is found. -/
theorem getLineNumberAtOrAfterVerticalOffset_isHit_whitespace :
    let s := plain 2 10 0 [⟨"a1", 1, 0, 5, 0, 0⟩]
    IsHit s.lineCount (fun line => ⌊(s.getVerticalOffsetForLineNumber line false).1⌋ +
        (s.getLineHeightForLineNumber line).1) ((12 : ℕ) : ℚ)
        (s.getLineNumberAtOrAfterVerticalOffset (12 : ℕ)).1 ∧
      ((∃ p : ℤ, s.paddingTop = p) →
        IsHit s.lineCount (fun line => (s.getVerticalOffsetForLineNumber line false).1 +
          (s.getLineHeightForLineNumber line).1) ((12 : ℕ) : ℚ)
          (s.getLineNumberAtOrAfterVerticalOffset (12 : ℕ)).1) := by
  refine getLineNumberAtOrAfterVerticalOffset_isHit (plain_laid (by decide)
    (List.pairwise_singleton _ _) (by decide)) ⟨by decide, by decide, by decide, ?_, ?_⟩ (.inl ?_)
    (by decide)
  · decide +kernel
  · intro line hone hle
    have hle : line ≤ 2 := hle
    interval_cases line <;> decide +kernel
  · decide +kernel

/-- A line above the one that was found reaches below the offset. -/
theorem not_isHit {lineCount line lineNumber : ℤ} {bottom : ℤ → ℚ} {verticalOffset : ℚ}
    (hone : 1 ≤ line) (hlt : line < lineNumber) (hle : lineNumber ≤ lineCount)
    (hbottom : verticalOffset < bottom line) :
    ¬ IsHit lineCount bottom verticalOffset lineNumber := by
  rintro (⟨-, -, -, hbefore⟩ | ⟨-, hall⟩)
  · exact not_le_of_gt hbottom (hbefore line hone hlt)
  · exact not_le_of_gt hbottom (hall line hone (by omega))

/-- Offsets of more than 32 bits and paddings that are not integral lead to other lines. -/
theorem isHit_beyond :
    (¬ ∀ s : LinesLayout, s.Laid → ∀ verticalOffset : ℕ,
      IsHit s.lineCount (fun line => (s.getVerticalOffsetForLineNumber line false).1 +
        (s.getLineHeightForLineNumber line).1) (verticalOffset : ℚ)
        (s.getLineNumberAtOrAfterVerticalOffset verticalOffset).1) ∧
    (¬ ∀ s : LinesLayout, s.Laid → 0 ≤ s.paddingTop → ∀ verticalOffset : ℕ, verticalOffset < 2 ^ 31 →
      IsHit s.lineCount (fun line => (s.getVerticalOffsetForLineNumber line false).1 +
        (s.getLineHeightForLineNumber line).1) (verticalOffset : ℚ)
        (s.getLineNumberAtOrAfterVerticalOffset verticalOffset).1) ∧
    (¬ ∀ s : LinesLayout, s.Laid → s.Fits → ∀ verticalOffset : ℕ, verticalOffset < 2 ^ 31 →
      IsHit s.lineCount (fun line => (s.getVerticalOffsetForLineNumber line false).1 +
        (s.getLineHeightForLineNumber line).1) (verticalOffset : ℚ)
        (s.getLineNumberAtOrAfterVerticalOffset verticalOffset).1) := by
  refine ⟨fun h => ?_, fun h => ?_, fun h => ?_⟩
  · have hhit := h (plain 2 (2 ^ 31) 0 []) (plain_laid (by decide) .nil (by simp)) (2 ^ 31)
    rcases hhit with ⟨-, -, hlt, -⟩ | ⟨hlast, -⟩
    · revert hlt
      decide +kernel
    · revert hlast
      decide +kernel
  · have hhit := h (plain 3 (2 ^ 31) 0 []) (plain_laid (by decide) .nil (by simp))
      (by decide +kernel) 5 (by decide)
    exact not_isHit (le_refl 1) (by decide +kernel) (by decide +kernel) (by decide +kernel) hhit
  · have hhit := h (plain 2 10 (1 / 2) []) (plain_laid (by decide) .nil (by simp))
      ⟨by decide, by decide, by decide, by decide +kernel, fun line hone hle => by
        have hle : line ≤ 2 := hle
        interval_cases line <;> decide +kernel⟩ 10 (by decide)
    exact not_isHit (le_refl 1) (by decide +kernel) (by decide +kernel) (by decide +kernel) hhit

end LinesLayout

end NexgileIde.ViewLayout
