import NexgileIde.ViewLayout.WhitespaceOrder

/-!
# Runs of a layout

Queries write sums and nothing else into the array, so with the steps of the order and of the
sums both hold of every layout that a run reaches.
-/
namespace NexgileIde.ViewLayout

open Base Library.PrefixSums

/-- A whitespace but for its sum. -/
def EditorWhitespace.withoutSum (whitespace : EditorWhitespace) : EditorWhitespace :=
  { whitespace with prefixSum := 0 }

namespace LinesLayout

variable {s : LinesLayout} {arr arr' : List EditorWhitespace}

/-! ## Sums -/

/-- Nothing but the sums is different. -/
def SameButSums (arr arr' : List EditorWhitespace) : Prop :=
  arr.map EditorWhitespace.withoutSum = arr'.map EditorWhitespace.withoutSum

theorem SameButSums.map_eq {β : Type} (h : SameButSums arr arr') {f : EditorWhitespace → β}
    (hf : ∀ a, f a.withoutSum = f a) : arr.map f = arr'.map f := by
  have hcomp : f ∘ EditorWhitespace.withoutSum = f := funext hf
  have hmap := congrArg (List.map f) h
  rwa [List.map_map, List.map_map, hcomp] at hmap

theorem SameButSums.length_eq (h : SameButSums arr arr') : arr.length = arr'.length := by
  have hlength := congrArg List.length h
  rwa [List.length_map, List.length_map] at hlength

theorem SameButSums.heights_eq (h : SameButSums arr arr') :
    arr.map EditorWhitespace.height = arr'.map EditorWhitespace.height :=
  h.map_eq fun _ => rfl

theorem SameButSums.sorted_iff (h : SameButSums arr arr') : Sorted arr ↔ Sorted arr' := by
  have hkeys : arr.map EditorWhitespace.key = arr'.map EditorWhitespace.key :=
    h.map_eq fun _ => rfl
  rw [sorted_iff_map, sorted_iff_map, hkeys]

/-- A sum is written. -/
theorem sameButSums_set {i : ℕ} {whitespace : EditorWhitespace} (h : arr[i]? = some whitespace)
    (prefixSum : ℤ) : SameButSums (arr.set i { whitespace with prefixSum }) arr := by
  obtain ⟨hi, hget⟩ := List.getElem?_eq_some_iff.1 h
  have hlength : i < (arr.map EditorWhitespace.withoutSum).length := by rwa [List.length_map]
  have hsame : EditorWhitespace.withoutSum { whitespace with prefixSum } =
      (arr.map EditorWhitespace.withoutSum)[i] := by
    rw [List.getElem_map, hget]
    rfl
  rw [SameButSums, List.map_set, hsame, List.set_getElem_self]

/-- The first entries hold their sums. -/
def SummedTo (arr : List EditorWhitespace) (count : ℕ) : Prop :=
  Summed (arr.map EditorWhitespace.height) (fun i => (arr[i]?).map EditorWhitespace.prefixSum) count

theorem SummedTo.set {i : ℕ} (h : SummedTo arr i) {whitespace : EditorWhitespace}
    (hwhitespace : arr[i]? = some whitespace) {prefixSum : ℤ} (hsum : prefixSum =
      sumOf (arr.map EditorWhitespace.height) i + whitespace.height) :
    SummedTo (arr.set i { whitespace with prefixSum }) (i + 1) := by
  have hlt := (List.getElem?_eq_some_iff.1 hwhitespace).1
  have hheight : (arr.map EditorWhitespace.height)[i]? = some whitespace.height := by
    rw [List.getElem?_map, hwhitespace, Option.map_some]
  unfold SummedTo
  rw [(sameButSums_set hwhitespace prefixSum).heights_eq]
  refine (Summed.congr h (le_refl i) rfl fun j hj => ?_).succ hheight ?_
  · rw [List.getElem?_set_ne (by omega)]
  · rw [List.getElem?_set_self hlt, Option.map_some, hsum]

theorem sumLoop_spec {i turns : ℕ} (hi : 0 < i) (hsummed : SummedTo arr i)
    (hturns : i + turns ≤ arr.length) :
    SameButSums (sumLoop arr i turns) arr ∧ SummedTo (sumLoop arr i turns) (i + turns) := by
  induction turns generalizing i arr with
  | zero => exact ⟨rfl, hsummed⟩
  | succ turns ih =>
    unfold sumLoop
    obtain ⟨whitespace, hwhitespace⟩ : ∃ whitespace, arr[i]? = some whitespace :=
      ⟨_, List.getElem?_eq_getElem (by omega)⟩
    have hentry := hsummed (i - 1) (by omega)
    obtain ⟨previous, hprevious, hsum⟩ := Option.map_eq_some_iff.1 hentry
    rw [Nat.sub_add_cancel hi] at hsum
    simp only [hprevious, hwhitespace]
    have hsame := sameButSums_set hwhitespace (previous.prefixSum + whitespace.height)
    have hset := hsummed.set hwhitespace (congrArg (· + whitespace.height) hsum)
    obtain ⟨hrest, hrestSummed⟩ := ih (Nat.succ_pos i) hset (by rw [hsame.length_eq]; omega)
    refine ⟨hrest.trans hsame, ?_⟩
    rwa [Nat.succ_add] at hrestSummed

/-- The first sum is written when none is valid, and the loop starts behind it. -/
theorem start_spec {validIndex : ℤ} (h : SumsRight arr validIndex) (hnonempty : 0 < arr.length) :
    ∃ (start : ℕ) (arr' : List EditorWhitespace),
      (if max 0 (validIndex + 1) = 0 then
        (arr.modify 0 fun whitespace => { whitespace with prefixSum := whitespace.height },
          max 0 (validIndex + 1) + 1)
      else (arr, max 0 (validIndex + 1))) = (arr', (start : ℤ)) ∧
      0 < start ∧ start ≤ arr.length ∧ validIndex < start ∧
      SameButSums arr' arr ∧ SummedTo arr' start := by
  have hle := h.le_valid
  have hlt := h.valid_lt
  by_cases hnone : max 0 (validIndex + 1) = 0
  · obtain ⟨first, hfirst⟩ : ∃ first, arr[0]? = some first :=
      ⟨_, List.getElem?_eq_getElem hnonempty⟩
    have hmodify : (arr.modify 0 fun whitespace =>
        { whitespace with prefixSum := whitespace.height }) =
        arr.set 0 { first with prefixSum := first.height } := by
      obtain ⟨rest, rfl⟩ : ∃ rest, arr = first :: rest := by
        cases arr with
        | nil => cases hfirst
        | cons a rest => exact ⟨rest, by rw [← Option.some.inj hfirst]⟩
      rfl
    rw [if_pos hnone, hmodify, hnone]
    refine ⟨1, _, rfl, Nat.one_pos, hnonempty, by omega, sameButSums_set hfirst _, ?_⟩
    refine SummedTo.set summed_zero hfirst ?_
    rw [sumOf_zero, Int.zero_add]
  · rw [if_neg hnone]
    refine ⟨(validIndex + 1).toNat, arr, ?_, by omega, by omega, by omega, rfl, h.summed⟩
    rw [Prod.mk.injEq]
    exact ⟨rfl, by omega⟩

/-- A sum is computed up to the index, and the valid index is raised to it. -/
theorem SumsRight.accumulated (h : SumsRight s.arr s.prefixSumValidIndex)
    (hnonempty : 0 < s.arr.length) {index : ℤ} (hindex : toInt32 index < s.arr.length) :
    SameButSums (s.getWhitespacesAccumulatedHeight index).2.arr s.arr ∧
      SumsRight (s.getWhitespacesAccumulatedHeight index).2.arr
        (s.getWhitespacesAccumulatedHeight index).2.prefixSumValidIndex ∧
      (0 ≤ toInt32 index → (s.getWhitespacesAccumulatedHeight index).1 =
        sumOf (s.arr.map EditorWhitespace.height) (toInt32 index + 1).toNat) := by
  have hle := h.le_valid
  have hlt := h.valid_lt
  obtain ⟨start, arr, hstart, hpos, hlength, hvalid, hsame, hsummed⟩ := start_spec h hnonempty
  have hturns : start + (toInt32 index + 1 - start).toNat ≤ arr.length := by
    rw [hsame.length_eq]
    omega
  obtain ⟨hloop, hloopSummed⟩ := sumLoop_spec hpos hsummed hturns
  have hall : SameButSums _ s.arr := hloop.trans hsame
  have hlengthEq := hall.length_eq
  unfold LinesLayout.getWhitespacesAccumulatedHeight
  simp only [hstart, Int.toNat_natCast]
  refine ⟨hall, ⟨by omega, by omega, ?_⟩, fun hnonneg => ?_⟩
  · exact Summed.congr hloopSummed (by omega) rfl fun _ _ => rfl
  · have hentry := hloopSummed (toInt32 index).toNat (by omega)
    have hcount : (toInt32 index).toNat + 1 = (toInt32 index + 1).toNat := by omega
    dsimp only at hentry
    rw [hentry, Option.getD_some, hall.heights_eq, hcount]

theorem Consistent.accumulated (h : s.Consistent) (hnonempty : 0 < s.arr.length) {index : ℤ}
    (hindex : toInt32 index < s.arr.length) :
    (s.getWhitespacesAccumulatedHeight index).2.Consistent := by
  obtain ⟨hsame, hsums, -⟩ := h.sums.accumulated hnonempty hindex
  exact ⟨hsame.sorted_iff.2 h.sorted, hsums⟩

/-! ## Queries -/

theorem toInt32_le {value : ℤ} (h : 0 ≤ value) : toInt32 value ≤ value := by
  unfold toInt32
  omega

theorem Consistent.getWhitespacesTotalHeight (h : s.Consistent) :
    s.getWhitespacesTotalHeight.2.Consistent := by
  unfold LinesLayout.getWhitespacesTotalHeight
  split_ifs with hempty
  · exact h
  · have hle : toInt32 (s.arr.length - 1) ≤ s.arr.length - 1 := toInt32_le (by omega)
    exact h.accumulated (Nat.pos_of_ne_zero hempty) (by omega)

/-- What is found is the index of a whitespace, also in an array that is not sorted. -/
theorem findLastLoop_lt (arr : List EditorWhitespace) (lineNumber : ℤ) (fuel : ℕ) (low high : ℤ) :
    findLastLoop arr lineNumber fuel low high = -1 ∨
      0 ≤ findLastLoop arr lineNumber fuel low high ∧
        findLastLoop arr lineNumber fuel low high < min (2 ^ 31) arr.length := by
  induction fuel generalizing low high with
  | zero => exact .inl rfl
  | succ fuel ih =>
    unfold findLastLoop
    split_ifs with hle
    · dsimp only
      set mid := toInt32 (low + toInt32 ((toInt32 (high - low)).tdiv 2)) with hmid
      have hmidLt : mid < 2 ^ 31 := by
        rw [hmid, toInt32]
        omega
      cases hmiddle : if mid < 0 then none else arr[mid.toNat]? with
      | none => exact .inl rfl
      | some middle =>
        rw [ite_eq_iff] at hmiddle
        obtain ⟨-, hnone⟩ | ⟨hnonneg, hread⟩ := hmiddle
        · cases hnone
        have hlt := (List.getElem?_eq_some_iff.1 hread).1
        have hfound : 0 ≤ mid ∧ mid < min (2 ^ 31) arr.length := by omega
        dsimp only
        split_ifs
        · cases arr[mid.toNat + 1]? with
          | none => exact .inr hfound
          | some next =>
            dsimp only
            split_ifs
            · exact .inr hfound
            · exact ih _ _
        · exact ih _ _
    · exact .inl rfl

theorem findLastWhitespaceBeforeLineNumber_lt (s : LinesLayout) (lineNumber : ℤ) :
    s.findLastWhitespaceBeforeLineNumber lineNumber = -1 ∨
      0 ≤ s.findLastWhitespaceBeforeLineNumber lineNumber ∧
        s.findLastWhitespaceBeforeLineNumber lineNumber < min (2 ^ 31) s.arr.length :=
  findLastLoop_lt _ _ _ _ _

theorem Consistent.getWhitespaceAccumulatedHeightBeforeLineNumber (h : s.Consistent)
    (lineNumber : ℤ) :
    (s.getWhitespaceAccumulatedHeightBeforeLineNumber lineNumber).2.Consistent := by
  unfold LinesLayout.getWhitespaceAccumulatedHeightBeforeLineNumber
  dsimp only
  rcases s.findLastWhitespaceBeforeLineNumber_lt (toInt32 lineNumber) with hnone | ⟨hnonneg, hlt⟩
  · rw [if_pos hnone]
    exact h
  · have hle := toInt32_le hnonneg
    rw [if_neg (by omega)]
    exact h.accumulated (by omega) (by omega)

theorem Consistent.getWhitespaceMinWidth (h : s.Consistent) :
    s.getWhitespaceMinWidth.2.Consistent := by
  unfold LinesLayout.getWhitespaceMinWidth
  split_ifs
  · exact ⟨h.sorted, h.sums⟩
  · exact h

theorem Consistent.getLineHeightForLineNumber (h : s.Consistent) (lineNumber : ℤ) :
    (s.getLineHeightForLineNumber lineNumber).2.Consistent := ⟨h.sorted, h.sums⟩

theorem Consistent.getAccumulatedLineHeights (h : s.Consistent) (lineNumber : ℤ) :
    (s.getAccumulatedLineHeights lineNumber).2.Consistent := ⟨h.sorted, h.sums⟩

theorem Consistent.getLinesTotalHeight (h : s.Consistent) : s.getLinesTotalHeight.2.Consistent :=
  (h.getAccumulatedLineHeights s.lineCount).getWhitespacesTotalHeight

theorem Consistent.getVerticalOffsetForLineNumber (h : s.Consistent) (lineNumber : ℤ)
    (includeViewZones : Bool) :
    (s.getVerticalOffsetForLineNumber lineNumber includeViewZones).2.Consistent := by
  unfold LinesLayout.getVerticalOffsetForLineNumber
  dsimp only
  split_ifs
  · exact (h.getAccumulatedLineHeights _).getWhitespaceAccumulatedHeightBeforeLineNumber _
  · exact (h.getAccumulatedLineHeights _).getWhitespaceAccumulatedHeightBeforeLineNumber _
  · exact h.getWhitespaceAccumulatedHeightBeforeLineNumber _
  · exact h.getWhitespaceAccumulatedHeightBeforeLineNumber _

theorem Consistent.getVerticalOffsetAfterLineNumber (h : s.Consistent) (lineNumber : ℤ)
    (includeViewZones : Bool) :
    (s.getVerticalOffsetAfterLineNumber lineNumber includeViewZones).2.Consistent :=
  (h.getAccumulatedLineHeights (toInt32 lineNumber)).getWhitespaceAccumulatedHeightBeforeLineNumber _

theorem Consistent.lineNumberLoop (verticalOffset linesCount : ℤ) (h : s.Consistent) (fuel : ℕ)
    (minLineNumber maxLineNumber : ℤ) :
    (lineNumberLoop verticalOffset linesCount s fuel minLineNumber maxLineNumber).2.Consistent := by
  induction fuel generalizing s minLineNumber maxLineNumber with
  | zero => exact h
  | succ fuel ih =>
    unfold LinesLayout.lineNumberLoop
    dsimp only
    have hnext := (h.getLineHeightForLineNumber
      (toInt32 ((minLineNumber + maxLineNumber) / 2))).getVerticalOffsetForLineNumber
      (toInt32 ((minLineNumber + maxLineNumber) / 2)) false
    split_ifs
    · exact ih hnext _ _
    · exact hnext
    · exact ih hnext _ _
    · exact h
    · exact h

theorem Consistent.getLineNumberAtOrAfterVerticalOffset (h : s.Consistent) (verticalOffset : ℚ) :
    (s.getLineNumberAtOrAfterVerticalOffset verticalOffset).2.Consistent := by
  unfold LinesLayout.getLineNumberAtOrAfterVerticalOffset
  dsimp only
  split_ifs
  · exact h
  · exact h.lineNumberLoop _ _ _ _ _

/-! ## Runs -/

/-- What a layout is asked or told. -/
inductive Event
  | changeWhitespace (callback : List WhitespaceAccess)
  | onLinesDeleted (fromLineNumber toLineNumber : ℤ)
  | onLinesInserted (fromLineNumber toLineNumber : ℤ)
  | getWhitespacesTotalHeight
  | getWhitespacesAccumulatedHeight (index : ℤ)
  | getWhitespaceAccumulatedHeightBeforeLineNumber (lineNumber : ℤ)
  | getWhitespaceMinWidth
  | getLinesTotalHeight
  | getLineHeightForLineNumber (lineNumber : ℤ)
  | getVerticalOffsetForLineNumber (lineNumber : ℤ) (includeViewZones : Bool)
  | getVerticalOffsetAfterLineNumber (lineNumber : ℤ) (includeViewZones : Bool)
  | getLineNumberAtOrAfterVerticalOffset (verticalOffset : ℚ)
  deriving DecidableEq, Repr

def step (s : LinesLayout) : Event → LinesLayout
  | .changeWhitespace callback => s.changeWhitespace callback
  | .onLinesDeleted fromLineNumber toLineNumber => s.onLinesDeleted fromLineNumber toLineNumber
  | .onLinesInserted fromLineNumber toLineNumber => s.onLinesInserted fromLineNumber toLineNumber
  | .getWhitespacesTotalHeight => s.getWhitespacesTotalHeight.2
  | .getWhitespacesAccumulatedHeight index => (s.getWhitespacesAccumulatedHeight index).2
  | .getWhitespaceAccumulatedHeightBeforeLineNumber lineNumber =>
    (s.getWhitespaceAccumulatedHeightBeforeLineNumber lineNumber).2
  | .getWhitespaceMinWidth => s.getWhitespaceMinWidth.2
  | .getLinesTotalHeight => s.getLinesTotalHeight.2
  | .getLineHeightForLineNumber lineNumber => (s.getLineHeightForLineNumber lineNumber).2
  | .getVerticalOffsetForLineNumber lineNumber includeViewZones =>
    (s.getVerticalOffsetForLineNumber lineNumber includeViewZones).2
  | .getVerticalOffsetAfterLineNumber lineNumber includeViewZones =>
    (s.getVerticalOffsetAfterLineNumber lineNumber includeViewZones).2
  | .getLineNumberAtOrAfterVerticalOffset verticalOffset =>
    (s.getLineNumberAtOrAfterVerticalOffset verticalOffset).2

/-- Zones of lines have a first and a last one, and the index asked for is that of a whitespace. -/
def Admissible (s : LinesLayout) : Event → Prop
  | .onLinesDeleted fromLineNumber toLineNumber => toInt32 fromLineNumber ≤ toInt32 toLineNumber
  | .onLinesInserted fromLineNumber toLineNumber => toInt32 fromLineNumber ≤ toInt32 toLineNumber
  | .getWhitespacesAccumulatedHeight index =>
    0 ≤ toInt32 index ∧ toInt32 index < s.arr.length
  | _ => True

/-- Lines are only deleted where the ordinals rise. -/
def Rising (s : LinesLayout) : Event → Prop
  | .onLinesDeleted fromLineNumber toLineNumber => s.OrdinalsRise fromLineNumber toLineNumber
  | _ => True

/-- The layouts that steps of a kind lead to. -/
inductive Reached (allowed : LinesLayout → Event → Prop) : LinesLayout → Prop
  | new (instanceId : String) (lineCount : ℤ) (defaultLineHeight paddingTop paddingBottom : ℚ)
      (customLineHeightData : List CustomLineHeightData) :
      Reached allowed
        (new instanceId lineCount defaultLineHeight paddingTop paddingBottom customLineHeightData)
  | step {s : LinesLayout} (h : Reached allowed s) {event : Event} (hevent : allowed s event) :
      Reached allowed (s.step event)

theorem Consistent.step (h : s.Consistent) {event : Event} (hadmissible : s.Admissible event)
    (hrising : s.Rising event) : (s.step event).Consistent := by
  cases event with
  | changeWhitespace callback => exact h.changeWhitespace callback
  | onLinesDeleted fromLineNumber toLineNumber => exact h.onLinesDeleted hadmissible hrising
  | onLinesInserted fromLineNumber toLineNumber => exact h.onLinesInserted hadmissible
  | getWhitespacesTotalHeight => exact h.getWhitespacesTotalHeight
  | getWhitespacesAccumulatedHeight index =>
    have hadmissible : 0 ≤ toInt32 index ∧ toInt32 index < s.arr.length := hadmissible
    exact h.accumulated (by omega) hadmissible.2
  | getWhitespaceAccumulatedHeightBeforeLineNumber lineNumber =>
    exact h.getWhitespaceAccumulatedHeightBeforeLineNumber lineNumber
  | getWhitespaceMinWidth => exact h.getWhitespaceMinWidth
  | getLinesTotalHeight => exact h.getLinesTotalHeight
  | getLineHeightForLineNumber lineNumber => exact h.getLineHeightForLineNumber lineNumber
  | getVerticalOffsetForLineNumber lineNumber includeViewZones =>
    exact h.getVerticalOffsetForLineNumber lineNumber includeViewZones
  | getVerticalOffsetAfterLineNumber lineNumber includeViewZones =>
    exact h.getVerticalOffsetAfterLineNumber lineNumber includeViewZones
  | getLineNumberAtOrAfterVerticalOffset verticalOffset =>
    exact h.getLineNumberAtOrAfterVerticalOffset verticalOffset

end LinesLayout

end NexgileIde.ViewLayout
