import Mathlib.Data.Prod.Lex
import NexgileIde.Library.PrefixSums
import NexgileIde.ViewLayout.LinesLayout

/-!
# Order and sums of whitespaces

Every change of the array keeps the sums that are still valid. All but the deletion of lines
keep the order, too: a deletion puts whitespaces after several lines behind one another and
does not look at their ordinals.
-/
namespace NexgileIde.ViewLayout

open Base Library.PrefixSums

/-! ## Order -/

/-- What whitespaces are ordered by. -/
def EditorWhitespace.key (whitespace : EditorWhitespace) : ℤ ×ₗ ℤ :=
  toLex (whitespace.afterLineNumber, whitespace.ordinal)

variable {arr arr' : List EditorWhitespace} {a b whitespace : EditorWhitespace}

theorem key_le_iff : a.key ≤ b.key ↔ a.afterLineNumber < b.afterLineNumber ∨
    a.afterLineNumber = b.afterLineNumber ∧ a.ordinal ≤ b.ordinal := by
  rw [EditorWhitespace.key, EditorWhitespace.key, Prod.Lex.toLex_le_toLex]

theorem precedes_iff : precedes a b = true ↔ a.key ≤ b.key := by
  rw [key_le_iff, precedes]
  split_ifs with heq
  · rw [decide_eq_true_eq]
    omega
  · rw [decide_eq_true_eq]
    omega

/-- The array is sorted by line and ordinal. -/
def Sorted (arr : List EditorWhitespace) : Prop :=
  arr.Pairwise fun a b => precedes a b

theorem sorted_iff : Sorted arr ↔ arr.Pairwise fun a b => a.key ≤ b.key := by
  simp only [Sorted, precedes_iff]

theorem sorted_iff_map : Sorted arr ↔ (arr.map EditorWhitespace.key).Pairwise (· ≤ ·) := by
  rw [sorted_iff, List.pairwise_map]

theorem sorted_mergeSort (arr : List EditorWhitespace) : Sorted (arr.mergeSort precedes) := by
  refine List.pairwise_mergeSort (fun a b c hab hbc => ?_) (fun a b => ?_) arr
  · rw [precedes_iff] at hab hbc ⊢
    exact hab.trans hbc
  · rw [Bool.or_eq_true, precedes_iff, precedes_iff]
    exact le_total a.key b.key

theorem Sorted.sublist (h : Sorted arr) (hsublist : arr'.Sublist arr) : Sorted arr' :=
  List.Pairwise.sublist hsublist h

/-- In an array that is sorted by something, it does not go down. -/
theorem le_of_pairwise {β : Type} [Preorder β] {f : EditorWhitespace → β}
    (h : arr.Pairwise fun a b => f a ≤ f b) {i j : ℕ} (hij : i ≤ j) (ha : arr[i]? = some a)
    (hb : arr[j]? = some b) : f a ≤ f b := by
  rcases Nat.eq_or_lt_of_le hij with rfl | hlt
  · rw [ha, Option.some.injEq] at hb
    rw [hb]
  · obtain ⟨hi, rfl⟩ := List.getElem?_eq_some_iff.1 ha
    obtain ⟨hj, rfl⟩ := List.getElem?_eq_some_iff.1 hb
    exact List.pairwise_iff_getElem.1 h i j hi hj hlt

theorem Sorted.key_le (h : Sorted arr) {i j : ℕ} (hij : i ≤ j) (ha : arr[i]? = some a)
    (hb : arr[j]? = some b) : a.key ≤ b.key :=
  le_of_pairwise (sorted_iff.1 h) hij ha hb

namespace LinesLayout

/-- Everything in front of the index comes first, and everything from it on comes last. -/
structure Splits (arr : List EditorWhitespace) (key : ℤ ×ₗ ℤ) (index : ℕ) : Prop where
  le_length : index ≤ arr.length
  below : ∀ i < index, ∀ a, arr[i]? = some a → a.key ≤ key
  above : ∀ i ≥ index, ∀ a, arr[i]? = some a → key ≤ a.key

theorem findInsertionLoop_splits (h : Sorted arr) {afterLineNumber ordinal : ℤ} (fuel : ℕ)
    {low high : ℕ} (hlow : low ≤ high) (hhigh : high ≤ arr.length) (hfuel : high - low ≤ fuel)
    (hbelow : ∀ i < low, ∀ a, arr[i]? = some a → a.key ≤ toLex (afterLineNumber, ordinal))
    (habove : ∀ i ≥ high, ∀ a, arr[i]? = some a → toLex (afterLineNumber, ordinal) ≤ a.key) :
    Splits arr (toLex (afterLineNumber, ordinal))
      (findInsertionLoop arr afterLineNumber ordinal fuel low high) := by
  induction fuel generalizing low high with
  | zero =>
    obtain rfl : low = high := by omega
    exact ⟨hhigh, hbelow, habove⟩
  | succ fuel ih =>
    unfold findInsertionLoop
    by_cases hlt : low < high
    · rw [if_pos hlt]
      obtain ⟨middle, hmiddle⟩ : ∃ middle, arr[(low + high) / 2]? = some middle :=
        ⟨_, List.getElem?_eq_getElem (by omega)⟩
      have hright (hle : middle.key ≤ toLex (afterLineNumber, ordinal)) :
          Splits arr (toLex (afterLineNumber, ordinal))
            (findInsertionLoop arr afterLineNumber ordinal fuel ((low + high) / 2 + 1) high) := by
        have hbelow' : ∀ i < (low + high) / 2 + 1, ∀ a, arr[i]? = some a →
            a.key ≤ toLex (afterLineNumber, ordinal) := fun i hi a ha =>
          (h.key_le (by omega) ha hmiddle).trans hle
        exact ih (by omega) hhigh (by omega) hbelow' habove
      have hleft (hle : toLex (afterLineNumber, ordinal) ≤ middle.key) :
          Splits arr (toLex (afterLineNumber, ordinal))
            (findInsertionLoop arr afterLineNumber ordinal fuel low ((low + high) / 2)) := by
        have habove' : ∀ i ≥ (low + high) / 2, ∀ a, arr[i]? = some a →
            toLex (afterLineNumber, ordinal) ≤ a.key := fun i hi a ha =>
          hle.trans (h.key_le hi hmiddle ha)
        exact ih (by omega) (by omega) (by omega) hbelow habove'
      simp only [hmiddle]
      rw [EditorWhitespace.key, Prod.Lex.toLex_le_toLex] at hleft hright
      dsimp only at hleft hright
      split_ifs
      · exact hleft (by omega)
      · exact hright (by omega)
      · exact hleft (by omega)
      · exact hright (by omega)
    · obtain rfl : low = high := by omega
      rw [if_neg hlt]
      exact ⟨hhigh, hbelow, habove⟩

theorem findInsertionIndex_splits (h : Sorted arr) (whitespace : EditorWhitespace) :
    Splits arr whitespace.key
      (findInsertionIndex arr whitespace.afterLineNumber whitespace.ordinal) :=
  findInsertionLoop_splits h arr.length (Nat.zero_le _) (le_refl _) (by omega)
    (fun i hi => absurd hi (Nat.not_lt_zero i)) fun i hi a ha => by
      rw [List.getElem?_eq_none hi] at ha
      cases ha

theorem Splits.sorted {index : ℕ} (h : Splits arr whitespace.key index) (hsorted : Sorted arr) :
    Sorted (arr.take index ++ whitespace :: arr.drop index) := by
  rw [sorted_iff] at hsorted ⊢
  have hbelow : ∀ a ∈ arr.take index, a.key ≤ whitespace.key := by
    intro a ha
    obtain ⟨i, hi⟩ := List.mem_iff_getElem?.1 ha
    rw [List.getElem?_take] at hi
    split_ifs at hi with hlt
    exact h.below i hlt a hi
  have habove : ∀ a ∈ arr.drop index, whitespace.key ≤ a.key := by
    intro a ha
    obtain ⟨i, hi⟩ := List.mem_iff_getElem?.1 ha
    rw [List.getElem?_drop] at hi
    exact h.above (index + i) (Nat.le_add_right index i) a hi
  refine List.pairwise_append.2 ⟨hsorted.sublist (List.take_sublist index arr),
    List.pairwise_cons.2 ⟨habove, hsorted.sublist (List.drop_sublist index arr)⟩, ?_⟩
  intro a ha b hb
  rcases List.mem_cons.1 hb with rfl | hb
  · exact hbelow a ha
  · exact (hbelow a ha).trans (habove b hb)

/-! ## Sums -/

/-- The sums up to the valid index are right. -/
structure SumsRight (arr : List EditorWhitespace) (validIndex : ℤ) : Prop where
  le_valid : -1 ≤ validIndex
  valid_lt : validIndex < arr.length
  summed : Summed (arr.map EditorWhitespace.height)
    (fun i => (arr[i]?).map EditorWhitespace.prefixSum) (validIndex + 1).toNat

theorem sumsRight_invalid (arr : List EditorWhitespace) : SumsRight arr (-1) where
  le_valid := le_refl _
  valid_lt := by omega
  summed := summed_zero

/-- Nothing changed in front of the index. -/
theorem SumsRight.lower {validIndex : ℤ} (h : SumsRight arr validIndex) {index : ℕ}
    (htake : arr'.take index = arr.take index) (hlength : index ≤ arr'.length) :
    SumsRight arr' (min validIndex (index - 1)) := by
  have hle := h.le_valid
  refine ⟨by omega, by omega, ?_⟩
  refine h.summed.congr (by omega) ?_ fun i hi => ?_
  · have hcount : (min validIndex (index - 1) + 1).toNat ≤ index := by omega
    rw [← List.map_take, ← List.map_take, ← min_eq_left hcount, ← List.take_take, ← htake,
      List.take_take]
  · have hlt : i < index := by omega
    rw [← List.getElem?_take_of_lt hlt, htake, List.getElem?_take_of_lt hlt]

/-- Lines may move as long as no height changes. -/
theorem SumsRight.map {validIndex : ℤ} (h : SumsRight arr validIndex)
    {f : EditorWhitespace → EditorWhitespace} (hheight : ∀ a, (f a).height = a.height)
    (hsum : ∀ a, (f a).prefixSum = a.prefixSum) : SumsRight (arr.map f) validIndex := by
  refine ⟨h.le_valid, by rw [List.length_map]; exact h.valid_lt, ?_⟩
  have hmap : (arr.map f).map EditorWhitespace.height = arr.map EditorWhitespace.height := by
    rw [List.map_map]
    exact List.map_congr_left fun a _ => hheight a
  rw [hmap]
  refine h.summed.congr (le_refl _) rfl fun i _ => ?_
  rw [List.getElem?_map, Option.map_map]
  exact congrArg (fun f => Option.map f arr[i]?) (funext hsum)

/-- What every step has to keep. -/
structure Consistent (s : LinesLayout) : Prop where
  sorted : Sorted s.arr
  sums : SumsRight s.arr s.prefixSumValidIndex

variable {s : LinesLayout}

/-! ## Changes of whitespaces -/

/-- The array changes from an index on, and the valid index is lowered to the one before. -/
theorem Consistent.lower (h : s.Consistent) (hsorted : Sorted arr) {index : ℕ}
    (htake : arr.take index = s.arr.take index) (hlength : index ≤ arr.length) :
    ({ s with arr }.lowerValidIndex (index - 1)).Consistent :=
  ⟨hsorted, h.sums.lower htake hlength⟩

theorem Consistent.insertWhitespace (h : s.Consistent) (whitespace : EditorWhitespace) :
    (s.insertWhitespace whitespace).Consistent := by
  have hsplits := findInsertionIndex_splits h.sorted whitespace
  have htake := List.length_take_of_le hsplits.le_length
  refine h.lower (hsplits.sorted h.sorted) ?_ ?_
  · rw [List.take_append_of_le_length htake.ge, List.take_take, min_self]
  · rw [List.length_append, htake]
    exact Nat.le_add_right _ _

theorem Consistent.removeWhitespace (h : s.Consistent) {removeIndex : ℕ}
    (hindex : removeIndex < s.arr.length) : (s.removeWhitespace removeIndex).Consistent := by
  refine h.lower (h.sorted.sublist (List.eraseIdx_sublist s.arr removeIndex)) ?_ ?_
  · rw [List.take_eraseIdx_eq_take_of_le _ _ _ (le_refl _)]
  · rw [List.length_eraseIdx_of_lt hindex]
    omega

/-- A height changes in place. -/
theorem Consistent.setHeight (h : s.Consistent) {index : ℕ} {found : EditorWhitespace}
    (hfound : s.arr[index]? = some found) (newHeight : ℤ) :
    ({ s with arr := s.arr.set index { found with height := newHeight } }.lowerValidIndex
      (index - 1)).Consistent := by
  obtain ⟨hindex, hget⟩ := List.getElem?_eq_some_iff.1 hfound
  refine h.lower ?_ ?_ ?_
  · have hkeys : (s.arr.set index { found with height := newHeight }).map EditorWhitespace.key =
        s.arr.map EditorWhitespace.key := by
      have hlength : index < (s.arr.map EditorWhitespace.key).length := by rwa [List.length_map]
      have hkey : EditorWhitespace.key { found with height := newHeight } =
          (s.arr.map EditorWhitespace.key)[index] := by
        rw [List.getElem_map, hget]
        rfl
      rw [List.map_set, hkey, List.set_getElem_self]
    exact sorted_iff_map.2 (hkeys ▸ sorted_iff_map.1 h.sorted)
  · rw [List.take_set_of_le (le_refl index)]
  · rw [List.length_set]
    exact hindex.le

theorem Consistent.changeOneWhitespace (h : s.Consistent) (id : String)
    (newAfterLineNumber newHeight : ℤ) :
    (s.changeOneWhitespace id newAfterLineNumber newHeight).Consistent := by
  unfold LinesLayout.changeOneWhitespace
  cases s.findWhitespaceIndex id with
  | none => exact h
  | some index =>
    dsimp only
    cases hfound : s.arr[index]? with
    | none => exact h
    | some found =>
      have hindex := (List.getElem?_eq_some_iff.1 hfound).1
      dsimp only
      by_cases hheight : found.height ≠ newHeight
      · rw [if_pos hheight]
        have hset := h.setHeight hfound newHeight
        split_ifs
        · refine (hset.removeWhitespace ?_).insertWhitespace _
          rwa [lowerValidIndex, List.length_set]
        · exact hset
      · rw [if_neg hheight]
        split_ifs
        · exact (h.removeWhitespace hindex).insertWhitespace _
        · exact h

theorem Consistent.commitPendingChanges (h : s.Consistent) (pending : PendingChanges) :
    (s.commitPendingChanges pending).Consistent := by
  unfold LinesLayout.commitPendingChanges
  set start : LinesLayout := if pending.inserts.length > 0 ∨ pending.removes.length > 0 then
    { s with minWidth := -1 } else s with hstart
  have hminWidth : start.Consistent := by
    rw [hstart]
    split_ifs
    · exact ⟨h.sorted, h.sums⟩
    · exact h
  dsimp only
  split_ifs
  · refine List.foldlRecOn _ _ (List.foldlRecOn _ _ (List.foldlRecOn _ _ hminWidth ?_) ?_) ?_
    · exact fun s hs whitespace _ => hs.insertWhitespace whitespace
    · exact fun s hs change _ =>
        hs.changeOneWhitespace change.id change.newAfterLineNumber change.newHeight
    · intro s hs id _
      cases hindex : s.findWhitespaceIndex id with
      | none => exact hs
      | some index =>
        exact hs.removeWhitespace (List.findIdx?_eq_some_iff_getElem.1 hindex).1
  · exact ⟨sorted_mergeSort _, sumsRight_invalid _⟩

/-- The accessor only notes what is to be changed. -/
theorem access_arr (s : LinesLayout × PendingChanges) (call : WhitespaceAccess) :
    (access s call).1.arr = s.1.arr ∧
      (access s call).1.prefixSumValidIndex = s.1.prefixSumValidIndex := by
  cases call <;> exact ⟨rfl, rfl⟩

theorem Consistent.changeWhitespace (h : s.Consistent) (callback : List WhitespaceAccess) :
    (s.changeWhitespace callback).Consistent := by
  have hnoted : (callback.foldl access (s, ⟨[], [], []⟩)).1.Consistent := by
    refine @List.foldlRecOn _ _ (fun s => s.1.Consistent) callback access (s, _) h ?_
    intro s hs call _
    obtain ⟨harr, hvalid⟩ := access_arr s call
    exact ⟨harr ▸ hs.sorted, harr ▸ hvalid ▸ hs.sums⟩
  unfold LinesLayout.changeWhitespace
  dsimp only
  split_ifs
  · exact hnoted
  · exact hnoted.commitPendingChanges _

/-! ## Changes of lines -/

theorem Consistent.onLinesInserted (h : s.Consistent) {fromLineNumber toLineNumber : ℤ}
    (hzone : toInt32 fromLineNumber ≤ toInt32 toLineNumber) :
    (s.onLinesInserted fromLineNumber toLineNumber).Consistent := by
  refine ⟨?_, h.sums.map (fun a => ?_) fun a => ?_⟩
  · rw [sorted_iff, LinesLayout.onLinesInserted, List.pairwise_map]
    refine (sorted_iff.1 h.sorted).imp fun {a b} hle => ?_
    rw [key_le_iff] at hle ⊢
    simp only [apply_ite EditorWhitespace.afterLineNumber, apply_ite EditorWhitespace.ordinal]
    split_ifs <;> omega
  · split_ifs <;> rfl
  · split_ifs <;> rfl

/-- The ordinals of the whitespaces that come to stand after one line do not go down. -/
def OrdinalsRise (s : LinesLayout) (fromLineNumber toLineNumber : ℤ) : Prop :=
  (s.arr.filter fun whitespace => toInt32 fromLineNumber - 1 ≤ whitespace.afterLineNumber ∧
    whitespace.afterLineNumber ≤ toInt32 toLineNumber).Pairwise fun a b => a.ordinal ≤ b.ordinal

/-- After a deletion the order is kept exactly when the ordinals rise. -/
theorem sorted_onLinesDeleted_iff (h : Sorted s.arr) {fromLineNumber toLineNumber : ℤ}
    (hzone : toInt32 fromLineNumber ≤ toInt32 toLineNumber) :
    Sorted (s.onLinesDeleted fromLineNumber toLineNumber).arr ↔
      s.OrdinalsRise fromLineNumber toLineNumber := by
  rw [sorted_iff] at h ⊢
  rw [LinesLayout.onLinesDeleted, List.pairwise_map, OrdinalsRise, List.pairwise_filter]
  constructor
  · refine fun hsorted => (hsorted.and h).imp fun {a b} hboth ha hb => ?_
    rw [decide_eq_true_eq] at ha hb
    obtain ⟨hmoved, hle⟩ := hboth
    rw [key_le_iff] at hmoved hle
    simp only [apply_ite EditorWhitespace.afterLineNumber, apply_ite EditorWhitespace.ordinal,
      ite_self] at hmoved
    split_ifs at hmoved <;> omega
  · refine fun hrise => (hrise.and h).imp fun {a b} hboth => ?_
    obtain ⟨hordinal, hle⟩ := hboth
    simp only [decide_eq_true_eq] at hordinal
    rw [key_le_iff] at hle ⊢
    simp only [apply_ite EditorWhitespace.afterLineNumber, apply_ite EditorWhitespace.ordinal,
      ite_self]
    split_ifs <;> omega

theorem Consistent.onLinesDeleted (h : s.Consistent) {fromLineNumber toLineNumber : ℤ}
    (hzone : toInt32 fromLineNumber ≤ toInt32 toLineNumber)
    (hrise : s.OrdinalsRise fromLineNumber toLineNumber) :
    (s.onLinesDeleted fromLineNumber toLineNumber).Consistent := by
  refine ⟨(sorted_onLinesDeleted_iff h.sorted hzone).2 hrise,
    h.sums.map (fun a => ?_) fun a => ?_⟩
  · split_ifs <;> rfl
  · split_ifs <;> rfl

end LinesLayout

end NexgileIde.ViewLayout
