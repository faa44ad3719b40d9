import NexgileIde.Library.PrefixSums
import NexgileIde.PrefixSum.PrefixSumComputer

/-!
# The computer with a binary search

The sums up to the valid index are those of a plain list, and every change of the list lowers
the valid index far enough.
-/
namespace NexgileIde.PrefixSum

open Base Library Library.PrefixSums

/-- The values fit into numbers of 32 bits, with their sum and their indices. -/
structure Fits (values : List ℕ) : Prop where
  sum_lt : values.sum < 2 ^ 32
  length_lt : values.length < 2 ^ 31

namespace Uint32Array

variable {array : Uint32Array}

@[simp] theorem length_new (length : ℕ) : (new length).length = length :=
  List.length_replicate

theorem read_natCast (array : Uint32Array) (index : ℕ) : array.read index = array[index]? := by
  unfold read
  rw [if_neg (by omega), Int.toNat_natCast]

theorem write_natCast (array : Uint32Array) (index : ℕ) {value : ℕ} (h : value < 2 ^ 32) :
    array.write index value = List.set array index value := by
  unfold write
  have hvalue : ((value : ℤ) % 2 ^ 32).toNat = value := by omega
  rw [if_neg (by omega), Int.toNat_natCast, hvalue]

theorem relativeIndex_natCast (array : Uint32Array) (index : ℕ) :
    array.relativeIndex index = min index array.length := by
  unfold relativeIndex
  rw [if_neg (by omega), Int.toNat_natCast]

theorem subarrayTo_natCast (array : Uint32Array) (stop : ℕ) :
    array.subarrayTo stop = array.take stop := by
  unfold subarrayTo
  rw [relativeIndex_natCast, ← List.take_eq_take_min]

theorem subarrayFrom_natCast (array : Uint32Array) (start : ℕ) :
    array.subarrayFrom start = array.drop start := by
  unfold subarrayFrom
  rw [relativeIndex_natCast]
  rcases le_total start array.length with h | h
  · rw [min_eq_left h]
  · rw [min_eq_right h, List.drop_length, List.drop_of_length_le h]

/-- Setting a part of an array that is split around it. -/
theorem setAll_append {front old behind source : Uint32Array} (h : old.length = source.length) :
    Uint32Array.setAll (front ++ (old ++ behind)) source front.length =
      some (front ++ (source ++ behind)) := by
  have htake : (front ++ (old ++ behind)).take front.length = front := List.take_left
  have hdrop : (front ++ (old ++ behind)).drop (front.length + source.length) = behind := by
    rw [← h, ← List.length_append, ← List.append_assoc, List.drop_left]
  unfold setAll
  rw [if_neg, Int.toNat_natCast, htake, hdrop]
  simp only [List.length_append, h]
  push_cast
  omega

end Uint32Array

/-- The value that a sum falls into, or the last one when it is beyond all of them. -/
def Located (values : List ℕ) (s : ℕ) (result : PrefixSumIndexOfResult) : Prop :=
  ∃ index : ℕ, result = ⟨index, s - sumOf values index⟩ ∧
    (Locates values s index ∨ values.sum ≤ s ∧ index = values.length - 1)

theorem Located.unique {values : List ℕ} {s : ℕ} {result result' : PrefixSumIndexOfResult}
    (h : Located values s result) (h' : Located values s result') : result = result' := by
  obtain ⟨index, rfl, hindex⟩ := h
  obtain ⟨index', rfl, hindex'⟩ := h'
  have hlt : ∀ {i}, Locates values s i → s < values.sum := fun hi =>
    hi.2.trans_le (sumOf_le_sum values _)
  rcases hindex with hlocates | ⟨hsum, rfl⟩
  · rcases hindex' with hlocates' | ⟨hsum', -⟩
    · rw [hlocates.unique hlocates']
    · exact absurd (hlt hlocates) (not_lt_of_ge hsum')
  · rcases hindex' with hlocates' | ⟨-, rfl⟩
    · exact absurd (hlt hlocates') (not_lt_of_ge hsum)
    · rfl

/-- The remainder is what the values in front leave, and less than the value that is found. -/
theorem Located.remainder {values : List ℕ} {s : ℕ} {result : PrefixSumIndexOfResult}
    (h : Located values s result) : ∃ index : ℕ, result.index = index ∧
      ((sumOf values index : ℕ) : ℤ) + result.remainder = s ∧
      (s < values.sum → 0 ≤ result.remainder ∧
        ∃ value, values[index]? = some value ∧ result.remainder < value) := by
  obtain ⟨index, rfl, hindex⟩ := h
  refine ⟨index, rfl, by dsimp only; omega, fun hlt => ?_⟩
  obtain ⟨hle, hlt'⟩ := hindex.resolve_right fun hbeyond => not_lt_of_ge hbeyond.1 hlt
  obtain ⟨value, hvalue⟩ : ∃ value, values[index]? = some value :=
    ⟨_, List.getElem?_eq_getElem (Locates.lt_length ⟨hle, hlt'⟩)⟩
  rw [sumOf_succ hvalue] at hlt'
  dsimp only
  exact ⟨by omega, value, hvalue, by omega⟩

namespace PrefixSumComputer

variable {values : List ℕ} {c : PrefixSumComputer}

/-- The computer works on these values, and its sums are right up to the valid index. -/
structure Agrees (values : List ℕ) (c : PrefixSumComputer) : Prop where
  fits : Fits values
  values_eq : c.values = values
  length_eq : c.prefixSum.length = values.length
  le_valid : -1 ≤ c.prefixSumValidIndex
  valid_lt : c.prefixSumValidIndex < values.length
  summed : Summed values (fun i => c.prefixSum[i]?) (c.prefixSumValidIndex + 1).toNat

theorem agrees_new (h : Fits values) : (new values).Agrees values where
  fits := h
  values_eq := rfl
  length_eq := Uint32Array.length_new _
  le_valid := le_refl _
  valid_lt := by
    unfold new
    dsimp only
    omega
  summed := summed_zero

theorem sumOf_lt (h : Fits values) (count : ℕ) : sumOf values count < 2 ^ 32 :=
  (sumOf_le_sum values count).trans_lt h.sum_lt

/-! ## Queries -/

theorem sumLoop_spec (hfits : Fits values) {prefixSum : Uint32Array}
    (hlength : prefixSum.length = values.length) {i : ℕ} (hi : 0 < i)
    (hsummed : Summed values (fun j => prefixSum[j]?) i) {turns : ℕ}
    (hturns : i + turns ≤ values.length) :
    (sumLoop values prefixSum i turns).length = values.length ∧
      Summed values (fun j => (sumLoop values prefixSum i turns)[j]?) (i + turns) := by
  induction turns generalizing i prefixSum with
  | zero => exact ⟨hlength, hsummed⟩
  | succ turns ih =>
    unfold sumLoop
    obtain ⟨value, hvalue⟩ : ∃ value, values[i]? = some value :=
      ⟨_, List.getElem?_eq_getElem (by omega)⟩
    have hprevious : prefixSum.read ((i : ℤ) - 1) = some (sumOf values i) := by
      have hcast : ((i : ℤ) - 1) = (i - 1 : ℕ) := by omega
      rw [hcast, Uint32Array.read_natCast]
      have hentry := hsummed (i - 1) (by omega)
      rwa [Nat.sub_add_cancel hi] at hentry
    have hread : Uint32Array.read values i = some value := by
      rw [Uint32Array.read_natCast, hvalue]
    have hsum := sumOf_succ hvalue
    have hlt : sumOf values i + value < 2 ^ 32 := hsum ▸ sumOf_lt hfits (i + 1)
    dsimp only
    rw [hprevious, hread, Option.getD_some, Option.getD_some,
      Uint32Array.write_natCast prefixSum i hlt]
    have hnext := @ih (List.set prefixSum i (sumOf values i + value)) (by rw [List.length_set, hlength])
      (i + 1) (Nat.succ_pos i) ?_ (by omega)
    · rw [Nat.add_right_comm, Nat.add_assoc] at hnext
      exact_mod_cast hnext
    · refine (hsummed.congr (le_refl i) rfl fun j hj => ?_).succ hvalue ?_
      · rw [List.getElem?_set_ne (by omega)]
      · rw [List.getElem?_set_self (by omega)]

/-- The first sum is written when none is valid, and the loop starts behind it. -/
theorem start_spec (h : c.Agrees values) (hnonempty : 0 < values.length) :
    ∃ (table : Uint32Array) (start : ℕ),
      (if c.prefixSumValidIndex + 1 = 0 then
        (c.prefixSum.write 0 ((c.values.read 0).getD 0), c.prefixSumValidIndex + 1 + 1)
      else (c.prefixSum, c.prefixSumValidIndex + 1)) = (table, (start : ℤ)) ∧
      table.length = values.length ∧ 0 < start ∧
      (start : ℤ) = max 1 (c.prefixSumValidIndex + 1) ∧
      Summed values (fun i => table[i]?) start := by
  have hle := h.le_valid
  by_cases hnone : c.prefixSumValidIndex + 1 = 0
  · obtain ⟨first, hfirst⟩ : ∃ first, values[0]? = some first :=
      ⟨_, List.getElem?_eq_getElem hnonempty⟩
    have hread : c.values.read 0 = some first := by
      rw [h.values_eq, ← hfirst]
      exact Uint32Array.read_natCast values 0
    have hsum : sumOf values 1 = first := by
      rw [sumOf_succ hfirst, sumOf_zero, Nat.zero_add]
    have hwrite := Uint32Array.write_natCast c.prefixSum 0 (hsum ▸ sumOf_lt h.fits 1)
    rw [Nat.cast_zero] at hwrite
    rw [if_pos hnone, hread, Option.getD_some, hwrite, hnone]
    refine ⟨c.prefixSum.set 0 first, 1, rfl, ?_, Nat.one_pos, rfl, ?_⟩
    · rw [List.length_set, h.length_eq]
    · refine (summed_zero : Summed values _ 0).succ hfirst ?_
      have hpos : 0 < c.prefixSum.length := by
        rw [h.length_eq]
        exact hnonempty
      rw [List.getElem?_set_self hpos, sumOf_zero, Nat.zero_add]
  · obtain ⟨start, hstart⟩ : ∃ start : ℕ, c.prefixSumValidIndex + 1 = start :=
      Int.eq_ofNat_of_zero_le (by omega)
    have hsummed := h.summed
    rw [hstart, Int.toNat_natCast] at hsummed
    rw [if_neg hnone, hstart]
    exact ⟨c.prefixSum, start, rfl, h.length_eq, by omega, by omega, hsummed⟩

/-- A sum is computed, and all sums up to it are valid. -/
theorem Agrees.getPrefixSumAt (h : c.Agrees values) {index : ℕ} (hindex : index < values.length) :
    (c.getPrefixSumAt index).1 = some (sumOf values (index + 1)) ∧
      (c.getPrefixSumAt index).2.Agrees values ∧
      (index : ℤ) ≤ (c.getPrefixSumAt index).2.prefixSumValidIndex := by
  have hle := h.le_valid
  have hlt := h.valid_lt
  have hlengthLt := h.fits.length_lt
  unfold PrefixSumComputer.getPrefixSumAt
  by_cases hvalid : (index : ℤ) ≤ c.prefixSumValidIndex
  · rw [if_pos hvalid]
    refine ⟨?_, h, hvalid⟩
    rw [Uint32Array.read_natCast]
    exact h.summed index (by omega)
  · obtain ⟨table, start, htable, hlength, hpos, hstart, hsummed⟩ := start_spec h (by omega)
    have hclip : (if (index : ℤ) ≥ c.values.length then (c.values.length : ℤ) - 1 else index) =
        index := by
      rw [h.values_eq, if_neg (by omega)]
    have hturns : ((index : ℤ) + 1 - start).toNat = index + 1 - start := by omega
    rw [if_neg hvalid]
    simp only [htable, hclip, hturns]
    rw [h.values_eq]
    obtain ⟨hlength', hsummed'⟩ := sumLoop_spec h.fits hlength hpos hsummed
      (show start + (index + 1 - start) ≤ values.length by omega)
    rw [Nat.add_sub_cancel' (by omega)] at hsummed'
    have hmax : toInt32 (max c.prefixSumValidIndex index) = index := by
      rw [max_eq_right (by omega), toInt32_eq (by omega) (by omega)]
    refine ⟨?_, ⟨h.fits, rfl, hlength', ?_, ?_, ?_⟩, ?_⟩
    · rw [Uint32Array.read_natCast]
      exact hsummed' index (Nat.lt_succ_self index)
    · dsimp only [setValidIndex]
      omega
    · dsimp only [setValidIndex]
      omega
    · dsimp only [setValidIndex]
      rw [hmax]
      exact hsummed'
    · exact hmax.ge

theorem Agrees.getPrefixSum (h : c.Agrees values) {index : ℕ} (hindex : index < values.length) :
    (c.getPrefixSum index).1 = some (sumOf values (index + 1)) ∧
      (c.getPrefixSum index).2.Agrees values := by
  have hlength := h.fits.length_lt
  unfold PrefixSumComputer.getPrefixSum
  rw [if_neg (by omega), toUint32_eq (by omega) (by omega)]
  obtain ⟨hresult, hagrees, -⟩ := h.getPrefixSumAt hindex
  exact ⟨hresult, hagrees⟩

theorem Agrees.getTotalSum (h : c.Agrees values) :
    c.getTotalSum.1 = some values.sum ∧ c.getTotalSum.2.Agrees values ∧
      (values.length : ℤ) - 1 ≤ c.getTotalSum.2.prefixSumValidIndex := by
  unfold PrefixSumComputer.getTotalSum
  rw [h.values_eq]
  split_ifs with hempty
  · obtain rfl := List.eq_nil_of_length_eq_zero hempty
    exact ⟨rfl, h, h.le_valid⟩
  · have hcast : (values.length : ℤ) - 1 = (values.length - 1 : ℕ) := by omega
    obtain ⟨hresult, hagrees, hvalid⟩ :=
      h.getPrefixSumAt (show values.length - 1 < values.length by omega)
    rw [hcast]
    refine ⟨?_, hagrees, hvalid⟩
    rw [hresult, sumOf_of_length_le (by omega)]

/-- What is known while the binary search runs. When the sum is beyond all values, it goes to
the right only. -/
structure Searching (values : List ℕ) (s : ℕ) (low high mid midStart : ℤ) : Prop where
  low_nonneg : 0 ≤ low
  low_le : low ≤ high + 1
  high_lt : high < values.length
  below : ∀ i : ℕ, (i : ℤ) < low → sumOf values (i + 1) ≤ s
  above : ∀ i : ℕ, high < i → i < values.length → s < sumOf values i
  beyond : values.sum ≤ s →
    mid = max 0 (low - 1) ∧ midStart = sumOf values (low - 1).toNat

theorem Searching.located {s : ℕ} {low high mid midStart : ℤ}
    (h : Searching values s low high mid midStart) (hempty : high < low) :
    Located values s ⟨mid, s - midStart⟩ := by
  have hnonneg := h.low_nonneg
  have hle := h.low_le
  have hhigh := h.high_lt
  have hsum : values.sum ≤ s := by
    by_contra hlt
    obtain ⟨index, hindex, hlocates⟩ := exists_locates_of_lt_sum (lt_of_not_ge hlt)
    by_cases hside : (index : ℤ) < low
    · exact absurd (h.below index hside) (not_le_of_gt hlocates.2)
    · exact absurd (h.above index (by omega) hindex) (not_lt_of_ge hlocates.1)
  have hlast : low = values.length := by
    by_contra hne
    obtain ⟨i, hi⟩ : ∃ i : ℕ, high + 1 = i := Int.eq_ofNat_of_zero_le (by omega)
    have hlt := h.above i (by omega) (by omega)
    exact absurd (sumOf_le_sum values i) (not_le_of_gt (hsum.trans_lt hlt))
  obtain ⟨rfl, rfl⟩ := h.beyond hsum
  refine ⟨values.length - 1, ?_, .inr ⟨hsum, rfl⟩⟩
  have hmid : max 0 (low - 1) = (values.length - 1 : ℕ) := by omega
  have hindex : (low - 1).toNat = values.length - 1 := by omega
  rw [hmid, hindex]

theorem indexOfLoop_located {table : Uint32Array} (hfits : Fits values)
    (htable : Summed values (fun i => table[i]?) values.length) {s : ℕ} (fuel : ℕ)
    {low high mid midStart : ℤ} (h : Searching values s low high mid midStart)
    (hfuel : high + 1 - low ≤ fuel) :
    Located values s (indexOfLoop values table s fuel low high mid midStart) := by
  induction fuel generalizing low high mid midStart with
  | zero => exact h.located (by omega)
  | succ fuel ih =>
    unfold indexOfLoop
    by_cases hle : low ≤ high
    · have hnonneg := h.low_nonneg
      have hhigh := h.high_lt
      have hlengthLt := hfits.length_lt
      obtain ⟨m, hm⟩ : ∃ m : ℕ, (low + high) / 2 = m := Int.eq_ofNat_of_zero_le (by omega)
      obtain ⟨value, hvalue⟩ : ∃ value, values[m]? = some value :=
        ⟨_, List.getElem?_eq_getElem (by omega)⟩
      have hstop : table.read m = some (sumOf values (m + 1)) := by
        rw [Uint32Array.read_natCast]
        exact htable m (by omega)
      have hread : Uint32Array.read values m = some value := by
        rw [Uint32Array.read_natCast, hvalue]
      have hsum := sumOf_succ hvalue
      have hstart : ((sumOf values (m + 1) : ℕ) : ℤ) - (value : ℕ) = sumOf values m := by
        rw [hsum]
        push_cast
        omega
      have hmid : toInt32 (m : ℤ) = m := toInt32_eq (by omega) (by omega)
      rw [if_pos hle, hm]
      simp only [hmid, hstop, hread, Option.getD_some, hstart]
      split_ifs with hleft hright
      · refine ih ⟨hnonneg, by omega, by omega, h.below, fun i hi hlength => ?_, fun hbeyond => ?_⟩
          (by push_cast at hfuel; omega)
        · have hmono := sumOf_mono values (show m ≤ i by omega)
          omega
        · have hbound := sumOf_le_sum values m
          omega
      · refine ih ⟨by omega, by omega, hhigh, fun i hi => ?_, h.above, fun _ => ⟨by omega, ?_⟩⟩
          (by push_cast at hfuel; omega)
        · have hmono := sumOf_mono values (show i + 1 ≤ m + 1 by omega)
          omega
        · have hindex : ((m : ℤ) + 1 - 1).toNat = m := by omega
          rw [hindex]
      · exact ⟨m, rfl, .inl ⟨by omega, by omega⟩⟩
    · rw [if_neg hle]
      exact h.located (by omega)

theorem Agrees.getIndexOf (h : c.Agrees values) (s : ℕ) :
    Located values s (c.getIndexOf s).1 ∧ (c.getIndexOf s).2.Agrees values := by
  obtain ⟨-, hagrees, hvalid⟩ := h.getTotalSum
  unfold PrefixSumComputer.getIndexOf
  dsimp only
  generalize c.getTotalSum.2 = total at hagrees hvalid ⊢
  have hlt := hagrees.valid_lt
  have hsummed := hagrees.summed
  have hcount : (total.prefixSumValidIndex + 1).toNat = values.length := by omega
  rw [hcount] at hsummed
  refine ⟨?_, hagrees⟩
  rw [hagrees.values_eq]
  refine indexOfLoop_located h.fits hsummed _ ⟨le_refl _, by omega, by omega, ?_, ?_, ?_⟩ (by omega)
  · intro i hi
    omega
  · intro i hi hlength
    omega
  · intro _
    exact ⟨by omega, rfl⟩

/-! ## Changes -/

/-- Changes behind an index lower the valid index to it. -/
theorem Agrees.lowered (h : c.Agrees values) {values' : List ℕ} {table' : Uint32Array} {index : ℕ}
    (hfits : Fits values') (hlength : table'.length = values'.length)
    (hindex : index ≤ values'.length) (hvalues : values.take index = values'.take index)
    (htable : ∀ i : ℕ, (i : ℤ) < min (index : ℤ) (c.prefixSumValidIndex + 1) →
      table'[i]? = c.prefixSum[i]?) :
    Agrees values' ⟨values', table', min ((index : ℤ) - 1) c.prefixSumValidIndex⟩ := by
  have hle := h.le_valid
  refine ⟨hfits, rfl, hlength, ?_, ?_, ?_⟩
  · dsimp only
    omega
  · dsimp only
    omega
  · dsimp only
    have hcount : (min ((index : ℤ) - 1) c.prefixSumValidIndex + 1).toNat ≤ index := by omega
    refine h.summed.congr (by omega) ?_ fun i hi => htable i (by omega)
    have htake := congrArg
      (List.take (min ((index : ℤ) - 1) c.prefixSumValidIndex + 1).toNat) hvalues
    rwa [List.take_take, List.take_take, min_eq_left hcount] at htake

theorem lowerValidIndex_eq {index : ℕ} (hindex : index ≤ 2 ^ 31) : c.lowerValidIndex ((index : ℤ) - 1) =
      ⟨c.values, c.prefixSum, min ((index : ℤ) - 1) c.prefixSumValidIndex⟩ := by
  unfold lowerValidIndex setValidIndex
  split_ifs with hlt
  · rw [toInt32_eq (by omega) (by omega), min_eq_left hlt.le]
  · rw [min_eq_right (le_of_not_gt hlt)]

/-- The sums that are valid are taken over. -/
theorem renewPrefixSum_eq {oldPrefixSum : Uint32Array}
    (hlt : c.prefixSumValidIndex < c.values.length)
    (hold : c.prefixSumValidIndex < oldPrefixSum.length) :
    ∃ table : Uint32Array,
      c.renewPrefixSum oldPrefixSum = some ⟨c.values, table, c.prefixSumValidIndex⟩ ∧
      table.length = c.values.length ∧
      ∀ i : ℕ, (i : ℤ) < c.prefixSumValidIndex + 1 → table[i]? = oldPrefixSum[i]? := by
  unfold renewPrefixSum
  dsimp only
  split_ifs with hvalid
  · obtain ⟨count, hcount⟩ : ∃ count : ℕ, c.prefixSumValidIndex + 1 = count :=
      Int.eq_ofNat_of_zero_le (by omega)
    have hnew : Uint32Array.new c.values.length =
        [] ++ (List.replicate count 0 ++ List.replicate (c.values.length - count) 0) := by
      rw [List.nil_append, List.replicate_append_replicate, Nat.add_sub_cancel' (by omega)]
      rfl
    have hset := @Uint32Array.setAll_append [] (List.replicate count 0)
      (List.replicate (c.values.length - count) 0) (oldPrefixSum.take count)
      (by rw [List.length_replicate, List.length_take_of_le (by omega)])
    rw [hcount, Uint32Array.subarrayTo_natCast, hnew]
    rw [List.length_nil, Nat.cast_zero] at hset
    simp only [hset, Option.bind_eq_bind, Option.bind_some]
    refine ⟨_, rfl, ?_, fun i hi => ?_⟩
    · rw [List.nil_append, List.length_append, List.length_take_of_le (by omega),
        List.length_replicate, Nat.add_sub_cancel' (by omega)]
    · rw [List.nil_append, List.getElem?_append_left (by rw [List.length_take]; omega),
        List.getElem?_take, if_pos (by omega)]
  · exact ⟨_, rfl, Uint32Array.length_new _, fun i hi => by omega⟩

theorem Agrees.setValue (h : c.Agrees values) {index value : ℕ} (hindex : index < values.length)
    (hfits : Fits (values.set index value)) :
    (c.setValue index value).2.Agrees (values.set index value) := by
  have hlength := h.fits.length_lt
  have hvalueLt : value < 2 ^ 32 := by
    refine lt_of_le_of_lt (List.single_le_sum (fun _ _ => Nat.zero_le _) value ?_) hfits.sum_lt
    exact List.mem_set hindex value
  unfold PrefixSumComputer.setValue
  rw [toUint32_eq (by omega) (by omega)]
  dsimp only
  rw [h.values_eq, Uint32Array.read_natCast, List.getElem?_eq_getElem hindex, Option.any_some]
  split_ifs with hsame
  · have hvalue : values[index] = value := by
      have heq := of_decide_eq_true hsame
      unfold toUint32 toInt32 at heq
      split_ifs at heq <;> omega
    rw [← hvalue, List.set_getElem_self]
    exact h
  · have hwrite : Uint32Array.write values index (toUint32 value) = values.set index value := by
      unfold Uint32Array.write
      rw [if_neg (by omega), toUint32_emod (by omega) (by omega), Int.toNat_natCast,
        Int.toNat_natCast]
    have htake : values.take index = (values.set index value).take index := by
      rw [List.take_set_of_le (le_refl _)]
    have hlower := @lowerValidIndex_eq
      ⟨values.set index value, c.prefixSum, c.prefixSumValidIndex⟩ index (by omega)
    dsimp only at hlower ⊢
    rw [hwrite, hlower]
    exact h.lowered hfits (by rw [List.length_set, h.length_eq]) (by rw [List.length_set]; omega)
      htake fun _ _ => rfl

/-- What inserting and removing do with the sums. -/
theorem Agrees.renewed (h : c.Agrees values) {values' : List ℕ} {index : ℕ} (hfits : Fits values')
    (hindex : index ≤ values.length) (hindex' : index ≤ values'.length)
    (hvalues : values.take index = values'.take index) :
    ∃ next, (lowerValidIndex ⟨values', c.prefixSum, c.prefixSumValidIndex⟩
        ((index : ℤ) - 1)).renewPrefixSum c.prefixSum = some next ∧ next.Agrees values' := by
  have hle := h.le_valid
  have hlength := h.fits.length_lt
  have hold := h.length_eq
  have hlower := @lowerValidIndex_eq ⟨values', c.prefixSum, c.prefixSumValidIndex⟩ index
    (by omega)
  rw [hlower]
  dsimp only
  obtain ⟨table, hrenew, hlength', htable⟩ := @renewPrefixSum_eq
    ⟨values', c.prefixSum, min ((index : ℤ) - 1) c.prefixSumValidIndex⟩ c.prefixSum
    (by dsimp only; omega) (by dsimp only; omega)
  refine ⟨_, hrenew, h.lowered hfits hlength' hindex' hvalues fun i hi => htable i ?_⟩
  dsimp only
  omega

theorem Agrees.insertValues (h : c.Agrees values) {index : ℕ} (hindex : index ≤ values.length)
    {inserted : List ℕ} (hfits : Fits (values.take index ++ (inserted ++ values.drop index))) :
    ∃ result next, c.insertValues index inserted = some (result, next) ∧
      next.Agrees (values.take index ++ (inserted ++ values.drop index)) := by
  have hlength := h.fits.length_lt
  unfold PrefixSumComputer.insertValues
  rw [toUint32_eq (by omega) (by omega)]
  dsimp only
  split_ifs with hempty
  · obtain rfl := List.eq_nil_of_length_eq_zero hempty
    refine ⟨false, c, rfl, ?_⟩
    rwa [List.nil_append, List.take_append_drop]
  · have htakeLength : (values.take index).length = index := List.length_take_of_le hindex
    have hdropLength : (values.drop index).length = values.length - index := List.length_drop
    have hsecond : (index : ℤ) + inserted.length = ((index + inserted.length : ℕ) : ℤ) := by
      push_cast
      rfl
    -- the three copies fill the new array from its start, its end and in the middle
    have hnew : Uint32Array.new (values.length + inserted.length) = List.replicate index 0 ++
        (List.replicate inserted.length 0 ++ List.replicate (values.length - index) 0) := by
      rw [List.replicate_append_replicate, List.replicate_append_replicate]
      unfold Uint32Array.new
      congr 1
      omega
    have hcopy1 := @Uint32Array.setAll_append [] (List.replicate index 0)
      (List.replicate inserted.length 0 ++ List.replicate (values.length - index) 0)
      (values.take index) (by rw [List.length_replicate, htakeLength])
    have hcopy2 := @Uint32Array.setAll_append (values.take index ++ List.replicate inserted.length 0)
      (List.replicate (values.length - index) 0) [] (values.drop index)
      (by rw [List.length_replicate, hdropLength])
    have hcopy3 := @Uint32Array.setAll_append (values.take index) (List.replicate inserted.length 0)
      (values.drop index) inserted (by rw [List.length_replicate])
    rw [List.nil_append, List.nil_append, List.length_nil, Nat.cast_zero] at hcopy1
    rw [List.append_nil, List.append_nil, List.append_assoc, List.append_assoc, List.length_append,
      List.length_replicate, htakeLength] at hcopy2
    rw [htakeLength] at hcopy3
    rw [h.values_eq, Uint32Array.subarrayTo_natCast, Uint32Array.subarrayFrom_natCast, hnew, hsecond]
    simp only [hcopy1, hcopy2, hcopy3, Option.bind_eq_bind, Option.bind_some]
    obtain ⟨next, hrenew, hagrees⟩ := h.renewed hfits hindex
      (by rw [List.length_append, htakeLength]; omega)
      (by rw [List.take_append_of_le_length (by omega), List.take_take, min_self])
    rw [hrenew]
    exact ⟨true, next, rfl, hagrees⟩

theorem Agrees.removeValues (h : c.Agrees values) {start count : ℕ} (hstart : start < 2 ^ 31)
    (hcount : count < 2 ^ 31) (hfits : Fits (values.take start ++ values.drop (start + count))) :
    ∃ result next, c.removeValues start count = some (result, next) ∧
      next.Agrees (values.take start ++ values.drop (start + count)) := by
  have hlength := h.fits.length_lt
  unfold PrefixSumComputer.removeValues
  rw [toUint32_eq (by omega) (by omega), toUint32_eq (by omega) (by omega), h.values_eq]
  dsimp only
  by_cases hbeyond : (start : ℤ) ≥ values.length
  · rw [if_pos hbeyond]
    refine ⟨false, c, rfl, ?_⟩
    rwa [List.take_of_length_le (by omega), List.drop_of_length_le (by omega), List.append_nil]
  · obtain ⟨removed, hremoved, hremovedLe, hdrop⟩ : ∃ removed : ℕ,
        (if (count : ℤ) ≥ values.length - start then (values.length : ℤ) - start else count) =
          removed ∧ start + removed ≤ values.length ∧
        values.drop (start + count) = values.drop (start + removed) := by
      split_ifs with hclip
      · refine ⟨values.length - start, by omega, by omega, ?_⟩
        rw [List.drop_of_length_le (by omega), List.drop_of_length_le (by omega)]
      · exact ⟨count, rfl, by omega, rfl⟩
    rw [hdrop] at hfits ⊢
    rw [if_neg hbeyond]
    simp only [hremoved]
    by_cases hnone : (removed : ℤ) = 0
    · rw [if_pos hnone]
      obtain rfl : removed = 0 := by omega
      refine ⟨false, c, rfl, ?_⟩
      rwa [Nat.add_zero, List.take_append_drop]
    · rw [if_neg hnone]
      have htakeLength : (values.take start).length = start := List.length_take_of_le (by omega)
      have hdropLength : (values.drop (start + removed)).length =
          values.length - (start + removed) := List.length_drop
      have hrest : (start : ℤ) + removed = ((start + removed : ℕ) : ℤ) := by
        push_cast
        rfl
      have hnew : Uint32Array.new ((values.length : ℤ) - removed).toNat =
          List.replicate start 0 ++ List.replicate (values.length - (start + removed)) 0 := by
        rw [List.replicate_append_replicate]
        unfold Uint32Array.new
        congr 1
        omega
      have hcopy1 := @Uint32Array.setAll_append [] (List.replicate start 0)
        (List.replicate (values.length - (start + removed)) 0) (values.take start)
        (by rw [List.length_replicate, htakeLength])
      have hcopy2 := @Uint32Array.setAll_append (values.take start)
        (List.replicate (values.length - (start + removed)) 0) [] (values.drop (start + removed))
        (by rw [List.length_replicate, hdropLength])
      rw [List.nil_append, List.nil_append, List.length_nil, Nat.cast_zero] at hcopy1
      rw [List.append_nil, List.append_nil, htakeLength] at hcopy2
      rw [Uint32Array.subarrayTo_natCast, hrest, Uint32Array.subarrayFrom_natCast, hnew]
      simp only [hcopy1, hcopy2, Option.bind_eq_bind, Option.bind_some]
      obtain ⟨next, hrenew, hagrees⟩ := @Agrees.renewed values c h _ start hfits (by omega)
        (by rw [List.length_append, htakeLength]; omega)
        (by rw [List.take_append_of_le_length (by omega), List.take_take, min_self])
      rw [hrenew]
      exact ⟨true, next, rfl, hagrees⟩

end PrefixSumComputer

end NexgileIde.PrefixSum
