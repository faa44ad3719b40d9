import NexgileIde.PrefixSum.PrefixSumComputerSpec

/-!
# The computer with a table of indices

The table has the index of every sum below the valid ones; what is behind them is stale and
is written over or trimmed before it is read.
-/
namespace NexgileIde.PrefixSum

open Base Library Library.PrefixSums

section Arrays

variable {T : Type} {array : List (Option T)}

theorem assignAt_self (array : List (Option T)) (index : ℕ) (value : T) :
    (assignAt array index value)[index]? = some (some value) := by
  unfold assignAt
  split_ifs with h
  · rw [List.getElem?_set_self h]
  · have hlength : (array ++ List.replicate (index - array.length) none).length = index := by
      rw [List.length_append, List.length_replicate]
      omega
    rw [List.getElem?_append_right (by omega), hlength, Nat.sub_self]
    rfl

theorem assignAt_ne {index other : ℕ} (hne : other ≠ index) (hlt : other < array.length)
    (value : T) : (assignAt array index value)[other]? = array[other]? := by
  unfold assignAt
  split_ifs with h
  · rw [List.getElem?_set_ne (Ne.symm hne)]
  · rw [List.append_assoc, List.getElem?_append_left hlt]

theorem setLength_lt {length index : ℕ} (hlt : index < array.length) (hlength : index < length) :
    (setLength array length)[index]? = array[index]? := by
  unfold setLength
  rw [List.getElem?_append_left (by rw [List.length_take]; omega), List.getElem?_take,
    if_pos hlength]

@[simp] theorem length_setLength (array : List (Option T)) (length : ℕ) :
    (setLength array length).length = length := by
  simp only [setLength, List.length_append, List.length_take, List.length_replicate]
  omega

end Arrays

namespace ConstantTimePrefixSumComputer

variable {values : List ℕ} {c : ConstantTimePrefixSumComputer}

/-- The table has the indices of the first values for all sums that fall into them. -/
def Indexed (values : List ℕ) (indexBySum : List (Option ℕ)) (count : ℕ) : Prop :=
  ∀ s index, index < count → Locates values s index → indexBySum[s]? = some (some index)

theorem Indexed.congr {values' : List ℕ} {indexBySum : List (Option ℕ)} {count n : ℕ}
    (h : Indexed values indexBySum count) (hn : n ≤ count)
    (hvalues : values.take n = values'.take n) : Indexed values' indexBySum n := by
  intro s index hindex hlocates
  refine h s index (by omega) ?_
  unfold Locates at hlocates ⊢
  rwa [sumOf_congr hvalues hindex.le, sumOf_congr hvalues hindex]

/-- Sums and indices are right up to the valid index, and everywhere when all is valid. -/
structure Agrees (values : List ℕ) (c : ConstantTimePrefixSumComputer) : Prop where
  values_eq : c.values = values
  le_valid : -1 ≤ c.validEndIndex
  valid_lt : c.validEndIndex < values.length
  summed : Summed values (readSum c.prefixSum) (c.validEndIndex + 1).toNat
  indexed : Indexed values c.indexBySum (c.validEndIndex + 1).toNat
  all_valid : c.isValid = true →
    c.validEndIndex = values.length - 1 ∧ c.indexBySum.length = values.sum

theorem agrees_new (values : List ℕ) : (new values).Agrees values where
  values_eq := rfl
  le_valid := le_refl _
  valid_lt := by
    unfold new
    dsimp only
    omega
  summed := summed_zero
  indexed s index h := absurd h (Nat.not_lt_zero index)
  all_valid := nofun

/-! ## Validation -/

theorem readSum_assignAt_self (prefixSum : List (Option ℕ)) (index value : ℕ) :
    readSum (assignAt prefixSum index value) index = some value := by
  rw [readSum, assignAt_self, Option.join_some]

theorem readSum_of_some {prefixSum : List (Option ℕ)} {index value : ℕ}
    (h : readSum prefixSum index = some value) : index < prefixSum.length := by
  cases hentry : prefixSum[index]? with
  | none => simp [readSum, hentry] at h
  | some entry => exact (List.getElem?_eq_some_iff.1 hentry).1

theorem indexLoop_spec {sumAbove i : ℕ} {turns : ℕ} {indexBySum : List (Option ℕ)} {j : ℕ} :
    (∀ s < sumAbove + j, s < indexBySum.length →
      (indexLoop sumAbove i indexBySum j turns)[s]? = indexBySum[s]?) ∧
    ∀ s, sumAbove + j ≤ s → s < sumAbove + (j + turns) →
      (indexLoop sumAbove i indexBySum j turns)[s]? = some (some i) := by
  induction turns generalizing indexBySum j with
  | zero => exact ⟨fun s _ _ => rfl, fun s hs hs' => by omega⟩
  | succ turns ih =>
    unfold indexLoop
    obtain ⟨hbefore, hwritten⟩ := @ih (assignAt indexBySum (sumAbove + j) i) (j + 1)
    have hself := assignAt_self indexBySum (sumAbove + j) i
    have hlength := (List.getElem?_eq_some_iff.1 hself).1
    constructor
    · intro s hs hlt
      have hother := assignAt_ne (show s ≠ sumAbove + j by omega) hlt i
      have hlt' : s < (assignAt indexBySum (sumAbove + j) i).length := by omega
      rw [hbefore s (by omega) hlt', hother]
    · intro s hs hs'
      rcases hs.lt_or_eq with hlt | rfl
      · exact hwritten s (by omega) (by omega)
      · rw [hbefore _ (by omega) hlength, hself]

theorem validateLoop_spec {rest : List ℕ} {prefixSum indexBySum : List (Option ℕ)} {i : ℕ}
    (hrest : values.drop i = rest) (hsummed : Summed values (readSum prefixSum) i)
    (hindexed : Indexed values indexBySum i) :
    Summed values (readSum (validateLoop prefixSum indexBySum i rest).1) (i + rest.length) ∧
      Indexed values (validateLoop prefixSum indexBySum i rest).2 (i + rest.length) := by
  induction rest generalizing prefixSum indexBySum i with
  | nil => exact ⟨hsummed, hindexed⟩
  | cons value rest ih =>
    unfold validateLoop
    have hvalue : values[i]? = some value := by
      rw [← List.head?_drop, hrest]
      rfl
    have habove : (if i > 0 then (readSum prefixSum (i - 1)).getD 0 else 0) = sumOf values i := by
      split_ifs with hi
      · rw [hsummed (i - 1) (by omega), Nat.sub_add_cancel hi, Option.getD_some]
      · rw [Nat.eq_zero_of_not_pos hi, sumOf_zero]
    simp only [habove]
    have hlength : i + (value :: rest).length = i + 1 + rest.length := by
      rw [List.length_cons]
      omega
    rw [hlength]
    apply ih
    · rw [← List.drop_drop, hrest]
      rfl
    · refine (hsummed.congr (le_refl i) rfl fun k hk => ?_).succ hvalue (readSum_assignAt_self _ _ _)
      have hlt := readSum_of_some (hsummed k hk)
      rw [readSum, readSum, assignAt_ne (by omega) hlt]
    · obtain ⟨hbefore, hwritten⟩ := @indexLoop_spec (sumOf values i) i value indexBySum 0
      intro s index hindex hlocates
      rcases Nat.lt_succ_iff_lt_or_eq.1 hindex with hlt | rfl
      · have hentry := hindexed s index hlt hlocates
        have hbound := (List.getElem?_eq_some_iff.1 hentry).1
        have hsum := hlocates.2.trans_le (sumOf_mono values (show index + 1 ≤ i by omega))
        rw [hbefore s (by omega) hbound, hentry]
      · have hbound := hlocates.2
        rw [sumOf_succ hvalue] at hbound
        exact hwritten s (by have := hlocates.1; omega) (by omega)

theorem Agrees.ensureValid (h : c.Agrees values) :
    c.ensureValid.Agrees values ∧ c.ensureValid.isValid = true := by
  unfold ConstantTimePrefixSumComputer.ensureValid
  by_cases hvalid : c.isValid = true
  · rw [if_pos hvalid]
    exact ⟨h, hvalid⟩
  · rw [if_neg hvalid]
    refine ⟨?_, rfl⟩
    have hle := h.le_valid
    have hlt := h.valid_lt
    obtain ⟨start, hstart⟩ : ∃ start : ℕ, c.validEndIndex + 1 = start :=
      Int.eq_ofNat_of_zero_le (by omega)
    have hsummed := h.summed
    have hindexed := h.indexed
    rw [hstart, Int.toNat_natCast] at hsummed hindexed
    obtain ⟨hsummed', hindexed'⟩ := @validateLoop_spec values _ c.prefixSum c.indexBySum start rfl
      hsummed hindexed
    rw [List.length_drop, Nat.add_sub_cancel' (by omega)] at hsummed' hindexed'
    obtain ⟨prefixSum, indexBySum, htables⟩ : ∃ prefixSum indexBySum,
        validateLoop c.prefixSum c.indexBySum start (values.drop start) =
          (prefixSum, indexBySum) := ⟨_, _, rfl⟩
    rw [htables] at hsummed' hindexed'
    have hsums : Summed values (readSum (setLength prefixSum values.length)) values.length := by
      intro i hi
      have hentry := hsummed' i hi
      rw [← hentry, readSum, setLength_lt (readSum_of_some hentry) hi, readSum]
    have htotal : (if values.length > 0 then
        (readSum (setLength prefixSum values.length) (values.length - 1)).getD 0 else 0) =
        values.sum := by
      split_ifs with hpos
      · rw [hsums _ (by omega), Nat.sub_add_cancel hpos, Option.getD_some,
          sumOf_of_length_le (le_refl _)]
      · rw [List.eq_nil_of_length_eq_zero (Nat.eq_zero_of_not_pos hpos), List.sum_nil]
    have hcount : ((values.length : ℤ) - 1 + 1).toNat = values.length := by omega
    simp only [hstart, Int.toNat_natCast, h.values_eq, htables, htotal]
    refine ⟨rfl, ?_, ?_, ?_, ?_, fun _ => ⟨rfl, length_setLength _ _⟩⟩
    · dsimp only
      omega
    · dsimp only
      omega
    · dsimp only
      rw [hcount]
      exact hsums
    · dsimp only
      rw [hcount]
      intro s index hindex hlocates
      have hentry := hindexed' s index hindex hlocates
      have hsum := hlocates.2.trans_le (sumOf_le_sum values _)
      rw [setLength_lt (List.getElem?_eq_some_iff.1 hentry).1 hsum, hentry]

/-! ## Queries -/

theorem Agrees.getTotalSum (h : c.Agrees values) :
    c.getTotalSum.1 = values.sum ∧ c.getTotalSum.2.Agrees values := by
  obtain ⟨hagrees, hvalid⟩ := h.ensureValid
  exact ⟨(hagrees.all_valid hvalid).2, hagrees⟩

theorem Agrees.readSum (h : c.Agrees values) (hvalid : c.isValid = true) {index : ℕ}
    (hindex : index < values.length) :
    readSum c.prefixSum index = some (sumOf values (index + 1)) := by
  have hlast := (h.all_valid hvalid).1
  exact h.summed index (by omega)

theorem Agrees.getPrefixSum (h : c.Agrees values) {count : ℕ} (hcount : count ≤ values.length) :
    (c.getPrefixSum count).1 = some (sumOf values count) ∧ (c.getPrefixSum count).2.Agrees values := by
  obtain ⟨hagrees, hvalid⟩ := h.ensureValid
  refine ⟨?_, hagrees⟩
  unfold ConstantTimePrefixSumComputer.getPrefixSum
  dsimp only
  split_ifs with hzero
  · rw [hzero, sumOf_zero]
  · rw [hagrees.readSum hvalid (by omega), Nat.sub_add_cancel (by omega)]

theorem Agrees.getIndexOf (h : c.Agrees values) (s : ℕ) :
    Located values s (c.getIndexOf s).1 ∧ (c.getIndexOf s).2.Agrees values := by
  obtain ⟨hagrees, hvalid⟩ := h.ensureValid
  refine ⟨?_, hagrees⟩
  unfold ConstantTimePrefixSumComputer.getIndexOf
  dsimp only
  generalize c.ensureValid = c at hagrees hvalid ⊢
  obtain ⟨hlast, hlength⟩ := hagrees.all_valid hvalid
  by_cases hsum : s < values.sum
  · obtain ⟨index, hindex, hlocates⟩ := exists_locates_of_lt_sum hsum
    have hentry := hagrees.indexed s index (by omega) hlocates
    rw [hentry, Option.join_some]
    refine ⟨index, ?_, .inl hlocates⟩
    dsimp only
    congr 1
    split_ifs with hpos
    · rw [hagrees.readSum hvalid (by omega), Nat.sub_add_cancel hpos, Option.getD_some]
    · rw [Nat.eq_zero_of_not_pos hpos, sumOf_zero]
  · have hnone : c.indexBySum[s]? = none := by
      rw [List.getElem?_eq_none_iff]
      omega
    rw [hnone, Option.join_none]
    have hindex : max 0 ((c.values.length : ℤ) - 1) = (values.length - 1 : ℕ) := by
      rw [hagrees.values_eq]
      omega
    refine ⟨values.length - 1, ?_, .inr ⟨le_of_not_gt hsum, rfl⟩⟩
    dsimp only
    rw [hindex]
    congr 1
    split_ifs with hpos
    · have hprevious : ((values.length - 1 : ℕ) - 1 : ℤ).toNat = values.length - 2 := by omega
      rw [hprevious, hagrees.readSum hvalid (by omega), Option.getD_some]
      congr 3
      omega
    · have hzero : values.length - 1 = 0 := by omega
      rw [hzero, sumOf_zero]

/-! ## Changes -/

theorem Agrees.invalidate (h : c.Agrees values) {values' : List ℕ} {index : ℕ}
    (hlength : min (values.length : ℤ) index ≤ values'.length)
    (hvalues : values.take index = values'.take index) :
    ({ c with values := values' }.invalidate index).Agrees values' := by
  have hle := h.le_valid
  have hlt := h.valid_lt
  have hcount : (min c.validEndIndex ((index : ℤ) - 1) + 1).toNat ≤ index := by omega
  have htake := congrArg (List.take (min c.validEndIndex ((index : ℤ) - 1) + 1).toNat) hvalues
  rw [List.take_take, List.take_take, min_eq_left hcount] at htake
  refine ⟨rfl, ?_, ?_, ?_, ?_, nofun⟩
  · dsimp only [ConstantTimePrefixSumComputer.invalidate]
    omega
  · dsimp only [ConstantTimePrefixSumComputer.invalidate]
    omega
  · exact h.summed.congr (by dsimp only [ConstantTimePrefixSumComputer.invalidate]; omega) htake
      fun _ _ => rfl
  · exact h.indexed.congr (by dsimp only [ConstantTimePrefixSumComputer.invalidate]; omega) htake

theorem Agrees.setValue (h : c.Agrees values) {index value : ℕ} (hindex : index < values.length) :
    (c.setValue index value).Agrees (values.set index value) := by
  unfold ConstantTimePrefixSumComputer.setValue
  rw [h.values_eq]
  split_ifs with hsame
  · obtain ⟨_, rfl⟩ := List.getElem?_eq_some_iff.1 hsame
    rw [List.set_getElem_self]
    exact h
  · apply h.invalidate
    · rw [List.length_set]
      omega
    · rw [List.take_set_of_le (le_refl _)]

theorem Agrees.insertValues (h : c.Agrees values) {index : ℕ} (hindex : index ≤ values.length)
    (inserted : List ℕ) :
    (c.insertValues index inserted).Agrees
      (values.take index ++ (inserted ++ values.drop index)) := by
  unfold ConstantTimePrefixSumComputer.insertValues
  rw [h.values_eq]
  have htakeLength : (values.take index).length = index := List.length_take_of_le hindex
  apply h.invalidate
  · rw [List.length_append]
    omega
  · rw [List.take_append_of_le_length (by omega), List.take_take, min_self]

theorem Agrees.removeValues (h : c.Agrees values) (start count : ℕ) :
    (c.removeValues start count).Agrees (values.take start ++ values.drop (start + count)) := by
  unfold ConstantTimePrefixSumComputer.removeValues
  rw [h.values_eq]
  apply h.invalidate
  · rw [List.length_append, List.length_take]
    omega
  · rcases le_total start values.length with hle | hle
    · rw [List.take_append_of_le_length (by rw [List.length_take]; omega), List.take_take, min_self]
    · rw [List.take_of_length_le hle, List.drop_of_length_le (by omega), List.append_nil,
        List.take_of_length_le hle]

end ConstantTimePrefixSumComputer

end NexgileIde.PrefixSum

/-!
## Both computers on one list

The same changes and any queries are made on a list and on the two computers.
-/
namespace NexgileIde.PrefixSum

open Library Library.PrefixSums

/-- What changes the values, at an index of the list. -/
inductive Change
  | setValue (index value : ℕ)
  | insertValues (insertIndex : ℕ) (insertArr : List ℕ)
  | removeValues (start count : ℕ)

inductive Query
  | getTotalSum
  | getPrefixSum (index : ℕ)
  | getIndexOf (sum : ℕ)

namespace Change

/-- The change of a plain list. -/
def onList (values : List ℕ) : Change → List ℕ
  | setValue index value => values.set index value
  | insertValues insertIndex insertArr =>
    values.take insertIndex ++ (insertArr ++ values.drop insertIndex)
  | removeValues start count => values.take start ++ values.drop (start + count)

/-- The index is one of the list. -/
def Applies (values : List ℕ) : Change → Prop
  | setValue index _ => index < values.length
  | insertValues insertIndex _ => insertIndex ≤ values.length
  | removeValues start count => start < 2 ^ 31 ∧ count < 2 ^ 31

def onPrefixSum (c : PrefixSumComputer) : Change → Option PrefixSumComputer
  | setValue index value => some (c.setValue index value).2
  | insertValues insertIndex insertArr => (c.insertValues insertIndex insertArr).map Prod.snd
  | removeValues start count => (c.removeValues start count).map Prod.snd

def onConstantTime (c : ConstantTimePrefixSumComputer) : Change → ConstantTimePrefixSumComputer
  | setValue index value => c.setValue index value
  | insertValues insertIndex insertArr => c.insertValues insertIndex insertArr
  | removeValues start count => c.removeValues start count

end Change

namespace Query

/-- The caches after a query. -/
def onPrefixSum (c : PrefixSumComputer) : Query → PrefixSumComputer
  | getTotalSum => c.getTotalSum.2
  | getPrefixSum index => (c.getPrefixSum index).2
  | getIndexOf sum => (c.getIndexOf sum).2

def onConstantTime (c : ConstantTimePrefixSumComputer) : Query → ConstantTimePrefixSumComputer
  | getTotalSum => c.getTotalSum.2
  | getPrefixSum index => (c.getPrefixSum (index + 1)).2
  | getIndexOf sum => (c.getIndexOf sum).2

def Applies (values : List ℕ) : Query → Prop
  | getPrefixSum index => index < values.length
  | _ => True

end Query

/-- A list and the computers after the same changes. -/
inductive Reached : List ℕ → PrefixSumComputer → ConstantTimePrefixSumComputer → Prop
  | new {values : List ℕ} (hfits : Fits values) : Reached values (.new values) (.new values)
  | change {values : List ℕ} {p p' : PrefixSumComputer} {c : ConstantTimePrefixSumComputer}
    (hreached : Reached values p c) (change : Change) (happlies : change.Applies values)
    (hfits : Fits (change.onList values)) (hnext : change.onPrefixSum p = some p') :
    Reached (change.onList values) p' (change.onConstantTime c)
  | query {values : List ℕ} {p : PrefixSumComputer} {c : ConstantTimePrefixSumComputer}
    (hreached : Reached values p c) (query : Query) (happlies : query.Applies values) :
    Reached values (query.onPrefixSum p) c
  | constantTimeQuery {values : List ℕ} {p : PrefixSumComputer}
    {c : ConstantTimePrefixSumComputer} (hreached : Reached values p c) (query : Query)
    (happlies : query.Applies values) : Reached values p (query.onConstantTime c)

variable {values : List ℕ} {p : PrefixSumComputer} {c : ConstantTimePrefixSumComputer}

/-- No change throws. -/
theorem PrefixSumComputer.Agrees.change (h : p.Agrees values) {change : Change}
    (happlies : change.Applies values) (hfits : Fits (change.onList values)) :
    ∃ next, change.onPrefixSum p = some next ∧ next.Agrees (change.onList values) := by
  cases change with
  | setValue index value => exact ⟨_, rfl, h.setValue happlies hfits⟩
  | insertValues insertIndex insertArr =>
    obtain ⟨result, next, hnext, hagrees⟩ := h.insertValues happlies hfits
    exact ⟨next, congrArg (Option.map Prod.snd) hnext, hagrees⟩
  | removeValues start count =>
    obtain ⟨result, next, hnext, hagrees⟩ := h.removeValues happlies.1 happlies.2 hfits
    exact ⟨next, congrArg (Option.map Prod.snd) hnext, hagrees⟩

theorem PrefixSumComputer.Agrees.query (h : p.Agrees values) {query : Query}
    (happlies : query.Applies values) : (query.onPrefixSum p).Agrees values := by
  cases query with
  | getTotalSum => exact h.getTotalSum.2.1
  | getPrefixSum index => exact (h.getPrefixSum happlies).2
  | getIndexOf sum => exact (h.getIndexOf sum).2

theorem ConstantTimePrefixSumComputer.Agrees.change (h : c.Agrees values) {change : Change}
    (happlies : change.Applies values) : (change.onConstantTime c).Agrees (change.onList values) := by
  cases change with
  | setValue index value => exact h.setValue happlies
  | insertValues insertIndex insertArr => exact h.insertValues happlies insertArr
  | removeValues start count => exact h.removeValues start count

theorem ConstantTimePrefixSumComputer.Agrees.query (h : c.Agrees values) {query : Query}
    (happlies : query.Applies values) : (query.onConstantTime c).Agrees values := by
  cases query with
  | getTotalSum => exact h.getTotalSum.2
  | getPrefixSum index => exact (h.getPrefixSum happlies).2
  | getIndexOf sum => exact (h.getIndexOf sum).2

theorem Reached.agrees (h : Reached values p c) : p.Agrees values ∧ c.Agrees values := by
  induction h with
  | new hfits =>
    exact ⟨PrefixSumComputer.agrees_new hfits, ConstantTimePrefixSumComputer.agrees_new _⟩
  | change _ change happlies hfits hnext ih =>
    obtain ⟨next, hnext', hagrees⟩ := ih.1.change happlies hfits
    obtain rfl := Option.some.inj (hnext'.symm.trans hnext)
    exact ⟨hagrees, ih.2.change happlies⟩
  | query _ query happlies ih => exact ⟨ih.1.query happlies, ih.2⟩
  | constantTimeQuery _ query happlies ih => exact ⟨ih.1, ih.2.query happlies⟩

/-- What the two computers have to answer on a list. -/
structure SumsAgree (values : List ℕ) (p : PrefixSumComputer)
    (c : ConstantTimePrefixSumComputer) : Prop where
  total : p.getTotalSum.1 = some values.sum ∧ c.getTotalSum.1 = values.sum
  sums : ∀ index < values.length,
    (p.getPrefixSum index).1 = some (values.take (index + 1)).sum ∧
      (c.getPrefixSum (index + 1)).1 = some (values.take (index + 1)).sum
  indices : ∀ s : ℕ, (p.getIndexOf s).1 = (c.getIndexOf s).1 ∧
    ∃ index : ℕ, (c.getIndexOf s).1.index = index ∧
      ((values.take index).sum : ℕ) + (c.getIndexOf s).1.remainder = s ∧
      (s < values.sum → 0 ≤ (c.getIndexOf s).1.remainder ∧
        ∃ value, values[index]? = some value ∧ (c.getIndexOf s).1.remainder < value)

/-- After any changes and queries both computers agree with the list, and no change throws. -/
theorem Reached.sumsAgree (h : Reached values p c) : SumsAgree values p c ∧
    ∀ change : Change, change.Applies values → Fits (change.onList values) →
      (change.onPrefixSum p).isSome = true := by
  obtain ⟨hp, hc⟩ := h.agrees
  refine ⟨⟨⟨hp.getTotalSum.1, hc.getTotalSum.1⟩, fun index hindex => ?_, fun s => ?_⟩, ?_⟩
  · exact ⟨(hp.getPrefixSum hindex).1, (hc.getPrefixSum (Nat.succ_le_of_lt hindex)).1⟩
  · have hlocated := (hc.getIndexOf s).1
    exact ⟨(hp.getIndexOf s).1.unique hlocated, hlocated.remainder⟩
  · intro change happlies hfits
    obtain ⟨next, hnext, -⟩ := hp.change happlies hfits
    rw [hnext]
    rfl

/-- Three values, of which the middle one is removed. -/
theorem Reached.sumsAgree_removed : ∃ p : PrefixSumComputer,
    SumsAgree [3, 4] p (Change.onConstantTime (.new [3, 5, 4]) (.removeValues 1 1)) := by
  have hfits : Fits [3, 5, 4] := ⟨by decide, by decide⟩
  have hfits' : Fits [3, 4] := ⟨by decide, by decide⟩
  obtain ⟨p, hp⟩ : ∃ p, Change.onPrefixSum (.new [3, 5, 4]) (.removeValues 1 1) = some p :=
    Option.isSome_iff_exists.1 (by decide)
  exact ⟨p, (Reached.sumsAgree (.change (.new hfits) (.removeValues 1 1) ⟨by decide, by decide⟩
    hfits' hp)).1⟩

/-- A list may be so long that its indices come back negative. -/
theorem sumsAgree_long : ¬ ∀ values : List ℕ, values.sum < 2 ^ 32 →
    SumsAgree values (.new values) (.new values) := by
  intro hagree
  have hsum : (List.replicate (2 ^ 31 + 1) 0).sum < 2 ^ 32 := by
    rw [List.sum_replicate]
    decide
  have hlast := ((hagree _ hsum).sums (2 ^ 31) (by
    rw [List.length_replicate]
    exact Nat.lt_succ_self _)).1
  have hnone : ((PrefixSumComputer.new (List.replicate (2 ^ 31 + 1) 0)).getPrefixSum
      (2 ^ 31 : ℕ)).1 = none := by
    unfold PrefixSumComputer.getPrefixSum
    have hindex : Base.toUint32 (2 ^ 31 : ℕ) = -2 ^ 31 := by decide
    rw [if_neg (by norm_num), hindex]
    rfl
  rw [hnone] at hlast
  cases hlast

end NexgileIde.PrefixSum
