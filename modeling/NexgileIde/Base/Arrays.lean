import Mathlib.Data.Int.Init
import Mathlib.Tactic

/-!
# Binary search

The search asks a comparator for positions only. A negative result encodes where the
key would have to be inserted.
-/
namespace NexgileIde.Base

/-- One turn of the loop takes one unit of fuel. -/
def binarySearch2Loop (compareToKey : ℕ → ℤ) : ℕ → ℤ → ℤ → ℤ
  | 0, low, _ => -(low + 1)
  | fuel + 1, low, high =>
    if low ≤ high then
      let mid := (low + high) / 2
      let comp := compareToKey mid.toNat
      if comp < 0 then binarySearch2Loop compareToKey fuel (mid + 1) high
      else if 0 < comp then binarySearch2Loop compareToKey fuel low (mid - 1)
      else mid
    else -(low + 1)

def binarySearch2 (length : ℕ) (compareToKey : ℕ → ℤ) : ℤ :=
  binarySearch2Loop compareToKey length 0 (length - 1)

/-- The comparator is that of a sorted array. -/
structure Sorted (length : ℕ) (compareToKey : ℕ → ℤ) : Prop where
  below : ∀ i j, i ≤ j → j < length → compareToKey j < 0 → compareToKey i < 0
  above : ∀ i j, i ≤ j → j < length → 0 < compareToKey i → 0 < compareToKey j

/-- What a search result says. -/
inductive Searched (length : ℕ) (compareToKey : ℕ → ℤ) : ℤ → Prop
  | found {i : ℕ} : i < length → compareToKey i = 0 → Searched length compareToKey i
  | missing {p : ℕ} : p ≤ length → (∀ i < p, compareToKey i < 0) →
      (∀ i, p ≤ i → i < length → 0 < compareToKey i) → Searched length compareToKey (-(p + 1))

/-- The key is neither before `low` nor behind `high`. -/
structure Between (length : ℕ) (compareToKey : ℕ → ℤ) (low high : ℤ) : Prop where
  low_nonneg : 0 ≤ low
  low_le : low ≤ high + 1
  high_lt : high < length
  below : ∀ i : ℕ, (i : ℤ) < low → compareToKey i < 0
  above : ∀ i : ℕ, high < i → i < length → 0 < compareToKey i

section Search

variable {length : ℕ} {compareToKey : ℕ → ℤ}

theorem Between.searched {low high : ℤ} (h : Between length compareToKey low high)
    (hempty : high < low) : Searched length compareToKey (-(low + 1)) := by
  obtain ⟨p, rfl⟩ := Int.eq_ofNat_of_zero_le h.low_nonneg
  have hhigh := h.high_lt
  have hlow := h.low_le
  apply Searched.missing
  · omega
  · intro i hi
    exact h.below i (by omega)
  · intro i hp hi
    exact h.above i (by omega) hi

theorem binarySearch2Loop_searched (hsorted : Sorted length compareToKey) :
    ∀ (fuel : ℕ) {low high : ℤ}, Between length compareToKey low high →
      high + 1 - low ≤ fuel →
      Searched length compareToKey (binarySearch2Loop compareToKey fuel low high) := by
  intro fuel
  induction fuel with
  | zero =>
    intro low high h hfuel
    exact h.searched (by push_cast at hfuel; omega)
  | succ fuel ih =>
    intro low high h hfuel
    have hlow := h.low_nonneg
    have hhigh := h.high_lt
    push_cast at hfuel
    unfold binarySearch2Loop
    dsimp only
    split_ifs with hle hneg hpos
    · -- the key is behind the middle
      refine ih ⟨by omega, by omega, hhigh, ?_, h.above⟩ (by omega)
      intro i hi
      exact hsorted.below i ((low + high) / 2).toNat (by omega) (by omega) hneg
    · -- the key is before the middle
      refine ih ⟨hlow, by omega, by omega, h.below, ?_⟩ (by omega)
      intro i hi hlength
      exact hsorted.above ((low + high) / 2).toNat i (by omega) hlength hpos
    · have hmid : (((low + high) / 2).toNat : ℤ) = (low + high) / 2 :=
        Int.toNat_of_nonneg (by omega)
      rw [← hmid]
      exact Searched.found (by omega) (by omega)
    · exact h.searched (by omega)

theorem binarySearch2_searched (hsorted : Sorted length compareToKey) :
    Searched length compareToKey (binarySearch2 length compareToKey) := by
  refine binarySearch2Loop_searched hsorted length ⟨le_rfl, by omega, by omega, ?_, ?_⟩ (by omega)
  · intro i hi
    omega
  · intro i hi hlength
    omega

end Search

end NexgileIde.Base

/-!
## Binary search for monotonous predicates

The first loop looks for the last element that has a property, the second one for the first
element that has it. Both stop at the border between the elements with and without it.
-/
namespace NexgileIde.Base

variable {T : Type}

/-- The loop of `findLastIdxMonotonous`, where one turn takes one unit of fuel. -/
def findLastIdxLoop (array : List T) (predicate : T → Bool) : ℕ → ℕ → ℕ → ℕ
  | 0, i, _ => i
  | fuel + 1, i, j =>
    if i < j then
      let k := (i + j) / 2
      if (array[k]?).any predicate then findLastIdxLoop array predicate fuel (k + 1) j
      else findLastIdxLoop array predicate fuel i k
    else i

def findLastIdxMonotonous (array : List T) (predicate : T → Bool) : ℤ :=
  findLastIdxLoop array predicate array.length 0 array.length - 1

def findLastMonotonous (array : List T) (predicate : T → Bool) : Option T :=
  let idx := findLastIdxMonotonous array predicate
  if idx = -1 then none else array[idx.toNat]?

/-- The loop of `findFirstIdxMonotonousOrArrLen`. -/
def findFirstIdxLoop (array : List T) (predicate : T → Bool) : ℕ → ℕ → ℕ → ℕ
  | 0, i, _ => i
  | fuel + 1, i, j =>
    if i < j then
      let k := (i + j) / 2
      if (array[k]?).any predicate then findFirstIdxLoop array predicate fuel i k
      else findFirstIdxLoop array predicate fuel (k + 1) j
    else i

def findFirstIdxMonotonousOrArrLen (array : List T) (predicate : T → Bool) : ℕ :=
  findFirstIdxLoop array predicate array.length 0 array.length

/-- The elements in front of an index have a property, and those behind it do not. -/
structure Border (array : List T) (property : T → Prop) (index : ℕ) : Prop where
  le_length : index ≤ array.length
  front : ∀ x ∈ array.take index, property x
  behind : ∀ x ∈ array.drop index, ¬ property x

/-- Nothing has a property that something in front of it does not have. -/
def Monotonous (array : List T) (property : T → Prop) : Prop :=
  array.Pairwise fun a b => property b → property a

section Search

variable {array : List T} {property : T → Prop}

theorem Monotonous.of_lt (h : Monotonous array property) {i j : ℕ} (hij : i ≤ j) {a b : T}
    (ha : array[i]? = some a) (hb : array[j]? = some b) (hproperty : property b) :
    property a := by
  obtain ⟨hi, rfl⟩ := List.getElem?_eq_some_iff.1 ha
  obtain ⟨hj, rfl⟩ := List.getElem?_eq_some_iff.1 hb
  rcases hij.lt_or_eq with hlt | rfl
  · exact List.pairwise_iff_getElem.1 h i j hi hj hlt hproperty
  · exact hproperty

/-- What is known while the loops run. -/
structure Bracket (array : List T) (property : T → Prop) (i j : ℕ) : Prop where
  le : i ≤ j
  le_length : j ≤ array.length
  front : ∀ n a, n < i → array[n]? = some a → property a
  behind : ∀ n a, j ≤ n → array[n]? = some a → ¬ property a

theorem Bracket.initial (array : List T) (property : T → Prop) :
    Bracket array property 0 array.length where
  le := Nat.zero_le _
  le_length := Nat.le_refl _
  front n a h := absurd h (Nat.not_lt_zero n)
  behind n a h hn := by
    have hlt := (List.getElem?_eq_some_iff.1 hn).1
    omega

theorem Bracket.border {i : ℕ} (h : Bracket array property i i) : Border array property i where
  le_length := h.le_length
  front x hx := by
    obtain ⟨n, hn⟩ := List.mem_iff_getElem?.1 hx
    rw [List.getElem?_take] at hn
    split at hn
    · next hlt => exact h.front n x hlt hn
    · cases hn
  behind x hx := by
    obtain ⟨n, hn⟩ := List.mem_iff_getElem?.1 hx
    rw [List.getElem?_drop] at hn
    exact h.behind (i + n) x (Nat.le_add_right i n) hn

theorem Bracket.middle {i j : ℕ} (h : Bracket array property i j) (hlt : i < j) :
    ∃ a, array[(i + j) / 2]? = some a := by
  have hlength := h.le_length
  exact ⟨_, List.getElem?_eq_getElem (by omega)⟩

/-- The middle has the property, as everything in front of it then has. -/
theorem Bracket.right (hmonotonous : Monotonous array property) {i j : ℕ}
    (h : Bracket array property i j) (hlt : i < j) {a : T} (ha : array[(i + j) / 2]? = some a)
    (hproperty : property a) : Bracket array property ((i + j) / 2 + 1) j where
  le := by omega
  le_length := h.le_length
  front n b hn hb := hmonotonous.of_lt (by omega) hb ha hproperty
  behind := h.behind

theorem Bracket.left (hmonotonous : Monotonous array property) {i j : ℕ}
    (h : Bracket array property i j) (hlt : i < j) {a : T} (ha : array[(i + j) / 2]? = some a)
    (hproperty : ¬ property a) : Bracket array property i ((i + j) / 2) where
  le := by omega
  le_length := by
    have hlength := h.le_length
    omega
  front := h.front
  behind n b hn hb := fun hproperty' => hproperty (hmonotonous.of_lt hn ha hb hproperty')

theorem findLastIdxLoop_border [DecidablePred property] (hmonotonous : Monotonous array property)
    (fuel : ℕ) {i j : ℕ} (h : Bracket array property i j) (hfuel : j - i ≤ fuel) :
    Border array property (findLastIdxLoop array (fun x => property x) fuel i j) := by
  induction fuel generalizing i j with
  | zero =>
    have hle := h.le
    obtain rfl : i = j := by omega
    exact h.border
  | succ fuel ih =>
    unfold findLastIdxLoop
    split_ifs with hlt
    · obtain ⟨a, ha⟩ := h.middle hlt
      simp only [ha, Option.any_some, decide_eq_true_eq]
      split_ifs with hproperty
      · exact ih (h.right hmonotonous hlt ha hproperty) (by omega)
      · exact ih (h.left hmonotonous hlt ha hproperty) (by omega)
    · have hle := h.le
      obtain rfl : i = j := by omega
      exact h.border

theorem findFirstIdxLoop_border [DecidablePred property]
    (hmonotonous : Monotonous array fun x => ¬ property x) (fuel : ℕ) {i j : ℕ}
    (h : Bracket array (fun x => ¬ property x) i j) (hfuel : j - i ≤ fuel) :
    Border array (fun x => ¬ property x)
      (findFirstIdxLoop array (fun x => property x) fuel i j) := by
  induction fuel generalizing i j with
  | zero =>
    have hle := h.le
    obtain rfl : i = j := by omega
    exact h.border
  | succ fuel ih =>
    unfold findFirstIdxLoop
    split_ifs with hlt
    · obtain ⟨a, ha⟩ := h.middle hlt
      simp only [ha, Option.any_some, decide_eq_true_eq]
      split_ifs with hproperty
      · exact ih (h.left hmonotonous hlt ha (not_not_intro hproperty)) (by omega)
      · exact ih (h.right hmonotonous hlt ha hproperty) (by omega)
    · have hle := h.le
      obtain rfl : i = j := by omega
      exact h.border

/-- The last element with a property is the one in front of the border. -/
theorem findLastIdxMonotonous_border [DecidablePred property]
    (hmonotonous : Monotonous array property) :
    ∃ index, Border array property index ∧
      findLastIdxMonotonous array (fun x => property x) = (index : ℤ) - 1 :=
  ⟨_, findLastIdxLoop_border hmonotonous array.length (.initial array property) (Nat.sub_le _ _),
    rfl⟩

theorem findFirstIdxMonotonousOrArrLen_border [DecidablePred property]
    (hmonotonous : Monotonous array fun x => ¬ property x) :
    Border array (fun x => ¬ property x)
      (findFirstIdxMonotonousOrArrLen array fun x => property x) :=
  findFirstIdxLoop_border hmonotonous array.length (.initial array _) (Nat.sub_le _ _)

theorem findLastMonotonous_eq [DecidablePred property] (hmonotonous : Monotonous array property) :
    ∃ index, Border array property index ∧
      findLastMonotonous array (fun x => property x) = (array.take index).getLast? := by
  obtain ⟨index, hborder, hindex⟩ := findLastIdxMonotonous_border hmonotonous
  refine ⟨index, hborder, ?_⟩
  unfold findLastMonotonous
  simp only [hindex]
  have hlength := hborder.le_length
  cases index with
  | zero => simp
  | succ index =>
    rw [if_neg (by omega), List.getLast?_eq_getElem?, List.getElem?_take, List.length_take]
    have hmin : min (index + 1) array.length - 1 = index := by omega
    rw [hmin, if_pos (Nat.lt_succ_self index)]
    congr 1
    omega

end Search

end NexgileIde.Base
