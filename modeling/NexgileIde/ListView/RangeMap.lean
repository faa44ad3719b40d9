import Mathlib

/-!
# Sizes of list items

The sizes of the items of a list are kept as groups of neighbours with one size. A splice
cuts the groups before and behind the replaced items and joins equal neighbours again.
-/
namespace NexgileIde.ListView

structure IRange where
  start : ℤ
  stop : ℤ
  deriving DecidableEq, Repr

structure IRangedGroup where
  range : IRange
  size : ℕ
  deriving DecidableEq, Repr

/-- `Range.intersect`; the first range may have no end, which is `POSITIVE_INFINITY`. -/
def intersect (start : ℤ) (stop : Option ℤ) (other : IRange) : IRange :=
  if start ≥ other.stop ∨ stop.any (fun stop => other.start ≥ stop) then ⟨0, 0⟩
  else
    let start := max start other.start
    let stop := stop.elim other.stop fun stop => min stop other.stop
    if stop - start ≤ 0 then ⟨0, 0⟩ else ⟨start, stop⟩

def IRange.isEmpty (range : IRange) : Bool := range.stop - range.start ≤ 0

/-- The intersection between ranged groups and a range. -/
def groupIntersect (start : ℤ) (stop : Option ℤ) : List IRangedGroup → List IRangedGroup
  | [] => []
  | r :: groups =>
    if start ≥ r.range.stop then groupIntersect start stop groups
    else if stop.any (fun stop => stop < r.range.start) then []
    else
      let intersection := intersect start stop r.range
      if intersection.isEmpty then groupIntersect start stop groups
      else ⟨intersection, r.size⟩ :: groupIntersect start stop groups

def shift (range : IRange) (much : ℤ) : IRange := ⟨range.start + much, range.stop + much⟩

/-- The loop of `consolidate`; the last group of the result is `previousGroup`. -/
def consolidateLoop : List IRangedGroup → List IRangedGroup → List IRangedGroup
  | result, [] => result
  | result, group :: groups =>
    match result.getLast? with
    | none => consolidateLoop (result ++ [group]) groups
    | some previousGroup =>
      if group.size = previousGroup.size then
        consolidateLoop (result.dropLast ++
          [⟨⟨previousGroup.range.start, group.range.stop⟩, previousGroup.size⟩]) groups
      else consolidateLoop (result ++ [group]) groups

/-- Merges consecutive ranged groups that share the same `size`. -/
def consolidate (groups : List IRangedGroup) : List IRangedGroup := consolidateLoop [] groups

structure RangeMap where
  groups : List IRangedGroup
  size : ℚ
  paddingTop : ℚ
  deriving DecidableEq, Repr

namespace RangeMap

/-- `new RangeMap(topPadding)` -/
def new (topPadding : ℚ) : RangeMap := ⟨[], topPadding, topPadding⟩

def setPaddingTop (m : RangeMap) (paddingTop : ℚ) : RangeMap :=
  { m with size := m.size + paddingTop - m.paddingTop, paddingTop := paddingTop }

def groupSize (g : IRangedGroup) : ℤ := g.size * (g.range.stop - g.range.start)

def splice (m : RangeMap) (index deleteCount : ℕ) (items : List ℕ) : RangeMap :=
  let diff : ℤ := items.length - deleteCount
  let before := groupIntersect 0 (some index) m.groups
  let after := (groupIntersect (index + deleteCount) none m.groups).map fun g =>
    ⟨shift g.range diff, g.size⟩
  let middle := items.mapIdx fun i size => ⟨⟨index + i, index + i + 1⟩, size⟩
  let groups := consolidate (before ++ middle ++ after)
  { m with groups := groups, size := m.paddingTop + (groups.map groupSize).sum }

/-- The number of items in the range map. -/
def count (m : RangeMap) : ℤ := m.groups.getLast?.elim 0 (·.range.stop)

def indexAtLoop (position : ℚ) : List IRangedGroup → ℤ → ℚ → ℤ
  | [], index, _ => index
  | group :: groups, index, size =>
    let count := group.range.stop - group.range.start
    let newSize := size + count * group.size
    if position < newSize then index + ⌊(position - size) / group.size⌋
    else indexAtLoop position groups (index + count) newSize

/-- The index of the item at the given position. -/
def indexAt (m : RangeMap) (position : ℚ) : ℤ :=
  if position < 0 then -1
  else if position < m.paddingTop then 0
  else indexAtLoop position m.groups 0 m.paddingTop

def positionAtLoop (paddingTop : ℚ) (index : ℤ) : List IRangedGroup → ℤ → ℤ → ℚ
  | [], _, _ => -1
  | group :: groups, position, count =>
    let groupCount := group.range.stop - group.range.start
    let newCount := count + groupCount
    if index < newCount then paddingTop + position + (index - count) * group.size
    else positionAtLoop paddingTop index groups (position + groupCount * group.size) newCount

/-- The start position of the item at the given index. -/
def positionAt (m : RangeMap) (index : ℤ) : ℚ :=
  if index < 0 then -1 else positionAtLoop m.paddingTop index m.groups 0 0

end RangeMap

/-- The sizes of the items of a group. -/
def IRangedGroup.sizes (g : IRangedGroup) : List ℕ :=
  List.replicate (g.range.stop - g.range.start).toNat g.size

/-- The sizes of the items of all groups. -/
def sizes (groups : List IRangedGroup) : List ℕ := groups.flatMap (·.sizes)

/-- Groups that are not empty, each from where the one before ends. -/
def Chained : ℤ → List IRangedGroup → Prop
  | _, [] => True
  | start, g :: groups => g.range.start = start ∧ start < g.range.stop ∧ Chained g.range.stop groups

section Groups

variable {start index : ℤ} {g : IRangedGroup} {groups groups' : List IRangedGroup}

@[simp] theorem sizes_nil : sizes [] = [] := rfl

@[simp] theorem sizes_cons (g : IRangedGroup) (groups : List IRangedGroup) :
    sizes (g :: groups) = g.sizes ++ sizes groups := rfl

@[simp] theorem sizes_append (groups groups' : List IRangedGroup) :
    sizes (groups ++ groups') = sizes groups ++ sizes groups' := by
  unfold sizes
  rw [List.flatMap_append]

theorem IRangedGroup.length_sizes (h : g.range.start < g.range.stop) :
    (g.sizes.length : ℤ) = g.range.stop - g.range.start := by
  unfold IRangedGroup.sizes
  rw [List.length_replicate]
  omega

theorem IRangedGroup.sum_sizes (h : g.range.start < g.range.stop) :
    (((g.range.stop - g.range.start) * g.size : ℤ) : ℚ) = g.sizes.sum := by
  have hcount := Int.toNat_of_nonneg (a := g.range.stop - g.range.start) (by omega)
  unfold IRangedGroup.sizes
  rw [List.sum_replicate, smul_eq_mul, Nat.cast_mul, ← Int.cast_natCast (Int.toNat _), hcount,
    Int.cast_mul, Int.cast_natCast]

theorem chained_append : Chained start (groups ++ groups') ↔
    Chained start groups ∧ Chained (start + (sizes groups).length) groups' := by
  induction groups generalizing start with
  | nil => simp [Chained]
  | cons g groups ih =>
    constructor
    · rintro ⟨rfl, hlt, hrest⟩
      obtain ⟨hgroups, hgroups'⟩ := ih.mp hrest
      refine ⟨⟨rfl, hlt, hgroups⟩, ?_⟩
      rw [sizes_cons, List.length_append, Nat.cast_add, IRangedGroup.length_sizes hlt]
      convert hgroups' using 1
      omega
    · rintro ⟨⟨rfl, hlt, hgroups⟩, hgroups'⟩
      rw [sizes_cons, List.length_append, Nat.cast_add, IRangedGroup.length_sizes hlt] at hgroups'
      refine ⟨rfl, hlt, ih.mpr ⟨hgroups, ?_⟩⟩
      convert hgroups' using 1
      omega

/-- No group is left of a range that ends where the groups start. -/
theorem groupIntersect_eq_nil (h : Chained start groups) (hle : index ≤ start) :
    groupIntersect 0 (some index) groups = [] := by
  induction groups generalizing start with
  | nil => rfl
  | cons g groups ih =>
    obtain ⟨rfl, hlt, hrest⟩ := h
    have hempty : (intersect 0 (some index) g.range).isEmpty = true := by
      unfold intersect
      rw [if_pos (.inr (by simpa using hle))]
      rfl
    unfold groupIntersect
    dsimp only
    rw [hempty, if_pos rfl, ih hrest (by omega)]
    split_ifs <;> rfl

theorem groupIntersect_before (h : Chained start groups) (hstart : 0 ≤ start) (index : ℤ) :
    Chained start (groupIntersect 0 (some index) groups) ∧
      sizes (groupIntersect 0 (some index) groups) =
        (sizes groups).take (index - start).toNat := by
  induction groups generalizing start with
  | nil => simp [groupIntersect, Chained]
  | cons g groups ih =>
    by_cases hle : index ≤ start
    · rw [groupIntersect_eq_nil h hle, Int.toNat_of_nonpos (by omega)]
      exact ⟨trivial, by simp⟩
    obtain ⟨rfl, hlt, hrest⟩ := h
    have hintersect : intersect 0 (some index) g.range =
        ⟨g.range.start, min index g.range.stop⟩ := by
      unfold intersect
      rw [if_neg (by simp; omega)]
      dsimp only [Option.elim]
      rw [if_neg (by omega), max_eq_right hstart]
    have hcons : groupIntersect 0 (some index) (g :: groups) =
        ⟨⟨g.range.start, min index g.range.stop⟩, g.size⟩ ::
          groupIntersect 0 (some index) groups := by
      rw [groupIntersect, if_neg (by omega), if_neg (by simp; omega)]
      dsimp only
      rw [hintersect, if_neg (by simp [IRange.isEmpty]; omega)]
    have hlength := IRangedGroup.length_sizes hlt
    rw [hcons, sizes_cons, sizes_cons]
    by_cases hcut : index ≤ g.range.stop
    · rw [groupIntersect_eq_nil hrest hcut, min_eq_left hcut, List.take_append_of_le_length (by omega)]
      refine ⟨⟨rfl, by dsimp only; omega, trivial⟩, ?_⟩
      unfold IRangedGroup.sizes
      rw [sizes_nil, List.append_nil, List.take_replicate, min_eq_left (by omega)]
    · obtain ⟨hchained, hsizes⟩ := ih hrest (by omega)
      rw [min_eq_right (by omega), hsizes]
      refine ⟨⟨rfl, hlt, hchained⟩, ?_⟩
      rw [List.take_append, List.take_of_length_le (l := g.sizes) (by omega)]
      congr 2
      omega

theorem groupIntersect_after (h : Chained start groups) (index : ℤ) :
    Chained (max index start) (groupIntersect index none groups) ∧
      sizes (groupIntersect index none groups) = (sizes groups).drop (index - start).toNat := by
  induction groups generalizing start with
  | nil => simp [groupIntersect, Chained]
  | cons g groups ih =>
    obtain ⟨rfl, hlt, hrest⟩ := h
    obtain ⟨hchained, hsizes⟩ := ih hrest
    have hlength := IRangedGroup.length_sizes hlt
    by_cases hle : index ≥ g.range.stop
    · rw [groupIntersect, if_pos hle, sizes_cons, List.drop_append, List.drop_of_length_le (by omega),
        List.nil_append, hsizes]
      rw [max_eq_left (by omega)] at hchained ⊢
      refine ⟨hchained, ?_⟩
      congr 1
      omega
    · have hintersect : intersect index none g.range =
          ⟨max index g.range.start, g.range.stop⟩ := by
        unfold intersect
        rw [if_neg (by simp; omega)]
        dsimp only [Option.elim]
        rw [if_neg (by omega)]
      have hcons : groupIntersect index none (g :: groups) =
          ⟨⟨max index g.range.start, g.range.stop⟩, g.size⟩ ::
            groupIntersect index none groups := by
        rw [groupIntersect, if_neg hle, if_neg (by simp)]
        dsimp only
        rw [hintersect, if_neg (by simp [IRange.isEmpty]; omega)]
      rw [max_eq_right (by omega)] at hchained
      rw [hcons, sizes_cons, sizes_cons, hsizes, List.drop_append_of_le_length (by omega)]
      refine ⟨⟨rfl, by dsimp only; omega, hchained⟩, ?_⟩
      unfold IRangedGroup.sizes
      have hrestDrop : (index - g.range.stop).toNat = 0 := by omega
      rw [List.drop_replicate, hrestDrop, List.drop_zero]
      congr 2
      dsimp only
      omega

theorem shift_spec (h : Chained start groups) (much : ℤ) :
    Chained (start + much) (groups.map fun g => ⟨shift g.range much, g.size⟩) ∧
      sizes (groups.map fun g => ⟨shift g.range much, g.size⟩) = sizes groups := by
  induction groups generalizing start with
  | nil => exact ⟨trivial, rfl⟩
  | cons g groups ih =>
    obtain ⟨rfl, hlt, hrest⟩ := h
    obtain ⟨hchained, hsizes⟩ := ih hrest
    rw [List.map_cons, sizes_cons, sizes_cons, hsizes]
    refine ⟨⟨rfl, ?_, hchained⟩, ?_⟩
    · unfold shift
      dsimp only
      omega
    · unfold IRangedGroup.sizes shift
      dsimp only
      congr 3
      omega

/-- The groups of new items, one for each. -/
theorem middle_spec (start : ℤ) (items : List ℕ) :
    Chained start (items.mapIdx fun i size => ⟨⟨start + i, start + i + 1⟩, size⟩) ∧
      sizes (items.mapIdx fun i size => ⟨⟨start + i, start + i + 1⟩, size⟩) = items := by
  induction items generalizing start with
  | nil => exact ⟨trivial, rfl⟩
  | cons item items ih =>
    have hshift : (fun (i : ℕ) size => (⟨⟨start + (i + 1 : ℕ), start + (i + 1 : ℕ) + 1⟩, size⟩ :
        IRangedGroup)) = fun i size => ⟨⟨start + 1 + i, start + 1 + i + 1⟩, size⟩ := by
      funext i size
      congr 2 <;> push_cast <;> ring
    obtain ⟨hchained, hsizes⟩ := ih (start + 1)
    rw [List.mapIdx_cons, hshift, sizes_cons, hsizes]
    refine ⟨⟨by simp, by simp, ?_⟩, ?_⟩
    · simpa using hchained
    · unfold IRangedGroup.sizes
      simp

/-- Two neighbours of one size become one group. -/
theorem merge_spec {g' : IRangedGroup} (h : Chained start (g :: g' :: groups))
    (hsize : g'.size = g.size) :
    Chained start (⟨⟨g.range.start, g'.range.stop⟩, g.size⟩ :: groups) ∧
      sizes (⟨⟨g.range.start, g'.range.stop⟩, g.size⟩ :: groups) = sizes (g :: g' :: groups) := by
  obtain ⟨rfl, hlt, heq, hlt', hrest⟩ := h
  refine ⟨⟨rfl, by dsimp only; omega, hrest⟩, ?_⟩
  rw [sizes_cons, sizes_cons, sizes_cons, ← List.append_assoc]
  congr 1
  unfold IRangedGroup.sizes
  rw [hsize, List.replicate_append_replicate]
  congr 1
  dsimp only
  omega

theorem consolidateLoop_spec {result : List IRangedGroup} (h : Chained start (result ++ groups)) :
    Chained start (consolidateLoop result groups) ∧
      sizes (consolidateLoop result groups) = sizes (result ++ groups) := by
  induction groups generalizing result with
  | nil =>
    rw [List.append_nil] at h ⊢
    exact ⟨h, rfl⟩
  | cons g groups ih =>
    have hpush : Chained start (consolidateLoop (result ++ [g]) groups) ∧
        sizes (consolidateLoop (result ++ [g]) groups) = sizes (result ++ g :: groups) := by
      rw [List.append_cons] at h
      rw [List.append_cons result g groups]
      exact ih h
    unfold consolidateLoop
    rcases List.eq_nil_or_concat' result with rfl | ⟨init, previousGroup, rfl⟩
    · exact hpush
    rw [List.getLast?_concat]
    dsimp only
    by_cases hsize : g.size = previousGroup.size
    · rw [if_pos hsize, List.dropLast_concat]
      rw [List.append_assoc, List.singleton_append, chained_append] at h
      obtain ⟨hchained, hsizes⟩ := merge_spec h.2 hsize
      obtain ⟨hloop, hloop'⟩ := @ih (init ++
          [⟨⟨previousGroup.range.start, g.range.stop⟩, previousGroup.size⟩]) (by
        rw [List.append_assoc, List.singleton_append, chained_append]
        exact ⟨h.1, hchained⟩)
      refine ⟨hloop, hloop'.trans ?_⟩
      rw [List.append_assoc, List.append_assoc, List.singleton_append, List.singleton_append,
        sizes_append, sizes_append, hsizes]
    · rw [if_neg hsize]
      exact hpush

theorem sum_groupSize (h : Chained start groups) :
    (groups.map RangeMap.groupSize).sum = ((sizes groups).sum : ℤ) := by
  induction groups generalizing start with
  | nil => rfl
  | cons g groups ih =>
    obtain ⟨rfl, hlt, hrest⟩ := h
    rw [List.map_cons, List.sum_cons, ih hrest, sizes_cons, List.sum_append, Nat.cast_add]
    congr 1
    unfold RangeMap.groupSize IRangedGroup.sizes
    rw [List.sum_replicate, smul_eq_mul, Nat.cast_mul, mul_comm]
    congr 1
    omega

theorem getLast?_stop (h : Chained start groups) :
    groups.getLast?.elim start (·.range.stop) = start + (sizes groups).length := by
  rcases List.eq_nil_or_concat' groups with rfl | ⟨init, g, rfl⟩
  · simp
  · obtain ⟨-, hstart, hlt, -⟩ := chained_append.mp h
    rw [List.getLast?_concat, Option.elim_some, sizes_append, List.length_append, sizes_cons,
      sizes_nil, List.append_nil, Nat.cast_add, IRangedGroup.length_sizes (by omega)]
    omega

theorem positionAtLoop_spec (h : Chained start groups) (paddingTop : ℚ) (position : ℤ) {i : ℕ}
    (hi : i < (sizes groups).length) :
    RangeMap.positionAtLoop paddingTop (start + i) groups position start =
      paddingTop + position + ((sizes groups).take i).sum := by
  induction groups generalizing start position i with
  | nil => simp at hi
  | cons g groups ih =>
    obtain ⟨rfl, hlt, hrest⟩ := h
    have hlength := IRangedGroup.length_sizes hlt
    unfold RangeMap.positionAtLoop
    dsimp only
    rw [sizes_cons]
    rw [sizes_cons, List.length_append] at hi
    by_cases hin : i < g.sizes.length
    · rw [if_pos (by omega), List.take_append_of_le_length hin.le]
      unfold IRangedGroup.sizes
      unfold IRangedGroup.sizes at hin
      rw [List.length_replicate] at hin
      rw [List.take_replicate, min_eq_left hin.le, List.sum_replicate, smul_eq_mul]
      push_cast
      ring
    · obtain ⟨j, rfl⟩ := Nat.exists_eq_add_of_le (not_lt.mp hin)
      have hstart : g.range.start + ((g.sizes.length + j : ℕ) : ℤ) = g.range.stop + j := by
        push_cast
        omega
      rw [if_neg (by omega), add_sub_cancel, hstart, ih hrest _ (by omega), List.take_length_add_append,
        List.sum_append, Int.cast_add, IRangedGroup.sum_sizes hlt, Nat.cast_add]
      ring

/-- The index found in the groups is that of the item the position lies in. -/
theorem indexAtLoop_spec (h : Chained start groups) {position size : ℚ} (hle : size ≤ position)
    (hlt : position < size + (sizes groups).sum) (index : ℤ) :
    ∃ i s, RangeMap.indexAtLoop position groups index size = index + (i : ℕ) ∧
      (sizes groups)[i]? = some s ∧ size + ((sizes groups).take i).sum ≤ position ∧
      position < size + ((sizes groups).take i).sum + s := by
  induction groups generalizing start size index with
  | nil =>
    rw [sizes_nil, List.sum_nil, Nat.cast_zero, add_zero] at hlt
    exact absurd hlt (not_lt.mpr hle)
  | cons g groups ih =>
    obtain ⟨rfl, hstop, hrest⟩ := h
    have hlength := IRangedGroup.length_sizes hstop
    have hsum : ((g.range.stop - g.range.start : ℤ) : ℚ) * g.size = g.sizes.sum := by
      rw [← IRangedGroup.sum_sizes hstop, Int.cast_mul, Int.cast_natCast]
    unfold RangeMap.indexAtLoop
    dsimp only
    rw [hsum]
    by_cases hin : position < size + g.sizes.sum
    · rw [if_pos hin]
      have hpos : (0 : ℚ) < g.size := by
        rw [← hsum] at hin
        by_contra hzero
        have hzero' : (g.size : ℚ) = 0 := le_antisymm (not_lt.mp hzero) (Nat.cast_nonneg _)
        rw [hzero', mul_zero] at hin
        linarith
      obtain ⟨i, hi⟩ : ∃ i : ℕ, ⌊(position - size) / g.size⌋ = i :=
        Int.eq_ofNat_of_zero_le (Int.floor_nonneg.mpr (div_nonneg (by linarith) hpos.le))
      obtain ⟨hfloor, hceil⟩ := Int.floor_eq_iff.mp hi
      rw [Int.cast_natCast, le_div_iff₀ hpos] at hfloor
      rw [Int.cast_natCast, div_lt_iff₀ hpos] at hceil
      have hcount : i < g.sizes.length := by
        rw [← hsum] at hin
        have hlt' : (i : ℚ) * g.size < ((g.range.stop - g.range.start : ℤ) : ℚ) * g.size := by
          linarith
        have hlt'' : ((i : ℤ) : ℚ) < ((g.range.stop - g.range.start : ℤ) : ℚ) :=
          lt_of_mul_lt_mul_right hlt' hpos.le
        rw [Int.cast_lt] at hlt''
        omega
      have htake : (((g.sizes ++ sizes groups).take i).sum : ℚ) = i * g.size := by
        rw [List.take_append_of_le_length hcount.le]
        unfold IRangedGroup.sizes at hcount ⊢
        rw [List.length_replicate] at hcount
        rw [List.take_replicate, min_eq_left hcount.le, List.sum_replicate, smul_eq_mul, Nat.cast_mul]
      refine ⟨i, g.size, by rw [hi], ?_, ?_, ?_⟩
      · rw [sizes_cons, List.getElem?_append_left hcount]
        unfold IRangedGroup.sizes at hcount ⊢
        rw [List.length_replicate] at hcount
        exact List.getElem?_replicate_of_lt hcount
      · rw [sizes_cons, htake]
        linarith
      · rw [sizes_cons, htake]
        linarith
    · rw [if_neg hin]
      rw [sizes_cons, List.sum_append, Nat.cast_add, ← add_assoc] at hlt
      obtain ⟨i, s, hindex, hget, hle', hlt'⟩ := ih hrest (not_lt.mp hin) hlt
        (index + (g.range.stop - g.range.start))
      refine ⟨g.sizes.length + i, s, ?_, ?_, ?_, ?_⟩
      · rw [hindex, Nat.cast_add, hlength, add_assoc]
      · rw [sizes_cons, List.getElem?_append_right (Nat.le_add_right ..), Nat.add_sub_cancel_left]
        exact hget
      · rw [sizes_cons, List.take_length_add_append, List.sum_append, Nat.cast_add, ← add_assoc]
        exact hle'
      · rw [sizes_cons, List.take_length_add_append, List.sum_append, Nat.cast_add, ← add_assoc]
        exact hlt'

end Groups

/-- The range map stands for a list of sizes. -/
structure Represents (m : RangeMap) (items : List ℕ) : Prop where
  chained : Chained 0 m.groups
  sizes : sizes m.groups = items
  size : m.size = m.paddingTop + items.sum

/-- What a range map answers about a list of sizes below some padding. -/
structure Agrees (m : RangeMap) (paddingTop : ℚ) (items : List ℕ) : Prop where
  count : m.count = items.length
  size : m.size = paddingTop + items.sum
  positionAt : ∀ i < items.length, m.positionAt (i : ℕ) = paddingTop + (items.take i).sum
  indexAt : ∀ p, 0 ≤ p → paddingTop ≤ p → p < m.size → ∃ (i : ℕ) (h : i < items.length),
    m.indexAt p = i ∧ m.positionAt i ≤ p ∧ p < m.positionAt i + items[i]

/-- A change of a range map by its user. -/
inductive Op
  | splice (index deleteCount : ℕ) (items : List ℕ)
  | setPaddingTop (paddingTop : ℚ)

namespace RangeMap

def step (m : RangeMap) : Op → RangeMap
  | .splice index deleteCount items => m.splice index deleteCount items
  | .setPaddingTop paddingTop => m.setPaddingTop paddingTop

def run (topPadding : ℚ) (ops : List Op) : RangeMap := ops.foldl step (new topPadding)

end RangeMap

/-- The change of the list of sizes. -/
def sizesStep (items : List ℕ) : Op → List ℕ
  | .splice index deleteCount inserted =>
    items.take index ++ inserted ++ items.drop (index + deleteCount)
  | .setPaddingTop _ => items

def paddingStep (paddingTop : ℚ) : Op → ℚ
  | .splice _ _ _ => paddingTop
  | .setPaddingTop paddingTop => paddingTop

/-- Splices start within the list. -/
def ValidFrom : List ℕ → List Op → Prop
  | _, [] => True
  | items, .splice index deleteCount inserted :: ops =>
    index ≤ items.length ∧ ValidFrom (sizesStep items (.splice index deleteCount inserted)) ops
  | items, .setPaddingTop _ :: ops => ValidFrom items ops

namespace Represents

variable {m : RangeMap} {items : List ℕ}

theorem new (topPadding : ℚ) : Represents (.new topPadding) [] where
  chained := trivial
  sizes := rfl
  size := (add_zero _).symm

theorem setPaddingTop (h : Represents m items) (paddingTop : ℚ) :
    Represents (m.setPaddingTop paddingTop) items where
  chained := h.chained
  sizes := h.sizes
  size := by
    unfold RangeMap.setPaddingTop
    dsimp only
    rw [h.size]
    ring

theorem splice (h : Represents m items) {index : ℕ} (hindex : index ≤ items.length)
    (deleteCount : ℕ) (inserted : List ℕ) :
    Represents (m.splice index deleteCount inserted)
      (items.take index ++ inserted ++ items.drop (index + deleteCount)) := by
  obtain ⟨hbefore, hbeforeSizes⟩ := groupIntersect_before h.chained le_rfl index
  obtain ⟨hafter, hafterSizes⟩ := groupIntersect_after h.chained (index + deleteCount)
  obtain ⟨hshift, hshiftSizes⟩ := shift_spec hafter (inserted.length - deleteCount)
  obtain ⟨hmiddle, hmiddleSizes⟩ := middle_spec index inserted
  rw [sub_zero, h.sizes] at hbeforeSizes hafterSizes
  have hindex' : (index : ℤ).toNat = index := Int.toNat_natCast index
  have hend : (index + deleteCount : ℤ).toNat = index + deleteCount := by omega
  rw [hindex'] at hbeforeSizes
  rw [hend] at hafterSizes
  -- the three parts follow each other
  have hall := chained_append.mpr ⟨chained_append.mpr ⟨hbefore, by
    rw [hbeforeSizes, List.length_take, min_eq_left hindex, zero_add]
    exact hmiddle⟩, by
    rw [sizes_append, hbeforeSizes, hmiddleSizes, List.length_append, List.length_take,
      min_eq_left hindex]
    convert hshift using 1
    push_cast
    omega⟩
  obtain ⟨hchained, hsizes⟩ := @consolidateLoop_spec 0 _ [] hall
  have hitems : ListView.sizes (m.splice index deleteCount inserted).groups =
      items.take index ++ inserted ++ items.drop (index + deleteCount) := by
    refine hsizes.trans ?_
    rw [List.nil_append, List.append_eq, sizes_append, sizes_append, hshiftSizes, hbeforeSizes,
      hmiddleSizes, hafterSizes]
  have hgroups : Chained 0 (m.splice index deleteCount inserted).groups := hchained
  refine ⟨hgroups, hitems, ?_⟩
  rw [← hitems, ← Int.cast_natCast, ← sum_groupSize hgroups]
  rfl

theorem step (h : Represents m items) {op : Op} {ops : List Op}
    (hvalid : ValidFrom items (op :: ops)) :
    Represents (m.step op) (sizesStep items op) ∧ ValidFrom (sizesStep items op) ops ∧
      (m.step op).paddingTop = paddingStep m.paddingTop op := by
  cases op with
  | splice index deleteCount inserted =>
    exact ⟨h.splice hvalid.1 deleteCount inserted, hvalid.2, rfl⟩
  | setPaddingTop paddingTop => exact ⟨h.setPaddingTop paddingTop, hvalid, rfl⟩

theorem positionAt_eq (h : Represents m items) {i : ℕ} (hi : i < items.length) :
    m.positionAt i = m.paddingTop + (items.take i).sum := by
  have hpos := positionAtLoop_spec h.chained m.paddingTop 0 (h.sizes.symm ▸ hi)
  rw [zero_add, h.sizes, Int.cast_zero, add_zero] at hpos
  unfold RangeMap.positionAt
  rw [if_neg (by omega), hpos]

theorem agrees (h : Represents m items) : Agrees m m.paddingTop items where
  count := by
    have hcount := getLast?_stop h.chained
    rw [zero_add, h.sizes] at hcount
    exact hcount
  size := h.size
  positionAt _ hi := h.positionAt_eq hi
  indexAt p hp hle hlt := by
    rw [h.size] at hlt
    obtain ⟨i, s, hindex, hget, hle', hlt'⟩ :=
      indexAtLoop_spec h.chained hle (h.sizes.symm ▸ hlt) 0
    rw [h.sizes] at hget hle' hlt'
    obtain ⟨hi, rfl⟩ := List.getElem?_eq_some_iff.mp hget
    refine ⟨i, hi, ?_, ?_, ?_⟩
    · unfold RangeMap.indexAt
      rw [if_neg (not_lt.mpr hp), if_neg (not_lt.mpr hle), hindex, zero_add]
    · rw [h.positionAt_eq hi]
      exact hle'
    · rw [h.positionAt_eq hi]
      exact hlt'

end Represents

theorem foldl_step {m : RangeMap} {items : List ℕ} (h : Represents m items) {ops : List Op}
    (hvalid : ValidFrom items ops) :
    Represents (ops.foldl RangeMap.step m) (ops.foldl sizesStep items) ∧
      (ops.foldl RangeMap.step m).paddingTop = ops.foldl paddingStep m.paddingTop := by
  induction ops generalizing m items with
  | nil => exact ⟨h, rfl⟩
  | cons op ops ih =>
    obtain ⟨hstep, hrest, hpadding⟩ := h.step hvalid
    rw [List.foldl_cons, List.foldl_cons, List.foldl_cons, ← hpadding]
    exact ih hstep hrest

end NexgileIde.ListView
