import NexgileIde.Edits.StringEdit

/-!
# Mapping offsets through an edit

Three loops take an offset of the base to the edited text, back again, or report
that it has been replaced. All of them accumulate how much the replacements so far
have moved the text.
-/
namespace NexgileIde.Edits

open Library

section Loops

variable {T : Type} [BaseReplacement T]

/-- The loop of `applyToOffset`. -/
def applyToOffsetLoop (originalOffset : Int) : Int → List T → Int
  | accumulatedDelta, [] => originalOffset + accumulatedDelta
  | accumulatedDelta, r :: rest =>
    if (replaceRange r).start ≤ originalOffset then
      if originalOffset < (replaceRange r).endExclusive then
        -- the offset is in the replaced range
        (replaceRange r).start + accumulatedDelta
      else
        applyToOffsetLoop originalOffset
          (accumulatedDelta + (getNewLength r - (replaceRange r).length)) rest
    else originalOffset + accumulatedDelta

def BaseEdit.applyToOffset (e : BaseEdit T) (originalOffset : Int) : Int :=
  applyToOffsetLoop originalOffset 0 e.replacements

def BaseEdit.applyToOffsetRange (e : BaseEdit T) (originalRange : OffsetRange) :
    Except BugIndicatingError OffsetRange :=
  OffsetRange.create (e.applyToOffset originalRange.start)
    (e.applyToOffset originalRange.endExclusive)

/-- The loop of `applyInverseToOffset`. -/
def applyInverseToOffsetLoop (postEditsOffset : Int) : Int → List T → Int
  | accumulatedDelta, [] => postEditsOffset - accumulatedDelta
  | accumulatedDelta, edit :: rest =>
    if (replaceRange edit).start ≤ postEditsOffset - accumulatedDelta then
      if postEditsOffset - accumulatedDelta < (replaceRange edit).start + getNewLength edit then
        -- the offset is in the replaced range
        (replaceRange edit).start
      else
        applyInverseToOffsetLoop postEditsOffset
          (accumulatedDelta + (getNewLength edit - (replaceRange edit).length)) rest
    else postEditsOffset - accumulatedDelta

def BaseEdit.applyInverseToOffset (e : BaseEdit T) (postEditsOffset : Int) : Int :=
  applyInverseToOffsetLoop postEditsOffset 0 e.replacements

/-- The loop of `applyToOffsetOrUndefined`. -/
def applyToOffsetOrUndefinedLoop (originalOffset : Int) : Int → List T → Option Int
  | accumulatedDelta, [] => some (originalOffset + accumulatedDelta)
  | accumulatedDelta, edit :: rest =>
    if (replaceRange edit).start ≤ originalOffset then
      if originalOffset < (replaceRange edit).endExclusive then
        -- the offset is in the replaced range
        none
      else
        applyToOffsetOrUndefinedLoop originalOffset
          (accumulatedDelta + (getNewLength edit - (replaceRange edit).length)) rest
    else some (originalOffset + accumulatedDelta)

def BaseEdit.applyToOffsetOrUndefined (e : BaseEdit T) (originalOffset : Int) : Option Int :=
  applyToOffsetOrUndefinedLoop originalOffset 0 e.replacements

/-- The offset is inside a replaced range. -/
def OffsetRange.contains (range : OffsetRange) (offset : Int) : Prop :=
  range.start ≤ offset ∧ offset < range.endExclusive

instance (range : OffsetRange) (offset : Int) : Decidable (range.contains offset) :=
  inferInstanceAs (Decidable (_ ∧ _))

variable {k o o' acc : Int} {rs : List T}

/-- An offset behind the replacements' lower bound stays behind its image. -/
theorem le_applyToOffsetLoop (hlen : ∀ r ∈ rs, 0 ≤ getNewLength r) (hsorted : SortedFrom k rs)
    (ho : k ≤ o) : k + acc ≤ applyToOffsetLoop o acc rs := by
  induction rs generalizing k acc with
  | nil =>
    simp only [applyToOffsetLoop]
    omega
  | cons r rs ih =>
    obtain ⟨hstart, hrest⟩ := hsorted
    have hr := hlen r (by simp)
    have htail := @ih (replaceRange r).endExclusive
      (acc + (getNewLength r - (replaceRange r).length)) (fun r' h => hlen r' (by simp [h])) hrest
    simp only [OffsetRange.length] at htail
    simp only [applyToOffsetLoop, OffsetRange.length]
    split_ifs with hbefore hinside
    · omega
    · have := htail (by omega)
      omega
    · omega

theorem applyToOffsetLoop_mono (hlen : ∀ r ∈ rs, 0 ≤ getNewLength r) (hsorted : SortedFrom k rs)
    (ho : o ≤ o') : applyToOffsetLoop o acc rs ≤ applyToOffsetLoop o' acc rs := by
  induction rs generalizing k acc with
  | nil =>
    simp only [applyToOffsetLoop]
    omega
  | cons r rs ih =>
    have hr := hlen r (by simp)
    have hrs : ∀ r' ∈ rs, 0 ≤ getNewLength r' := fun r' h => hlen r' (by simp [h])
    have htail := @ih _ (acc + (getNewLength r - (replaceRange r).length)) hrs hsorted.2
    have hbound := @le_applyToOffsetLoop _ _ _ o'
      (acc + (getNewLength r - (replaceRange r).length)) _ hrs hsorted.2
    by_cases hpast : (replaceRange r).endExclusive ≤ o'
    · specialize hbound hpast
      simp only [OffsetRange.length] at htail hbound
      simp only [applyToOffsetLoop, OffsetRange.length]
      split_ifs <;> omega
    · simp only [applyToOffsetLoop]
      split_ifs <;> omega

/-- An offset of the edited text behind the replacements' lower bound comes from behind it. -/
theorem le_applyInverseToOffsetLoop (hsorted : SortedFrom k rs) (ho : k ≤ o - acc) :
    k ≤ applyInverseToOffsetLoop o acc rs := by
  induction rs generalizing k acc with
  | nil => exact ho
  | cons r rs ih =>
    obtain ⟨hstart, hrest⟩ := hsorted
    have hle := (replaceRange r).le
    have htail := @ih (replaceRange r).endExclusive
      (acc + (getNewLength r - (replaceRange r).length)) hrest
    simp only [OffsetRange.length] at htail
    simp only [applyInverseToOffsetLoop, OffsetRange.length]
    split_ifs with hbefore hinside
    · exact hstart
    · have := htail (by omega)
      omega
    · exact ho

theorem applyInverseToOffsetLoop_mono (hsorted : SortedFrom k rs) (ho : o ≤ o') :
    applyInverseToOffsetLoop o acc rs ≤ applyInverseToOffsetLoop o' acc rs := by
  induction rs generalizing k acc with
  | nil =>
    simp only [applyInverseToOffsetLoop]
    omega
  | cons r rs ih =>
    have hle := (replaceRange r).le
    have htail := @ih _ (acc + (getNewLength r - (replaceRange r).length)) hsorted.2
    have hbound := @le_applyInverseToOffsetLoop _ _ _ o'
      (acc + (getNewLength r - (replaceRange r).length)) _ hsorted.2
    simp only [OffsetRange.length] at htail hbound
    by_cases hpast : (replaceRange r).start + getNewLength r ≤ o' - acc
    · specialize hbound (by omega)
      simp only [applyInverseToOffsetLoop, OffsetRange.length]
      split_ifs <;> omega
    · simp only [applyInverseToOffsetLoop]
      split_ifs <;> omega

theorem applyToOffsetOrUndefinedLoop_eq (hout : ∀ r ∈ rs, ¬ (replaceRange r).contains o) :
    applyToOffsetOrUndefinedLoop o acc rs = some (applyToOffsetLoop o acc rs) := by
  induction rs generalizing acc with
  | nil => rfl
  | cons r rs ih =>
    simp only [applyToOffsetOrUndefinedLoop, applyToOffsetLoop]
    split_ifs with hbefore hinside
    · exact absurd ⟨hbefore, hinside⟩ (hout r (by simp))
    · exact ih fun r' h => hout r' (by simp [h])
    · rfl

theorem applyInverseToOffsetLoop_applyToOffsetLoop (hlen : ∀ r ∈ rs, 0 ≤ getNewLength r)
    (hsorted : SortedFrom k rs) (hout : ∀ r ∈ rs, ¬ (replaceRange r).contains o) :
    applyInverseToOffsetLoop (applyToOffsetLoop o acc rs) acc rs = o := by
  induction rs generalizing k acc with
  | nil => exact Int.add_sub_cancel o acc
  | cons r rs ih =>
    have hr := hlen r (by simp)
    have hrs : ∀ r' ∈ rs, 0 ≤ getNewLength r' := fun r' h => hlen r' (by simp [h])
    have hle := (replaceRange r).le
    by_cases hbefore : (replaceRange r).start ≤ o
    · have hpast : ¬ o < (replaceRange r).endExclusive := fun h => hout r (by simp) ⟨hbefore, h⟩
      have hbound := @le_applyToOffsetLoop _ _ _ o
        (acc + (getNewLength r - (replaceRange r).length)) _ hrs hsorted.2 (by omega)
      have htail := @ih _ (acc + (getNewLength r - (replaceRange r).length)) hrs hsorted.2
        fun r' h => hout r' (by simp [h])
      simp only [OffsetRange.length] at hbound htail
      simp only [applyToOffsetLoop, if_pos hbefore, if_neg hpast, applyInverseToOffsetLoop,
        OffsetRange.length]
      rw [if_pos (by omega), if_neg (by omega)]
      exact htail
    · simp only [applyToOffsetLoop, if_neg hbefore, applyInverseToOffsetLoop]
      rw [if_neg (by omega), Int.add_sub_cancel]

end Loops

variable {T α : Type} [BaseReplacement T] [BaseStringReplacement T α]

theorem getNewLength_nonneg {T α : Type} [BaseReplacement T] [h : BaseStringReplacement T α]
    (r : T) : 0 ≤ getNewLength r := by
  rw [h.getNewLength_eq]
  exact Int.natCast_nonneg _

/-- A character that is not replaced is found at the image of its offset. -/
theorem getElem?_applyFrom {base : List α} {pos acc : Int} {o : ℕ} {rs : List T} (hpos : 0 ≤ pos)
    (hsorted : SortedFrom pos rs) (hend : ∀ r ∈ rs, (replaceRange r).endExclusive ≤ base.length)
    (hpo : pos ≤ o) (ho : o < base.length) (hout : ∀ r ∈ rs, ¬ (replaceRange r).contains o) :
    (BaseStringEdit.applyFrom base pos rs)[(applyToOffsetLoop o acc rs - acc - pos).toNat]? =
      base[o]? := by
  induction rs generalizing pos acc with
  | nil =>
    have hidx : pos.toNat + (o + acc - acc - pos).toNat = o := by omega
    simp only [BaseStringEdit.applyFrom, Text.substringFrom, applyToOffsetLoop, List.getElem?_drop,
      hidx]
  | cons r rs ih =>
    obtain ⟨hstart, hrest⟩ := hsorted
    have hle := (replaceRange r).le
    have hr := hend r (by simp)
    have hlen : (Text.substring base pos (replaceRange r).start).length =
        ((replaceRange r).start - pos).toNat := by
      simp only [Text.substring, List.length_take, List.length_drop]
      omega
    by_cases hbefore : (replaceRange r).start ≤ o
    · have hpast : ¬ o < (replaceRange r).endExclusive := fun h => hout r (by simp) ⟨hbefore, h⟩
      have htail := @ih (replaceRange r).endExclusive
        (acc + (getNewLength r - (replaceRange r).length)) (by omega) hrest
        (fun r' h => hend r' (by simp [h])) (by omega) fun r' h => hout r' (by simp [h])
      have hbound := @le_applyToOffsetLoop _ _ _ (o : Int)
        (acc + (getNewLength r - (replaceRange r).length)) _
        (fun r' _ => getNewLength_nonneg r') hrest (by omega)
      have htext := BaseStringReplacement.getNewLength_eq r
      simp only [applyToOffsetLoop, if_pos hbefore, if_neg hpast, BaseStringEdit.applyFrom]
      simp only [OffsetRange.length] at htail hbound ⊢
      generalize applyToOffsetLoop (o : ℤ) _ rs = mapped at htail hbound ⊢
      have hfront : (Text.substring base pos (replaceRange r).start ++ newText r).length =
          ((replaceRange r).start - pos).toNat + (newText r).length := by
        rw [List.length_append, hlen]
      clear hout hrest hend ih hr hlen
      rw [List.getElem?_append_right (by rw [hfront]; omega), ← htail]
      congr 1
      rw [hfront]
      omega
    · simp only [applyToOffsetLoop, if_neg hbefore, BaseStringEdit.applyFrom, List.append_assoc]
      rw [List.getElem?_append_left (by rw [hlen]; omega)]
      simp only [Text.substring, List.getElem?_take, List.getElem?_drop]
      rw [if_pos (by omega)]
      congr 1
      omega

/-- Offsets are mapped in order in both directions. One that is not replaced keeps its
character, is found again from its image, and is never reported as replaced. -/
theorem BaseEdit.applyToOffset_follows (e : BaseEdit T) :
    (∀ o o', o ≤ o' → e.applyToOffset o ≤ e.applyToOffset o') ∧
      (∀ range, ∃ range', e.applyToOffsetRange range = .ok range') ∧
      (∀ o o', o ≤ o' → e.applyInverseToOffset o ≤ e.applyInverseToOffset o') ∧
      ∀ o, (∀ r ∈ e.replacements, ¬ (replaceRange r).contains o) →
        e.applyInverseToOffset (e.applyToOffset o) = o ∧
        e.applyToOffsetOrUndefined o = some (e.applyToOffset o) ∧
        ∀ base : List α, e.Inside base.length → 0 ≤ o → o < base.length →
          0 ≤ e.applyToOffset o ∧
          (BaseStringEdit.apply e base)[(e.applyToOffset o).toNat]? = base[o.toNat]? := by
  have hsorted := checkSorted_eq_ok.mp e.sorted
  have hlen : ∀ r ∈ e.replacements, 0 ≤ getNewLength r := fun r _ => getNewLength_nonneg r
  have hmono : ∀ o o', o ≤ o' → e.applyToOffset o ≤ e.applyToOffset o' :=
    fun o o' ho => applyToOffsetLoop_mono hlen hsorted ho
  refine ⟨hmono, fun range => ⟨_, OffsetRange.create_of_le (hmono _ _ range.le)⟩,
    fun o o' ho => applyInverseToOffsetLoop_mono hsorted ho, fun o hout => ⟨?_, ?_, ?_⟩⟩
  · exact applyInverseToOffsetLoop_applyToOffsetLoop hlen hsorted hout
  · exact applyToOffsetOrUndefinedLoop_eq hout
  · intro base hinside ho hob
    have hsorted0 : SortedFrom 0 e.replacements := by
      cases hr : e.replacements with
      | nil => trivial
      | cons r rs =>
        rw [hr] at hsorted
        exact ⟨(hinside r (by simp [hr])).1, hsorted.2⟩
    lift o to ℕ using ho
    have hbound := @le_applyToOffsetLoop _ _ _ (o : Int) 0 _ hlen hsorted0 (by omega)
    have hchar := @getElem?_applyFrom _ _ _ _ base 0 0 o _ le_rfl hsorted0
      (fun r hr => (hinside r hr).2) (by omega) (by omega) hout
    simp only [sub_zero] at hchar
    exact ⟨hbound, hchar⟩

/-- `abc` with `b` replaced by `xy`: `c` moves from offset 2 to offset 3. -/
theorem BaseEdit.applyToOffset_follows_behind :
    ∃ e : StringEdit, e.applyToOffset 2 = 3 ∧ e.applyInverseToOffset 3 = 2 ∧
      (BaseStringEdit.apply e [97, 98, 99])[3]? = some 99 := by
  let e : StringEdit := ⟨[⟨⟨1, 2, by decide⟩, [120, 121]⟩], rfl⟩
  have hfollows := (BaseEdit.applyToOffset_follows e).2.2.2 2 (by decide)
  have hoffset : e.applyToOffset 2 = 3 := rfl
  refine ⟨e, hoffset, by simpa [hoffset] using hfollows.1, ?_⟩
  have hchar := (hfollows.2.2 [97, 98, 99] (by intro r; simp [e]; rintro rfl; decide) (by decide)
    (by decide)).2
  rw [hoffset] at hchar
  simpa using hchar

end NexgileIde.Edits
