import NexgileIde.Edits.OffsetMapping
import NexgileIde.Edits.StringEditRebase

/-!
# Tracking ranges through an edit

Sorted ranges are kept in a queue whose offsets still lack the accumulated delta.
Ranges that a replacement meets are cut, extended and put back, so they may meet
later replacements again. Behind the replacement it has been put back by, a range
contains what it contained before; what has been passed is not touched any more.
-/
namespace NexgileIde.Edits

open Text Library

namespace OffsetRange

def deltaEnd (r : OffsetRange) (offset : Int) : Except BugIndicatingError OffsetRange :=
  create r.start (r.endExclusive + offset)

def intersect (r other : OffsetRange) : Option OffsetRange :=
  if h : max r.start other.start ≤ min r.endExclusive other.endExclusive then
    some ⟨max r.start other.start, min r.endExclusive other.endExclusive, h⟩
  else none

def intersectsOrTouches (r other : OffsetRange) : Bool :=
  max r.start other.start ≤ min r.endExclusive other.endExclusive

end OffsetRange

/-- What `applyEditsToRanges` may throw. -/
inductive RangeTrackingError
  | bug (error : BugIndicatingError)
  /-- `intersect` returned `undefined` -/
  | undefinedIntersection
  deriving DecidableEq, Repr

/-- The body of the loop over the intersecting ranges; `isFirst` is `i === 0`. -/
def adjustRange (e : StringReplacement) (isFirst : Bool) (r : OffsetRange) :
    Except RangeTrackingError OffsetRange :=
  match r.intersect e.replaceRange with
  | none => .error .undefinedIntersection
  | some overlap =>
    match r.deltaEnd (-overlap.length + if isFirst then (e.newText.length : Int) else 0) with
    | .error error => .error (.bug error)
    | .ok r =>
      let rangeAheadOfReplaceRange := r.start - e.replaceRange.start
      let r := if rangeAheadOfReplaceRange > 0 then r.delta (-rangeAheadOfReplaceRange) else r
      let r := if isFirst then r else r.delta e.newText.length
      -- the offset is added again when the range leaves the queue
      .ok (r.delta (-(e.newText.length - e.replaceRange.length)))

def adjustRanges (e : StringReplacement) : List OffsetRange →
    Except RangeTrackingError (List OffsetRange)
  | [] => .ok []
  | first :: others => do
    let others ← others.mapM (adjustRange e false)
    let first ← adjustRange e true first
    return first :: others

/-- The loop over the replacements. -/
def applyEditsToRangesLoop (result : List OffsetRange) (offset : Int)
    (sortedRanges : List OffsetRange) :
    List StringReplacement → Except RangeTrackingError (List OffsetRange)
  | [] => .ok (result ++ sortedRanges.map (·.delta offset))
  | e :: rest => do
    -- ranges before the current edit
    let before := sortedRanges.takeWhile (·.endExclusive < e.replaceRange.start)
    let remaining := sortedRanges.dropWhile (·.endExclusive < e.replaceRange.start)
    let intersecting := remaining.takeWhile (·.intersectsOrTouches e.replaceRange)
    let behind := remaining.dropWhile (·.intersectsOrTouches e.replaceRange)
    let adjusted ← adjustRanges e intersecting
    applyEditsToRangesLoop (result ++ before.map (·.delta offset))
      (offset + (e.newText.length - e.replaceRange.length)) (adjusted ++ behind) rest

def applyEditsToRanges (sortedRanges : List OffsetRange) (edit : StringEdit) :
    Except RangeTrackingError (List OffsetRange) :=
  applyEditsToRangesLoop [] 0 sortedRanges edit.replacements

/-- Sorted ranges that share no offset, from `k` to `n`. -/
def RangesFit : Int → Int → List OffsetRange → Prop
  | k, n, [] => k ≤ n
  | k, n, r :: rs => k ≤ r.start ∧ RangesFit r.endExclusive n rs

instance RangesFit.decidable : (k n : Int) → (rs : List OffsetRange) → Decidable (RangesFit k n rs)
  | k, n, [] => inferInstanceAs (Decidable (k ≤ n))
  | k, n, r :: rs =>
    have := RangesFit.decidable r.endExclusive n rs
    inferInstanceAs (Decidable (k ≤ r.start ∧ RangesFit r.endExclusive n rs))

variable {k m n s t T D : Int} {rs rs' queue : List OffsetRange}

theorem RangesFit.le (h : RangesFit k n rs) : k ≤ n := by
  induction rs generalizing k with
  | nil => exact h
  | cons r rs ih => exact h.1.trans (r.le.trans (ih h.2))

theorem RangesFit.mono_left (h : RangesFit k n rs) (hm : m ≤ k) : RangesFit m n rs := by
  cases rs with
  | nil => exact hm.trans h
  | cons r rs => exact ⟨hm.trans h.1, h.2⟩

theorem RangesFit.mem (h : RangesFit k n rs) {r : OffsetRange} (hr : r ∈ rs) :
    k ≤ r.start ∧ r.endExclusive ≤ n := by
  induction rs generalizing k with
  | nil => cases hr
  | cons r' rs ih =>
    rcases List.mem_cons.mp hr with rfl | hr
    · exact ⟨h.1, h.2.le⟩
    · have hmem := ih h.2 hr
      exact ⟨h.1.trans (r'.le.trans hmem.1), hmem.2⟩

theorem rangesFit_append :
    RangesFit k n (rs ++ rs') ↔ ∃ m, RangesFit k m rs ∧ RangesFit m n rs' := by
  induction rs generalizing k with
  | nil =>
    constructor
    · exact fun h => ⟨k, le_refl k, h⟩
    · rintro ⟨m, hm, h⟩
      exact h.mono_left hm
  | cons r rs ih =>
    constructor
    · rintro ⟨hstart, h⟩
      obtain ⟨m, hm, hrest⟩ := ih.mp h
      exact ⟨m, ⟨hstart, hm⟩, hrest⟩
    · rintro ⟨m, ⟨hstart, hm⟩, hrest⟩
      exact ⟨hstart, ih.mpr ⟨m, hm, hrest⟩⟩

/-- The upper bound can be lowered to one of all ends. -/
theorem RangesFit.lower (h : RangesFit k n rs) (hk : k ≤ m) (hm : ∀ r ∈ rs, r.endExclusive ≤ m) :
    RangesFit k m rs := by
  induction rs generalizing k with
  | nil => exact hk
  | cons r rs ih => exact ⟨h.1, ih h.2 (hm r (by simp)) fun r' hr' => hm r' (by simp [hr'])⟩

theorem RangesFit.delta (h : RangesFit k n rs) (d : Int) :
    RangesFit (k + d) (n + d) (rs.map (·.delta d)) := by
  induction rs generalizing k with
  | nil =>
    have hle : k ≤ n := h
    show k + d ≤ n + d
    omega
  | cons r rs ih =>
    refine ⟨?_, ih h.2⟩
    have hstart := h.1
    show k + d ≤ r.start + d
    omega

/-- How the loop divides the queue at a replacement of `[s, t)`. -/
structure Divided (s t : Int) (queue before intersecting behind : List OffsetRange) : Prop where
  queue : queue = before ++ (intersecting ++ behind)
  before : ∀ r ∈ before, r.endExclusive < s
  intersecting : ∀ r ∈ intersecting, r.start ≤ t ∧ s ≤ r.endExclusive
  behind : ∀ r ∈ behind, t < r.start

theorem divided (range : OffsetRange) (h : RangesFit k n queue) :
    Divided range.start range.endExclusive queue
      (queue.takeWhile (·.endExclusive < range.start))
      ((queue.dropWhile (·.endExclusive < range.start)).takeWhile (·.intersectsOrTouches range))
      ((queue.dropWhile (·.endExclusive < range.start)).dropWhile
        (·.intersectsOrTouches range)) := by
  have hrange := range.le
  have htouch : ∀ r : OffsetRange, r.intersectsOrTouches range = true ↔
      r.start ≤ range.endExclusive ∧ range.start ≤ r.endExclusive := by
    intro r
    have hr := r.le
    simp only [OffsetRange.intersectsOrTouches, decide_eq_true_eq]
    omega
  have hdiv := List.takeWhile_append_dropWhile (p := fun r : OffsetRange =>
    decide (r.endExclusive < range.start)) (l := queue)
  have hdiv' := List.takeWhile_append_dropWhile (p := fun r : OffsetRange =>
    r.intersectsOrTouches range)
    (l := queue.dropWhile fun r => decide (r.endExclusive < range.start))
  have hfits := h
  rw [← hdiv, rangesFit_append] at hfits
  obtain ⟨m, -, hremaining⟩ := hfits
  have hnot := List.head?_dropWhile_not (fun r : OffsetRange =>
    decide (r.endExclusive < range.start)) queue
  have hnot' := List.head?_dropWhile_not (fun r : OffsetRange => r.intersectsOrTouches range)
    (queue.dropWhile fun r => decide (r.endExclusive < range.start))
  -- everything that remains ends behind the start of the replacement
  have hend : ∀ r ∈ queue.dropWhile (fun r => decide (r.endExclusive < range.start)),
      range.start ≤ r.endExclusive := by
    intro r hr
    cases hrem : queue.dropWhile fun r => decide (r.endExclusive < range.start) with
    | nil => simp [hrem] at hr
    | cons r' rest =>
      simp only [hrem, List.head?_cons, decide_eq_false_iff_not, not_lt] at hnot
      rw [hrem] at hr hremaining
      rcases List.mem_cons.mp hr with rfl | hr
      · exact hnot
      · exact hnot.trans ((hremaining.2.mem hr).1.trans r.le)
  refine ⟨by rw [hdiv', hdiv], fun r hr => ?_, fun r hr => ?_, fun r hr => ?_⟩
  · simpa using List.mem_takeWhile_imp hr
  · exact (htouch r).mp (List.mem_takeWhile_imp
      (p := fun r : OffsetRange => r.intersectsOrTouches range) hr)
  · have hfits' := hremaining
    rw [← hdiv', rangesFit_append] at hfits'
    obtain ⟨m', -, hbehind⟩ := hfits'
    cases hrem : (queue.dropWhile fun r => decide (r.endExclusive < range.start)).dropWhile
        fun r => r.intersectsOrTouches range with
    | nil => simp [hrem] at hr
    | cons r' rest =>
      have hr' : r' ∈ queue.dropWhile fun r => decide (r.endExclusive < range.start) :=
        List.dropWhile_suffix _ |>.subset (by rw [hrem]; simp)
      simp only [hrem, List.head?_cons] at hnot'
      have hstart : range.endExclusive < r'.start := by
        by_contra hle
        rw [(htouch r').mpr ⟨by omega, hend r' hr'⟩] at hnot'
        cases hnot'
      rw [hrem] at hr hbehind
      rcases List.mem_cons.mp hr with rfl | hr
      · exact hstart
      · exact hstart.trans_le (r'.le.trans (hbehind.2.mem hr).1)

/-- The first range is extended by the new text; its start keeps its place. -/
theorem adjustRange_first {e : StringReplacement} {r : OffsetRange}
    (h : r.start ≤ e.replaceRange.endExclusive ∧ e.replaceRange.start ≤ r.endExclusive) :
    ∃ r', adjustRange e true r = .ok r' ∧
      r'.start = min r.start e.replaceRange.start -
        (e.newText.length - e.replaceRange.length) ∧
      r'.endExclusive = max r.endExclusive e.replaceRange.endExclusive := by
  have hr := r.le
  have he := e.replaceRange.le
  have hmeet : max r.start e.replaceRange.start ≤
      min r.endExclusive e.replaceRange.endExclusive := by omega
  have hcut : r.start ≤ r.endExclusive + (-(min r.endExclusive e.replaceRange.endExclusive -
      max r.start e.replaceRange.start) + e.newText.length) := by omega
  simp only [adjustRange, OffsetRange.intersect, dif_pos hmeet, OffsetRange.deltaEnd,
    OffsetRange.length, if_pos, OffsetRange.create_of_le hcut]
  refine ⟨_, rfl, ?_, ?_⟩
  · split_ifs <;> simp only [OffsetRange.delta_start] <;> omega
  · split_ifs <;> simp only [OffsetRange.delta_endExclusive] <;> omega

/-- Another range starts behind the new text. -/
theorem adjustRange_other {e : StringReplacement} {r : OffsetRange}
    (h : r.start ≤ e.replaceRange.endExclusive ∧ e.replaceRange.start ≤ r.endExclusive)
    (hstart : e.replaceRange.start ≤ r.start) :
    ∃ r', adjustRange e false r = .ok r' ∧ r'.start = e.replaceRange.endExclusive ∧
      r'.endExclusive = max r.endExclusive e.replaceRange.endExclusive := by
  have hr := r.le
  have he := e.replaceRange.le
  have hmeet : max r.start e.replaceRange.start ≤
      min r.endExclusive e.replaceRange.endExclusive := by omega
  have hcut : r.start ≤ r.endExclusive + (-(min r.endExclusive e.replaceRange.endExclusive -
      max r.start e.replaceRange.start) + 0) := by omega
  simp only [adjustRange, OffsetRange.intersect, dif_pos hmeet, OffsetRange.deltaEnd,
    OffsetRange.length, OffsetRange.create_of_le hcut, Bool.false_eq_true, if_false]
  refine ⟨_, rfl, ?_, ?_⟩
  · split_ifs <;> simp only [OffsetRange.delta_start] <;> omega
  · split_ifs <;> simp only [OffsetRange.delta_endExclusive] <;> omega

/-- A range `out` of the result follows the range `q` of the queue: it has the images of
what `q` has ahead, and what is passed already stays. -/
structure Tracks (T D : Int) (es : List StringReplacement) (q out : OffsetRange) : Prop where
  ahead : ∀ o, T ≤ o → (∀ e ∈ es, ¬ e.replaceRange.contains o) →
    (out.contains (applyToOffsetLoop o D es) ↔ q.contains o)
  passed : ∀ p, p < T + D → (out.contains p ↔ (q.delta D).contains p)

theorem tracks_delta (T D : Int) (q : OffsetRange) : Tracks T D [] q (q.delta D) where
  ahead o _ _ := by
    simp only [applyToOffsetLoop, OffsetRange.contains, OffsetRange.delta_start,
      OffsetRange.delta_endExclusive]
    omega
  passed _ _ := Iff.rfl

section Step

variable {e : StringReplacement} {es : List StringReplacement}

/-- Offsets ahead of a replacement are those before it and those behind it. -/
theorem Tracks.of_cases {q out : OffsetRange}
    (hgap : ∀ o, T ≤ o → o < e.replaceRange.start → (out.contains (o + D) ↔ q.contains o))
    (hbehind : ∀ o, e.replaceRange.endExclusive ≤ o →
      (∀ e' ∈ es, ¬ e'.replaceRange.contains o) →
      (out.contains (applyToOffsetLoop o (D + (e.newText.length - e.replaceRange.length)) es) ↔
        q.contains o))
    (hpassed : ∀ p, p < T + D → (out.contains p ↔ (q.delta D).contains p)) :
    Tracks T D (e :: es) q out where
  ahead o ho hout := by
    simp only [applyToOffsetLoop, replaceRange_eq, getNewLength_eq]
    have hnot := hout e (by simp)
    simp only [OffsetRange.contains, not_and, not_lt] at hnot
    split_ifs with hstart hinside
    · have := hnot hstart
      omega
    · exact hbehind o (hnot hstart) fun e' he' => hout e' (by simp [he'])
    · exact hgap o ho (by omega)
  passed := hpassed

/-- A range that ends before the replacement leaves the queue. -/
theorem tracks_before {q : OffsetRange} (hfits : Patch.Fits T n (patches (e :: es)))
    (hq : q.endExclusive < e.replaceRange.start) : Tracks T D (e :: es) q (q.delta D) := by
  have hle := q.le
  refine .of_cases (fun o _ ho => ?_) (fun o ho hes => ?_) fun p _ => Iff.rfl
  · simp only [OffsetRange.contains, OffsetRange.delta_start, OffsetRange.delta_endExclusive]
    omega
  · have he := e.replaceRange.le
    have hrest : SortedFrom e.replaceRange.endExclusive es := sortedFrom_of_fits hfits.2.2
    have himage := @le_applyToOffsetLoop _ _ _ o
      (D + (e.newText.length - e.replaceRange.length)) _ (fun r _ => getNewLength_nonneg r) hrest ho
    simp only [OffsetRange.length] at himage
    simp only [OffsetRange.contains, OffsetRange.delta_start, OffsetRange.delta_endExclusive,
      OffsetRange.length]
    omega

/-- The first range the replacement meets has been put back as `q'`. -/
theorem tracks_first {q q' out : OffsetRange} (hfits : Patch.Fits T n (patches (e :: es)))
    (hq : q.start ≤ e.replaceRange.endExclusive ∧ e.replaceRange.start ≤ q.endExclusive)
    (hstart : q'.start = min q.start e.replaceRange.start -
      (e.newText.length - e.replaceRange.length))
    (hend : q'.endExclusive = max q.endExclusive e.replaceRange.endExclusive)
    (h : Tracks e.replaceRange.endExclusive (D + (e.newText.length - e.replaceRange.length))
      es q' out) : Tracks T D (e :: es) q out := by
  have hT : T ≤ e.replaceRange.start := hfits.1
  have hpassed := h.passed
  simp only [OffsetRange.length, OffsetRange.contains, OffsetRange.delta_start,
    OffsetRange.delta_endExclusive] at hstart hpassed
  refine .of_cases (fun o _ ho => ?_) (fun o ho hes => ?_) fun p hp => ?_
  · simp only [OffsetRange.contains, hpassed (o + D) (by omega)]
    omega
  · rw [h.ahead o ho hes]
    have hle := e.replaceRange.le
    simp only [OffsetRange.contains]
    omega
  · simp only [OffsetRange.contains, hpassed p (by omega), OffsetRange.delta_start,
      OffsetRange.delta_endExclusive]
    omega

/-- Another range the replacement meets has been put back as `q'`. -/
theorem tracks_other {q q' out : OffsetRange} (hfits : Patch.Fits T n (patches (e :: es)))
    (hq : q.start ≤ e.replaceRange.endExclusive ∧ e.replaceRange.start ≤ q.start)
    (hstart : q'.start = e.replaceRange.endExclusive)
    (hend : q'.endExclusive = max q.endExclusive e.replaceRange.endExclusive)
    (h : Tracks e.replaceRange.endExclusive (D + (e.newText.length - e.replaceRange.length))
      es q' out) : Tracks T D (e :: es) q out := by
  have hT : T ≤ e.replaceRange.start := hfits.1
  have hle := q.le
  have hpassed := h.passed
  simp only [OffsetRange.length, OffsetRange.contains, OffsetRange.delta_start,
    OffsetRange.delta_endExclusive] at hpassed
  refine .of_cases (fun o _ ho => ?_) (fun o ho hes => ?_) fun p hp => ?_
  · simp only [OffsetRange.contains, hpassed (o + D) (by omega)]
    omega
  · rw [h.ahead o ho hes]
    simp only [OffsetRange.contains]
    omega
  · simp only [OffsetRange.contains, hpassed p (by omega), OffsetRange.delta_start,
      OffsetRange.delta_endExclusive]
    omega

/-- A range behind the replacement stays in the queue. -/
theorem tracks_behind {q out : OffsetRange} (hfits : Patch.Fits T n (patches (e :: es)))
    (hq : e.replaceRange.endExclusive < q.start)
    (h : Tracks e.replaceRange.endExclusive (D + (e.newText.length - e.replaceRange.length))
      es q out) : Tracks T D (e :: es) q out := by
  have hT : T ≤ e.replaceRange.start := hfits.1
  have hle := q.le
  have he := e.replaceRange.le
  have hpassed := h.passed
  simp only [OffsetRange.length, OffsetRange.contains, OffsetRange.delta_start,
    OffsetRange.delta_endExclusive] at hpassed
  refine .of_cases (fun o _ ho => ?_) (fun o ho hes => h.ahead o ho hes) fun p hp => ?_
  · simp only [OffsetRange.contains, hpassed (o + D) (by omega)]
    omega
  · simp only [OffsetRange.contains, hpassed p (by omega), OffsetRange.delta_start,
      OffsetRange.delta_endExclusive]
    omega

/-- The other ranges that a replacement meets, put back in their order. -/
theorem adjustRange_others {k : Int} {others behind : List OffsetRange}
    (hfits : RangesFit k n (others ++ behind)) (hk : e.replaceRange.start ≤ k)
    (hothers : ∀ r ∈ others, r.start ≤ e.replaceRange.endExclusive ∧
      e.replaceRange.start ≤ r.endExclusive)
    (hbehind : ∀ r ∈ behind, e.replaceRange.endExclusive < r.start)
    (hn : e.replaceRange.endExclusive ≤ n) :
    ∃ adjusted, others.mapM (adjustRange e false) = .ok adjusted ∧
      RangesFit (max k e.replaceRange.endExclusive) n (adjusted ++ behind) ∧
      List.Forall₂ (fun q q' => q.start ≤ e.replaceRange.endExclusive ∧
        e.replaceRange.start ≤ q.start ∧ q'.start = e.replaceRange.endExclusive ∧
        q'.endExclusive = max q.endExclusive e.replaceRange.endExclusive) others adjusted := by
  induction others generalizing k with
  | nil =>
    refine ⟨[], rfl, ?_, .nil⟩
    cases behind with
    | nil =>
      have hle : k ≤ n := hfits
      show max k e.replaceRange.endExclusive ≤ n
      omega
    | cons b behind =>
      have hb := hbehind b (by simp)
      exact ⟨by have := hfits.1; omega, hfits.2⟩
  | cons r others ih =>
    obtain ⟨hstart, hrest⟩ := hfits
    have hr := hothers r (by simp)
    obtain ⟨r', hr', hs', he'⟩ := adjustRange_other hr (hk.trans hstart)
    obtain ⟨adjusted, hok, hadjusted, hforall⟩ := ih hrest (hk.trans (hstart.trans r.le))
      fun r hr => hothers r (by simp [hr])
    refine ⟨r' :: adjusted, ?_, ⟨?_, ?_⟩, .cons ⟨hr.1, hk.trans hstart, hs', he'⟩ hforall⟩
    · simp [List.mapM_cons, hr', hok, bind, Except.bind, pure, Except.pure]
    · rw [hs']
      omega
    · rwa [he']

/-- All ranges that a replacement meets are put back in their order. -/
theorem adjustRanges_spec {m : Int} {intersecting behind : List OffsetRange}
    (hfits : RangesFit m n (intersecting ++ behind)) (hm : m ≤ e.replaceRange.start)
    (hinter : ∀ r ∈ intersecting, r.start ≤ e.replaceRange.endExclusive ∧
      e.replaceRange.start ≤ r.endExclusive)
    (hbehind : ∀ r ∈ behind, e.replaceRange.endExclusive < r.start)
    (hes : Patch.Fits e.replaceRange.endExclusive n (patches es))
    (hT : T ≤ e.replaceRange.start) (D : Int) :
    ∃ adjusted, adjustRanges e intersecting = .ok adjusted ∧
      RangesFit (m - (e.newText.length - e.replaceRange.length)) n (adjusted ++ behind) ∧
      List.Forall₂ (fun q q' => ∀ out, Tracks e.replaceRange.endExclusive
          (D + (e.newText.length - e.replaceRange.length)) es q' out →
        Tracks T D (e :: es) q out) intersecting adjusted := by
  have hle := e.replaceRange.le
  have hn := hes.le
  have hpatches : Patch.Fits T n (patches (e :: es)) := ⟨hT, hle, hes⟩
  cases intersecting with
  | nil =>
    refine ⟨[], rfl, ?_, .nil⟩
    simp only [OffsetRange.length]
    cases behind with
    | nil =>
      show m - _ ≤ n
      omega
    | cons b behind =>
      have hb := hbehind b (by simp)
      exact ⟨by omega, hfits.2⟩
  | cons first others =>
    obtain ⟨hstart, hrest⟩ := hfits
    have hfirst := hinter first (by simp)
    obtain ⟨first', hok, hs', he'⟩ := adjustRange_first hfirst
    obtain ⟨adjusted, hoks, hadjusted, hforall⟩ := adjustRange_others hrest hfirst.2
      (fun r hr => hinter r (by simp [hr])) hbehind hn
    refine ⟨first' :: adjusted, ?_, ⟨?_, ?_⟩, .cons ?_ ?_⟩
    · simp [adjustRanges, hok, hoks, bind, Except.bind, pure, Except.pure]
    · omega
    · rwa [he']
    · exact fun out h => tracks_first hpatches hfirst hs' he' h
    · refine hforall.imp fun q q' hmoved out h => ?_
      obtain ⟨h1, h2, h3, h4⟩ := hmoved
      exact tracks_other hpatches ⟨h1, h2⟩ h3 h4 h

end Step

theorem forall₂_step {α β γ : Type*} {R : α → β → Prop} {S : β → γ → Prop} {P : α → γ → Prop}
    {as : List α} {bs : List β} {cs : List γ} (hR : List.Forall₂ R as bs)
    (hS : List.Forall₂ S bs cs) (h : ∀ a b c, R a b → S b c → P a c) : List.Forall₂ P as cs := by
  induction hR generalizing cs with
  | nil =>
    cases hS
    exact .nil
  | cons hab _ ih =>
    cases hS with
    | cons hbc hS => exact .cons (h _ _ _ hab hbc) (ih hS)

/-- The loop returns one range for each range of the queue, in order, and each follows it. -/
theorem applyEditsToRangesLoop_spec {es : List StringReplacement} {Y : Int}
    (result : List OffsetRange) (hes : Patch.Fits T n (patches es))
    (hqueue : RangesFit (Y - D) n queue) (hY : Y ≤ T + D) :
    ∃ out, applyEditsToRangesLoop result D queue es = .ok (result ++ out) ∧
      RangesFit Y (n + D + Patch.growth (patches es)) out ∧
      List.Forall₂ (Tracks T D es) queue out := by
  induction es generalizing T D Y queue result with
  | nil =>
    refine ⟨queue.map (·.delta D), rfl, ?_, ?_⟩
    · have hdelta := hqueue.delta D
      simpa [Patch.growth] using hdelta
    · rw [List.forall₂_map_right_iff]
      exact List.forall₂_same.mpr fun q _ => tracks_delta T D q
  | cons e es ih =>
    obtain ⟨hT, hle, hrest⟩ := hes
    simp only [StringReplacement.toPatch_start, StringReplacement.toPatch_stop] at hT hle hrest
    have hdiv := divided e.replaceRange hqueue
    unfold applyEditsToRangesLoop
    simp only
    generalize queue.takeWhile _ = before at hdiv ⊢
    generalize (queue.dropWhile _).takeWhile _ = intersecting at hdiv ⊢
    generalize (queue.dropWhile _).dropWhile _ = behind at hdiv ⊢
    obtain ⟨rfl, hbefore, hinter, hbehind⟩ := hdiv
    obtain ⟨m₀, hfirst, hremaining⟩ := rangesFit_append.mp hqueue
    set m := min m₀ e.replaceRange.start with hm
    have hm₀ := hfirst.le
    have hbeforeFits : RangesFit (Y - D) m before := hfirst.lower (by omega) fun r hr => by
      have := hbefore r hr
      have := (hfirst.mem hr).2
      omega
    have hremainingFits := hremaining.mono_left (show m ≤ m₀ by omega)
    obtain ⟨adjusted, hok, hadjusted, hsteps⟩ := adjustRanges_spec hremainingFits (by omega) hinter
      hbehind hrest hT D
    have hdelta : m - (e.newText.length - e.replaceRange.length : Int) =
        m + D - (D + (e.newText.length - e.replaceRange.length)) := by omega
    rw [hdelta] at hadjusted
    obtain ⟨out, hloop, hout, htracks⟩ := ih (result ++ before.map (·.delta D)) hrest hadjusted
      (by simp only [OffsetRange.length]; omega)
    refine ⟨before.map (·.delta D) ++ out, ?_, ?_, ?_⟩
    · simp only [hok, bind, Except.bind]
      rw [hloop, List.append_assoc]
    · have hgrowth : n + D + Patch.growth (patches (e :: es)) =
          n + (D + (e.newText.length - e.replaceRange.length)) + Patch.growth (patches es) := by
        simp only [patches_cons, Patch.growth, StringReplacement.toPatch_text,
          StringReplacement.toPatch_start, StringReplacement.toPatch_stop, OffsetRange.length]
        omega
      have hbeforeDelta := hbeforeFits.delta D
      rw [sub_add_cancel] at hbeforeDelta
      rw [hgrowth]
      exact rangesFit_append.mpr ⟨_, hbeforeDelta, hout⟩
    · have hpatches : Patch.Fits T n (patches (e :: es)) := ⟨hT, hle, hrest⟩
      refine List.rel_append ?_ ?_
      · rw [List.forall₂_map_right_iff]
        exact List.forall₂_same.mpr fun q hq => tracks_before hpatches (hbefore q hq)
      · refine forall₂_step (List.rel_append hsteps (List.forall₂_same.mpr fun q hq => ?_)) htracks
          fun q q' out' hstep h => hstep out' h
        exact fun out' h => tracks_behind hpatches (hbehind q hq) h

/-- Ranges are tracked through an edit one by one: none is lost, they stay sorted and
disjoint and fit into the edited text, and keep exactly what is not replaced. -/
theorem applyEditsToRanges_tracks (base : Str) (edit : StringEdit) (ranges : List OffsetRange)
    (hedit : edit.Within base.length) (hranges : RangesFit 0 base.length ranges) :
    ∃ out, applyEditsToRanges ranges edit = .ok out ∧ out.length = ranges.length ∧
      RangesFit 0 (edit.apply base).length out ∧
      ∀ (i : ℕ) (range image : OffsetRange), ranges[i]? = some range → out[i]? = some image →
        ∀ o : Int, 0 ≤ o → o < base.length →
          (∀ r ∈ edit.replacements, ¬ r.replaceRange.contains o) →
          (image.contains (edit.applyToOffset o) ↔ range.contains o) := by
  have hfits := hedit.fits
  obtain ⟨out, hok, hout, htracks⟩ := applyEditsToRangesLoop_spec (D := 0) (Y := 0) [] hfits
    (by simpa using hranges) le_rfl
  have hlength := Patch.length_run (k := 0) (t := base) (by rw [zero_add]; exact hfits)
  rw [← hedit.apply_eq_run] at hlength
  refine ⟨out, hok, htracks.length_eq.symm, ?_, fun i range image hi hi' o ho _ hkept => ?_⟩
  · rw [hlength]
    simpa using hout
  · obtain ⟨hlt, rfl⟩ := List.getElem?_eq_some_iff.mp hi
    obtain ⟨hlt', rfl⟩ := List.getElem?_eq_some_iff.mp hi'
    exact (htracks.get hlt hlt').ahead o ho hkept

/-- `cd` of `abcdef` is replaced by `x`: the range before it is extended by the new text,
and the one behind the start of the replacement keeps its end. -/
theorem applyEditsToRanges_tracks_touching :
    ∃ out, applyEditsToRanges [⟨0, 2, by decide⟩, ⟨3, 5, by decide⟩]
        ⟨[⟨⟨2, 4, by decide⟩, [120]⟩], rfl⟩ = .ok out ∧
      out.length = 2 ∧ RangesFit 0 5 out := by
  obtain ⟨out, hok, hlength, hfits, -⟩ := applyEditsToRanges_tracks [97, 98, 99, 100, 101, 102]
    ⟨[⟨⟨2, 4, by decide⟩, [120]⟩], rfl⟩ [⟨0, 2, by decide⟩, ⟨3, 5, by decide⟩]
    (by decide) (by decide)
  exact ⟨out, hok, hlength, hfits⟩

end NexgileIde.Edits
