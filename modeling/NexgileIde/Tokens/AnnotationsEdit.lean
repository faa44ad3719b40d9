import NexgileIde.Edits.RangeTracking
import NexgileIde.Tokens.Annotations

/-!
# Annotations under an edit

Annotations wait in a queue whose offsets still lack the accumulated delta. Those that a
replacement meets are resized and put back, so that they may meet the next one again. Only
the first of them is extended by the new text, and only if the replacement overlaps it.
-/
namespace NexgileIde.Tokens

open Text Edits Library

variable {T : Type}

/-- The annotations that have left the queue. -/
structure Outcome (T : Type) where
  finalAnnotations : List (AnnotationOf T)
  deletedAnnotations : List (AnnotationOf T)

/-- Empty annotations count as deleted. -/
def Outcome.push (outcome : Outcome T) (newAnnotated : AnnotationOf T) : Outcome T :=
  if newAnnotated.range.isEmpty then
    { outcome with deletedAnnotations := outcome.deletedAnnotations ++ [newAnnotated] }
  else { outcome with finalAnnotations := outcome.finalAnnotations ++ [newAnnotated] }

def AnnotationOf.delta (annotated : AnnotationOf T) (offset : Int) : AnnotationOf T :=
  { annotated with range := annotated.range.delta offset }

def Outcome.pushAll (outcome : Outcome T) (annotations : List (AnnotationOf T)) : Outcome T :=
  annotations.foldl Outcome.push outcome

/-- The body of the loop over the intersecting annotations. -/
def resize (e : StringReplacement) (i : ℕ) (annotated : AnnotationOf T) :
    Except RangeTrackingError (AnnotationOf T) :=
  let r := annotated.range
  let shouldExtend : Bool :=
    i = 0 ∧ e.replaceRange.endExclusive > r.start ∧ e.replaceRange.start < r.endExclusive
  match r.intersect e.replaceRange with
  | none => .error .undefinedIntersection
  | some overlap =>
    match r.deltaEnd (-overlap.length + if shouldExtend then (e.newText.length : Int) else 0) with
    | .error error => .error (.bug error)
    | .ok r =>
      let rangeAheadOfReplaceRange := r.start - e.replaceRange.start
      let r := if rangeAheadOfReplaceRange > 0 then r.delta (-rangeAheadOfReplaceRange) else r
      -- otherwise an annotation after or on the start of the edit is moved behind the new text
      let r := if ¬ shouldExtend ∧ rangeAheadOfReplaceRange ≥ 0 then r.delta e.newText.length else r
      .ok { annotated with range := r.delta (-(e.newText.length - e.replaceRange.length)) }

/-- The loop over the intersecting annotations from the one at index `i` on. -/
def resizeFrom (e : StringReplacement) :
    ℕ → List (AnnotationOf T) → Except RangeTrackingError (List (AnnotationOf T))
  | _, [] => .ok []
  | i, annotated :: rest => do
    let rest ← resizeFrom e (i + 1) rest
    let resized ← resize e i annotated
    return resized :: rest

/-- The loop over the replacements. -/
def applyEditLoop (outcome : Outcome T) (offset : Int) (annotations : List (AnnotationOf T)) :
    List StringReplacement → Except RangeTrackingError (Outcome T)
  | [] => .ok (outcome.pushAll (annotations.map (·.delta offset)))
  | e :: rest => do
    -- ranges before the current edit
    let before := annotations.takeWhile (·.range.endExclusive < e.replaceRange.start)
    let remaining := annotations.dropWhile (·.range.endExclusive < e.replaceRange.start)
    let intersecting := remaining.takeWhile (·.range.intersectsOrTouches e.replaceRange)
    let behind := remaining.dropWhile (·.range.intersectsOrTouches e.replaceRange)
    let resized ← resizeFrom e 0 intersecting
    applyEditLoop (outcome.pushAll (before.map (·.delta offset)))
      (offset + (e.newText.length - e.replaceRange.length)) (resized ++ behind) rest

/-- The annotated string after the edit, and the annotations that the edit deleted. -/
def AnnotatedString.applyEdit (s : AnnotatedString T) (edit : StringEdit) :
    Except RangeTrackingError (AnnotatedString T × List (AnnotationOf T)) := do
  let outcome ← applyEditLoop ⟨[], []⟩ 0 s.annotations edit.replacements
  return (⟨outcome.finalAnnotations⟩, outcome.deletedAnnotations)

theorem Outcome.pushAll_eq (outcome : Outcome T) (annotations : List (AnnotationOf T)) :
    outcome.pushAll annotations =
      ⟨outcome.finalAnnotations ++ annotations.filter fun a => ¬ a.range.isEmpty,
        outcome.deletedAnnotations ++ annotations.filter fun a => a.range.isEmpty⟩ := by
  induction annotations generalizing outcome with
  | nil => simp [pushAll]
  | cons a rest ih =>
    unfold pushAll at ih ⊢
    rw [List.foldl_cons, ih]
    unfold push
    cases h : a.range.isEmpty <;> simp [h]

section Resize

variable {e : StringReplacement} {es : List StringReplacement} {T' n D k m : Int}

/-- How much longer a replacement makes the text. -/
def delta (e : StringReplacement) : Int := e.newText.length - e.replaceRange.length

/-- What becomes of a range that a replacement meets, in the coordinates of the queue. -/
inductive Resized (e : StringReplacement) (q q' : OffsetRange) : Prop
  | extended : e.replaceRange.start < q.endExclusive → q.start < e.replaceRange.endExclusive →
      q'.start = min q.start e.replaceRange.start - delta e →
      q'.endExclusive = max q.endExclusive e.replaceRange.endExclusive → Resized e q q'
  | moved : e.replaceRange.start ≤ q.start → q.start ≤ e.replaceRange.endExclusive →
      q'.start = e.replaceRange.endExclusive →
      q'.endExclusive = max q.endExclusive e.replaceRange.endExclusive → Resized e q q'
  | kept : q.start < e.replaceRange.start → q.endExclusive = e.replaceRange.start →
      q'.start = q.start - delta e → q'.endExclusive = e.replaceRange.start - delta e →
      Resized e q q'

/-- Only the first annotation that is met may start before the replacement. -/
theorem resize_spec {i : ℕ} {a : AnnotationOf T}
    (hmeet : a.range.start ≤ e.replaceRange.endExclusive ∧
      e.replaceRange.start ≤ a.range.endExclusive)
    (hi : i = 0 ∨ e.replaceRange.start ≤ a.range.start) :
    ∃ a', resize e i a = .ok a' ∧ a'.annotationData = a.annotationData ∧ Resized e a.range a'.range ∧
      (i ≠ 0 → a'.range.start = e.replaceRange.endExclusive) := by
  have hr := a.range.le
  have he := e.replaceRange.le
  have hmax : max a.range.start e.replaceRange.start ≤
      min a.range.endExclusive e.replaceRange.endExclusive := by omega
  unfold resize
  simp only [OffsetRange.intersect, dif_pos hmax, OffsetRange.deltaEnd, OffsetRange.length]
  by_cases hextend : i = 0 ∧ e.replaceRange.endExclusive > a.range.start ∧
      e.replaceRange.start < a.range.endExclusive
  · have hcut : a.range.start ≤ a.range.endExclusive +
        (-(min a.range.endExclusive e.replaceRange.endExclusive -
          max a.range.start e.replaceRange.start) + (e.newText.length : Int)) := by omega
    simp only [decide_eq_true hextend, if_true, OffsetRange.create_of_le hcut, not_true_eq_false,
      false_and, if_false]
    refine ⟨_, rfl, rfl, .extended hextend.2.2 hextend.2.1 ?_ ?_, fun hne => absurd hextend.1 hne⟩
    · unfold delta OffsetRange.length
      split_ifs <;> simp only [OffsetRange.delta_start] <;> omega
    · split_ifs <;> simp only [OffsetRange.delta_endExclusive] <;> omega
  · have hcut : a.range.start ≤ a.range.endExclusive +
        (-(min a.range.endExclusive e.replaceRange.endExclusive -
          max a.range.start e.replaceRange.start) + 0) := by omega
    simp only [decide_eq_false hextend, Bool.false_eq_true, if_false,
      OffsetRange.create_of_le hcut, not_false_eq_true, true_and]
    refine ⟨_, rfl, rfl, ?_, fun hne => ?_⟩
    swap
    · have hstart := hi.resolve_left hne
      split_ifs <;> simp only [OffsetRange.delta_start] <;> omega
    by_cases hstart : e.replaceRange.start ≤ a.range.start
    · refine .moved hstart hmeet.1 ?_ ?_
      · split_ifs <;> simp only [OffsetRange.delta_start] <;> omega
      · split_ifs <;> simp only [OffsetRange.delta_endExclusive] <;> omega
    · refine .kept (by omega) (by omega) ?_ ?_
      · unfold delta OffsetRange.length
        split_ifs <;> simp only [OffsetRange.delta_start] <;> omega
      · unfold delta OffsetRange.length
        split_ifs <;> simp only [OffsetRange.delta_endExclusive] <;> omega

theorem Resized.endExclusive_eq {q q' : OffsetRange} (h : Resized e q q')
    (hstart : e.replaceRange.start ≤ q.start) :
    q'.endExclusive = max q.endExclusive e.replaceRange.endExclusive := by
  cases h with
  | extended h1 h2 h3 h4 => exact h4
  | moved h1 h2 h3 h4 => exact h4
  | kept h1 h2 h3 h4 => omega

theorem Resized.endExclusive_le {q q' : OffsetRange} (h : Resized e q q') :
    q'.endExclusive ≤ max q.endExclusive e.replaceRange.endExclusive := by
  cases h with
  | extended h1 h2 h3 h4 => exact h4.le
  | moved h1 h2 h3 h4 => exact h4.le
  | kept h1 h2 h3 h4 =>
    have hle := e.replaceRange.le
    unfold delta OffsetRange.length at h4
    omega

theorem Resized.le_start {q q' : OffsetRange} (h : Resized e q q') (hq : m ≤ q.start)
    (hm : m ≤ e.replaceRange.start) : m - delta e ≤ q'.start := by
  have hle := e.replaceRange.le
  unfold delta OffsetRange.length
  cases h with
  | extended h1 h2 h3 h4 =>
    unfold delta OffsetRange.length at h3
    omega
  | moved h1 h2 h3 h4 => omega
  | kept h1 h2 h3 h4 =>
    unfold delta OffsetRange.length at h3
    omega

theorem Resized.tracks {q q' out : OffsetRange} (h : Resized e q q')
    (hfits : Patch.Fits T' n (patches (e :: es)))
    (htracks : Tracks e.replaceRange.endExclusive (D + delta e) es q' out) :
    Tracks T' D (e :: es) q out := by
  have hle := e.replaceRange.le
  have hq := q.le
  cases h with
  | extended h1 h2 h3 h4 => exact tracks_first hfits ⟨h2.le, h1.le⟩ h3 h4 htracks
  | moved h1 h2 h3 h4 => exact tracks_other hfits ⟨h2, h1⟩ h3 h4 htracks
  | kept h1 h2 h3 h4 =>
    have hT : T' ≤ e.replaceRange.start := hfits.1
    have hpassed := htracks.passed
    unfold delta at h3 h4 hpassed
    simp only [OffsetRange.length, OffsetRange.contains, OffsetRange.delta_start,
      OffsetRange.delta_endExclusive] at h3 h4 hpassed
    refine .of_cases (fun o _ ho => ?_) (fun o ho hes => ?_) fun p hp => ?_
    · simp only [OffsetRange.contains, hpassed (o + D) (by omega)]
      omega
    · have hahead := htracks.ahead o ho hes
      unfold delta at hahead
      rw [hahead]
      simp only [OffsetRange.contains]
      omega
    · simp only [OffsetRange.contains, hpassed p (by omega), OffsetRange.delta_start,
        OffsetRange.delta_endExclusive]
      omega

/-- The other annotations that a replacement meets, put back in their order. -/
theorem resizeFrom_others {i : ℕ} {others : List (AnnotationOf T)} {behind : List OffsetRange}
    (hi : 0 < i) (hfits : RangesFit k n (others.map (·.range) ++ behind))
    (hk : e.replaceRange.start ≤ k)
    (hothers : ∀ a ∈ others, a.range.start ≤ e.replaceRange.endExclusive ∧
      e.replaceRange.start ≤ a.range.endExclusive)
    (hbehind : ∀ r ∈ behind, e.replaceRange.endExclusive < r.start)
    (hn : e.replaceRange.endExclusive ≤ n) :
    ∃ resized, resizeFrom e i others = .ok resized ∧
      RangesFit (max k e.replaceRange.endExclusive) n (resized.map (·.range) ++ behind) ∧
      List.Forall₂ (fun a a' => a'.annotationData = a.annotationData ∧ Resized e a.range a'.range)
        others resized := by
  induction others generalizing i k with
  | nil =>
    refine ⟨[], rfl, ?_, .nil⟩
    cases behind with
    | nil =>
      have hle : k ≤ n := hfits
      show max k e.replaceRange.endExclusive ≤ n
      omega
    | cons b behind =>
      have hb := hbehind b List.mem_cons_self
      have hkb := hfits.1
      exact ⟨by omega, hfits.2⟩
  | cons a others ih =>
    obtain ⟨hstart, hrest⟩ := hfits
    have ha := hothers a List.mem_cons_self
    have hle := a.range.le
    have hsa : e.replaceRange.start ≤ a.range.start := hk.trans hstart
    obtain ⟨a', hok, hvalue, hresized, hs'⟩ := resize_spec (i := i) ha (.inr hsa)
    obtain ⟨resized, hoks, hfits', hforall⟩ := ih (i := i + 1) (by omega) hrest (hsa.trans hle)
      fun b hb => hothers b (List.mem_cons_of_mem _ hb)
    refine ⟨a' :: resized, ?_, ⟨?_, ?_⟩, .cons ⟨hvalue, hresized⟩ hforall⟩
    · simp [resizeFrom, hok, hoks, bind, Except.bind, pure, Except.pure]
    · have := hs' (by omega)
      have : k ≤ a.range.start := hstart
      show max k e.replaceRange.endExclusive ≤ a'.range.start
      omega
    · show RangesFit a'.range.endExclusive n (resized.map (·.range) ++ behind)
      rwa [hresized.endExclusive_eq hsa]

/-- All annotations that a replacement meets are put back in their order. -/
theorem resizeFrom_spec {intersecting : List (AnnotationOf T)} {behind : List OffsetRange}
    (hfits : RangesFit m n (intersecting.map (·.range) ++ behind)) (hm : m ≤ e.replaceRange.start)
    (hinter : ∀ a ∈ intersecting, a.range.start ≤ e.replaceRange.endExclusive ∧
      e.replaceRange.start ≤ a.range.endExclusive)
    (hbehind : ∀ r ∈ behind, e.replaceRange.endExclusive < r.start)
    (hn : e.replaceRange.endExclusive ≤ n) :
    ∃ resized, resizeFrom e 0 intersecting = .ok resized ∧
      RangesFit (m - delta e) n (resized.map (·.range) ++ behind) ∧
      List.Forall₂ (fun a a' => a'.annotationData = a.annotationData ∧ Resized e a.range a'.range)
        intersecting resized := by
  have hle := e.replaceRange.le
  have hlow : m - delta e ≤ e.replaceRange.endExclusive := by
    unfold delta OffsetRange.length
    omega
  cases intersecting with
  | nil =>
    refine ⟨[], rfl, ?_, .nil⟩
    cases behind with
    | nil => exact hlow.trans hn
    | cons b behind => exact ⟨hlow.trans (hbehind b List.mem_cons_self).le, hfits.2⟩
  | cons a others =>
    obtain ⟨hstart, hrest⟩ := hfits
    have ha := hinter a List.mem_cons_self
    obtain ⟨a', hok, hvalue, hresized, -⟩ := resize_spec (i := 0) ha (.inl rfl)
    obtain ⟨resized, hoks, hfits', hforall⟩ := resizeFrom_others (i := 1) Nat.one_pos hrest ha.2
      (fun b hb => hinter b (List.mem_cons_of_mem _ hb)) hbehind hn
    refine ⟨a' :: resized, ?_, ⟨?_, ?_⟩, .cons ⟨hvalue, hresized⟩ hforall⟩
    · simp [resizeFrom, hok, hoks, bind, Except.bind, pure, Except.pure]
    · exact hresized.le_start hstart hm
    · exact hfits'.mono_left hresized.endExclusive_le

end Resize

section Insert

variable {e r : StringReplacement} {es : List StringReplacement} {k n D j : Int}
variable {a q q' out : OffsetRange}

/-- The replaced range and the annotated one share an offset, or the replacement inserts
inside the annotated range. -/
def Overlaps (e : StringReplacement) (a : OffsetRange) : Prop :=
  e.replaceRange.start < a.endExclusive ∧ a.start < e.replaceRange.endExclusive

/-- Offset `j` of the edited text is in the text that `r` inserts. -/
def Inserted (D : Int) (es : List StringReplacement) (r : StringReplacement) (j : Int) : Prop :=
  ∃ before after, es = before ++ r :: after ∧
    r.replaceRange.start + D + Patch.growth (patches before) ≤ j ∧
    j < r.replaceRange.start + D + Patch.growth (patches before) + r.newText.length

theorem growth_cons (e : StringReplacement) (es : List StringReplacement) :
    Patch.growth (patches (e :: es)) = delta e + Patch.growth (patches es) := by
  simp only [patches_cons, Patch.growth, StringReplacement.toPatch_text,
    StringReplacement.toPatch_start, StringReplacement.toPatch_stop]
  rfl

theorem inserted_cons :
    Inserted D (e :: es) r j ↔
      (r = e ∧ e.replaceRange.start + D ≤ j ∧ j < e.replaceRange.start + D + e.newText.length) ∨
        Inserted (D + delta e) es r j := by
  constructor
  · rintro ⟨before, after, heq, hstart, hend⟩
    cases before with
    | nil =>
      obtain ⟨rfl, rfl⟩ := List.cons.inj heq
      simp only [patches_nil, Patch.growth, add_zero] at hstart hend
      exact .inl ⟨rfl, hstart, hend⟩
    | cons b before =>
      obtain ⟨rfl, rfl⟩ := List.cons.inj heq
      rw [growth_cons] at hstart hend
      exact .inr ⟨before, after, rfl, by omega, by omega⟩
  · rintro (⟨rfl, hstart, hend⟩ | ⟨before, after, rfl, hstart, hend⟩)
    · refine ⟨[], es, rfl, ?_, ?_⟩ <;> simp only [patches_nil, Patch.growth, add_zero]
      · exact hstart
      · exact hend
    · refine ⟨e :: before, after, rfl, ?_, ?_⟩ <;> rw [growth_cons] <;> omega

theorem not_inserted_nil : ¬ Inserted D [] r j := by
  rintro ⟨before, after, heq, -⟩
  cases before <;> cases heq

theorem Inserted.le (h : Inserted D es r j) (hfits : Patch.Fits k n (patches es)) : k + D ≤ j := by
  induction es generalizing k D with
  | nil => exact absurd h not_inserted_nil
  | cons e es ih =>
    obtain ⟨hk, hle, hrest⟩ := hfits
    simp only [StringReplacement.toPatch_start, StringReplacement.toPatch_stop] at hk hle hrest
    rcases inserted_cons.mp h with ⟨-, hstart, -⟩ | h
    · omega
    · have := ih h hrest
      unfold delta OffsetRange.length at this
      omega

theorem start_ge_of_fits (hfits : Patch.Fits k n (patches es)) (he : e ∈ es) :
    k ≤ e.replaceRange.start := by
  induction es generalizing k with
  | nil => cases he
  | cons e' es ih =>
    obtain ⟨hk, hle, hrest⟩ := hfits
    rcases List.mem_cons.mp he with rfl | he
    · exact hk
    · exact (hk.trans hle).trans (ih hrest he)

/-- Every offset of the edited text is the image of one that is kept, or inserted. -/
theorem kept_or_inserted (hfits : Patch.Fits k n (patches es)) (hj : k + D ≤ j)
    (hn : j < n + D + Patch.growth (patches es)) :
    (∃ o, k ≤ o ∧ o < n ∧ (∀ e ∈ es, ¬ e.replaceRange.contains o) ∧
        applyToOffsetLoop o D es = j) ∨ ∃ r ∈ es, Inserted D es r j := by
  induction es generalizing k D with
  | nil =>
    simp only [patches_nil, Patch.growth, add_zero] at hn
    refine .inl ⟨j - D, by omega, by omega, by simp, ?_⟩
    simp only [applyToOffsetLoop]
    omega
  | cons e es ih =>
    obtain ⟨hk, hle, hrest⟩ := hfits
    simp only [StringReplacement.toPatch_start, StringReplacement.toPatch_stop] at hk hle hrest
    rw [growth_cons] at hn
    rcases lt_or_ge j (e.replaceRange.start + D) with hfront | hfront
    · refine .inl ⟨j - D, by omega, by have := hrest.le; omega, ?_, ?_⟩
      · rw [List.forall_mem_cons]
        refine ⟨fun hin => ?_, fun e' he' hin => ?_⟩
        · have := hin.1
          omega
        · have := hin.1
          have := start_ge_of_fits hrest he'
          omega
      · simp only [applyToOffsetLoop, replaceRange_eq]
        rw [if_neg (by omega)]
        omega
    · rcases lt_or_ge j (e.replaceRange.start + D + e.newText.length) with hin | hbehind
      · exact .inr ⟨e, List.mem_cons_self, inserted_cons.mpr (.inl ⟨rfl, hfront, hin⟩)⟩
      · have hstep : e.replaceRange.endExclusive + (D + delta e) ≤ j := by
          unfold delta OffsetRange.length
          omega
        rcases ih hrest hstep (by omega) with ⟨o, ho, hon, hkept, himage⟩ | ⟨r, hr, hins⟩
        · refine .inl ⟨o, by omega, hon, ?_, ?_⟩
          · rw [List.forall_mem_cons]
            refine ⟨fun hin => ?_, hkept⟩
            have := hin.2
            omega
          · simp only [applyToOffsetLoop, replaceRange_eq, getNewLength_eq]
            rw [if_pos (by omega), if_neg (by omega)]
            exact himage
        · exact .inr ⟨r, List.mem_cons_of_mem _ hr, inserted_cons.mpr (.inr hins)⟩

/-- From offset `k` on, the queue holds the range as it was. -/
structure Ahead (k : Int) (a q : OffsetRange) : Prop where
  start_eq : k ≤ a.start → q.start = a.start
  start_le : a.start < k → q.start ≤ k
  end_eq : k < a.endExclusive → q.endExclusive = a.endExclusive
  end_le : a.endExclusive ≤ k → q.endExclusive ≤ k

theorem Ahead.resized (h : Ahead k a q) (hq : Resized e q q') (hk : k ≤ e.replaceRange.start) :
    Ahead e.replaceRange.endExclusive a q' := by
  obtain ⟨h1, h2, h3, h4⟩ := h
  have hle := e.replaceRange.le
  have hqle := q.le
  have hale := a.le
  cases hq with
  | extended hs ht hs' ht' =>
    unfold delta OffsetRange.length at hs'
    constructor <;> omega
  | moved hs ht hs' ht' => constructor <;> omega
  | kept hs ht hs' ht' =>
    unfold delta OffsetRange.length at hs' ht'
    constructor <;> omega

/-- An annotated range gets text only from replacements that overlap it. -/
def Receives (D : Int) (es : List StringReplacement) (a out : OffsetRange) : Prop :=
  ∀ r j, Inserted D es r j → out.contains j → Overlaps r a

/-- A range of the queue, and what becomes of it in the edited text. -/
structure Follows (k D : Int) (es : List StringReplacement) (q out : OffsetRange) : Prop where
  tracks : Tracks k D es q out
  receives : ∀ a, Ahead k a q → Receives D es a out

theorem follows_delta (k D : Int) (q : OffsetRange) : Follows k D [] q (q.delta D) where
  tracks := tracks_delta k D q
  receives _ _ _ _ h := absurd h not_inserted_nil

/-- A range that ends before the replacement leaves the queue. -/
theorem follows_before (hfits : Patch.Fits k n (patches (e :: es)))
    (hq : q.endExclusive < e.replaceRange.start) : Follows k D (e :: es) q (q.delta D) where
  tracks := tracks_before hfits hq
  receives a _ r j h hout := by
    have hstart : e.replaceRange.start + D ≤ j := by
      obtain ⟨hk, hle, hrest⟩ := hfits
      exact h.le (k := e.replaceRange.start) ⟨le_rfl, hle, hrest⟩
    simp only [OffsetRange.contains, OffsetRange.delta_endExclusive] at hout
    omega

theorem Resized.follows (h : Resized e q q') (hfits : Patch.Fits k n (patches (e :: es)))
    (hfollows : Follows e.replaceRange.endExclusive (D + delta e) es q' out) :
    Follows k D (e :: es) q out where
  tracks := h.tracks hfits hfollows.tracks
  receives a hahead r j hins hout := by
    have hk : k ≤ e.replaceRange.start := hfits.1
    rcases inserted_cons.mp hins with ⟨rfl, hstart, hend⟩ | hins
    · -- the new text is in front of what the queue still changes
      obtain ⟨h1, h2, h3, h4⟩ := hahead
      have hpassed := (hfollows.tracks.passed j (by unfold delta OffsetRange.length; omega)).mp hout
      have hle := r.replaceRange.le
      simp only [OffsetRange.contains, OffsetRange.delta_start, OffsetRange.delta_endExclusive]
        at hpassed
      unfold delta OffsetRange.length at hpassed
      unfold Overlaps
      cases h with
      | extended hs ht hs' ht' => omega
      | moved hs ht hs' ht' => omega
      | kept hs ht hs' ht' =>
        unfold delta OffsetRange.length at ht'
        omega
    · exact hfollows.receives a (hahead.resized h hk) r j hins hout

/-- A range behind the replacement stays in the queue. -/
theorem follows_behind (hfits : Patch.Fits k n (patches (e :: es)))
    (hq : e.replaceRange.endExclusive < q.start)
    (hfollows : Follows e.replaceRange.endExclusive (D + delta e) es q out) :
    Follows k D (e :: es) q out where
  tracks := tracks_behind hfits hq hfollows.tracks
  receives a hahead r j hins hout := by
    have hk : k ≤ e.replaceRange.start := hfits.1
    have hle := e.replaceRange.le
    obtain ⟨h1, h2, h3, h4⟩ := hahead
    have hqle := q.le
    have hale := a.le
    rcases inserted_cons.mp hins with ⟨rfl, hstart, hend⟩ | hins
    · have hpassed := (hfollows.tracks.passed j (by unfold delta OffsetRange.length; omega)).mp hout
      simp only [OffsetRange.contains, OffsetRange.delta_start, OffsetRange.delta_endExclusive]
        at hpassed
      unfold delta OffsetRange.length at hpassed
      omega
    · refine hfollows.receives a ?_ r j hins hout
      constructor <;> omega

end Insert

section Loop

variable {queue : List (AnnotationOf T)} {k n D : Int}

/-- How the loop divides the queue of annotations. -/
theorem divided_annotations (range : OffsetRange) (h : RangesFit k n (queue.map (·.range))) :
    Divided range.start range.endExclusive (queue.map (·.range))
      ((queue.takeWhile (·.range.endExclusive < range.start)).map (·.range))
      (((queue.dropWhile (·.range.endExclusive < range.start)).takeWhile
        (·.range.intersectsOrTouches range)).map (·.range))
      (((queue.dropWhile (·.range.endExclusive < range.start)).dropWhile
        (·.range.intersectsOrTouches range)).map (·.range)) := by
  have hdiv := divided range h
  simp only [List.takeWhile_map, List.dropWhile_map, Function.comp_def] at hdiv
  exact hdiv

theorem queue_divided (queue : List (AnnotationOf T)) (p p' : AnnotationOf T → Bool) :
    queue = queue.takeWhile p ++ ((queue.dropWhile p).takeWhile p' ++
      (queue.dropWhile p).dropWhile p') := by
  rw [List.takeWhile_append_dropWhile, List.takeWhile_append_dropWhile]

theorem pushAll_append (outcome : Outcome T) (annotations rest : List (AnnotationOf T)) :
    outcome.pushAll (annotations ++ rest) = (outcome.pushAll annotations).pushAll rest :=
  List.foldl_append

/-- The loop moves every annotation of the queue, in order, and each follows its range. -/
theorem applyEditLoop_spec {es : List StringReplacement} {Y : Int} (outcome : Outcome T)
    (hes : Patch.Fits k n (patches es)) (hqueue : RangesFit (Y - D) n (queue.map (·.range)))
    (hY : Y ≤ k + D) :
    ∃ moved, applyEditLoop outcome D queue es = .ok (outcome.pushAll moved) ∧
      RangesFit Y (n + D + Patch.growth (patches es)) (moved.map (·.range)) ∧
      List.Forall₂ (fun a m => m.annotationData = a.annotationData ∧ Follows k D es a.range m.range)
        queue moved := by
  induction es generalizing k D Y queue outcome with
  | nil =>
    refine ⟨queue.map (·.delta D), rfl, ?_, ?_⟩
    · have hdelta := hqueue.delta D
      rw [sub_add_cancel, List.map_map] at hdelta
      rw [List.map_map, patches_nil, Patch.growth, add_zero]
      exact hdelta
    · rw [List.forall₂_map_right_iff]
      exact List.forall₂_same.mpr fun a _ => ⟨rfl, follows_delta k D a.range⟩
  | cons e es ih =>
    have hpatches := hes
    obtain ⟨hk, hle, hrest⟩ := hes
    simp only [StringReplacement.toPatch_start, StringReplacement.toPatch_stop] at hk hle hrest
    have hdiv := divided_annotations e.replaceRange hqueue
    have hsplit := queue_divided queue (·.range.endExclusive < e.replaceRange.start)
      (·.range.intersectsOrTouches e.replaceRange)
    unfold applyEditLoop
    dsimp only
    generalize queue.takeWhile _ = before at hdiv hsplit ⊢
    generalize (queue.dropWhile _).takeWhile _ = intersecting at hdiv hsplit ⊢
    generalize (queue.dropWhile _).dropWhile _ = behind at hdiv hsplit ⊢
    subst hsplit
    obtain ⟨-, hbefore, hinter, hbehind⟩ := hdiv
    rw [List.map_append, List.map_append] at hqueue
    obtain ⟨m₀, hfirst, hremaining⟩ := rangesFit_append.mp hqueue
    have hm₀ := hfirst.le
    set m := min m₀ e.replaceRange.start with hm
    have hbeforeFits : RangesFit (Y - D) m (before.map (·.range)) := by
      refine hfirst.lower (by omega) fun r hr => ?_
      have := hbefore r hr
      have := (hfirst.mem hr).2
      omega
    have hremainingFits := hremaining.mono_left (show m ≤ m₀ by omega)
    obtain ⟨resized, hok, hresized, hforall⟩ := resizeFrom_spec hremainingFits (by omega)
      (fun a ha => hinter a.range (List.mem_map_of_mem ha)) hbehind hrest.le
    have hdelta : m - delta e = m + D - (D + delta e) := by omega
    rw [hdelta, ← List.map_append] at hresized
    obtain ⟨moved, hloop, hmoved, hfollows⟩ := ih (outcome.pushAll (before.map (·.delta D))) hrest
      hresized (by unfold delta OffsetRange.length; omega)
    refine ⟨before.map (·.delta D) ++ moved, ?_, ?_, ?_⟩
    · simp only [hok, bind, Except.bind]
      rw [pushAll_append]
      exact hloop
    · have hbeforeDelta := hbeforeFits.delta D
      rw [sub_add_cancel, List.map_map] at hbeforeDelta
      rw [growth_cons, List.map_append, List.map_map]
      have hgrowth : n + D + (delta e + Patch.growth (patches es)) =
          n + (D + delta e) + Patch.growth (patches es) := by omega
      rw [hgrowth]
      exact rangesFit_append.mpr ⟨_, hbeforeDelta, hmoved⟩
    · refine List.rel_append ?_ ?_
      · rw [List.forall₂_map_right_iff]
        exact List.forall₂_same.mpr fun a ha =>
          ⟨rfl, follows_before hpatches (hbefore a.range (List.mem_map_of_mem ha))⟩
      · have hsame : List.Forall₂ (fun a a' => a' = a ∧ e.replaceRange.endExclusive < a.range.start)
            behind behind := List.forall₂_same.mpr fun a ha =>
          ⟨rfl, hbehind a.range (List.mem_map_of_mem ha)⟩
        have hsteps := List.rel_append
          (hforall.imp (S := fun a a' => a'.annotationData = a.annotationData ∧
            ∀ out, Follows e.replaceRange.endExclusive (D + delta e) es a'.range out →
              Follows k D (e :: es) a.range out)
            fun a a' h => ⟨h.1, fun out hout => h.2.follows hpatches hout⟩)
          (hsame.imp fun a a' h => ⟨by rw [h.1], fun out hout =>
            follows_behind hpatches h.2 (by rwa [h.1] at hout)⟩)
        exact forall₂_step hsteps hfollows fun a a' m h h' =>
          ⟨h'.1.trans h.1, h.2 m.range h'.2⟩

end Loop

section Result

theorem rangesFit_of_apart {k n : Int} {ranges : List OffsetRange} (h : Apart ranges)
    (hk : ∀ r ∈ ranges, k ≤ r.start) (hn : ∀ r ∈ ranges, r.endExclusive ≤ n) (hkn : k ≤ n) :
    RangesFit k n ranges := by
  obtain ⟨-, hpair⟩ := h
  induction ranges generalizing k with
  | nil => exact hkn
  | cons r rest ih =>
    rw [List.pairwise_cons] at hpair
    rw [List.forall_mem_cons] at hk hn
    exact ⟨hk.1, ih hpair.1 hn.2 hn.1 hpair.2⟩

theorem pairwise_of_rangesFit {k n : Int} {ranges : List OffsetRange} (h : RangesFit k n ranges) :
    ranges.Pairwise fun r r' => r.endExclusive ≤ r'.start := by
  induction ranges generalizing k with
  | nil => exact .nil
  | cons r rest ih => exact .cons (fun r' hr' => (h.2.mem hr').1) (ih h.2)

/-- What an edit of a text of length `n` makes of one annotation. -/
structure AnnotationOf.MovedTo (edit : StringEdit) (n : ℕ) (a m : AnnotationOf T) : Prop where
  annotationData_eq : m.annotationData = a.annotationData
  kept : ∀ o : Int, 0 ≤ o → o < n → (∀ r ∈ edit.replacements, ¬ r.replaceRange.contains o) →
    (m.range.contains (edit.applyToOffset o) ↔ a.range.contains o)
  inserted : ∀ r j, Inserted 0 edit.replacements r j → m.range.contains j → Overlaps r a.range
  isEmpty_iff : m.range.isEmpty = true ↔
    (∀ o : Int, 0 ≤ o → o < n → (∀ r ∈ edit.replacements, ¬ r.replaceRange.contains o) →
      ¬ a.range.contains o) ∧
    ∀ r j, Inserted 0 edit.replacements r j → ¬ m.range.contains j

theorem ahead_zero {a : OffsetRange} (h : 0 ≤ a.start) : Ahead 0 a a := by
  have := a.le
  constructor <;> omega

theorem Follows.movedTo {edit : StringEdit} {base : Str} (hedit : edit.Within base.length)
    {a m : AnnotationOf T} (hvalue : m.annotationData = a.annotationData) (ha : 0 ≤ a.range.start)
    (hm : 0 ≤ m.range.start)
    (hend : m.range.endExclusive ≤ base.length + 0 + Patch.growth (patches edit.replacements))
    (h : Follows 0 0 edit.replacements a.range m.range) :
    a.MovedTo edit base.length m where
  annotationData_eq := hvalue
  kept o ho _ hkept := h.tracks.ahead o ho hkept
  inserted r j hins hin := h.receives a.range (ahead_zero ha) r j hins hin
  isEmpty_iff := by
    have hle := m.range.le
    unfold OffsetRange.isEmpty
    rw [decide_eq_true_iff]
    constructor
    · intro hempty
      have hnone : ∀ j, ¬ m.range.contains j := by
        intro j hin
        simp only [OffsetRange.contains] at hin
        omega
      exact ⟨fun o ho _ hkept hin => hnone _ ((h.tracks.ahead o ho hkept).mpr hin),
        fun r j _ => hnone j⟩
    · rintro ⟨hkept, hins⟩
      by_contra hne
      have hstart : m.range.contains m.range.start := ⟨le_rfl, by omega⟩
      rcases kept_or_inserted (k := 0) (D := 0) (j := m.range.start) hedit.fits (by omega)
          (by omega) with ⟨o, ho, hon, hout, himage⟩ | ⟨r, -, hr⟩
      · refine hkept o ho hon hout ((h.tracks.ahead o ho hout).mp ?_)
        rw [himage]
        exact hstart
      · exact hins r _ hr hstart

namespace AnnotatedString

/-- An edit moves the annotations one by one. What is left is a partition of the edited text
again; an annotation whose range is empty then is returned. -/
theorem applyEdit_moves (base : Str) (edit : StringEdit) (s : AnnotatedString T)
    (hedit : edit.Within base.length) (hs : s.Valid)
    (hin : ∀ a ∈ s.annotations, 0 ≤ a.range.start ∧ a.range.endExclusive ≤ base.length) :
    ∃ moved after deleted, s.applyEdit edit = .ok (after, deleted) ∧
      List.Forall₂ (AnnotationOf.MovedTo edit base.length) s.annotations moved ∧
      after.annotations = moved.filter (fun m => ¬ m.range.isEmpty) ∧
      deleted = moved.filter (fun m => m.range.isEmpty) ∧ after.Valid ∧
      ∀ m ∈ after.annotations, 0 ≤ m.range.start ∧
        m.range.endExclusive ≤ (edit.apply base).length := by
  have hfits : RangesFit 0 base.length (s.annotations.map (·.range)) := by
    refine rangesFit_of_apart hs ?_ ?_ (Int.natCast_nonneg _)
    · rw [List.forall_mem_map]
      exact fun a ha => (hin a ha).1
    · rw [List.forall_mem_map]
      exact fun a ha => (hin a ha).2
  obtain ⟨moved, hloop, hmoved, hfollows⟩ := applyEditLoop_spec (Y := 0) (D := 0) ⟨[], []⟩
    hedit.fits (by rwa [sub_zero]) (by omega)
  have hlength : ((edit.apply base).length : Int) =
      base.length + 0 + Patch.growth (patches edit.replacements) := by
    have hrun := Patch.length_run (k := 0) (t := base) (by rw [zero_add]; exact hedit.fits)
    rw [← hedit.apply_eq_run] at hrun
    rw [hrun, add_zero]
  have hbounds : ∀ m ∈ moved, 0 ≤ m.range.start ∧
      m.range.endExclusive ≤ base.length + 0 + Patch.growth (patches edit.replacements) :=
    fun m hm => hmoved.mem (List.mem_map_of_mem hm)
  refine ⟨moved, ⟨moved.filter fun m => ¬ m.range.isEmpty⟩, moved.filter fun m => m.range.isEmpty,
    ?_, ?_, rfl, rfl, ⟨?_, ?_⟩, ?_⟩
  · unfold applyEdit
    rw [hloop, Outcome.pushAll_eq]
    rfl
  · rw [List.forall₂_iff_get] at hfollows ⊢
    refine ⟨hfollows.1, fun i hi hi' => ?_⟩
    obtain ⟨hvalue, h⟩ := hfollows.2 i hi hi'
    have hb := hbounds _ (List.get_mem moved ⟨i, hi'⟩)
    exact h.movedTo hedit hvalue (hin _ (List.get_mem _ ⟨i, hi⟩)).1 hb.1 hb.2
  · rw [List.forall_mem_map]
    intro m hm
    have hne := (List.mem_filter.mp hm).2
    have hle := m.range.le
    simp only [OffsetRange.isEmpty, decide_not, Bool.not_eq_true', decide_eq_false_iff_not,
      decide_eq_true_eq] at hne
    omega
  · exact (pairwise_of_rangesFit hmoved).sublist (List.filter_sublist.map _)
  · intro m hm
    rw [hlength]
    exact hbounds m (List.mem_of_mem_filter hm)

/-- The first of two annotations is extended by the text that replaces the end of it and all of
the second one, which is returned. -/
theorem applyEdit_moves_two :
    ∃ (moved : List (AnnotationOf ℕ)) (after : AnnotatedString ℕ) (deleted : List (AnnotationOf ℕ)),
      (⟨[⟨⟨0, 3, by decide⟩, 1⟩, ⟨⟨3, 4, by decide⟩, 2⟩]⟩ : AnnotatedString ℕ).applyEdit
          ⟨[⟨⟨2, 4, by decide⟩, [120]⟩], rfl⟩ = .ok (after, deleted) ∧
        after.annotations = moved.filter (fun m => ¬ m.range.isEmpty) ∧
        deleted = moved.filter (fun m => m.range.isEmpty) ∧ after.Valid := by
  obtain ⟨moved, after, deleted, hok, -, hafter, hdeleted, hvalid, -⟩ := applyEdit_moves
    [97, 98, 99, 100, 101] ⟨[⟨⟨2, 4, by decide⟩, [120]⟩], rfl⟩
    (⟨[⟨⟨0, 3, by decide⟩, 1⟩, ⟨⟨3, 4, by decide⟩, 2⟩]⟩ : AnnotatedString ℕ) (by decide) (by decide)
    (by decide)
  exact ⟨moved, after, deleted, hok, hafter, hdeleted, hvalid⟩

end AnnotatedString

end Result

end NexgileIde.Tokens
