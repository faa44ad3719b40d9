import NexgileIde.Edits.Edit
import NexgileIde.Library.Composition

/-!
# Composition of string edits is sequential application

Each iteration of the composition loop is a sequence of moves of the cursor over
base and intermediate text, so the loop keeps the composition invariant.
-/
namespace NexgileIde.Edits

open Text Library Patch Composing

variable {T α : Type} [BaseReplacement T] [BaseStringReplacement T α] {base target : List α}

@[simp] theorem getNewLength_eq_length (r : T) : getNewLength r = ((newText r).length : Int) :=
  BaseStringReplacement.getNewLength_eq r

/-- The loop variables describe a sound composition with `rs` still to be merged. -/
def Follows (base target : List α) (rs : List T)
    (st : ComposeState T) : Prop :=
  ∃ cut, Sound base target ⟨patchesOf st.result, cut, cut + st.edit1ToEdit2,
    patchesOf st.edit1Queue, patchesOf rs⟩

theorem copyUntouched_spec {r2 : T} {rs queue result : List T}
    {d : Int} (h : Follows base target (r2 :: rs) ⟨queue, d, result⟩) :
    Follows base target (r2 :: rs) (copyUntouched r2 queue d result) ∧
      ∀ r1 ∈ (copyUntouched r2 queue d result).edit1Queue.head?,
        (replaceRange r2).start ≤ (replaceRange r1).start +
          (copyUntouched r2 queue d result).edit1ToEdit2 + (newText r1).length := by
  induction queue generalizing d result with
  | nil => exact ⟨h, by simp [copyUntouched]⟩
  | cons r1 queue ih =>
    simp only [copyUntouched, getNewLength_eq_length]
    split_ifs with htouch
    · refine ⟨h, fun r hr => ?_⟩
      obtain rfl : r1 = r := by simpa using hr
      exact htouch
    · apply ih
      obtain ⟨cut, hsound⟩ := h
      have hfit := hsound.first
      simp only [patchesOf_cons] at hfit
      have hstart : cut ≤ (replaceRange r1).start := hfit.1
      have hle := (replaceRange r1).le
      have hsecond := hsound.second
      simp only [patchesOf_cons] at hsecond
      have hcopy := hsound.copy (c := (replaceRange r1).start) hstart ⟨le_rfl, hfit.2⟩
        ⟨by simp only [toPatch_start]; omega, hsecond.2⟩
      have hcopied := hcopy.second
      simp only [patchesOf_cons] at hcopied
      have hemit := hcopy.emit (show _ = (toPatch r1) :: patchesOf queue from rfl) rfl
        ⟨by simp only [toPatch_start, toPatch_text]; omega,
          hcopied.2⟩
      refine ⟨(replaceRange r1).endExclusive, ?_⟩
      have hmid : cut + d + ((replaceRange r1).start - cut) + (newText r1).length =
          (replaceRange r1).endExclusive +
            (d + ((newText r1).length - (replaceRange r1).length)) := by
        rw [OffsetRange.length]
        omega
      simpa only [patchesOf_append, patchesOf_cons, patchesOf_nil, toPatch_stop,
        toPatch_text, hmid] using hemit

/-- What `takeIntersecting` takes off the queue, from the first to the last element. -/
structure Taken (r2 : T) (queue : List T) (d : Int)
    (first last : Option T)
    (out : List T × Int × Option T × Option T)
    (taken : List T) : Prop where
  queue : queue = taken ++ out.1
  delta : out.2.1 = d + growth (patchesOf taken)
  first : out.2.2.1 = first.or taken.head?
  last : out.2.2.2 = taken.getLast?.or last
  beyond : ∀ r1 ∈ out.1.head?, (replaceRange r2).endExclusive < (replaceRange r1).start + out.2.1
  within : ∀ l ∈ taken.getLast?,
    (replaceRange l).start + (out.2.1 - growth [(toPatch l)]) ≤ (replaceRange r2).endExclusive

theorem takeIntersecting_spec (r2 : T) (queue : List T) (d : Int)
    (first last : Option T) :
    ∃ taken, Taken r2 queue d first last (takeIntersecting r2 queue d first last) taken := by
  induction queue generalizing d first last with
  | nil => exact ⟨[], by constructor <;> simp [takeIntersecting, growth]⟩
  | cons r1 queue ih =>
    simp only [takeIntersecting, getNewLength_eq_length]
    split_ifs with hbeyond
    · exact ⟨[], by constructor <;> simp [growth, hbeyond]⟩
    · obtain ⟨taken, ht⟩ := ih (d + ((newText r1).length - (replaceRange r1).length))
        (first.or (some r1)) (some r1)
      refine ⟨r1 :: taken, ?_, ?_, ?_, ?_, ht.beyond, ?_⟩
      · rw [List.cons_append, ← ht.queue]
      · rw [ht.delta]
        simp only [patchesOf_cons, growth, toPatch_text,
          toPatch_stop, toPatch_start, OffsetRange.length]
        omega
      · rw [ht.first]
        cases first <;> simp
      · rw [ht.last]
        cases taken with
        | nil => rfl
        | cons t ts => simp [List.getLast?_cons]
      · intro l hl
        cases taken with
        | nil =>
          obtain rfl : r1 = l := by simpa using hl
          have hd := ht.delta
          simp only [patchesOf_nil, growth, toPatch_text,
            toPatch_stop, toPatch_start,
            OffsetRange.length] at hd ⊢
          omega
        | cons t ts => exact ht.within l (by simpa [List.getLast?_cons] using hl)

theorem toPatch_slice (r : T) (range rangeInReplacement : OffsetRange) :
    toPatch (BaseReplacement.slice r range rangeInReplacement) =
      ⟨range.start, range.endExclusive, rangeInReplacement.substring (newText r)⟩ := by
  rw [toPatch, BaseStringReplacement.slice_replaceRange, BaseStringReplacement.slice_newText]

theorem toPatch_slice_whole (r : T) (range : OffsetRange) (h : 0 ≤ ((newText r).length : Int)) :
    toPatch (BaseReplacement.slice r range ⟨0, (newText r).length, h⟩) =
      ⟨range.start, range.endExclusive, newText r⟩ := by
  simp [toPatch_slice, OffsetRange.substring, Text.substring]

theorem toPatch_slice_left (r : T) (range : OffsetRange) {m : Int} (h : 0 ≤ m) :
    toPatch (BaseReplacement.slice r range ⟨0, m, h⟩) =
      ⟨range.start, range.endExclusive, (newText r).take m.toNat⟩ := by
  simp [toPatch_slice, OffsetRange.substring, Text.substring]

theorem toPatch_slice_suffix (r : T) (range : OffsetRange) {n : ℕ} {m : Int} (hm : m = n)
    (h : m ≤ (newText r).length) :
    toPatch (BaseReplacement.slice r range ⟨m, (newText r).length, h⟩) =
      ⟨range.start, range.endExclusive, (newText r).drop n⟩ := by
  subst hm
  have hn : n ≤ (newText r).length := by omega
  simp only [toPatch_slice, OffsetRange.substring, Text.substring_of_le _ hn]
  rw [List.take_of_length_le (by rw [List.length_drop])]

theorem delta_spec (r : T) (d : Int) :
    ∃ moved, BaseReplacement.delta r d = .ok moved ∧
      toPatch moved = ⟨(replaceRange r).start + d, (replaceRange r).endExclusive + d, newText r⟩ := by
  simp only [BaseReplacement.delta, getNewLength_eq_length]
  rw [OffsetRange.create_of_le (Int.natCast_nonneg _)]
  exact ⟨_, rfl, toPatch_slice_whole r _ _⟩

/-- The part of the text that goes back to the queue. -/
theorem unshiftSuffix_spec {l : T} {suffixLength : Int} {n : ℕ} (queue : List T) (d : Int)
    (hpos : suffixLength > 0) (hn : ((newText l).length : Int) - suffixLength = n) :
    ∃ e, unshiftSuffix l suffixLength queue d =
        .ok (e :: queue, d - ((newText l).length - n)) ∧
      toPatch e = ⟨(replaceRange l).endExclusive, (replaceRange l).endExclusive,
        (newText l).drop n⟩ := by
  have hle : ((newText l).length : Int) - suffixLength ≤ (newText l).length := by omega
  have he := toPatch_slice_suffix l (OffsetRange.emptyAt (replaceRange l).endExclusive) hn hle
  have hlen : ((toPatch (BaseReplacement.slice l _ _)).text.length : Int) = _ :=
    congrArg (fun p => (p.text.length : Int)) he
  simp only [toPatch_text, List.length_drop] at hlen
  refine ⟨_, ?_, he⟩
  simp only [unshiftSuffix, if_pos hpos, OffsetRange.ofStartAndLength, add_zero,
    getNewLength_eq_length, OffsetRange.create_of_le (le_refl (replaceRange l).endExclusive),
    OffsetRange.create_of_le hle, bind, Except.bind, pure, Except.pure,
    BaseStringReplacement.slice_replaceRange, OffsetRange.length, sub_self, sub_zero]
  refine congrArg (fun k => Except.ok (_ :: queue, d - k)) ?_
  rw [← Int.natCast_sub (by omega)]
  exact hlen

/-- The queue lies behind the end of `r2` when its head does. -/
theorem fits_behind {r2 : T} {rs : List T}
    {E ps qs : List (Patch α)} {cut d stop : Int}
    (h : Sound base target ⟨E, cut, cut + d, ps ++ qs, patchesOf (r2 :: rs)⟩)
    (hstop : stop + (d + growth ps) = (replaceRange r2).endExclusive)
    (hhead : ∀ q ∈ qs.head?, stop ≤ q.start) : Fits stop base.length qs := by
  cases qs with
  | nil =>
    have hlen := h.length_rest
    have hfit := h.second.2.2.le
    simp only [List.append_nil, toPatch_stop] at hlen hfit
    change stop ≤ base.length
    omega
  | cons q qs =>
    obtain ⟨j, -, hq⟩ := fits_append.mp h.first
    exact ⟨hhead q rfl, hq.2⟩

/-- No replacement of the first edit touches `r2`: it is moved to the base's coordinates. -/
theorem follows_untouched {r2 : T} {rs queue result : List T}
    {d : Int} (h : Follows base target (r2 :: rs) ⟨queue, d, result⟩)
    (hbeyond : ∀ r1 ∈ queue.head?, (replaceRange r2).endExclusive < (replaceRange r1).start + d)
    {moved : T} (hmoved : toPatch moved = ⟨(replaceRange r2).start + -d,
      (replaceRange r2).endExclusive + -d, newText r2⟩) :
    Follows base target rs ⟨queue, d, result ++ [moved]⟩ := by
  obtain ⟨cut, hsound⟩ := h
  change Sound base target ⟨_, cut, cut + d, [] ++ patchesOf queue, _⟩ at hsound
  have hle := (replaceRange r2).le
  have hqueue : Fits ((replaceRange r2).endExclusive - d) base.length (patchesOf queue) := by
    refine fits_behind hsound (by simp [growth]) fun q hq => ?_
    cases queue with
    | nil => simp at hq
    | cons r1 queue =>
      obtain rfl : (toPatch r1) = q := by simpa using hq
      have := hbeyond r1 rfl
      simp only [toPatch_start]
      omega
  rw [patchesOf_cons] at hsound
  have hmerge := Sound.merge ((replaceRange r2).start - d) ((replaceRange r2).endExclusive - d) []
    hsound (by simp) (show (replaceRange r2).start - d ≤ (replaceRange r2).endExclusive - d by omega)
    hqueue (by simp [growth])
  refine ⟨(replaceRange r2).endExclusive - d, ?_⟩
  simpa [growth, hmoved, sub_eq_add_neg] using hmerge

/-- What remains of the first edit once the text behind `r2` has been cut off: `f` is
the first replacement that `r2` intersects and `x` the part of its text before the cut. -/
structure SuffixCut (base target : List α) (E : List (Patch α)) (cut d : Int)
    (f r2 : T) (rs queue : List T) (d' j : Int)
    (x : List α) (tail : List (Patch α)) : Prop where
  sound : Sound base target ⟨E, cut, cut + d,
    (⟨(replaceRange f).start, (replaceRange f).endExclusive, x⟩ :: tail) ++ patchesOf queue,
    patchesOf (r2 :: rs)⟩
  textPrefix : x <+: (newText f)
  prefixFits : (replaceRange r2).start - ((replaceRange f).start + d) ≤ x.length
  delta : d' = d + growth (⟨(replaceRange f).start, (replaceRange f).endExclusive, x⟩ :: tail)
  stop : j + d' = (replaceRange r2).endExclusive
  fits : Fits cut j (⟨(replaceRange f).start, (replaceRange f).endExclusive, x⟩ :: tail)
  queueFits : Fits j base.length (patchesOf queue)

/-- The text of `f` before `r2` is emitted on its own and the rest merged into `r2`. -/
theorem SuffixCut.follows {result rs queue tail} {cut d d' j : Int}
    {f r2 : T} {x : List α}
    (h : SuffixCut base target (patchesOf result) cut d f r2 rs queue d' j x tail) :
    ((replaceRange r2).start - ((replaceRange f).start + d) > 0 →
      (replaceRange f).start ≤ j ∧ ∀ before middle : T,
        toPatch before = ⟨(replaceRange f).start, (replaceRange f).start,
          (newText f).take ((replaceRange r2).start - ((replaceRange f).start + d)).toNat⟩ →
        toPatch middle = ⟨(replaceRange f).start, j, newText r2⟩ →
        Follows base target rs ⟨queue, d', (result ++ [before]) ++ [middle]⟩) ∧
    ((replaceRange r2).start - ((replaceRange f).start + d) ≤ 0 →
      (replaceRange r2).start - d ≤ j ∧ ∀ middle : T,
        toPatch middle = ⟨(replaceRange r2).start - d, j, newText r2⟩ →
        Follows base target rs ⟨queue, d', result ++ [middle]⟩) := by
  obtain ⟨hsound, hinit, hlen, rfl, hstop, hfits, hqueue⟩ := h
  have hf := (replaceRange f).le
  have hfstop : (replaceRange f).endExclusive ≤ j := hfits.2.2.le
  constructor
  · intro hpos
    refine ⟨by omega, fun before middle hbefore hmiddle => ⟨j, ?_⟩⟩
    set n := ((replaceRange r2).start - ((replaceRange f).start + d)).toNat with hn
    have hx : x = x.take n ++ x.drop n := (List.take_append_drop n x).symm
    have htake : (newText f).take n = x.take n := by
      obtain ⟨y, hy⟩ := hinit
      rw [← hy, List.take_append_of_le_length (by omega)]
    rw [patchesOf_cons] at hsound
    have hsecond := hsound.second
    have hbound := hsecond.1
    simp only [toPatch_start] at hbound
    have hcut := hsound.cutFirst (x := x.take n) (y := x.drop n) (replaceRange f).start []
      (show _ = [] ++ _ :: (tail ++ patchesOf queue) by rw [← hx]; rfl) le_rfl hf
    have hfcut : cut ≤ (replaceRange f).start := hfits.1
    have hcopy := hcut.copy (c := (replaceRange f).start) hfcut ⟨le_rfl, hcut.first.2⟩
      ⟨by simp only [toPatch_start]; omega, hcut.second.2⟩
    have hlen : (x.take n).length = n := by
      rw [List.length_take]
      omega
    have hemit := hcopy.emit (p := ⟨(replaceRange f).start, (replaceRange f).start, x.take n⟩)
      (show _ = _ :: (⟨(replaceRange f).start, (replaceRange f).endExclusive, x.drop n⟩ :: tail) ++
        patchesOf queue from rfl) rfl
      ⟨by simp only [toPatch_start, hlen]; omega, hcopy.second.2⟩
    have hmid : cut + d + ((replaceRange f).start - cut) + n =
        (replaceRange f).start + (d + n) := by omega
    have hgrowth : growth (⟨(replaceRange f).start, (replaceRange f).endExclusive, x.drop n⟩ :: tail) =
        growth (⟨(replaceRange f).start, (replaceRange f).endExclusive, x⟩ :: tail) - n := by
      simp only [growth, List.length_drop]
      omega
    simp only [hlen, hmid] at hemit
    have hmerge := hemit.merge (replaceRange f).start j _
      (by simp only [toPatch_start]; omega) ⟨le_rfl, hfits.2⟩ hqueue
      (by rw [hgrowth, toPatch_stop]; omega)
    rw [hgrowth] at hmerge
    have hd : d + (n : Int) +
        (growth (⟨(replaceRange f).start, (replaceRange f).endExclusive, x⟩ :: tail) - n) =
        d + growth (⟨(replaceRange f).start, (replaceRange f).endExclusive, x⟩ :: tail) := by omega
    rw [hd] at hmerge
    simpa [hbefore, hmiddle, htake] using hmerge
  · intro hneg
    have hfcut : cut ≤ (replaceRange f).start := hfits.1
    refine ⟨by omega, fun middle hmiddle => ⟨j, ?_⟩⟩
    rw [patchesOf_cons] at hsound
    have hmerge := hsound.merge ((replaceRange r2).start - d) j _
      (by simp) ⟨by simp only; omega, hfits.2⟩ hqueue hstop
    simpa [hmiddle] using hmerge

/-- `r2` ends at or behind the last replacement `l` it intersects: nothing is cut off. -/
theorem suffixCut_none {result rs queue tail : List T} {cut d d' : Int}
    {f l r2 : T}
    (h : Sound base target ⟨patchesOf result, cut, cut + d, patchesOf (f :: tail) ++ patchesOf queue,
      patchesOf (r2 :: rs)⟩)
    (hd : d' = d + growth (patchesOf (f :: tail)))
    (hfirst : (replaceRange r2).start ≤ (replaceRange f).start + d + (newText f).length)
    (hbeyond : ∀ r1 ∈ queue.head?, (replaceRange r2).endExclusive < (replaceRange r1).start + d')
    (hlast : Fits cut (replaceRange l).endExclusive (patchesOf (f :: tail)))
    (hend : (replaceRange l).endExclusive + d' ≤ (replaceRange r2).endExclusive) :
    SuffixCut base target (patchesOf result) cut d f r2 rs queue d'
      ((replaceRange r2).endExclusive - d') (newText f) (patchesOf tail) := by
  refine ⟨h, List.prefix_rfl, by omega, hd, by omega, hlast.mono_right (by omega), ?_⟩
  refine fits_behind h (by omega) fun q hq => ?_
  cases queue with
  | nil => simp at hq
  | cons r1 queue =>
    obtain rfl : (toPatch r1) = q := by simpa using hq
    have := hbeyond r1 rfl
    simp only [toPatch_start]
    omega

/-- The text of the last replacement `l` behind `r2` goes back to the queue. -/
theorem suffixCut_some {result rs queue init : List T} {cut d d' : Int}
    {f l r2 : T} {n : ℕ}
    (h : Sound base target ⟨patchesOf result, cut, cut + d,
      patchesOf init ++ (toPatch l) :: patchesOf queue, patchesOf (r2 :: rs)⟩)
    (hf : (init ++ [l]).head? = some f) (hd : d' = d + growth (patchesOf (init ++ [l])))
    (hfirst : (replaceRange r2).start ≤ (replaceRange f).start + d + (newText f).length)
    (hlast : Fits cut (replaceRange l).endExclusive (patchesOf (init ++ [l])))
    (hn : n + ((replaceRange l).endExclusive + d' - (replaceRange r2).endExclusive) =
      (newText l).length)
    (hpos : (replaceRange r2).endExclusive < (replaceRange l).endExclusive + d') {e : T}
    (he : toPatch e = ⟨(replaceRange l).endExclusive, (replaceRange l).endExclusive,
      (newText l).drop n⟩) :
    ∃ x tail, SuffixCut base target (patchesOf result) cut d f r2 rs (e :: queue)
      (d' - ((newText l).length - n)) (replaceRange l).endExclusive x tail := by
  have hle := (replaceRange l).le
  have hr := (replaceRange r2).le
  have htake : ((newText l).take n).length = n := by
    rw [List.length_take]
    omega
  have hl : (toPatch l) = ⟨(replaceRange l).start, (replaceRange l).endExclusive,
      (newText l).take n ++ (newText l).drop n⟩ := by
    rw [List.take_append_drop]
    rfl
  have hcut := h.cutFirst (replaceRange l).endExclusive (patchesOf init) (by rw [hl]) hle le_rfl
  rw [← he, ← patchesOf_cons] at hcut
  obtain ⟨j, -, -, -, hqueue⟩ := fits_append.mp hcut.first
  have hgrowth := growth_append (patchesOf init) (patchesOf [l])
  simp only [← patchesOf_append] at hgrowth
  simp only [patchesOf_cons, patchesOf_nil, growth, toPatch_text,
    toPatch_stop, toPatch_start] at hgrowth
  cases init with
  | nil =>
    obtain rfl : l = f := by simpa using hf
    simp only [patchesOf_nil, growth] at hgrowth
    refine ⟨(newText l).take n, [], hcut, List.take_prefix _ _, by omega, ?_, by omega, ?_, hqueue⟩
    · simp only [growth, htake]
      omega
    · exact hlast
  | cons i init =>
    obtain rfl : i = f := by simpa using hf
    refine ⟨(newText i), patchesOf init ++ [⟨(replaceRange l).start, (replaceRange l).endExclusive,
      (newText l).take n⟩], ?_, List.prefix_rfl, by omega, ?_, by omega, ?_, hqueue⟩
    · simpa [toPatch] using hcut
    · have happ := growth_append (patchesOf (i :: init)) [⟨(replaceRange l).start,
        (replaceRange l).endExclusive, (newText l).take n⟩]
      simp only [growth, htake] at happ
      change d' - _ = d + growth (patchesOf (i :: init) ++ _)
      omega
    · obtain ⟨m, hm, hl'⟩ := fits_append.mp (patchesOf_append (i :: init) [l] ▸ hlast)
      exact hm.append ⟨hl'.1, hl'.2.1, le_rfl⟩

/-- The emission of the prefix and of `r2` once the suffix has been cut off. -/
theorem mergeIntersecting_spec {result rs queue queue' : List T}
    {cut d d₁ d' j : Int} {f l r2 : T} {x : List α} {ps : List (Patch α)}
    (hsuffix : unshiftSuffix l ((replaceRange l).endExclusive + d₁ - (replaceRange r2).endExclusive)
      queue d₁ = .ok (queue', d'))
    (h : SuffixCut base target (patchesOf result) cut d f r2 rs queue' d' j x ps) :
    ∃ st', mergeIntersecting r2 f l d ⟨queue, d₁, result⟩ = .ok st' ∧
      Follows base target rs st' := by
  obtain ⟨hpos, hneg⟩ := h.follows
  have hj : (replaceRange r2).endExclusive - d' = j := by have := h.stop; omega
  by_cases hp : (replaceRange r2).start - ((replaceRange f).start + d) > 0
  · obtain ⟨hle, hfollows⟩ := hpos hp
    refine ⟨_, ?_, hfollows _ _ (toPatch_slice_left f (OffsetRange.emptyAt _) hp.lt.le)
      (toPatch_slice_whole r2 ⟨_, _, hle⟩ (Int.natCast_nonneg _))⟩
    have hmin : min (replaceRange f).start ((replaceRange r2).start - d) = (replaceRange f).start := by
      omega
    simp only [mergeIntersecting, getNewLength_eq_length, pushPrefix, if_pos hp, hsuffix,
      OffsetRange.create_of_le hp.lt.le, hmin, hj, OffsetRange.create_of_le hle,
      OffsetRange.create_of_le (Int.natCast_nonneg _), bind, Except.bind, pure, Except.pure]
  · obtain ⟨hle, hfollows⟩ := hneg (by omega)
    refine ⟨_, ?_, hfollows _ (toPatch_slice_whole r2 ⟨_, _, hle⟩ (Int.natCast_nonneg _))⟩
    have hmin : min (replaceRange f).start ((replaceRange r2).start - d) =
        (replaceRange r2).start - d := by omega
    simp only [mergeIntersecting, getNewLength_eq_length, pushPrefix, if_neg hp, hsuffix,
      hmin, hj, OffsetRange.create_of_le hle, OffsetRange.create_of_le (Int.natCast_nonneg _),
      bind, Except.bind, pure, Except.pure]

/-- Replacements of the first edit intersect `r2`: their covered part is merged into it. -/
theorem follows_intersecting {result rs queue init : List T} {d d' : Int}
    {f l r2 : T}
    (h : Follows base target (r2 :: rs) ⟨(init ++ [l]) ++ queue, d, result⟩)
    (hf : (init ++ [l]).head? = some f) (hd : d' = d + growth (patchesOf (init ++ [l])))
    (hfirst : (replaceRange r2).start ≤ (replaceRange f).start + d + (newText f).length)
    (hbeyond : ∀ r1 ∈ queue.head?, (replaceRange r2).endExclusive < (replaceRange r1).start + d')
    (hwithin : (replaceRange l).start + (d' - growth [(toPatch l)]) ≤ (replaceRange r2).endExclusive) :
    ∃ st', mergeIntersecting r2 f l d ⟨queue, d', result⟩ = .ok st' ∧
      Follows base target rs st' := by
  obtain ⟨cut, hsound⟩ := h
  rw [patchesOf_append] at hsound
  obtain ⟨j, hj, -⟩ := fits_append.mp hsound.first
  have hlast : Fits cut (replaceRange l).endExclusive (patchesOf (init ++ [l])) := by
    rw [patchesOf_append] at hj ⊢
    obtain ⟨m, hm, hl⟩ := fits_append.mp hj
    exact hm.append ⟨hl.1, hl.2.1, le_rfl⟩
  simp only [growth, toPatch_text, toPatch_stop,
    toPatch_start] at hwithin
  by_cases hs : (replaceRange l).endExclusive + d' - (replaceRange r2).endExclusive > 0
  · obtain ⟨n, hn⟩ : ∃ n : ℕ, ((newText l).length : Int) -
        ((replaceRange l).endExclusive + d' - (replaceRange r2).endExclusive) = n :=
      Int.eq_ofNat_of_zero_le (by omega)
    rw [patchesOf_append, List.append_assoc (patchesOf init)] at hsound
    change Sound base target ⟨patchesOf result, cut, cut + d,
      patchesOf init ++ (toPatch l) :: patchesOf queue, _⟩ at hsound
    obtain ⟨e, hsuffix, he⟩ := unshiftSuffix_spec queue d' hs hn
    obtain ⟨x, ps, hcut⟩ := suffixCut_some hsound hf hd hfirst hlast (n := n) (by omega)
      (by omega) he
    exact mergeIntersecting_spec hsuffix hcut
  · obtain ⟨tail, htail⟩ : ∃ tail, init ++ [l] = f :: tail := by
      cases hc : init ++ [l] with
      | nil => simp at hc
      | cons a as =>
        obtain rfl : a = f := by simpa [hc] using hf
        exact ⟨as, rfl⟩
    rw [htail] at hsound hd hlast
    refine mergeIntersecting_spec ?_
      (suffixCut_none hsound hd hfirst hbeyond hlast (by omega))
    rw [unshiftSuffix, if_neg hs]

/-- One iteration of the loop keeps the invariant and does not fail. -/
theorem composeStep_spec {r2 : T} {rs : List T}
    {st : ComposeState T} (h : Follows base target (r2 :: rs) st) :
    ∃ st', composeStep r2 st = .ok st' ∧ Follows base target rs st' := by
  obtain ⟨hcopied, htouch⟩ := copyUntouched_spec h
  unfold composeStep
  generalize copyUntouched r2 st.edit1Queue st.edit1ToEdit2 st.result = s at hcopied htouch
  obtain ⟨queue, d, result⟩ := s
  obtain ⟨taken, ht⟩ := takeIntersecting_spec r2 queue d none none
  rcases hout : takeIntersecting r2 queue d none none with ⟨queue', d', first, last⟩
  rw [hout] at ht
  obtain ⟨hq, hd, hfirst, hlast, hbeyond, hwithin⟩ := ht
  simp only at hq hd hfirst hlast hbeyond hwithin htouch
  simp only [hout]
  subst hq
  rcases taken.eq_nil_or_concat' with rfl | ⟨init, l, rfl⟩
  · -- nothing intersects `r2`
    simp only [List.head?_nil, Option.or_none] at hfirst
    obtain rfl : d' = d := by simpa [growth] using hd
    subst hfirst
    obtain ⟨moved, hdelta, hmoved⟩ := delta_spec r2 (-d')
    refine ⟨_, ?_, follows_untouched hcopied hbeyond hmoved⟩
    simp only [hdelta]
    rfl
  · obtain ⟨f, hf⟩ : ∃ f, (init ++ [l]).head? = some f :=
      Option.isSome_iff_exists.mp (by cases init <;> rfl)
    obtain rfl : first = some f := by rw [hfirst, hf, Option.none_or]
    obtain rfl : last = some l := by simpa using hlast
    have htouch' := htouch f (by rw [List.head?_append, hf, Option.some_or]; rfl)
    exact follows_intersecting hcopied hf hd htouch' hbeyond (hwithin l (by simp))

theorem composeLoop_spec {rs : List T} {st : ComposeState T}
    (h : Follows base target rs st) :
    ∃ st', composeLoop rs st = .ok st' ∧ Follows base target [] st' := by
  induction rs generalizing st with
  | nil => exact ⟨st, rfl, h⟩
  | cons r2 rs ih =>
    obtain ⟨s, hs, hfollows⟩ := composeStep_spec h
    obtain ⟨st', hst', h'⟩ := ih hfollows
    refine ⟨st', ?_, h'⟩
    simp only [composeLoop, hs]
    exact hst'

/-- Composition never fails, is sequential application, and ends with a normalisation. -/
theorem BaseEdit.compose_spec (base : List α) (e other : BaseEdit T) (he : e.Inside base.length)
    (ho : other.Inside (BaseStringEdit.apply e base).length) :
    ∃ composed : BaseEdit T, e.compose other = .ok composed ∧ composed.Inside base.length ∧
      BaseStringEdit.apply composed base =
        BaseStringEdit.apply other (BaseStringEdit.apply e base) ∧
      ∃ raw : BaseEdit T, raw.normalize = .ok composed := by
  obtain ⟨e1, he1, hw1, happ1⟩ := BaseEdit.normalize_spec he
  obtain ⟨e2, he2, hw2, happ2⟩ := BaseEdit.normalize_spec ho
  specialize happ1 base rfl
  specialize happ2 (BaseStringEdit.apply e base) rfl
  rw [← happ2, ← happ1]
  rw [← happ1] at hw2
  simp only [BaseEdit.compose, he1, he2]
  by_cases h1 : e1.isEmpty
  · have hnil : e1.replacements = [] := List.isEmpty_iff.mp h1
    have hsame : BaseStringEdit.apply e1 base = base := by
      simp [BaseStringEdit.apply, hnil, BaseStringEdit.applyFrom, Text.substringFrom]
    rw [hsame] at hw2 ⊢
    exact ⟨e2, by simp [h1, bind, Except.bind, pure, Except.pure], hw2, rfl, other, he2⟩
  by_cases h2 : e2.isEmpty
  · have hnil : e2.replacements = [] := List.isEmpty_iff.mp h2
    refine ⟨e1, by simp [h1, h2, bind, Except.bind, pure, Except.pure], hw1, ?_, e, he1⟩
    simp [BaseStringEdit.apply, hnil, BaseStringEdit.applyFrom, Text.substringFrom]
  have hsound : Sound base (BaseStringEdit.apply e2 (BaseStringEdit.apply e1 base))
      ⟨[], 0, 0, patchesOf e1.replacements, patchesOf e2.replacements⟩ := by
    rw [hw2.apply_eq_run, hw1.apply_eq_run]
    refine Sound.init hw1.fits ?_
    rw [← hw1.apply_eq_run]
    exact hw2.fits
  have hinit : Follows base (BaseStringEdit.apply e2 (BaseStringEdit.apply e1 base))
      e2.replacements ⟨e1.replacements, 0, []⟩ := ⟨0, by simpa using hsound⟩
  obtain ⟨st, hst, cut, hdone⟩ := composeLoop_spec hinit
  obtain ⟨hfits, hrun⟩ := hdone.finish rfl
  rw [← patchesOf_append] at hfits hrun
  obtain ⟨joined, hjoined, hrep⟩ := createNew_of_patches hfits
  have hinside : joined.Inside base.length := inside_of_fits (by rwa [hrep])
  obtain ⟨composed, hcomposed, hcomposedi, happ⟩ := BaseEdit.normalize_spec hinside
  refine ⟨composed, ?_, hcomposedi, ?_, joined, hcomposed⟩
  · simp [h1, h2, hst, hjoined, hcomposed, bind, Except.bind]
  · rw [happ base rfl, hinside.apply_eq_run, hrep]
    exact hrun

end NexgileIde.Edits
