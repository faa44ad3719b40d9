import NexgileIde.Edits.OffsetRange
import NexgileIde.Library.Patch

/-!
# Edits over an abstract replacement type

An edit is a list of replacements whose ranges are disjoint and sorted, which the
constructor checks. Normalisation and composition only use the operations that
every replacement type provides: its range, its new length, joining with a
touching successor, and slicing.
-/
namespace NexgileIde.Edits

/-- What an edit needs to know about its replacements. -/
class BaseReplacement (T : Type) where
  replaceRange : T → OffsetRange
  getNewLength : T → Int
  tryJoinTouching : T → T → Except BugIndicatingError (Option T)
  slice : T → OffsetRange → OffsetRange → T

export BaseReplacement (replaceRange getNewLength)

variable {T : Type} [BaseReplacement T]

/-- The loop of the edit constructor. -/
def checkSorted : Int → List T → Except BugIndicatingError Unit
  | _, [] => .ok ()
  | lastEndEx, replacement :: rest =>
    if ¬ lastEndEx ≤ (replaceRange replacement).start then
      .error (.notDisjointAndSorted (replaceRange replacement).start
        (replaceRange replacement).endExclusive lastEndEx)
    else checkSorted (replaceRange replacement).endExclusive rest

structure BaseEdit (T : Type) [BaseReplacement T] where
  replacements : List T
  sorted : checkSorted (-1) replacements = .ok ()

/-- `new Edit(replacements)` -/
def BaseEdit.createNew (replacements : List T) : Except BugIndicatingError (BaseEdit T) :=
  match h : checkSorted (-1) replacements with
  | .ok () => .ok ⟨replacements, h⟩
  | .error e => .error e

def BaseEdit.isEmpty (e : BaseEdit T) : Bool := e.replacements.isEmpty

def BaseReplacement.delta (r : T) (offset : Int) : Except BugIndicatingError T := do
  let whole ← OffsetRange.create 0 (getNewLength r)
  return slice r ((replaceRange r).delta offset) whole

/-- Joins touching replacements and drops empty ones. `last` is the pending replacement. -/
def normalizeLoop : Option T → List T → Except BugIndicatingError (List T)
  | last, [] => .ok last.toList
  | last, r :: rest =>
    if getNewLength r = 0 ∧ (replaceRange r).length = 0 then normalizeLoop last rest
    else match last with
      | none => normalizeLoop (some r) rest
      | some l =>
        if (replaceRange l).endExclusive = (replaceRange r).start then do
          match ← BaseReplacement.tryJoinTouching l r with
          | some joined => normalizeLoop (some joined) rest
          | none => return l :: (← normalizeLoop (some r) rest)
        else return l :: (← normalizeLoop (some r) rest)

def BaseEdit.normalize (e : BaseEdit T) : Except BugIndicatingError (BaseEdit T) := do
  BaseEdit.createNew (← normalizeLoop none e.replacements)

/-- The variables of the composition loop: the replacements of the first edit not
yet used, the offset from the first to the second edit's coordinates, and the
result so far. -/
structure ComposeState (T : Type) where
  edit1Queue : List T
  edit1ToEdit2 : Int
  result : List T

/-- Copy over the first edit unmodified until it touches the second one. -/
def copyUntouched (r2 : T) : List T → Int → List T → ComposeState T
  | [], d, result => ⟨[], d, result⟩
  | r1 :: queue, d, result =>
    if (replaceRange r1).start + d + getNewLength r1 ≥ (replaceRange r2).start then
      ⟨r1 :: queue, d, result⟩
    else
      copyUntouched r2 queue (d + (getNewLength r1 - (replaceRange r1).length)) (result ++ [r1])

/-- Take the replacements of the first edit that intersect or touch `r2` off the
queue, remembering the first and the last of them. -/
def takeIntersecting (r2 : T) :
    List T → Int → Option T → Option T → List T × Int × Option T × Option T
  | [], d, first, last => ([], d, first, last)
  | r1 :: queue, d, first, last =>
    if (replaceRange r1).start + d > (replaceRange r2).endExclusive then
      (r1 :: queue, d, first, last)
    else
      takeIntersecting r2 queue (d + (getNewLength r1 - (replaceRange r1).length))
        (first.or (some r1)) (some r1)

/-- Push the text of the first intersecting replacement that lies before `r2`. -/
def pushPrefix (firstIntersecting : T) (newReplaceRangeStart prefixLength : Int)
    (result : List T) : Except BugIndicatingError (List T) :=
  if prefixLength > 0 then do
    let kept ← OffsetRange.create 0 prefixLength
    return result ++
      [BaseReplacement.slice firstIntersecting (OffsetRange.emptyAt newReplaceRangeStart) kept]
  else .ok result

/-- Put the text of the last intersecting replacement that lies behind `r2` back. -/
def unshiftSuffix (lastIntersecting : T) (suffixLength : Int) (edit1Queue : List T)
    (edit1ToEdit2 : Int) : Except BugIndicatingError (List T × Int) :=
  if suffixLength > 0 then do
    let range ← OffsetRange.ofStartAndLength (replaceRange lastIntersecting).endExclusive 0
    let kept ← OffsetRange.create (getNewLength lastIntersecting - suffixLength)
      (getNewLength lastIntersecting)
    let e := BaseReplacement.slice lastIntersecting range kept
    return (e :: edit1Queue, edit1ToEdit2 - (getNewLength e - (replaceRange e).length))
  else .ok (edit1Queue, edit1ToEdit2)

/-- `r2` takes the place of the replacements it intersects, cut to what it covers. -/
def mergeIntersecting (r2 firstIntersecting lastIntersecting : T) (firstEdit1ToEdit2 : Int)
    (s : ComposeState T) : Except BugIndicatingError (ComposeState T) := do
  let newReplaceRangeStart := min (replaceRange firstIntersecting).start
    ((replaceRange r2).start - firstEdit1ToEdit2)
  let prefixLength := (replaceRange r2).start -
    ((replaceRange firstIntersecting).start + firstEdit1ToEdit2)
  let result ← pushPrefix firstIntersecting newReplaceRangeStart prefixLength s.result
  let suffixLength := ((replaceRange lastIntersecting).endExclusive + s.edit1ToEdit2) -
    (replaceRange r2).endExclusive
  let (edit1Queue, edit1ToEdit2) ←
    unshiftSuffix lastIntersecting suffixLength s.edit1Queue s.edit1ToEdit2
  let newReplaceRange ← OffsetRange.create newReplaceRangeStart
    ((replaceRange r2).endExclusive - edit1ToEdit2)
  let whole ← OffsetRange.create 0 (getNewLength r2)
  return ⟨edit1Queue, edit1ToEdit2, result ++ [BaseReplacement.slice r2 newReplaceRange whole]⟩

/-- One iteration of the composition loop, for the replacement `r2` of the second edit. -/
def composeStep (r2 : T) (s : ComposeState T) : Except BugIndicatingError (ComposeState T) :=
  let s := copyUntouched r2 s.edit1Queue s.edit1ToEdit2 s.result
  match takeIntersecting r2 s.edit1Queue s.edit1ToEdit2 none none with
  | (edit1Queue, edit1ToEdit2, none, _) => do
    return ⟨edit1Queue, edit1ToEdit2,
      s.result ++ [← BaseReplacement.delta r2 (-edit1ToEdit2)]⟩
  | (_, _, some _, none) => .error .lastIntersectingUndefined
  | (edit1Queue, edit1ToEdit2, some firstIntersecting, some lastIntersecting) =>
    mergeIntersecting r2 firstIntersecting lastIntersecting s.edit1ToEdit2
      ⟨edit1Queue, edit1ToEdit2, s.result⟩

def composeLoop : List T → ComposeState T → Except BugIndicatingError (ComposeState T)
  | [], s => .ok s
  | r2 :: rest, s => do composeLoop rest (← composeStep r2 s)

/-- Combines two edits into one with the same effect. -/
def BaseEdit.compose (e other : BaseEdit T) : Except BugIndicatingError (BaseEdit T) := do
  let edits1 ← e.normalize
  let edits2 ← other.normalize
  if edits1.isEmpty then return edits2
  if edits2.isEmpty then return edits1
  let s ← composeLoop edits2.replacements ⟨edits1.replacements, 0, []⟩
  (← BaseEdit.createNew (s.result ++ s.edit1Queue)).normalize

end NexgileIde.Edits

/-!
## The patches an edit denotes

Replacements that carry a text denote patches, whatever else they carry. The laws
of this class are all that the effect of an edit, its normalisation and its
composition depend on; plain and annotated string replacements satisfy them.
-/
namespace NexgileIde.Edits

open Library

/-- Replacements with a text over `α`: code units, or code units with their provenance. -/
class BaseStringReplacement (T : Type) (α : outParam Type) [BaseReplacement T] where
  newText : T → List α
  getNewLength_eq : ∀ r : T, getNewLength r = ((newText r).length : Int)
  slice_replaceRange : ∀ (r : T) (range rangeInReplacement : OffsetRange),
    replaceRange (BaseReplacement.slice r range rangeInReplacement) = range
  slice_newText : ∀ (r : T) (range rangeInReplacement : OffsetRange),
    newText (BaseReplacement.slice r range rangeInReplacement) =
      rangeInReplacement.substring (newText r)
  joins : ∀ l r : T, (replaceRange l).endExclusive = (replaceRange r).start →
    BaseReplacement.tryJoinTouching l r = .ok none ∨
      ∃ joined, BaseReplacement.tryJoinTouching l r = .ok (some joined) ∧
        (replaceRange joined).start = (replaceRange l).start ∧
        (replaceRange joined).endExclusive = (replaceRange r).endExclusive ∧
        newText joined = newText l ++ newText r

export BaseStringReplacement (newText)

variable {T α : Type} [BaseReplacement T] [BaseStringReplacement T α]

/-- The loop of `BaseStringEdit.apply`. -/
def BaseStringEdit.applyFrom (base : List α) : Int → List T → List α
  | pos, [] => Text.substringFrom base pos
  | pos, edit :: rest =>
    Text.substring base pos (replaceRange edit).start ++ newText edit ++
      BaseStringEdit.applyFrom base (replaceRange edit).endExclusive rest

def BaseStringEdit.apply (e : BaseEdit T) (base : List α) : List α :=
  BaseStringEdit.applyFrom base 0 e.replacements

def toPatch (r : T) : Patch α :=
  ⟨(replaceRange r).start, (replaceRange r).endExclusive, newText r⟩

@[simp] theorem toPatch_start (r : T) : (toPatch r).start = (replaceRange r).start := rfl
@[simp] theorem toPatch_stop (r : T) : (toPatch r).stop = (replaceRange r).endExclusive := rfl
@[simp] theorem toPatch_text (r : T) : (toPatch r).text = newText r := rfl

def patchesOf (rs : List T) : List (Patch α) := rs.map toPatch

@[simp] theorem patchesOf_nil : patchesOf ([] : List T) = [] := rfl
@[simp] theorem patchesOf_cons (r : T) (rs : List T) :
    patchesOf (r :: rs) = toPatch r :: patchesOf rs := rfl
@[simp] theorem patchesOf_append (rs rs' : List T) :
    patchesOf (rs ++ rs') = patchesOf rs ++ patchesOf rs' := List.map_append

/-- Every replaced range lies in a text of length `n`. -/
def BaseEdit.Inside {T : Type} [BaseReplacement T] (e : BaseEdit T) (n : ℕ) : Prop :=
  ∀ r ∈ e.replacements, 0 ≤ (replaceRange r).start ∧ (replaceRange r).endExclusive ≤ n

/-- What the constructor of edits checks, as a statement. -/
def SortedFrom {T : Type} [BaseReplacement T] : Int → List T → Prop
  | _, [] => True
  | k, r :: rs => k ≤ (replaceRange r).start ∧ SortedFrom (replaceRange r).endExclusive rs

theorem checkSorted_eq_ok {T : Type} [BaseReplacement T] {k : Int} {rs : List T} :
    checkSorted k rs = .ok () ↔ SortedFrom k rs := by
  induction rs generalizing k with
  | nil => simp [checkSorted, SortedFrom]
  | cons r rs ih =>
    simp only [checkSorted, SortedFrom]
    split_ifs with hstart
    · simp [hstart, ih]
    · simp [hstart]

theorem sortedFrom_of_fits {k n : Int} {rs : List T} (h : Patch.Fits k n (patchesOf rs)) :
    SortedFrom k rs := by
  induction rs generalizing k with
  | nil => trivial
  | cons r rs ih => exact ⟨h.1, ih h.2.2⟩

theorem SortedFrom.fits {k n : Int} {rs : List T} (h : SortedFrom k rs)
    (hn : ∀ r ∈ rs, (replaceRange r).endExclusive ≤ n) (hk : k ≤ n) :
    Patch.Fits k n (patchesOf rs) := by
  induction rs generalizing k with
  | nil => exact hk
  | cons r rs ih =>
    exact ⟨h.1, (replaceRange r).le, ih h.2 (fun r' hr' => hn r' (by simp [hr'])) (hn r (by simp))⟩

/-- An edit inside a text of length `n` denotes patches that fit into the text. -/
theorem BaseEdit.Inside.fits {e : BaseEdit T} {n : ℕ} (h : e.Inside n) :
    Patch.Fits 0 n (patchesOf e.replacements) := by
  have hfit := (checkSorted_eq_ok.mp e.sorted).fits (fun r hr => (h r hr).2)
    (by omega : (-1 : Int) ≤ n)
  cases hr : e.replacements with
  | nil => exact Int.natCast_nonneg n
  | cons r rs =>
    rw [hr] at hfit
    exact ⟨(h r (by simp [hr])).1, hfit.2⟩

theorem BaseStringEdit.applyFrom_eq_run {base : List α} {pos : Int} {rs : List T} (hpos : 0 ≤ pos)
    (h : Patch.Fits pos base.length (patchesOf rs)) :
    BaseStringEdit.applyFrom base pos rs =
      Patch.run pos (patchesOf rs) (base.drop pos.toNat) := by
  induction rs generalizing pos with
  | nil => rfl
  | cons r rs ih =>
    obtain ⟨h1, h2, h3⟩ := h
    simp only [toPatch_start, toPatch_stop] at h1 h2 h3
    have hle : pos.toNat ≤ (replaceRange r).start.toNat := Int.toNat_le_toNat h1
    have hmin : min pos.toNat (replaceRange r).start.toNat = pos.toNat := min_eq_left hle
    have hlen : max pos.toNat (replaceRange r).start.toNat - pos.toNat =
        ((replaceRange r).start - pos).toNat := by
      rw [max_eq_right hle, Int.toNat_sub'' (hpos.trans h1) hpos]
    have hdrop : pos.toNat + ((replaceRange r).endExclusive - pos).toNat =
        (replaceRange r).endExclusive.toNat := by
      rw [← Int.toNat_add hpos (by omega), add_sub_cancel]
    rw [BaseStringEdit.applyFrom, ih (by omega) h3, patchesOf_cons, Patch.run_cons, Text.substring,
      hmin, hlen, List.drop_drop]
    simp only [toPatch_start, toPatch_stop, toPatch_text, hdrop, List.append_assoc]

theorem BaseEdit.Inside.apply_eq_run {e : BaseEdit T} {base : List α} (h : e.Inside base.length) :
    BaseStringEdit.apply e base = Patch.run 0 (patchesOf e.replacements) base := by
  rw [BaseStringEdit.apply, BaseStringEdit.applyFrom_eq_run le_rfl h.fits]
  rfl

/-- The constructor accepts replacements that fit into some text. -/
theorem createNew_of_patches {n : Int} {rs : List T} (h : Patch.Fits 0 n (patchesOf rs)) :
    ∃ e : BaseEdit T, BaseEdit.createNew rs = .ok e ∧ e.replacements = rs := by
  have hs : checkSorted (-1) rs = .ok () :=
    checkSorted_eq_ok.mpr (sortedFrom_of_fits (h.mono_left (by omega)))
  refine ⟨⟨rs, hs⟩, ?_, rfl⟩
  unfold BaseEdit.createNew
  split
  · rfl
  · rename_i e he
    rw [hs] at he
    cases he

theorem inside_of_fits {n : ℕ} {e : BaseEdit T}
    (h : Patch.Fits 0 n (patchesOf e.replacements)) : e.Inside n := by
  intro r hr
  obtain ⟨l₁, l₂, hl⟩ := List.append_of_mem hr
  rw [hl, patchesOf_append, patchesOf_cons] at h
  obtain ⟨m, hm, h1, h2, h3⟩ := Patch.fits_append.mp h
  exact ⟨hm.le.trans h1, h3.le⟩

theorem toPatch_of_empty {r : T} (hlen : getNewLength r = 0)
    (hrange : (replaceRange r).length = 0) :
    toPatch r = ⟨(replaceRange r).start, (replaceRange r).start, []⟩ := by
  rw [BaseStringReplacement.getNewLength_eq] at hlen
  simp only [OffsetRange.length] at hrange
  simp only [toPatch, Patch.mk.injEq, true_and]
  exact ⟨by omega, List.eq_nil_of_length_eq_zero (by omega)⟩

/-- What `normalizeLoop` promises for the replacements `rs` on a base from offset `k` on. -/
def Normalizes (k n : Int) (rs : List T) (result : Except BugIndicatingError (List T)) : Prop :=
  ∃ out, result = .ok out ∧ Patch.Fits k n (patchesOf out) ∧
    ∀ t : List α, n ≤ k + t.length → Patch.run k (patchesOf out) t = Patch.run k (patchesOf rs) t

theorem Normalizes.push {k n : Int} {l : T} {rs : List T}
    {result : Except BugIndicatingError (List T)}
    (h : Normalizes (replaceRange l).endExclusive n rs result) (hk : k ≤ (replaceRange l).start) :
    Normalizes k n (l :: rs) (do return l :: (← result)) := by
  obtain ⟨out, rfl, hfit, hrun⟩ := h
  have hle := (replaceRange l).le
  refine ⟨l :: out, rfl, ⟨hk, hle, hfit⟩, fun t ht => ?_⟩
  have hstop := hfit.le
  simp only [patchesOf_cons, Patch.run_cons, toPatch_start, toPatch_stop]
  rw [hrun]
  rw [List.length_drop]
  omega

/-- Normalising keeps the effect of the replacements and their order. -/
theorem normalizeLoop_spec {k n : Int} (last : Option T) (rs : List T)
    (h : Patch.Fits k n (patchesOf (last.toList ++ rs))) :
    Normalizes k n (last.toList ++ rs) (normalizeLoop last rs) := by
  induction rs generalizing k last with
  | nil => exact ⟨last.toList, by cases last <;> rfl, by simpa using h, fun t _ => by simp⟩
  | cons r rs ih =>
    cases last with
    | none =>
      simp only [normalizeLoop, Option.toList_none, List.nil_append]
      split_ifs with hempty
      · have hr := toPatch_of_empty hempty.1 hempty.2
        simp only [Option.toList_none, List.nil_append, patchesOf_cons, hr] at h
        obtain ⟨out, ho, hfit, hrun⟩ := ih none (h.2.2.mono_left h.1)
        refine ⟨out, ho, hfit, fun t ht => ?_⟩
        have hle := h.2.2.le
        simp only at hle
        rw [hrun t ht, patchesOf_cons, hr, Patch.run_empty h (by omega)]
        rfl
      · exact ih (some r) h
    | some l =>
      simp only [Option.toList_some, List.singleton_append, patchesOf_cons] at h
      simp only [normalizeLoop, Option.toList_some, List.singleton_append]
      split_ifs with hempty htouch
      · have hr := toPatch_of_empty hempty.1 hempty.2
        rw [hr] at h
        obtain ⟨out, ho, hfit, hrun⟩ := ih (some l) ⟨h.1, h.2.1, h.2.2.2.2.mono_left h.2.2.1⟩
        refine ⟨out, ho, hfit, fun t ht => ?_⟩
        have hle := h.2.2.2.2.le
        have h1 := h.1
        have h2 := h.2.1
        simp only [toPatch_start, toPatch_stop] at hle h1 h2
        have hskip := Patch.run_empty (t := t.drop ((toPatch l).stop - k).toNat) h.2.2
          (by rw [List.length_drop]; simp only [toPatch_stop]; omega)
        rw [hrun t ht, Option.toList_some, List.singleton_append, patchesOf_cons, patchesOf_cons,
          patchesOf_cons, hr, Patch.run_cons k (toPatch l) (patchesOf rs),
          Patch.run_cons k (toPatch l) (_ :: _), hskip]
      · rcases BaseStringReplacement.joins l r htouch with hnone | ⟨joined, hjoin, hs, he, htext⟩
        · rw [hnone]
          exact (ih (some r) h.2.2).push h.1
        · have hl : toPatch l = ⟨(replaceRange l).start, (replaceRange r).start, newText l⟩ := by
            rw [toPatch, htouch]
          have hr : toPatch r =
              ⟨(replaceRange r).start, (replaceRange r).endExclusive, newText r⟩ := rfl
          have hj : toPatch joined = ⟨(replaceRange l).start, (replaceRange r).endExclusive,
              newText l ++ newText r⟩ := by
            rw [toPatch, hs, he, htext]
          rw [hl, hr] at h
          have hfits := h.join
          rw [← hj] at hfits
          obtain ⟨out, ho, hfit, hrun⟩ := ih (some joined) hfits
          refine ⟨out, ?_, hfit, fun t ht => ?_⟩
          · rw [← ho, hjoin]
            rfl
          · rw [hrun t ht, patchesOf_cons, patchesOf_cons, hl, hr, Patch.run_join h, ← hj]
            rfl
      · exact (ih (some r) h.2.2).push h.1

/-- Normalising neither fails nor changes the effect. -/
theorem BaseEdit.normalize_spec {e : BaseEdit T} {n : ℕ} (h : e.Inside n) :
    ∃ e' : BaseEdit T, e.normalize = .ok e' ∧ e'.Inside n ∧
      ∀ base : List α, n = base.length →
        BaseStringEdit.apply e' base = BaseStringEdit.apply e base := by
  obtain ⟨out, ho, hfit, hrun⟩ := normalizeLoop_spec none e.replacements h.fits
  obtain ⟨e', he', hrep⟩ := createNew_of_patches hfit
  have hinside : e'.Inside n := inside_of_fits (by rwa [hrep])
  refine ⟨e', ?_, hinside, fun base hbase => ?_⟩
  · simp only [BaseEdit.normalize, ho]
    exact he'
  · subst hbase
    rw [hinside.apply_eq_run, h.apply_eq_run, hrep, hrun base (by omega)]
    rfl

end NexgileIde.Edits
