import NexgileIde.Edits.OffsetRange

/-!
# Diffs of sequences

A diff replaces a range of the first sequence by a range of the second one. A list of diffs is an
alignment if what lies between them is a run of equal elements on both sides, and this run is not
empty between two diffs.
-/

namespace NexgileIde.Diff

open Edits

/-- Elements of type `E`, boundary scores of type `N` -/
structure ISequence (E N : Type) where
  length : ℕ
  getElement : ℤ → E
  isStronglyEqual : ℤ → ℤ → Bool
  getBoundaryScore : Option (ℤ → N)

structure SequenceDiff where
  seq1Range : OffsetRange
  seq2Range : OffsetRange
  deriving DecidableEq

namespace SequenceDiff

/-- `new SequenceDiff(new OffsetRange(..), new OffsetRange(..))` -/
def create (start1 end1 start2 end2 : ℤ) : Except BugIndicatingError SequenceDiff := do
  let seq1Range ← OffsetRange.create start1 end1
  let seq2Range ← OffsetRange.create start2 end2
  return ⟨seq1Range, seq2Range⟩

theorem create_of_le {start1 end1 start2 end2 : ℤ} (h1 : start1 ≤ end1) (h2 : start2 ≤ end2) :
    create start1 end1 start2 end2 = .ok ⟨⟨start1, end1, h1⟩, ⟨start2, end2, h2⟩⟩ := by
  unfold create
  rw [OffsetRange.create_of_le h1, OffsetRange.create_of_le h2]
  rfl

def swap (d : SequenceDiff) : SequenceDiff := ⟨d.seq2Range, d.seq1Range⟩

def delta (d : SequenceDiff) (offset : ℤ) : SequenceDiff :=
  ⟨d.seq1Range.delta offset, d.seq2Range.delta offset⟩

@[simp] theorem delta_seq1Range (d : SequenceDiff) (offset : ℤ) :
    (d.delta offset).seq1Range = d.seq1Range.delta offset := rfl

@[simp] theorem delta_seq2Range (d : SequenceDiff) (offset : ℤ) :
    (d.delta offset).seq2Range = d.seq2Range.delta offset := rfl

theorem delta_zero (d : SequenceDiff) : d.delta 0 = d := by
  obtain ⟨⟨start1, end1, h1⟩, ⟨start2, end2, h2⟩⟩ := d
  simp [delta, OffsetRange.delta]

theorem delta_swap (d : SequenceDiff) (offset : ℤ) :
    (d.swap.delta offset).swap = d.delta offset := rfl

end SequenceDiff

/-- How many elements of the first sequence are removed -/
def removed (diffs : List SequenceDiff) : ℤ := (diffs.map fun d => d.seq1Range.length).sum

/-- How many elements of the second sequence are inserted -/
def inserted (diffs : List SequenceDiff) : ℤ := (diffs.map fun d => d.seq2Range.length).sum

variable {E N : Type} {s1 s2 : ISequence E N}

/-- From one pair of offsets to another one, at least `least` elements are equal in order. -/
structure EqualRun (s1 s2 : ISequence E N) (least start1 start2 end1 end2 : ℤ) : Prop where
  least_le : least ≤ end1 - start1
  same : end1 - start1 = end2 - start2
  equal : ∀ k, 0 ≤ k → k < end1 - start1 →
    s1.getElement (start1 + k) = s2.getElement (start2 + k)

/-- The diffs are sorted behind a pair of offsets and leave only equal elements out: at least
`least` ones before the first diff, and at least one before each other diff. -/
def Aligned (s1 s2 : ISequence E N) (least start1 start2 : ℤ) : List SequenceDiff → Prop
  | [] => EqualRun s1 s2 0 start1 start2 s1.length s2.length
  | d :: ds =>
    EqualRun s1 s2 least start1 start2 d.seq1Range.start d.seq2Range.start ∧
      Aligned s1 s2 1 d.seq1Range.endExclusive d.seq2Range.endExclusive ds

namespace EqualRun

variable {least least' i j i' j' k l n : ℤ}

theorem swap (h : EqualRun s1 s2 least i j k l) : EqualRun s2 s1 least j i l k where
  least_le := h.same ▸ h.least_le
  same := h.same.symm
  equal m hm hlt := (h.equal m hm (by rwa [h.same])).symm

theorem append (h : EqualRun s1 s2 n i j i' j') (h' : EqualRun s1 s2 least i' j' k l)
    (hn : 0 ≤ n) : EqualRun s1 s2 least i j k l where
  least_le := by
    have := h.least_le
    have := h'.least_le
    omega
  same := by
    have := h.same
    have := h'.same
    omega
  equal m hm hlt := by
    rcases lt_or_ge m (i' - i) with hfirst | hsecond
    · exact h.equal m hm hfirst
    · have := h'.equal (m - (i' - i)) (by omega) (by omega)
      rw [show i' + (m - (i' - i)) = i + m by omega,
        show j' + (m - (i' - i)) = j + m by have := h.same; omega] at this
      exact this

/-- A run is cut off at its front and at its back. -/
theorem cut (h : EqualRun s1 s2 least i j k l) {m n : ℤ} (hm : 0 ≤ m) (hn : 0 ≤ n)
    (hleast : least' ≤ k - i - m - n) : EqualRun s1 s2 least' (i + m) (j + m) (k - n) (l - n) where
  least_le := by omega
  same := by
    have := h.same
    omega
  equal x hx hlt := by
    rw [add_assoc, add_assoc]
    exact h.equal (m + x) (by omega) (by omega)

end EqualRun

/-- A run of equal elements before the diffs -/
theorem Aligned.extend {least n i j i' j' : ℤ} {ds : List SequenceDiff}
    (h : Aligned s1 s2 least i j ds) (hrun : EqualRun s1 s2 n i' j' i j) (hn : 0 ≤ n) :
    Aligned s1 s2 least i' j' ds := by
  cases ds with
  | nil => exact hrun.append h hn
  | cons d ds => exact ⟨hrun.append h.1 hn, h.2⟩

theorem Aligned.le_length {least i j : ℤ} {diffs : List SequenceDiff}
    (h : Aligned s1 s2 least i j diffs) (hleast : 0 ≤ least) :
    i ≤ s1.length ∧ j ≤ s2.length := by
  induction diffs generalizing least i j with
  | nil =>
    have hle := EqualRun.least_le h
    have hsame := EqualRun.same h
    omega
  | cons d ds ih =>
    obtain ⟨h1, h2⟩ := ih h.2 zero_le_one
    have hle := h.1.least_le
    have hsame := h.1.same
    have := d.seq1Range.le
    have := d.seq2Range.le
    omega

theorem Aligned.swap {least i j : ℤ} {ds : List SequenceDiff} (h : Aligned s1 s2 least i j ds) :
    Aligned s2 s1 least j i (ds.map SequenceDiff.swap) := by
  induction ds generalizing least i j with
  | nil => exact EqualRun.swap h
  | cons d ds ih => exact ⟨h.1.swap, ih h.2⟩

end NexgileIde.Diff
