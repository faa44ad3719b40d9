import NexgileIde.Text.CodeUnits
import NexgileIde.Library.Patch

/-!
# Text changes and undo compression

An undo element stores what an edit replaced, with positions before and after it.
Two consecutive lists of changes are compressed into one by walking both in the
coordinates of the text between them.
-/
namespace NexgileIde.Edits

open Text Library

structure TextChange where
  oldPosition : Int
  oldText : Str
  newPosition : Int
  newText : Str
  deriving DecidableEq, Repr

namespace TextChange

def oldLength (c : TextChange) : Int := c.oldText.length
def oldEnd (c : TextChange) : Int := c.oldPosition + c.oldText.length
def newLength (c : TextChange) : Int := c.newText.length
def newEnd (c : TextChange) : Int := c.newPosition + c.newText.length

/-- `changes` turn the rest `s` of the old text, from offset `i`, into the rest `t`
of the new text, from offset `j`: sorted, each old text found at its old position and
each new text at its new position, with the same text in between on both sides. -/
inductive TakesFrom : Int → Int → List TextChange → Str → Str → Prop
  | nil (i j : Int) (s : Str) : TakesFrom i j [] s s
  | cons {i j : Int} {c : TextChange} {cs : List TextChange} (gap : Str) {s t : Str} :
      c.oldPosition = i + gap.length → c.newPosition = j + gap.length →
      TakesFrom c.oldEnd c.newEnd cs s t →
      TakesFrom i j (c :: cs) (gap ++ (c.oldText ++ s)) (gap ++ (c.newText ++ t))

/-- The changes take the text `s0` to the text `s1`. -/
def Takes (changes : List TextChange) (s0 s1 : Str) : Prop := TakesFrom 0 0 changes s0 s1

/-- Replace every old text by its new text. -/
def redo (changes : List TextChange) (s : Str) : Str :=
  Patch.run 0 (changes.map fun c => ⟨c.oldPosition, c.oldEnd, c.newText⟩) s

/-- Replace every new text by its old text. -/
def undo (changes : List TextChange) (s : Str) : Str :=
  Patch.run 0 (changes.map fun c => ⟨c.newPosition, c.newEnd, c.oldText⟩) s

theorem TakesFrom.run_redo {i j : Int} {cs : List TextChange} {s t : Str}
    (h : TakesFrom i j cs s t) :
    Patch.run i (cs.map fun c => ⟨c.oldPosition, c.oldEnd, c.newText⟩) s = t := by
  induction h with
  | nil => rfl
  | @cons i j c cs gap s t hold hnew _ ih =>
    have hstart : (c.oldPosition - i).toNat = gap.length := by omega
    have hstop : (c.oldEnd - i).toNat = gap.length + c.oldText.length := by
      rw [oldEnd]
      omega
    rw [List.map_cons, Patch.run_cons]
    simp only [hstart, hstop, List.take_left, List.drop_length_add_append, List.drop_left]
    rw [ih]

theorem TakesFrom.run_undo {i j : Int} {cs : List TextChange} {s t : Str}
    (h : TakesFrom i j cs s t) :
    Patch.run j (cs.map fun c => ⟨c.newPosition, c.newEnd, c.oldText⟩) t = s := by
  induction h with
  | nil => rfl
  | @cons i j c cs gap s t hold hnew _ ih =>
    have hstart : (c.newPosition - j).toNat = gap.length := by omega
    have hstop : (c.newEnd - j).toNat = gap.length + c.newText.length := by
      rw [newEnd]
      omega
    rw [List.map_cons, Patch.run_cons]
    simp only [hstart, hstop, List.take_left, List.drop_length_add_append, List.drop_left]
    rw [ih]

end TextChange

namespace TextChangeCompressor

/-- Current changes of the walk, the two running offsets and the result so far. The
head of each list is the change under inspection, possibly the rest of a split one. -/
structure State where
  prevDeltaOffset : Int
  currDeltaOffset : Int
  result : List TextChange
  deriving DecidableEq, Repr

def rebaseCurr (prevDeltaOffset : Int) (currEdit : TextChange) : TextChange :=
  ⟨currEdit.oldPosition - prevDeltaOffset, currEdit.oldText, currEdit.newPosition,
    currEdit.newText⟩

def rebasePrev (currDeltaOffset : Int) (prevEdit : TextChange) : TextChange :=
  ⟨prevEdit.oldPosition, prevEdit.oldText, prevEdit.newPosition + currDeltaOffset,
    prevEdit.newText⟩

def acceptCurr (s : State) (currEdit : TextChange) : State :=
  { s with
    result := s.result ++ [rebaseCurr s.prevDeltaOffset currEdit]
    currDeltaOffset := s.currDeltaOffset + (currEdit.newLength - currEdit.oldLength) }

def acceptPrev (s : State) (prevEdit : TextChange) : State :=
  { s with
    result := s.result ++ [rebasePrev s.currDeltaOffset prevEdit]
    prevDeltaOffset := s.prevDeltaOffset + (prevEdit.newLength - prevEdit.oldLength) }

/-- The two texts and positions of a change to the same part of the middle text. -/
def acceptMerge (s : State) (mergePrev mergeCurr : TextChange) : State where
  result := s.result ++
    [⟨mergePrev.oldPosition, mergePrev.oldText, mergeCurr.newPosition, mergeCurr.newText⟩]
  prevDeltaOffset := s.prevDeltaOffset + (mergePrev.newLength - mergePrev.oldLength)
  currDeltaOffset := s.currDeltaOffset + (mergeCurr.newLength - mergeCurr.oldLength)

def splitPrev (edit : TextChange) (offset : Int) : TextChange × TextChange :=
  (⟨edit.oldPosition, edit.oldText, edit.newPosition, edit.newText.take offset.toNat⟩,
    ⟨edit.oldEnd, [], edit.newPosition + offset, edit.newText.drop offset.toNat⟩)

def splitCurr (edit : TextChange) (offset : Int) : TextChange × TextChange :=
  (⟨edit.oldPosition, edit.oldText.take offset.toNat, edit.newPosition, edit.newText⟩,
    ⟨edit.oldPosition + offset, edit.oldText.drop offset.toNat, edit.newEnd, []⟩)

/-- What the loop still has to read: every change and its text in the middle. -/
def work (prevEdits currEdits : List TextChange) : ℕ :=
  (prevEdits.map fun c => c.newText.length + 1).sum +
    (currEdits.map fun c => c.oldText.length + 1).sum

def compressLoop (prevEdits currEdits : List TextChange) (s : State) : State :=
  match prevEdits, currEdits with
  | [], [] => s
  | [], currEdit :: currs => compressLoop [] currs (acceptCurr s currEdit)
  | prevEdit :: prevs, [] => compressLoop prevs [] (acceptPrev s prevEdit)
  | prevEdit :: prevs, currEdit :: currs =>
    if currEdit.oldEnd ≤ prevEdit.newPosition then
      compressLoop (prevEdit :: prevs) currs (acceptCurr s currEdit)
    else if prevEdit.newEnd ≤ currEdit.oldPosition then
      compressLoop prevs (currEdit :: currs) (acceptPrev s prevEdit)
    else if currEdit.oldPosition < prevEdit.newPosition then
      let split := splitCurr currEdit (prevEdit.newPosition - currEdit.oldPosition)
      compressLoop (prevEdit :: prevs) (split.2 :: currs) (acceptCurr s split.1)
    else if prevEdit.newPosition < currEdit.oldPosition then
      let split := splitPrev prevEdit (currEdit.oldPosition - prevEdit.newPosition)
      compressLoop (split.2 :: prevs) (currEdit :: currs) (acceptPrev s split.1)
    -- at this point both changes start at the same position of the middle text
    else if currEdit.oldEnd = prevEdit.newEnd then
      compressLoop prevs currs (acceptMerge s prevEdit currEdit)
    else if currEdit.oldEnd < prevEdit.newEnd then
      let split := splitPrev prevEdit currEdit.oldLength
      compressLoop (split.2 :: prevs) currs (acceptMerge s split.1 currEdit)
    else
      let split := splitCurr currEdit prevEdit.newLength
      compressLoop prevs (split.2 :: currs) (acceptMerge s prevEdit split.1)
termination_by work prevEdits currEdits
decreasing_by
  all_goals simp only [work, List.map_cons, List.sum_cons, List.map_nil, List.sum_nil,
    splitCurr, splitPrev, TextChange.oldEnd, TextChange.newEnd, TextChange.oldLength,
    TextChange.newLength, List.length_drop] at *
  all_goals omega

/-- The loop of `_merge`; `prev` is the change under construction. -/
def mergeLoop (prev : TextChange) : List TextChange → List TextChange
  | [] => [prev]
  | curr :: rest =>
    if prev.oldEnd = curr.oldPosition then
      mergeLoop ⟨prev.oldPosition, prev.oldText ++ curr.oldText, prev.newPosition,
        prev.newText ++ curr.newText⟩ rest
    else prev :: mergeLoop curr rest

def merge : List TextChange → List TextChange
  | [] => []
  | edit :: rest => mergeLoop edit rest

def removeNoOps (edits : List TextChange) : List TextChange :=
  edits.filter fun edit => edit.oldText ≠ edit.newText

def compress (prevEdits currEdits : List TextChange) : List TextChange :=
  removeNoOps (merge (compressLoop prevEdits currEdits ⟨0, 0, []⟩).result)

end TextChangeCompressor

def compressConsecutiveTextChanges (prevEdits : Option (List TextChange))
    (currEdits : List TextChange) : List TextChange :=
  match prevEdits with
  | none => currEdits
  | some [] => currEdits
  | some prevEdits => TextChangeCompressor.compress prevEdits currEdits

end NexgileIde.Edits

/-!
## Undo compression is composition

The compressor accepts, one after another, changes that lie in front of everything
that is left of both lists. Accepting a change moves three cursors: in the old text,
in the text between the lists, and in the new text.
-/
namespace NexgileIde.Edits

open Text

namespace TextChange

/-- The change that undoes `c`. -/
def inverse (c : TextChange) : TextChange := ⟨c.newPosition, c.newText, c.oldPosition, c.oldText⟩

theorem TakesFrom.inverse {i j : Int} {cs : List TextChange} {s t : Str}
    (h : TakesFrom i j cs s t) : TakesFrom j i (cs.map TextChange.inverse) t s := by
  induction h with
  | nil i j s => exact .nil j i s
  | cons gap hold hnew _ ih => exact .cons gap hnew hold ih

theorem map_inverse_inverse (cs : List TextChange) :
    (cs.map inverse).map inverse = cs := by
  rw [List.map_map]
  exact List.map_id' cs

/-- Text in front of the first change is the same on both sides. -/
theorem TakesFrom.copy {i j : Int} {cs : List TextChange} {s t : Str} (u : Str)
    (h : TakesFrom i j cs (u ++ s) t) (hu : ∀ c ∈ cs.head?, i + u.length ≤ c.oldPosition) :
    ∃ t', t = u ++ t' ∧ TakesFrom (i + u.length) (j + u.length) cs s t' := by
  generalize hs : u ++ s = s0 at h
  cases h with
  | nil => exact ⟨s, hs.symm, .nil _ _ _⟩
  | @cons _ _ c cs gap s' t' hold hnew hrest =>
    have hle := hu c rfl
    obtain ⟨gap', rfl⟩ : ∃ gap', gap = u ++ gap' := by
      refine ⟨gap.drop u.length, ?_⟩
      have htake : u = gap.take u.length := by
        have := congrArg (List.take u.length) hs
        rwa [List.take_left, List.take_append_of_le_length (by omega)] at this
      conv_lhs => rw [← List.take_append_drop u.length gap, ← htake]
    rw [List.append_assoc, List.append_cancel_left_eq] at hs
    rw [List.length_append] at hold hnew
    subst hs
    exact ⟨gap' ++ (c.newText ++ t'), List.append_assoc .., .cons gap' (by omega) (by omega) hrest⟩

theorem TakesFrom.copy_back {i j : Int} {cs : List TextChange} {s t : Str} (u : Str)
    (h : TakesFrom i j cs s (u ++ t)) (hu : ∀ c ∈ cs.head?, j + u.length ≤ c.newPosition) :
    ∃ s', s = u ++ s' ∧ TakesFrom (i + u.length) (j + u.length) cs s' t := by
  obtain ⟨s', hs, h'⟩ := TakesFrom.copy u h.inverse (by
    intro c hc
    rw [List.head?_map, Option.mem_def, Option.map_eq_some_iff] at hc
    obtain ⟨c, hc, rfl⟩ := hc
    exact hu c hc)
  refine ⟨s', hs, ?_⟩
  have hback := h'.inverse
  rwa [map_inverse_inverse] at hback

/-- Changes may leave more text between them and the start. -/
theorem TakesFrom.prepend {i j i' j' : Int} {cs : List TextChange} {s t : Str} (u : Str)
    (h : TakesFrom i' j' cs s t) (hi : i' = i + u.length) (hj : j' = j + u.length) :
    TakesFrom i j cs (u ++ s) (u ++ t) := by
  subst hi hj
  cases h with
  | nil => exact .nil _ _ _
  | @cons _ _ c cs gap s t hold hnew hrest =>
    rw [← List.append_assoc u gap, ← List.append_assoc u gap]
    refine .cons (u ++ gap) ?_ ?_ hrest <;> rw [List.length_append] <;> omega

end TextChange

namespace TextChangeCompressor

open TextChange

variable {s0 s2 : Str} {prevs currs : List TextChange} {st : State}

/-- The invariant of the walk: `prevs` and `currs` compose to the rest of what leads
from `s0` to `s2`, and any change list for that rest completes the result. -/
def Follows (s0 s2 : Str) (prevs currs : List TextChange) (st : State) : Prop :=
  ∃ (i k j : Int) (s m t : Str), TakesFrom i k prevs s m ∧ TakesFrom k j currs m t ∧
    st.prevDeltaOffset = k - i ∧ st.currDeltaOffset = j - k ∧
    ∀ cs, TakesFrom i j cs s t → TakesFrom 0 0 (st.result ++ cs) s0 s2

theorem Follows.acceptCurr {c : TextChange} (h : Follows s0 s2 prevs (c :: currs) st)
    (hc : ∀ p ∈ prevs.head?, c.oldEnd ≤ p.newPosition) :
    Follows s0 s2 prevs currs (acceptCurr st c) := by
  obtain ⟨i, k, j, s, m, t, hprev, hcurr, hpd, hcd, hres⟩ := h
  cases hcurr with
  | @cons _ _ _ _ gap m t hold hnew hrest =>
    rw [← List.append_assoc] at hprev
    obtain ⟨s, rfl, hprev'⟩ := hprev.copy_back (gap ++ c.oldText) (by
      intro p hp
      have := hc p hp
      rw [oldEnd] at this
      rw [List.length_append]
      omega)
    have hk : k + ((gap ++ c.oldText).length : Int) = c.oldEnd := by
      rw [List.length_append, oldEnd]
      omega
    rw [hk] at hprev'
    refine ⟨_, _, _, s, m, t, hprev', hrest, ?_, ?_, fun cs hcs => ?_⟩
    · simp only [TextChangeCompressor.acceptCurr]
      omega
    · simp only [TextChangeCompressor.acceptCurr, newLength, oldLength, newEnd, oldEnd]
      omega
    · simp only [TextChangeCompressor.acceptCurr, List.append_assoc, List.singleton_append]
      refine hres _ ?_
      rw [List.append_assoc]
      refine .cons (c := rebaseCurr st.prevDeltaOffset c) gap ?_ hnew ?_
      · simp only [rebaseCurr]
        omega
      · have hi : (rebaseCurr st.prevDeltaOffset c).oldEnd = i + ((gap ++ c.oldText).length : Int) := by
          rw [oldEnd, List.length_append]
          simp only [rebaseCurr]
          omega
        rw [hi]
        exact hcs

theorem Follows.acceptPrev {p : TextChange} (h : Follows s0 s2 (p :: prevs) currs st)
    (hp : ∀ c ∈ currs.head?, p.newEnd ≤ c.oldPosition) :
    Follows s0 s2 prevs currs (acceptPrev st p) := by
  obtain ⟨i, k, j, s, m, t, hprev, hcurr, hpd, hcd, hres⟩ := h
  cases hprev with
  | @cons _ _ _ _ gap s m hold hnew hrest =>
    rw [← List.append_assoc] at hcurr
    obtain ⟨t, rfl, hcurr'⟩ := hcurr.copy (gap ++ p.newText) (by
      intro c hc
      have := hp c hc
      rw [newEnd] at this
      rw [List.length_append]
      omega)
    have hk : k + ((gap ++ p.newText).length : Int) = p.newEnd := by
      rw [List.length_append, newEnd]
      omega
    rw [hk] at hcurr'
    refine ⟨_, _, _, s, m, t, hrest, hcurr', ?_, ?_, fun cs hcs => ?_⟩
    · simp only [TextChangeCompressor.acceptPrev, newLength, oldLength, newEnd, oldEnd]
      omega
    · simp only [TextChangeCompressor.acceptPrev]
      omega
    · simp only [TextChangeCompressor.acceptPrev, List.append_assoc, List.singleton_append]
      refine hres _ ?_
      rw [List.append_assoc]
      refine .cons (c := rebasePrev st.currDeltaOffset p) gap hold ?_ ?_
      · simp only [rebasePrev]
        omega
      · have hj : (rebasePrev st.currDeltaOffset p).newEnd = j + ((gap ++ p.newText).length : Int) := by
          rw [newEnd, List.length_append]
          simp only [rebasePrev]
          omega
        rw [hj]
        exact hcs

/-- A change of the middle text and a change to exactly its new text become one. -/
theorem Follows.acceptMerge {p c : TextChange} (h : Follows s0 s2 (p :: prevs) (c :: currs) st)
    (hstart : c.oldPosition = p.newPosition) (hend : c.oldEnd = p.newEnd) :
    Follows s0 s2 prevs currs (acceptMerge st p c) := by
  obtain ⟨i, k, j, s, m, t, hprev, hcurr, hpd, hcd, hres⟩ := h
  generalize hm : m = m' at hcurr
  cases hprev with
  | @cons _ _ _ _ gap s m hold hnew hrest =>
  cases hcurr with
  | @cons _ _ _ _ gap' m' t hold' hnew' hrest' =>
    rw [oldEnd, newEnd] at hend
    obtain ⟨rfl, hmid⟩ := List.append_inj hm (by omega)
    obtain ⟨-, rfl⟩ := List.append_inj hmid (by omega)
    have hk : c.oldEnd = p.newEnd := by rw [oldEnd, newEnd, hend]
    rw [hk] at hrest'
    refine ⟨_, _, _, s, m, t, hrest, hrest', ?_, ?_, fun cs hcs => ?_⟩
    · simp only [TextChangeCompressor.acceptMerge, newLength, oldLength, newEnd, oldEnd]
      omega
    · simp only [TextChangeCompressor.acceptMerge, newLength, oldLength, newEnd]
      omega
    · simp only [TextChangeCompressor.acceptMerge, List.append_assoc, List.singleton_append]
      refine hres _ ?_
      exact .cons (c := ⟨p.oldPosition, p.oldText, c.newPosition, c.newText⟩) gap hold hnew' hcs

theorem takesFrom_splitCurr {i j n : Int} {c : TextChange} {cs : List TextChange} {s t : Str}
    (h : TakesFrom i j (c :: cs) s t) (hn : 0 ≤ n) (hle : n ≤ c.oldLength) :
    TakesFrom i j ((splitCurr c n).1 :: (splitCurr c n).2 :: cs) s t := by
  cases h with
  | @cons _ _ _ _ gap s t hold hnew hrest =>
    rw [oldLength] at hle
    have htext : c.oldText ++ s = c.oldText.take n.toNat ++ (c.oldText.drop n.toNat ++ s) := by
      rw [← List.append_assoc, List.take_append_drop]
    rw [htext]
    refine .cons (c := (splitCurr c n).1) gap hold hnew ?_
    refine .cons (c := (splitCurr c n).2) [] ?_ ?_ ?_
    · simp only [splitCurr, oldEnd, List.length_take, List.length_nil]
      omega
    · simp only [splitCurr, newEnd, List.length_nil]
      omega
    · have hold' : (splitCurr c n).2.oldEnd = c.oldEnd := by
        simp only [splitCurr, oldEnd, List.length_drop]
        omega
      have hnew' : (splitCurr c n).2.newEnd = c.newEnd := by
        simp only [splitCurr, newEnd, List.length_nil]
        omega
      rwa [hold', hnew']

theorem takesFrom_splitPrev {i j n : Int} {p : TextChange} {ps : List TextChange} {s t : Str}
    (h : TakesFrom i j (p :: ps) s t) (hn : 0 ≤ n) (hle : n ≤ p.newLength) :
    TakesFrom i j ((splitPrev p n).1 :: (splitPrev p n).2 :: ps) s t := by
  -- the split of one list is the other split of the inverse list
  have hsplit := (takesFrom_splitCurr (n := n) h.inverse hn hle).inverse
  rw [List.map_cons, List.map_cons, map_inverse_inverse] at hsplit
  exact hsplit

theorem Follows.splitCurr {c : TextChange} {n : Int} (h : Follows s0 s2 prevs (c :: currs) st)
    (hn : 0 ≤ n) (hle : n ≤ c.oldLength) :
    Follows s0 s2 prevs ((splitCurr c n).1 :: (splitCurr c n).2 :: currs) st := by
  obtain ⟨i, k, j, s, m, t, hprev, hcurr, h⟩ := h
  exact ⟨i, k, j, s, m, t, hprev, takesFrom_splitCurr hcurr hn hle, h⟩

theorem Follows.splitPrev {p : TextChange} {n : Int} (h : Follows s0 s2 (p :: prevs) currs st)
    (hn : 0 ≤ n) (hle : n ≤ p.newLength) :
    Follows s0 s2 ((splitPrev p n).1 :: (splitPrev p n).2 :: prevs) currs st := by
  obtain ⟨i, k, j, s, m, t, hprev, h⟩ := h
  exact ⟨i, k, j, s, m, t, takesFrom_splitPrev hprev hn hle, h⟩

theorem Follows.finish (h : Follows s0 s2 [] [] st) : Takes st.result s0 s2 := by
  obtain ⟨i, k, j, s, m, t, hprev, hcurr, -, -, hres⟩ := h
  cases hprev
  cases hcurr
  have hdone := hres [] (.nil i j s)
  rwa [List.append_nil] at hdone

theorem compressLoop_spec (h : Follows s0 s2 prevs currs st) :
    Takes (compressLoop prevs currs st).result s0 s2 := by
  induction prevs, currs, st using compressLoop.induct with
  | case1 st =>
    rw [compressLoop]
    exact h.finish
  | case2 st c currs ih =>
    rw [compressLoop]
    exact ih (h.acceptCurr (by simp))
  | case3 st p prevs ih =>
    rw [compressLoop]
    exact ih (h.acceptPrev (by simp))
  | case4 st p prevs c currs hbefore ih =>
    rw [compressLoop, if_pos hbefore]
    exact ih (h.acceptCurr (by simpa using hbefore))
  | case5 st p prevs c currs hcp hpc ih =>
    rw [compressLoop, if_neg hcp, if_pos hpc]
    exact ih (h.acceptPrev (by simpa using hpc))
  | case6 st p prevs c currs hcp hpc hlt split ih =>
    rw [compressLoop, if_neg hcp, if_neg hpc, if_pos hlt]
    have hle : p.newPosition - c.oldPosition ≤ c.oldLength := by
      rw [oldEnd] at hcp
      rw [oldLength]
      omega
    refine ih ((h.splitCurr (by omega) hle).acceptCurr ?_)
    simp only [List.head?_cons, Option.mem_some, forall_eq', oldEnd, TextChangeCompressor.splitCurr,
      List.length_take]
    omega
  | case7 st p prevs c currs hcp hpc hlt hgt split ih =>
    rw [compressLoop, if_neg hcp, if_neg hpc, if_neg hlt, if_pos hgt]
    have hle : c.oldPosition - p.newPosition ≤ p.newLength := by
      rw [newEnd] at hpc
      rw [newLength]
      omega
    refine ih ((h.splitPrev (by omega) hle).acceptPrev ?_)
    simp only [List.head?_cons, Option.mem_some, forall_eq', newEnd, TextChangeCompressor.splitPrev,
      List.length_take]
    omega
  | case8 st p prevs c currs hcp hpc hlt hgt hend ih =>
    rw [compressLoop, if_neg hcp, if_neg hpc, if_neg hlt, if_neg hgt, if_pos hend]
    exact ih (h.acceptMerge (by omega) hend)
  | case9 st p prevs c currs hcp hpc hlt hgt hend hshort split ih =>
    rw [compressLoop, if_neg hcp, if_neg hpc, if_neg hlt, if_neg hgt, if_neg hend, if_pos hshort]
    rw [oldEnd, newEnd] at hshort
    have hle : c.oldLength ≤ p.newLength := by
      rw [oldLength, newLength]
      omega
    refine ih ((h.splitPrev (by rw [oldLength]; omega) hle).acceptMerge ?_ ?_)
    · simp only [TextChangeCompressor.splitPrev]
      omega
    · rw [oldLength, newLength] at hle
      simp only [TextChangeCompressor.splitPrev, oldEnd, newEnd, oldLength, List.length_take]
      omega
  | case10 st p prevs c currs hcp hpc hlt hgt hend hshort split ih =>
    rw [compressLoop, if_neg hcp, if_neg hpc, if_neg hlt, if_neg hgt, if_neg hend, if_neg hshort]
    rw [oldEnd, newEnd] at hshort
    have hle : p.newLength ≤ c.oldLength := by
      rw [oldLength, newLength]
      omega
    refine ih ((h.splitCurr (by rw [newLength]; omega) hle).acceptMerge ?_ ?_)
    · simp only [TextChangeCompressor.splitCurr]
      omega
    · rw [oldLength, newLength] at hle
      simp only [TextChangeCompressor.splitCurr, oldEnd, newEnd, newLength, List.length_take]
      omega

theorem mergeLoop_spec {i j : Int} {p : TextChange} {cs : List TextChange} {s t : Str}
    (h : TakesFrom i j (p :: cs) s t) : TakesFrom i j (mergeLoop p cs) s t := by
  induction cs generalizing i j p s t with
  | nil => exact h
  | cons c cs ih =>
    rw [mergeLoop]
    cases h with
    | @cons _ _ _ _ gap s t hold hnew hrest =>
    split_ifs with htouch
    · refine ih ?_
      cases hrest with
      | @cons _ _ _ _ gap' s t hold' hnew' hrest' =>
        obtain rfl : gap' = [] := List.eq_nil_of_length_eq_zero (by omega)
        simp only [List.nil_append, ← List.append_assoc p.oldText, ← List.append_assoc p.newText]
        refine .cons (c := ⟨p.oldPosition, p.oldText ++ c.oldText, p.newPosition,
          p.newText ++ c.newText⟩) gap hold hnew ?_
        rw [List.length_nil] at hold' hnew'
        have hold'' : oldEnd ⟨p.oldPosition, p.oldText ++ c.oldText, p.newPosition,
            p.newText ++ c.newText⟩ = c.oldEnd := by
          rw [oldEnd] at hold'
          simp only [oldEnd, List.length_append]
          omega
        have hnew'' : newEnd ⟨p.oldPosition, p.oldText ++ c.oldText, p.newPosition,
            p.newText ++ c.newText⟩ = c.newEnd := by
          rw [newEnd] at hnew'
          simp only [newEnd, List.length_append]
          omega
        rwa [hold'', hnew'']
    · exact .cons gap hold hnew (ih hrest)

theorem merge_spec {i j : Int} {cs : List TextChange} {s t : Str}
    (h : TakesFrom i j cs s t) : TakesFrom i j (merge cs) s t := by
  cases cs with
  | nil => exact h
  | cons p cs => exact mergeLoop_spec h

/-- Dropping a change that replaces a text by itself widens the gap around it. -/
theorem removeNoOps_spec {i j : Int} {cs : List TextChange} {s t : Str}
    (h : TakesFrom i j cs s t) : TakesFrom i j (removeNoOps cs) s t := by
  induction h with
  | nil i j s => exact .nil i j s
  | @cons i j c cs gap s t hold hnew _ ih =>
    rw [removeNoOps, List.filter_cons]
    split_ifs with hne
    · exact .cons gap hold hnew ih
    · have heq : c.oldText = c.newText := by simpa using hne
      rw [heq]
      refine (ih.prepend c.newText (i := c.oldPosition) (j := c.newPosition) ?_ rfl).prepend gap
        hold hnew
      rw [oldEnd, heq]

theorem compress_spec {s1 : Str} (hprev : Takes prevs s0 s1) (hcurr : Takes currs s1 s2) :
    Takes (compress prevs currs) s0 s2 := by
  have hinit : Follows s0 s2 prevs currs ⟨0, 0, []⟩ :=
    ⟨0, 0, 0, s0, s1, s2, hprev, hcurr, rfl, rfl, fun cs hcs => hcs⟩
  exact removeNoOps_spec (merge_spec (compressLoop_spec hinit))

end TextChangeCompressor

open TextChange

/-- Compressing is composing, also for an undo element without changes yet. -/
theorem compressConsecutiveTextChanges_takes {prevEdits : Option (List TextChange)}
    {currEdits : List TextChange} {s0 s1 s2 : Str} (hprev : Takes (prevEdits.getD []) s0 s1)
    (hcurr : Takes currEdits s1 s2) :
    Takes (compressConsecutiveTextChanges prevEdits currEdits) s0 s2 ∧
      redo (compressConsecutiveTextChanges prevEdits currEdits) s0 = s2 ∧
      undo (compressConsecutiveTextChanges prevEdits currEdits) s2 = s0 := by
  have htakes : Takes (compressConsecutiveTextChanges prevEdits currEdits) s0 s2 := by
    match prevEdits with
    | none =>
      cases hprev
      exact hcurr
    | some [] =>
      cases hprev
      exact hcurr
    | some (p :: ps) => exact TextChangeCompressor.compress_spec hprev hcurr
  exact ⟨htakes, htakes.run_redo, htakes.run_undo⟩

/-- Inserting `x` into `ab` and replacing it by `yz` compresses to inserting `yz`. -/
theorem compressConsecutiveTextChanges_takes_insert :
    redo (compressConsecutiveTextChanges (some [⟨1, [], 1, [120]⟩]) [⟨1, [120], 1, [121, 122]⟩])
      [97, 98] = [97, 121, 122, 98] :=
  have hprev : Takes ((some [⟨1, [], 1, [120]⟩]).getD []) [97, 98] [97, 120, 98] :=
    .cons [97] rfl rfl (.nil _ _ [98])
  have hcurr : Takes [⟨1, [120], 1, [121, 122]⟩] [97, 120, 98] [97, 121, 122, 98] :=
    .cons [97] rfl rfl (.nil _ _ [98])
  (compressConsecutiveTextChanges_takes hprev hcurr).2.1

end NexgileIde.Edits
