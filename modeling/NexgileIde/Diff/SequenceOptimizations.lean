import NexgileIde.Diff.SequenceDiff

/-!
# Shifting and joining diffs

Diffs with an empty side are moved to the left and to the right as far as the elements around them
allow, and joined with the neighbour they meet; then each is moved to the offset with the best
boundary scores between its neighbours.
-/

namespace NexgileIde.Diff

open Edits

/-- The first number from `d` on, within `fuel` steps, at which the loop condition fails -/
def loopWhile (condition : ℤ → Bool) (d : ℤ) : ℕ → ℤ
  | 0 => d
  | fuel + 1 => if condition d then loopWhile condition (d + 1) fuel else d

variable {E N : Type} [DecidableEq E] (sequence1 sequence2 : ISequence E N)

section Join

/-- Moves the diffs to the left; the first one stays the last result until the next one is pushed. -/
def joinToTheLeft (prevResult : SequenceDiff) :
    List SequenceDiff → Except BugIndicatingError (List SequenceDiff)
  | [] => .ok [prevResult]
  | cur :: rest =>
    if cur.seq1Range.isEmpty || cur.seq2Range.isEmpty then
      let length := cur.seq1Range.start - prevResult.seq1Range.endExclusive
      let d := loopWhile (fun d =>
        sequence1.getElement (cur.seq1Range.start - d) =
            sequence1.getElement (cur.seq1Range.endExclusive - d) &&
          sequence2.getElement (cur.seq2Range.start - d) =
            sequence2.getElement (cur.seq2Range.endExclusive - d)) 1 length.toNat - 1
      if d = length then
        -- Merge previous and current diff
        (SequenceDiff.create prevResult.seq1Range.start (cur.seq1Range.endExclusive - length)
          prevResult.seq2Range.start (cur.seq2Range.endExclusive - length)).bind
          fun merged => joinToTheLeft merged rest
      else (joinToTheLeft (cur.delta (-d)) rest).map (prevResult :: ·)
    else (joinToTheLeft cur rest).map (prevResult :: ·)

/-- Moves the diffs to the right, from the first one on. -/
def joinToTheRight (cur : SequenceDiff) :
    List SequenceDiff → Except BugIndicatingError (List SequenceDiff)
  | [] => .ok [cur]
  | nextResult :: rest =>
    if cur.seq1Range.isEmpty || cur.seq2Range.isEmpty then
      let length := nextResult.seq1Range.start - cur.seq1Range.endExclusive
      let d := loopWhile (fun d =>
        sequence1.isStronglyEqual (cur.seq1Range.start + d) (cur.seq1Range.endExclusive + d) &&
          sequence2.isStronglyEqual (cur.seq2Range.start + d) (cur.seq2Range.endExclusive + d))
        0 length.toNat
      if d = length then
        -- Merge previous and current diff, write to result!
        (SequenceDiff.create (cur.seq1Range.start + length) nextResult.seq1Range.endExclusive
          (cur.seq2Range.start + length) nextResult.seq2Range.endExclusive).bind
          fun merged => joinToTheRight merged rest
      else (joinToTheRight nextResult rest).map (cur.delta d :: ·)
    else (joinToTheRight nextResult rest).map (cur :: ·)

def joinSequenceDiffsByShifting :
    List SequenceDiff → Except BugIndicatingError (List SequenceDiff)
  | [] => .ok []
  | first :: rest =>
    (joinToTheLeft sequence1 sequence2 first rest).bind fun
      | [] => .ok []
      | first :: rest => joinToTheRight sequence1 sequence2 first rest

end Join

section Shift

variable [Add N] [IntCast N] [LT N] [DecidableLT N]

def maxShiftLimit : ℕ := 100

/-- The scores are those of the two sequences. -/
def shiftDiffToBetterPosition (score1 score2 : ℤ → N) (diff : SequenceDiff)
    (sequence2 : ISequence E N) (seq1ValidRange seq2ValidRange : OffsetRange) : SequenceDiff :=
  -- don't touch previous or next!
  let deltaBefore := loopWhile (fun deltaBefore =>
    decide (diff.seq1Range.start - deltaBefore ≥ seq1ValidRange.start) &&
      decide (diff.seq2Range.start - deltaBefore ≥ seq2ValidRange.start) &&
      sequence2.isStronglyEqual (diff.seq2Range.start - deltaBefore)
        (diff.seq2Range.endExclusive - deltaBefore)) 1 (maxShiftLimit - 1) - 1
  let deltaAfter := loopWhile (fun deltaAfter =>
    decide (diff.seq1Range.start + deltaAfter < seq1ValidRange.endExclusive) &&
      decide (diff.seq2Range.endExclusive + deltaAfter < seq2ValidRange.endExclusive) &&
      sequence2.isStronglyEqual (diff.seq2Range.start + deltaAfter)
        (diff.seq2Range.endExclusive + deltaAfter)) 0 maxShiftLimit
  if deltaBefore = 0 ∧ deltaAfter = 0 then diff
  else
    let deltas := (List.range (deltaBefore + deltaAfter + 1).toNat).map
      fun n : ℕ => (n : ℤ) - deltaBefore
    let best := deltas.foldl (fun (best : ℤ × N) delta =>
      let score := score1 (diff.seq1Range.start + delta) +
        score2 (diff.seq2Range.start + delta) + score2 (diff.seq2Range.endExclusive + delta)
      if best.2 < score then (delta, score) else best) (0, ((-1 : ℤ) : N))
    diff.delta best.1

/-- The previous diff has been shifted already. -/
def shiftFrom (score1 score2 : ℤ → N) (prevDiff : Option SequenceDiff) :
    List SequenceDiff → Except BugIndicatingError (List SequenceDiff)
  | [] => .ok []
  | diff :: rest =>
    (OffsetRange.create (prevDiff.elim 0 fun prev => prev.seq1Range.endExclusive + 1)
      (rest.head?.elim (sequence1.length : ℤ) fun next => next.seq1Range.start - 1)).bind
      fun seq1ValidRange =>
    (OffsetRange.create (prevDiff.elim 0 fun prev => prev.seq2Range.endExclusive + 1)
      (rest.head?.elim (sequence2.length : ℤ) fun next => next.seq2Range.start - 1)).bind
      fun seq2ValidRange =>
    let shifted :=
      if diff.seq1Range.isEmpty then
        shiftDiffToBetterPosition score1 score2 diff sequence2 seq1ValidRange seq2ValidRange
      else if diff.seq2Range.isEmpty then
        (shiftDiffToBetterPosition score2 score1 diff.swap sequence1 seq2ValidRange
          seq1ValidRange).swap
      else diff
    (shiftFrom score1 score2 (some shifted) rest).map (shifted :: ·)

def shiftSequenceDiffs (sequenceDiffs : List SequenceDiff) :
    Except BugIndicatingError (List SequenceDiff) :=
  match sequence1.getBoundaryScore, sequence2.getBoundaryScore with
  | some score1, some score2 => shiftFrom sequence1 sequence2 score1 score2 none sequenceDiffs
  | _, _ => .ok sequenceDiffs

def optimizeSequenceDiffs (sequenceDiffs : List SequenceDiff) :
    Except BugIndicatingError (List SequenceDiff) :=
  (joinSequenceDiffsByShifting sequence1 sequence2 sequenceDiffs).bind fun result =>
    (joinSequenceDiffsByShifting sequence1 sequence2 result).bind fun result =>
      shiftSequenceDiffs sequence1 sequence2 result

end Shift

end NexgileIde.Diff

/-!
## Shifted and joined diffs are an alignment

A diff may slide along elements that repeat at the distance of its length. Where two diffs meet they
are joined. Each step keeps the alignment and the number of removed and inserted elements.
-/

namespace NexgileIde.Diff

open Edits

variable {E N : Type} {s1 s2 : ISequence E N}

theorem loopWhile_spec (condition : ℤ → Bool) (d : ℤ) (fuel : ℕ) :
    d ≤ loopWhile condition d fuel ∧ loopWhile condition d fuel ≤ d + fuel ∧
      ∀ k, d ≤ k → k < loopWhile condition d fuel → condition k = true := by
  induction fuel generalizing d with
  | zero =>
    unfold loopWhile
    exact ⟨le_rfl, by simp, fun k hk hlt => by omega⟩
  | succ fuel ih =>
    unfold loopWhile
    split_ifs with hcondition
    · obtain ⟨hge, hle, hall⟩ := ih (d + 1)
      refine ⟨by omega, by push_cast; omega, fun k hk hlt => ?_⟩
      rcases hk.eq_or_lt with rfl | hk
      · exact hcondition
      · exact hall k (by omega) hlt
    · exact ⟨le_rfl, by omega, fun k hk hlt => by omega⟩

section Slide

/-- The elements repeat at the distance of the range, for a move of the range by `t`. -/
def Slides (s : ISequence E N) (r : OffsetRange) (t : ℤ) : Prop :=
  ∀ k, t ≤ k ∧ k < 0 ∨ 0 ≤ k ∧ k < t →
    s.getElement (r.start + k) = s.getElement (r.endExclusive + k)

theorem slides_of_isEmpty {s : ISequence E N} {r : OffsetRange} (h : r.isEmpty = true) (t : ℤ) :
    Slides s r t := by
  intro k _
  rw [OffsetRange.isEmpty, decide_eq_true_eq] at h
  rw [h]

/-- How far the diff before these may reach -/
def reach (s1 : ISequence E N) (rest : List SequenceDiff) : ℤ :=
  rest.head?.elim (s1.length : ℤ) fun next => next.seq1Range.start - 1

variable {least least' i j t : ℤ} {d next : SequenceDiff} {rest : List SequenceDiff}

theorem Aligned.split (h : Aligned s1 s2 1 i j rest) (ht : 0 ≤ t) (hreach : i + t ≤ reach s1 rest) :
    EqualRun s1 s2 t i j (i + t) (j + t) ∧ Aligned s1 s2 1 (i + t) (j + t) rest := by
  have hrun : ∀ {least k l : ℤ}, EqualRun s1 s2 least i j k l → i + t ≤ k →
      EqualRun s1 s2 t i j (i + t) (j + t) := by
    intro least k l hrun hle
    exact ⟨by omega, by omega, fun m hm hlt => hrun.equal m hm (by omega)⟩
  cases rest with
  | nil =>
    refine ⟨hrun h hreach, ?_⟩
    have hreach' : i + t ≤ s1.length := hreach
    unfold Aligned at h ⊢
    simpa using h.cut (n := 0) ht le_rfl (by omega)
  | cons next rest =>
    have hreach' : i + t ≤ next.seq1Range.start - 1 := hreach
    refine ⟨hrun h.1 (by omega), ?_, h.2⟩
    simpa using h.1.cut (n := 0) ht le_rfl (by omega)

/-- The run before a range that slides to the right grows. -/
theorem EqualRun.slide {r1 r2 : OffsetRange} {n : ℤ}
    (hrun : EqualRun s1 s2 least i j r1.start r2.start)
    (hbehind : EqualRun s1 s2 n r1.endExclusive r2.endExclusive (r1.endExclusive + t)
      (r2.endExclusive + t)) (h1 : Slides s1 r1 t) (h2 : Slides s2 r2 t)
    (hleast : least' ≤ r1.start + t - i) :
    EqualRun s1 s2 least' i j (r1.start + t) (r2.start + t) := by
  have hsame := hrun.same
  refine ⟨hleast, by omega, fun k hk hlt => ?_⟩
  rcases lt_or_ge k (r1.start - i) with hfirst | hsecond
  · exact hrun.equal k hk hfirst
  · have hslide1 := h1 (k - (r1.start - i)) (.inr ⟨by omega, by omega⟩)
    have hslide2 := h2 (k - (r1.start - i)) (.inr ⟨by omega, by omega⟩)
    have hequal := hbehind.equal (k - (r1.start - i)) (by omega) (by omega)
    rw [show i + k = r1.start + (k - (r1.start - i)) by omega,
      show j + k = r2.start + (k - (r1.start - i)) by omega, hslide1, hequal, hslide2]

/-- A diff that slides keeps the alignment, within the elements before and behind it. -/
theorem Aligned.shift (h : Aligned s1 s2 least i j (d :: rest)) (h1 : Slides s1 d.seq1Range t)
    (h2 : Slides s2 d.seq2Range t) (hbefore : i + least' ≤ d.seq1Range.start + t)
    (hleast : 0 ≤ least') (hreach : d.seq1Range.endExclusive + t ≤ reach s1 rest) :
    Aligned s1 s2 least' i j (d.delta t :: rest) := by
  obtain ⟨hrun, hrest⟩ := h
  have hsame := hrun.same
  rcases le_total t 0 with ht | ht
  · constructor
    · have hcut : EqualRun s1 s2 least' _ _ _ _ :=
        hrun.cut (m := 0) (n := -t) le_rfl (by omega) (by omega)
      simpa using hcut
    · refine hrest.extend (n := -t) ⟨by simp, by simp, fun k hk hlt => ?_⟩ (by omega)
      simp only [SequenceDiff.delta_seq1Range, SequenceDiff.delta_seq2Range,
        OffsetRange.delta_endExclusive] at hlt ⊢
      have hslide1 := h1 (t + k) (.inl ⟨by omega, by omega⟩)
      have hslide2 := h2 (t + k) (.inl ⟨by omega, by omega⟩)
      have hequal := hrun.equal (d.seq1Range.start - i + (t + k)) (by omega) (by omega)
      rw [show i + (d.seq1Range.start - i + (t + k)) = d.seq1Range.start + (t + k) by omega,
        show j + (d.seq1Range.start - i + (t + k)) = d.seq2Range.start + (t + k) by omega] at hequal
      rw [add_assoc, add_assoc, ← hslide1, ← hslide2, hequal]
  · obtain ⟨hfront, hback⟩ := hrest.split ht hreach
    exact ⟨hrun.slide hfront h1 h2 (by omega), hback⟩

theorem Aligned.le_reach (h : Aligned s1 s2 1 i j rest) : i ≤ reach s1 rest := by
  cases rest with
  | nil =>
    have hle := EqualRun.least_le h
    change i ≤ s1.length
    omega
  | cons next rest =>
    have hle := h.1.least_le
    change i ≤ next.seq1Range.start - 1
    omega

end Slide

/-- The result is an alignment again, with as many removed and inserted elements. -/
def Keeps (s1 s2 : ISequence E N) (least i j : ℤ) (diffs : List SequenceDiff)
    (result : Except BugIndicatingError (List SequenceDiff)) : Prop :=
  ∃ out, result = .ok out ∧ Aligned s1 s2 least i j out ∧
    removed out = removed diffs ∧ inserted out = inserted diffs

section Join

variable {least i j : ℤ} {prev cur merged : SequenceDiff} {rest diffs : List SequenceDiff}
  {result : Except BugIndicatingError (List SequenceDiff)}

@[simp] theorem removed_cons (d : SequenceDiff) (ds : List SequenceDiff) :
    removed (d :: ds) = d.seq1Range.length + removed ds := rfl

@[simp] theorem inserted_cons (d : SequenceDiff) (ds : List SequenceDiff) :
    inserted (d :: ds) = d.seq2Range.length + inserted ds := rfl

@[simp] theorem length_delta (r : OffsetRange) (t : ℤ) : (r.delta t).length = r.length := by
  simp [OffsetRange.length]

theorem Keeps.cons
    (hrun : EqualRun s1 s2 least i j prev.seq1Range.start prev.seq2Range.start)
    (h : Keeps s1 s2 1 prev.seq1Range.endExclusive prev.seq2Range.endExclusive diffs result) :
    Keeps s1 s2 least i j (prev :: diffs) (result.map (prev :: ·)) := by
  obtain ⟨out, rfl, haligned, hremoved, hinserted⟩ := h
  refine ⟨prev :: out, rfl, ⟨hrun, haligned⟩, ?_, ?_⟩
  · rw [removed_cons, removed_cons, hremoved]
  · rw [inserted_cons, inserted_cons, hinserted]

theorem Keeps.of_totals (h : Keeps s1 s2 least i j diffs result) {diffs' : List SequenceDiff}
    (hremoved : removed diffs = removed diffs') (hinserted : inserted diffs = inserted diffs') :
    Keeps s1 s2 least i j diffs' result := by
  obtain ⟨out, hout, haligned, h1, h2⟩ := h
  exact ⟨out, hout, haligned, h1.trans hremoved, h2.trans hinserted⟩

variable [DecidableEq E]

theorem joinToTheLeft_keeps (h : Aligned s1 s2 least i j (prev :: rest)) :
    Keeps s1 s2 least i j (prev :: rest) (joinToTheLeft s1 s2 prev rest) := by
  induction rest generalizing prev least i j with
  | nil => exact ⟨_, rfl, h, rfl, rfl⟩
  | cons cur rest ih =>
    obtain ⟨hrun, hcur⟩ := h
    have hgap := hcur.1.least_le
    have hsame := hcur.1.same
    unfold joinToTheLeft
    split_ifs with hempty
    · dsimp only
      generalize hd : loopWhile _ 1 _ = m
      obtain ⟨hge, hle, hall⟩ := loopWhile_spec (fun d =>
        s1.getElement (cur.seq1Range.start - d) = s1.getElement (cur.seq1Range.endExclusive - d) &&
          s2.getElement (cur.seq2Range.start - d) = s2.getElement (cur.seq2Range.endExclusive - d))
        1 (cur.seq1Range.start - prev.seq1Range.endExclusive).toNat
      rw [hd] at hge hle hall
      have hslides : Slides s1 cur.seq1Range (-(m - 1)) ∧ Slides s2 cur.seq2Range (-(m - 1)) := by
        constructor
        all_goals
          intro k hk
          have hcondition := hall (-k) (by omega) (by omega)
          rw [Bool.and_eq_true, decide_eq_true_eq, decide_eq_true_eq] at hcondition
          simp only [sub_neg_eq_add] at hcondition
        · exact hcondition.1
        · exact hcondition.2
      have hreach := Aligned.le_reach hcur.2
      split_ifs with hmeet
      · have hprev1 := prev.seq1Range.le
        have hprev2 := prev.seq2Range.le
        have hcur1 := cur.seq1Range.le
        have hcur2 := cur.seq2Range.le
        have hshifted : Aligned s1 s2 0 _ _ (cur.delta (-(m - 1)) :: rest) :=
          hcur.shift hslides.1 hslides.2 (by omega) le_rfl (by omega)
        have hle1 : prev.seq1Range.start ≤ cur.seq1Range.endExclusive -
            (cur.seq1Range.start - prev.seq1Range.endExclusive) := by omega
        have hle2 : prev.seq2Range.start ≤ cur.seq2Range.endExclusive -
            (cur.seq1Range.start - prev.seq1Range.endExclusive) := by omega
        rw [SequenceDiff.create_of_le hle1 hle2]
        have hrest := hshifted.2
        rw [hmeet] at hrest
        have hmerged : Aligned s1 s2 least i j
          (⟨⟨_, _, hle1⟩, ⟨_, _, hle2⟩⟩ :: rest) := ⟨hrun, hrest⟩
        refine (ih hmerged).of_totals ?_ ?_
        · simp only [removed_cons, OffsetRange.length]
          omega
        · simp only [inserted_cons, OffsetRange.length]
          omega
      · have hshifted : Aligned s1 s2 1 _ _ (cur.delta (-(m - 1)) :: rest) :=
          hcur.shift hslides.1 hslides.2 (by omega) (by omega) (by omega)
        exact .cons hrun ((ih hshifted).of_totals (by simp) (by simp))
    · exact .cons hrun (ih hcur)

/-- Elements that are strongly equal are equal. -/
def StrongIsEqual (s : ISequence E N) : Prop :=
  ∀ a b : ℤ, 0 ≤ a → a < s.length → 0 ≤ b → b < s.length → s.isStronglyEqual a b = true →
    s.getElement a = s.getElement b

omit [DecidableEq E] in
theorem Aligned.reach_le_length (h : Aligned s1 s2 1 i j rest) :
    reach s1 rest ≤ s1.length := by
  cases rest with
  | nil => exact le_rfl
  | cons next rest =>
    have := (h.2.le_length zero_le_one).1
    have := next.seq1Range.le
    change next.seq1Range.start - 1 ≤ s1.length
    omega

omit [DecidableEq E] in
theorem joinToTheRight_keeps (hstrong1 : StrongIsEqual s1) (hstrong2 : StrongIsEqual s2)
    (hleast : 0 ≤ least) (hi : 0 ≤ i) (hj : 0 ≤ j) (h : Aligned s1 s2 least i j (cur :: rest)) :
    Keeps s1 s2 least i j (cur :: rest) (joinToTheRight s1 s2 cur rest) := by
  induction rest generalizing cur least i j with
  | nil => exact ⟨_, rfl, h, rfl, rfl⟩
  | cons next rest ih =>
    obtain ⟨hrun, hnext⟩ := h
    have hbefore := hrun.least_le
    have hsame := hrun.same
    have hgap := hnext.1.least_le
    have hsame' := hnext.1.same
    have hcur1 := cur.seq1Range.le
    have hcur2 := cur.seq2Range.le
    unfold joinToTheRight
    split_ifs with hempty
    · dsimp only
      generalize hd : loopWhile _ 0 _ = m
      obtain ⟨hge, hle, hall⟩ := loopWhile_spec (fun d =>
        s1.isStronglyEqual (cur.seq1Range.start + d) (cur.seq1Range.endExclusive + d) &&
          s2.isStronglyEqual (cur.seq2Range.start + d) (cur.seq2Range.endExclusive + d))
        0 (next.seq1Range.start - cur.seq1Range.endExclusive).toNat
      rw [hd] at hge hle hall
      obtain ⟨hlength1, hlength2⟩ := hnext.2.le_length zero_le_one
      have hnext1 := next.seq1Range.le
      have hnext2 := next.seq2Range.le
      have hslides : Slides s1 cur.seq1Range m ∧ Slides s2 cur.seq2Range m := by
        constructor
        all_goals
          intro k hk
          have hcondition := hall k (by omega) (by omega)
          rw [Bool.and_eq_true] at hcondition
        · exact hstrong1 (cur.seq1Range.start + k) (cur.seq1Range.endExclusive + k) (by omega)
            (by omega) (by omega) (by omega) hcondition.1
        · exact hstrong2 (cur.seq2Range.start + k) (cur.seq2Range.endExclusive + k) (by omega)
            (by omega) (by omega) (by omega) hcondition.2
      split_ifs with hmeet
      · have hle1 : cur.seq1Range.start + (next.seq1Range.start - cur.seq1Range.endExclusive) ≤
            next.seq1Range.endExclusive := by omega
        have hle2 : cur.seq2Range.start + (next.seq1Range.start - cur.seq1Range.endExclusive) ≤
            next.seq2Range.endExclusive := by omega
        rw [SequenceDiff.create_of_le hle1 hle2]
        have hbehind : EqualRun s1 s2 1 cur.seq1Range.endExclusive cur.seq2Range.endExclusive
            (cur.seq1Range.endExclusive + m) (cur.seq2Range.endExclusive + m) := by
          rw [show cur.seq1Range.endExclusive + m = next.seq1Range.start by omega,
            show cur.seq2Range.endExclusive + m = next.seq2Range.start by omega]
          exact hnext.1
        have hslid : EqualRun s1 s2 least i j _ _ :=
          hrun.slide hbehind hslides.1 hslides.2 (by omega)
        rw [hmeet] at hslid
        have hmerged : Aligned s1 s2 least i j
          (⟨⟨_, _, hle1⟩, ⟨_, _, hle2⟩⟩ :: rest) := ⟨hslid, hnext.2⟩
        refine (ih hleast hi hj hmerged).of_totals ?_ ?_
        · simp only [removed_cons, OffsetRange.length]
          omega
        · simp only [inserted_cons, OffsetRange.length]
          omega
      · have hshifted : Aligned s1 s2 least i j (cur.delta m :: next :: rest) := by
          refine Aligned.shift ⟨hrun, hnext⟩ hslides.1 hslides.2 (by omega) hleast ?_
          change _ ≤ next.seq1Range.start - 1
          omega
        have hkeeps := Keeps.cons hshifted.1
          (ih zero_le_one (by simp; omega) (by simp; omega) hshifted.2)
        exact hkeeps.of_totals (by simp) (by simp)
    · exact .cons hrun (ih zero_le_one (by omega) (by omega) hnext)

theorem joinSequenceDiffsByShifting_keeps (hstrong1 : StrongIsEqual s1)
    (hstrong2 : StrongIsEqual s2) (h : Aligned s1 s2 0 0 0 diffs) :
    Keeps s1 s2 0 0 0 diffs (joinSequenceDiffsByShifting s1 s2 diffs) := by
  unfold joinSequenceDiffsByShifting
  cases diffs with
  | nil => exact ⟨[], rfl, h, rfl, rfl⟩
  | cons first rest =>
    obtain ⟨out, hleft, haligned, hremoved, hinserted⟩ := joinToTheLeft_keeps h
    dsimp only
    rw [hleft]
    cases out with
    | nil => exact ⟨[], rfl, haligned, hremoved, hinserted⟩
    | cons first rest =>
      exact (joinToTheRight_keeps hstrong1 hstrong2 le_rfl le_rfl le_rfl haligned).of_totals
        hremoved hinserted

end Join

section Shift

variable [Add N] [IntCast N] [LT N] [DecidableLT N]

/-- The range lies within another one. -/
def Within (r valid : OffsetRange) : Prop :=
  valid.start ≤ r.start ∧ r.endExclusive ≤ valid.endExclusive

omit [Add N] [IntCast N] in
theorem foldl_best (score : ℤ → N) (deltas : List ℤ) (best : ℤ × N) :
    (deltas.foldl (fun best delta =>
      if best.2 < score delta then (delta, score delta) else best) best).1 ∈ best.1 :: deltas := by
  induction deltas generalizing best with
  | nil => simp
  | cons delta deltas ih =>
    rw [List.foldl_cons]
    have hrest := ih (if best.2 < score delta then (delta, score delta) else best)
    split_ifs at hrest ⊢ with hbetter
    · exact List.mem_cons_of_mem _ hrest
    · rcases List.mem_cons.mp hrest with heq | hmem
      · exact heq ▸ List.mem_cons_self
      · exact List.mem_cons_of_mem _ (List.mem_cons_of_mem _ hmem)

/-- A diff with an empty first side slides along the second sequence within the valid ranges. -/
theorem shiftDiffToBetterPosition_slides (score1 score2 : ℤ → N) (diff : SequenceDiff)
    {seq1ValidRange seq2ValidRange : OffsetRange} (hstrong : StrongIsEqual s2)
    (hempty : diff.seq1Range.isEmpty = true) (h1 : Within diff.seq1Range seq1ValidRange)
    (h2 : Within diff.seq2Range seq2ValidRange) (hstart : 0 ≤ seq2ValidRange.start)
    (hend : seq2ValidRange.endExclusive ≤ s2.length) :
    ∃ t, shiftDiffToBetterPosition score1 score2 diff s2 seq1ValidRange seq2ValidRange =
        diff.delta t ∧ Slides s2 diff.seq2Range t ∧ Within (diff.seq1Range.delta t) seq1ValidRange ∧
      Within (diff.seq2Range.delta t) seq2ValidRange := by
  obtain ⟨hstart1, hend1⟩ := h1
  obtain ⟨hstart2, hend2⟩ := h2
  have hle := diff.seq2Range.le
  rw [OffsetRange.isEmpty, decide_eq_true_eq] at hempty
  unfold shiftDiffToBetterPosition
  dsimp only
  obtain ⟨hgeBefore, -, hbefore⟩ := loopWhile_spec (fun deltaBefore =>
    decide (diff.seq1Range.start - deltaBefore ≥ seq1ValidRange.start) &&
      decide (diff.seq2Range.start - deltaBefore ≥ seq2ValidRange.start) &&
      s2.isStronglyEqual (diff.seq2Range.start - deltaBefore)
        (diff.seq2Range.endExclusive - deltaBefore)) 1 (maxShiftLimit - 1)
  obtain ⟨hgeAfter, -, hafter⟩ := loopWhile_spec (fun deltaAfter =>
    decide (diff.seq1Range.start + deltaAfter < seq1ValidRange.endExclusive) &&
      decide (diff.seq2Range.endExclusive + deltaAfter < seq2ValidRange.endExclusive) &&
      s2.isStronglyEqual (diff.seq2Range.start + deltaAfter)
        (diff.seq2Range.endExclusive + deltaAfter)) 0 maxShiftLimit
  generalize loopWhile _ 1 (maxShiftLimit - 1) = m at *
  generalize loopWhile _ 0 maxShiftLimit = n at *
  simp only [Bool.and_eq_true, decide_eq_true_eq] at hbefore hafter
  -- every delta between the two bounds is one along which the diff slides
  have hall : ∀ t, -(m - 1) ≤ t → t ≤ n → Slides s2 diff.seq2Range t ∧
      Within (diff.seq1Range.delta t) seq1ValidRange ∧
      Within (diff.seq2Range.delta t) seq2ValidRange := by
    intro t hmt htn
    have hneg : t < 0 → _ := fun ht => hbefore (-t) (by omega) (by omega)
    have hpos : 0 < t → _ := fun ht => hafter (t - 1) (by omega) (by omega)
    refine ⟨fun k hk => ?_, ⟨?_, ?_⟩, ⟨?_, ?_⟩⟩
    · rcases hk with ⟨hk, hlt⟩ | ⟨hk, hlt⟩
      · have hcondition := hbefore (-k) (by omega) (by omega)
        simp only [sub_neg_eq_add] at hcondition
        exact hstrong (diff.seq2Range.start + k) (diff.seq2Range.endExclusive + k) (by omega)
          (by omega) (by omega) (by omega) hcondition.2
      · have hcondition := hafter k hk (by omega)
        exact hstrong (diff.seq2Range.start + k) (diff.seq2Range.endExclusive + k) (by omega)
          (by omega) (by omega) (by omega) hcondition.2
    all_goals
      simp only [OffsetRange.delta_start, OffsetRange.delta_endExclusive]
      omega
  split_ifs with hnone
  · exact ⟨0, (SequenceDiff.delta_zero diff).symm, hall 0 (by omega) (by omega)⟩
  · have hbest := foldl_best (fun delta => score1 (diff.seq1Range.start + delta) +
      score2 (diff.seq2Range.start + delta) + score2 (diff.seq2Range.endExclusive + delta))
      ((List.range (m - 1 + n + 1).toNat).map fun x : ℕ => (x : ℤ) - (m - 1)) (0, ((-1 : ℤ) : N))
    refine ⟨_, rfl, hall _ ?_ ?_⟩
    all_goals
      rcases List.mem_cons.mp hbest with heq | hmem
      · rw [heq]
        omega
      · obtain ⟨x, hx, heq⟩ := List.mem_map.mp hmem
        rw [List.mem_range] at hx
        rw [← heq]
        omega

variable {least i j : ℤ} {diff : SequenceDiff} {diffs : List SequenceDiff}

theorem shiftFrom_keeps (hstrong1 : StrongIsEqual s1) (hstrong2 : StrongIsEqual s2)
    (score1 score2 : ℤ → N) {prevDiff : Option SequenceDiff} (hleast : 0 ≤ least) (hi : 0 ≤ i)
    (hj : 0 ≤ j) (hprev1 : prevDiff.elim 0 (fun prev => prev.seq1Range.endExclusive + 1) = i + least)
    (hprev2 : prevDiff.elim 0 (fun prev => prev.seq2Range.endExclusive + 1) = j + least)
    (h : Aligned s1 s2 least i j diffs) :
    Keeps s1 s2 least i j diffs (shiftFrom s1 s2 score1 score2 prevDiff diffs) := by
  induction diffs generalizing prevDiff least i j with
  | nil => exact ⟨[], rfl, h, rfl, rfl⟩
  | cons diff rest ih =>
    have hbefore := h.1.least_le
    have hsame := h.1.same
    have hdiff1 := diff.seq1Range.le
    have hdiff2 := diff.seq2Range.le
    have hreach1 := h.2.le_reach
    have hlength1 := h.2.reach_le_length
    have hreach2 := h.2.swap.le_reach
    have hlength2 := h.2.swap.reach_le_length
    have hfront1 : i + least ≤ diff.seq1Range.start := by omega
    have hfront2 : j + least ≤ diff.seq2Range.start := by omega
    have hnonneg1 : 0 ≤ i + least := by omega
    have hnonneg2 : 0 ≤ j + least := by omega
    have hvalid1 : i + least ≤ reach s1 rest := by omega
    have hvalid2 : j + least ≤ reach s2 (rest.map SequenceDiff.swap) := by omega
    have hhead : rest.head?.elim (s2.length : ℤ) (fun next => next.seq2Range.start - 1) =
        reach s2 (rest.map SequenceDiff.swap) := by
      cases rest <;> rfl
    unfold shiftFrom
    rw [hprev1, hprev2, hhead, OffsetRange.create_of_le hvalid2]
    change Keeps _ _ _ _ _ _ ((OffsetRange.create (i + least) (reach s1 rest)).bind _)
    rw [OffsetRange.create_of_le hvalid1]
    -- whichever side is empty, the diff slides within the valid ranges
    have hshifted : ∃ t, (if diff.seq1Range.isEmpty then
          shiftDiffToBetterPosition score1 score2 diff s2 ⟨_, _, hvalid1⟩ ⟨_, _, hvalid2⟩
        else if diff.seq2Range.isEmpty then
          (shiftDiffToBetterPosition score2 score1 diff.swap s1 ⟨_, _, hvalid2⟩
            ⟨_, _, hvalid1⟩).swap
        else diff) = diff.delta t ∧ Aligned s1 s2 least i j (diff.delta t :: rest) := by
      have hw1 : Within diff.seq1Range ⟨_, _, hvalid1⟩ := ⟨hfront1, hreach1⟩
      have hw2 : Within diff.seq2Range ⟨_, _, hvalid2⟩ := ⟨hfront2, hreach2⟩
      split_ifs with hempty1 hempty2
      · obtain ⟨t, ht, hslides, hwithin, -⟩ := shiftDiffToBetterPosition_slides score1 score2
          diff hstrong2 hempty1 hw1 hw2 hnonneg2 hlength2
        exact ⟨t, ht, h.shift (slides_of_isEmpty hempty1 t) hslides hwithin.1 hleast hwithin.2⟩
      · obtain ⟨t, ht, hslides, -, hwithin⟩ := shiftDiffToBetterPosition_slides score2 score1
          diff.swap hstrong1 hempty2 hw2 hw1 hnonneg1 hlength1
        refine ⟨t, ?_, h.shift hslides (slides_of_isEmpty hempty2 t) hwithin.1 hleast hwithin.2⟩
        rw [ht, SequenceDiff.delta_swap]
      · exact ⟨0, (SequenceDiff.delta_zero diff).symm, by rwa [SequenceDiff.delta_zero]⟩
    obtain ⟨t, hshifted, haligned⟩ := hshifted
    have hstart1 := haligned.1.least_le
    have hstart2 := haligned.1.same
    have hends1 := (diff.delta t).seq1Range.le
    have hends2 := (diff.delta t).seq2Range.le
    have hrest : Keeps s1 s2 1 _ _ rest
        (shiftFrom s1 s2 score1 score2 (some (diff.delta t)) rest) :=
      ih zero_le_one (by omega) (by omega) rfl rfl haligned.2
    dsimp only [Except.bind]
    rw [hshifted]
    exact (Keeps.cons haligned.1 hrest).of_totals (by simp) (by simp)

theorem shiftSequenceDiffs_keeps (hstrong1 : StrongIsEqual s1) (hstrong2 : StrongIsEqual s2)
    (h : Aligned s1 s2 0 0 0 diffs) :
    Keeps s1 s2 0 0 0 diffs (shiftSequenceDiffs s1 s2 diffs) := by
  unfold shiftSequenceDiffs
  split
  · exact shiftFrom_keeps hstrong1 hstrong2 _ _ le_rfl le_rfl le_rfl rfl rfl h
  · exact ⟨diffs, rfl, h, rfl, rfl⟩

/-- Optimizing an alignment does not throw and gives one with as many removed and inserted
elements. -/
theorem optimizeSequenceDiffs_aligned [DecidableEq E] (hstrong1 : StrongIsEqual s1)
    (hstrong2 : StrongIsEqual s2) (diffs : List SequenceDiff) (h : Aligned s1 s2 0 0 0 diffs) :
    ∃ result, optimizeSequenceDiffs s1 s2 diffs = .ok result ∧ Aligned s1 s2 0 0 0 result ∧
      removed result = removed diffs ∧ inserted result = inserted diffs := by
  obtain ⟨first, hfirst, haligned, hremoved, hinserted⟩ :=
    joinSequenceDiffsByShifting_keeps hstrong1 hstrong2 h
  obtain ⟨second, hsecond, haligned', hremoved', hinserted'⟩ :=
    joinSequenceDiffsByShifting_keeps hstrong1 hstrong2 haligned
  have hshift := shiftSequenceDiffs_keeps hstrong1 hstrong2 haligned'
  unfold optimizeSequenceDiffs
  rw [hfirst]
  dsimp only [Except.bind]
  rw [hsecond]
  exact (hshift.of_totals hremoved' hinserted').of_totals hremoved hinserted

/-- A sequence of numbers whose boundary scores grow -/
def sequenceOf (xs : List ℕ) : ISequence ℕ ℤ where
  length := xs.length
  getElement k := xs.getD k.toNat 0
  isStronglyEqual a b := xs.getD a.toNat 0 = xs.getD b.toNat 0
  getBoundaryScore := some id

theorem strongIsEqual_sequenceOf (xs : List ℕ) : StrongIsEqual (sequenceOf xs) := by
  intro a b _ _ _ _ h
  exact of_decide_eq_true h

theorem optimizeSequenceDiffs_aligned_insertion :
    ∃ result, optimizeSequenceDiffs (sequenceOf [1, 2]) (sequenceOf [1, 1, 2])
        [⟨.emptyAt 0, ⟨0, 1, by decide⟩⟩] = .ok result ∧
      Aligned (sequenceOf [1, 2]) (sequenceOf [1, 1, 2]) 0 0 0 result ∧
      removed result = 0 ∧ inserted result = 1 := by
  refine optimizeSequenceDiffs_aligned (strongIsEqual_sequenceOf _) (strongIsEqual_sequenceOf _)
    [⟨.emptyAt 0, ⟨0, 1, by decide⟩⟩] ⟨⟨by decide, by decide, fun k hk hlt => ?_⟩,
      ⟨by decide, by decide, fun k hk hlt => ?_⟩⟩
  · exact absurd hlt (by simpa using hk)
  · obtain rfl | rfl : k = 0 ∨ k = 1 := by
      change k < 2 - 0 at hlt
      omega
    · rfl
    · rfl

end Shift

end NexgileIde.Diff
