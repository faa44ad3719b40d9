import NexgileIde.Text.LineBreaks

/-!
# Lines of a text cut into parts

Offsets are turned into lines by counting the line ends up to them. When a text is cut
in two, its line ends are those of both parts, except that the `\r` of a `\r\n` cut in
two ends a line of the first part only.
-/
namespace NexgileIde.Text

/-- One if a `\r\n` is cut in two between `u` and `v`. -/
def seam (u v : Str) : ℕ := if Seam u v then 1 else 0

theorem seam_of_seam {u v : Str} (h : Seam u v) : seam u v = 1 := if_pos h

theorem seam_of_not_seam {u v : Str} (h : ¬ Seam u v) : seam u v = 0 := if_neg h

@[simp] theorem seam_nil_right (u : Str) : seam u [] = 0 := seam_of_not_seam fun h => nomatch h.2

theorem seam_append_left_iff {u w v : Str} (h : w ≠ []) : Seam (u ++ w) v ↔ Seam w v := by
  unfold Seam
  rw [List.getLast?_append_of_ne_nil u h]

theorem seam_append_right_iff {u w v : Str} (h : w ≠ []) : Seam u (w ++ v) ↔ Seam u w := by
  unfold Seam
  rw [List.head?_append_of_ne_nil w h]

theorem seam_append_left {u w v : Str} (h : w ≠ []) : seam (u ++ w) v = seam w v := by
  unfold seam
  simp only [seam_append_left_iff h]

theorem lineEnds_mem {i j : ℕ} {str : Str} (h : j ∈ lineEnds i str) :
    i < j ∧ j ≤ i + str.length := by
  induction str generalizing i with
  | nil => cases h
  | cons chr rest ih =>
    rw [List.length_cons]
    have hrest : j ∈ lineEnds (i + 1) rest → i < j ∧ j ≤ i + (rest.length + 1) := by
      intro h
      have := ih h
      omega
    rw [lineEnds_cons] at h
    split_ifs at h
    · rcases List.mem_cons.mp h with rfl | h
      · omega
      · exact hrest h
    · exact hrest h

theorem lineEnds_pairwise (i : ℕ) (str : Str) : (lineEnds i str).Pairwise (· < ·) := by
  induction str generalizing i with
  | nil => exact .nil
  | cons chr rest ih =>
    rw [lineEnds_cons]
    split_ifs
    · exact .cons (fun j hj => (lineEnds_mem hj).1) (ih (i + 1))
    · exact ih (i + 1)

theorem lineEnds_concat_cr (i : ℕ) (u : Str) :
    lineEnds i (u ++ [CarriageReturn]) = lineEnds i u ++ [i + u.length + 1] := by
  have hend : IsLineEnd CarriageReturn [] := .inr ⟨rfl, nofun⟩
  rw [lineEnds_append i (fun h => absurd h.head_eq (by decide)), lineEnds_cons, if_pos hend]
  rfl

/-- The line ends of a text cut in two. -/
theorem lineEnds_cut (i : ℕ) (u v : Str) :
    lineEnds i (u ++ v) =
      (lineEnds i u).take ((lineEnds i u).length - seam u v) ++ lineEnds (i + u.length) v := by
  by_cases h : Seam u v
  · obtain ⟨u, rfl⟩ : ∃ u', u = u' ++ [CarriageReturn] := by
      obtain ⟨u', hu⟩ := List.getLast?_eq_some_iff.mp h.1
      exact ⟨u', hu⟩
    obtain ⟨v, rfl⟩ : ∃ v', v = LineFeed :: v' := by
      obtain ⟨v', hv⟩ := List.head?_eq_some_iff.mp h.2
      exact ⟨v', hv⟩
    have hnone : ¬ Seam u (CarriageReturn :: LineFeed :: v) :=
      fun h => absurd h.head_eq (by decide)
    rw [seam_of_seam h, lineEnds_concat_cr, List.append_assoc, List.singleton_append,
      lineEnds_append i hnone, lineEnds_cons, if_neg (not_isLineEnd_crlf v)]
    simp [Nat.add_assoc]
  · rw [lineEnds_append i h, seam_of_not_seam h, Nat.sub_zero, List.take_length]

theorem length_lineEnds (i : ℕ) (str : Str) : (lineEnds i str).length = countBreaks str := by
  have h := lineEnds_add i 0 str
  rw [Nat.add_zero] at h
  rw [h, List.length_map]
  rfl

theorem seam_le_countBreaks (u v : Str) : seam u v ≤ countBreaks u := by
  unfold seam
  split_ifs with h
  · obtain ⟨u', rfl⟩ := List.getLast?_eq_some_iff.mp h.1
    rw [← length_lineEnds 0, lineEnds_concat_cr]
    simp
  · omega

theorem countBreaks_cut (u v : Str) :
    countBreaks (u ++ v) + seam u v = countBreaks u + countBreaks v := by
  have hle := seam_le_countBreaks u v
  rw [← length_lineEnds 0 (u ++ v), lineEnds_cut, List.length_append, List.length_take,
    length_lineEnds, length_lineEnds]
  omega

/-- The number of lines that have ended at offset `o`. -/
def lineAt (str : Str) (o : ℕ) : ℕ := (lineEnds 0 str).countP (· ≤ o)

theorem lineAt_eq (str : Str) (o : ℕ) : lineAt str o = (lineEnds 0 str).countP (· ≤ o) := rfl

theorem lineAt_le (str : Str) (o : ℕ) : lineAt str o ≤ countBreaks str := List.countP_le_length

theorem lineAt_mono (str : Str) {o o' : ℕ} (h : o ≤ o') : lineAt str o ≤ lineAt str o' :=
  List.countP_mono_left fun j _ hj => by
    simp only [decide_eq_true_eq] at hj ⊢
    omega

/-- Where a text is cut, its line is counted by the first part alone. -/
theorem lineAt_cut (u v : Str) : lineAt (u ++ v) u.length + seam u v = countBreaks u := by
  have hle := seam_le_countBreaks u v
  have hleft : ((lineEnds 0 u).take (countBreaks u - seam u v)).countP (· ≤ u.length) =
      countBreaks u - seam u v := by
    rw [List.countP_eq_length.mpr, List.length_take, length_lineEnds]
    · omega
    · intro j hj
      have := lineEnds_mem (List.mem_of_mem_take hj)
      simp only [decide_eq_true_eq]
      omega
  have hright : (lineEnds (0 + u.length) v).countP (· ≤ u.length) = 0 := by
    rw [List.countP_eq_zero]
    intro j hj
    have := lineEnds_mem hj
    simp only [decide_eq_true_eq]
    omega
  rw [lineAt_eq, lineEnds_cut, List.countP_append, length_lineEnds, hleft, hright]
  omega

theorem countP_le_iff {E : List ℕ} (h : E.Pairwise (· < ·)) {k : ℕ} (hk : k < E.length) (o : ℕ) :
    E[k] ≤ o ↔ k < E.countP (· ≤ o) := by
  induction E generalizing k with
  | nil => simp at hk
  | cons a E ih =>
    obtain ⟨ha, hE⟩ := List.pairwise_cons.mp h
    by_cases hao : a ≤ o
    · rw [List.countP_cons_of_pos (by simpa using hao)]
      cases k with
      | zero => simpa using hao
      | succ k =>
        have := ih hE (k := k) (by simpa using hk)
        rw [List.getElem_cons_succ, this]
        omega
    · have hzero : E.countP (· ≤ o) = 0 := by
        rw [List.countP_eq_zero]
        intro b hb
        have := ha b hb
        simp only [decide_eq_true_eq]
        omega
      rw [List.countP_cons_of_neg (by simpa using hao), hzero]
      have hmem := List.getElem_mem hk
      rcases List.mem_cons.mp hmem with heq | hmem
      · omega
      · have := ha _ hmem
        omega

theorem length_createLineStartsFast (str : Str) :
    (createLineStartsFast str).length = countBreaks str + 1 := by
  unfold createLineStartsFast
  rw [lineStartsFrom_eq, List.length_cons, length_lineEnds]

/-- The start of a line; its number counts from zero. -/
def lineStart (str : Str) (line : ℕ) : ℕ := (createLineStartsFast str)[line]?.getD 0

theorem lineStart_zero (str : Str) : lineStart str 0 = 0 := rfl

theorem lt_length_lineEnds {str : Str} {k : ℕ} (h : k < countBreaks str) :
    k < (lineEnds 0 str).length := h

theorem lineStart_succ {str : Str} {k : ℕ} (h : k < countBreaks str) :
    lineStart str (k + 1) = getElem (lineEnds 0 str) k (lt_length_lineEnds h) := by
  unfold lineStart createLineStartsFast
  rw [lineStartsFrom_eq, List.getElem?_cons_succ, List.getElem?_eq_getElem (lt_length_lineEnds h),
    Option.getD_some]

/-- A line starts before an offset exactly if it is not behind the line of the offset. -/
theorem lineStart_le_iff {str : Str} {k : ℕ} (h : k ≤ countBreaks str) (o : ℕ) :
    lineStart str k ≤ o ↔ k ≤ lineAt str o := by
  cases k with
  | zero => simp [lineStart_zero]
  | succ k =>
    rw [lineStart_succ h, countP_le_iff (lineEnds_pairwise 0 str)]
    rfl

theorem lineStart_lineAt_le (str : Str) (o : ℕ) : lineStart str (lineAt str o) ≤ o :=
  (lineStart_le_iff (lineAt_le str o) o).mpr le_rfl

/-- Line starts up to the cut are those of the first part. -/
theorem lineStart_append_left {u v : Str} {k : ℕ} (h : k ≤ lineAt (u ++ v) u.length) :
    lineStart (u ++ v) k = lineStart u k := by
  cases k with
  | zero => rfl
  | succ k =>
    have hcut := lineAt_cut u v
    have hle := lineAt_le (u ++ v) u.length
    have hu : k < countBreaks u := by omega
    have huv : k < countBreaks (u ++ v) := by omega
    rw [lineStart_succ huv, lineStart_succ hu]
    have hcutEnds := lineEnds_cut 0 u v
    have hlen : k < ((lineEnds 0 u).take ((lineEnds 0 u).length - seam u v)).length := by
      rw [List.length_take, length_lineEnds]
      omega
    simp only [hcutEnds, List.getElem_append_left hlen, List.getElem_take]

/-- Line starts behind the cut are those of the second part. -/
theorem lineStart_append_right {u v : Str} {k : ℕ} (h : k < countBreaks v) :
    lineStart (u ++ v) (lineAt (u ++ v) u.length + (k + 1)) = u.length + lineStart v (k + 1) := by
  have hcut := lineAt_cut u v
  have hcount := countBreaks_cut u v
  have huv : lineAt (u ++ v) u.length + k < countBreaks (u ++ v) := by omega
  rw [← Nat.add_assoc, lineStart_succ huv, lineStart_succ h]
  have hcutEnds := lineEnds_cut 0 u v
  have hlen : ((lineEnds 0 u).take ((lineEnds 0 u).length - seam u v)).length =
      lineAt (u ++ v) u.length := by
    rw [List.length_take, length_lineEnds]
    omega
  have hshift := lineEnds_add u.length 0 v
  rw [Nat.add_zero] at hshift
  rw [Nat.zero_add, hshift] at hcutEnds
  simp only [hcutEnds]
  rw [List.getElem_append_right (by omega)]
  simp [hlen]

/-- The line of an offset in the first part does not depend on what follows. -/
theorem lineAt_append_left {u v : Str} {o : ℕ} (h : o < u.length ∨ o = u.length ∧ ¬ Seam u v) :
    lineAt (u ++ v) o = lineAt u o := by
  have hright : (lineEnds (0 + u.length) v).countP (· ≤ o) = 0 := by
    rw [List.countP_eq_zero]
    intro j hj
    have := lineEnds_mem hj
    simp only [decide_eq_true_eq]
    omega
  rw [lineAt_eq, lineAt_eq, lineEnds_cut, List.countP_append, hright, Nat.add_zero]
  by_cases hs : Seam u v
  · have ho : o < u.length := h.resolve_right fun h => h.2 hs
    obtain ⟨u', rfl⟩ := List.getLast?_eq_some_iff.mp hs.1
    have hseam := seam_of_seam hs
    rw [List.length_append, List.length_singleton] at ho
    have hlast : ([0 + u'.length + 1] : List ℕ).countP (· ≤ o) = 0 := by
      simp
      omega
    rw [lineEnds_concat_cr, hseam, List.length_append, List.length_singleton, Nat.add_sub_cancel,
      List.take_left, List.countP_append, hlast, Nat.add_zero]
  · rw [seam_of_not_seam hs, Nat.sub_zero, List.take_length]

/-- The line of an offset in the second part. -/
theorem lineAt_append_right (u v : Str) (o : ℕ) :
    lineAt (u ++ v) (u.length + o) = lineAt (u ++ v) u.length + lineAt v o := by
  have hcut := lineAt_cut u v
  have hle := seam_le_countBreaks u v
  have hleft : ((lineEnds 0 u).take (countBreaks u - seam u v)).countP (· ≤ u.length + o) =
      countBreaks u - seam u v := by
    rw [List.countP_eq_length.mpr, List.length_take, length_lineEnds]
    · omega
    · intro j hj
      have := lineEnds_mem (List.mem_of_mem_take hj)
      simp only [decide_eq_true_eq]
      omega
  have hshift := lineEnds_add u.length 0 v
  rw [Nat.add_zero] at hshift
  have hright : (lineEnds (0 + u.length) v).countP (· ≤ u.length + o) = lineAt v o := by
    rw [Nat.zero_add, hshift, List.countP_map, lineAt_eq]
    congr 1
    funext j
    simp
  rw [lineAt_eq, lineEnds_cut, List.countP_append, length_lineEnds, hleft, hright]
  omega

theorem countBreaks_lineFeed (v : Str) : countBreaks (LineFeed :: v) = countBreaks v + 1 := by
  rw [countBreaks_cons, if_pos (isLineEnd_lineFeed v), Nat.add_comm]

theorem lineStart_lineFeed (v : Str) : lineStart (LineFeed :: v) 1 = 1 := by
  have h : 0 < countBreaks (LineFeed :: v) := by
    rw [countBreaks_lineFeed]
    omega
  rw [lineStart_succ h]
  simp only [lineEnds_cons, if_pos (isLineEnd_lineFeed v), List.getElem_cons_zero]

theorem countBreaks_concat_cr (u : Str) : countBreaks (u ++ [CarriageReturn]) = countBreaks u + 1 := by
  rw [← length_lineEnds 0, lineEnds_concat_cr, List.length_append, length_lineEnds,
    List.length_singleton]

theorem lineStart_concat_cr (u : Str) :
    lineStart (u ++ [CarriageReturn]) (countBreaks u + 1) = u.length + 1 := by
  have h : countBreaks u < countBreaks (u ++ [CarriageReturn]) := by
    rw [countBreaks_concat_cr]
    omega
  rw [lineStart_succ h]
  simp [lineEnds_concat_cr, length_lineEnds]

/-- Where no `\r\n` is cut, a line starts behind a `\r`. -/
theorem lineStart_of_not_seam {u v : Str} (hu : u.getLast? = some CarriageReturn)
    (h : ¬ Seam u v) : lineStart (u ++ v) (lineAt (u ++ v) u.length) = u.length := by
  have hcut := lineAt_cut u v
  rw [seam_of_not_seam h, Nat.add_zero] at hcut
  rw [lineStart_append_left le_rfl, hcut]
  obtain ⟨u', rfl⟩ := List.getLast?_eq_some_iff.mp hu
  rw [countBreaks_concat_cr, lineStart_concat_cr, List.length_append, List.length_singleton]

/-- Where a `\r\n` is cut, the line goes on and ends one code unit later. -/
theorem lineStart_of_seam {u v : Str} (h : Seam u v) :
    lineAt (u ++ v) u.length < countBreaks (u ++ v) ∧
      lineStart (u ++ v) (lineAt (u ++ v) u.length) < u.length ∧
      lineStart (u ++ v) (lineAt (u ++ v) u.length + 1) = u.length + 1 := by
  have hcut := lineAt_cut u v
  have hcount := countBreaks_cut u v
  rw [seam_of_seam h] at hcut hcount
  obtain ⟨v', rfl⟩ := List.head?_eq_some_iff.mp h.2
  obtain ⟨u', hu'⟩ := List.getLast?_eq_some_iff.mp h.1
  have hv := countBreaks_lineFeed v'
  have hsucc := lineStart_append_right (u := u) (v := LineFeed :: v') (k := 0) (by omega)
  rw [Nat.zero_add, lineStart_lineFeed] at hsucc
  have hlt : ¬ u.length ≤ lineStart (u ++ LineFeed :: v') (lineAt (u ++ LineFeed :: v') u.length) := by
    intro hge
    rw [lineStart_append_left le_rfl] at hge
    subst hu'
    rw [countBreaks_concat_cr] at hcut
    have hline := lineAt_cut u' [CarriageReturn]
    have hseam : seam u' [CarriageReturn] = 0 :=
      seam_of_not_seam fun h => absurd h.head_eq (by decide)
    have hle := lineStart_lineAt_le (u' ++ [CarriageReturn]) u'.length
    rw [show lineAt (u' ++ [CarriageReturn]) u'.length = countBreaks u' by omega] at hle
    rw [Nat.succ_inj.mp hcut, List.length_append, List.length_singleton] at hge
    omega
  omega

theorem countBreaks_le_append_right (u v : Str) : countBreaks v ≤ countBreaks (u ++ v) := by
  have hcut := countBreaks_cut u v
  have hle := seam_le_countBreaks u v
  omega

/-- A text without line breaks has neither `\n` nor `\r`. -/
theorem countBreaks_pos {str : Str} {chr : CodeUnit} (hmem : chr ∈ str)
    (hchr : chr = LineFeed ∨ chr = CarriageReturn) : 0 < countBreaks str := by
  obtain ⟨u, v, rfl⟩ := List.append_of_mem hmem
  refine Nat.lt_of_lt_of_le ?_ (countBreaks_le_append_right u (chr :: v))
  rcases hchr with rfl | rfl
  · rw [countBreaks_lineFeed]
    omega
  · by_cases hend : IsLineEnd CarriageReturn v
    · rw [countBreaks_cons, if_pos hend]
      omega
    · have hlf : v.head? = some LineFeed := by
        by_contra hne
        exact hend (.inr ⟨rfl, hne⟩)
      obtain ⟨v', rfl⟩ := List.head?_eq_some_iff.mp hlf
      have hle := countBreaks_le_append_right [CarriageReturn] (LineFeed :: v')
      rw [countBreaks_lineFeed] at hle
      rw [List.singleton_append] at hle
      omega

theorem lineAt_length (str : Str) : lineAt str str.length = countBreaks str := by
  have h := lineAt_cut str []
  rwa [List.append_nil, seam_nil_right, Nat.add_zero] at h

/-- The end of a text that ends in `\r` starts a line. -/
theorem lineStart_last {u : Str} (h : u.getLast? = some CarriageReturn) :
    lineStart u (countBreaks u) = u.length := by
  obtain ⟨u', rfl⟩ := List.getLast?_eq_some_iff.mp h
  rw [countBreaks_concat_cr, lineStart_concat_cr, List.length_append, List.length_singleton]

/-- A line starts behind a `\n`. -/
theorem lineStart_behind_lineFeed (u v : Str) :
    lineAt (u ++ LineFeed :: v) (u.length + 1) = lineAt (u ++ LineFeed :: v) u.length + 1 ∧
      lineAt (u ++ LineFeed :: v) u.length < countBreaks (u ++ LineFeed :: v) ∧
      lineStart (u ++ LineFeed :: v) (lineAt (u ++ LineFeed :: v) u.length + 1) = u.length + 1 := by
  have hfirst := lineAt_cut [LineFeed] v
  have hseam : seam [LineFeed] v = 0 :=
    seam_of_not_seam fun h => absurd (h.last_eq (u := [])) (by decide)
  have hone := countBreaks_lineFeed []
  have hcount := countBreaks_lineFeed v
  have hline := lineAt_append_right u (LineFeed :: v) 1
  have hstart := lineStart_append_right (u := u) (v := LineFeed :: v) (k := 0) (by omega)
  have hle := lineAt_le (u ++ LineFeed :: v) (u.length + 1)
  rw [Nat.zero_add, lineStart_lineFeed] at hstart
  rw [hseam, hone, Nat.add_zero, List.length_singleton, List.singleton_append] at hfirst
  rw [hfirst] at hline
  exact ⟨hline, by omega, hstart⟩

theorem lineStart_lt_succ {str : Str} {k : ℕ} (h : k < countBreaks str) :
    lineStart str k < lineStart str (k + 1) := by
  have hlen := length_lineEnds 0 str
  have hpair := lineEnds_pairwise 0 str
  rw [lineStart_succ h]
  cases k with
  | zero => exact (lineEnds_mem (List.getElem_mem (l := lineEnds 0 str) (by omega))).1
  | succ k =>
    have hk : k < countBreaks str := by omega
    rw [lineStart_succ hk]
    exact List.pairwise_iff_getElem.mp hpair k (k + 1) (by omega) (by omega) (by omega)

/-- One code unit further is at most one line further, and then at its start. -/
theorem lineAt_succ (str : Str) (o : ℕ) :
    lineAt str (o + 1) = lineAt str o ∧ lineStart str (lineAt str (o + 1)) ≠ o + 1 ∨
      lineAt str (o + 1) = lineAt str o + 1 ∧ lineStart str (lineAt str (o + 1)) = o + 1 := by
  have hmono : lineAt str o ≤ lineAt str (o + 1) := lineAt_mono str (Nat.le_succ o)
  have hle := lineAt_le str (o + 1)
  have hstart := lineStart_lineAt_le str (o + 1)
  by_cases heq : lineStart str (lineAt str (o + 1)) = o + 1
  · right
    obtain ⟨k, hk⟩ : ∃ k, lineAt str (o + 1) = k + 1 := by
      refine Nat.exists_eq_succ_of_ne_zero fun hzero => ?_
      rw [hzero, lineStart_zero] at heq
      omega
    have hlt := @lineStart_lt_succ str k (by omega)
    have hbefore := @lineStart_le_iff str k (by omega) o
    have hbehind := @lineStart_le_iff str (k + 1) (by omega) o
    rw [hk] at heq hmono ⊢
    omega
  · left
    have hbefore := lineStart_le_iff hle o
    omega

/-- Where a line starts; lines behind the last one start at the end of the text. -/
def lineOffset (str : Str) (line : ℕ) : ℕ :=
  if line ≤ countBreaks str then lineStart str line else str.length

@[simp] theorem lineOffset_zero (str : Str) : lineOffset str 0 = 0 := by
  rw [lineOffset, if_pos (Nat.zero_le _), lineStart_zero]

end NexgileIde.Text
