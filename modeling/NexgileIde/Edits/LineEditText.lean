import NexgileIde.Edits.LineEditRun

/-!
# Line edits on lines and on text

Every line replacement is turned into a replacement of text on its own. A deletion of the last
lines takes the line feed in front of them, so the text edit is that of the lines unless there
is no such line feed or the replacement before has used it.
-/
namespace NexgileIde.Edits

open Text TextLength Library
open MergeEditor (LineRange joinLines)

/-! ## Lines and their text -/

theorem joinLines_append_left (xs : List Str) {ys : List Str} (h : ys ≠ []) :
    joinLines (xs ++ ys) = xs.flatMap (· ++ [LineFeed]) ++ joinLines ys := by
  induction xs with
  | nil => rfl
  | cons x xs ih =>
    have hne : xs ++ ys ≠ [] := List.append_ne_nil_of_right_ne_nil xs h
    rw [List.cons_append, joinLines_cons, ← lineFeed_append_joinLines hne, ih, List.flatMap_cons]
    simp

theorem joinLines_append_right {xs : List Str} (h : xs ≠ []) (ys : List Str) :
    joinLines (xs ++ ys) = joinLines xs ++ ys.flatMap (LineFeed :: ·) := by
  obtain ⟨x, xs, rfl⟩ := List.exists_cons_of_ne_nil h
  rw [List.cons_append, joinLines_cons, joinLines_cons, List.flatMap_append, List.append_assoc]

/-- The text in front of a line. -/
def textBefore (lines : List Str) (k : ℕ) : Str := (lines.take k).flatMap (· ++ [LineFeed])

/-- The text up to the end of a line. -/
def textUpTo (lines : List Str) (k : ℕ) : Str := joinLines (lines.take k)

/-- The text from the end of a line on. -/
def textBehind (lines : List Str) (k : ℕ) : Str := (lines.drop k).flatMap (LineFeed :: ·)

/-- Lines hold no line breaks. -/
def Plain (lines : List Str) : Prop := ∀ line ∈ lines, LineFeed ∉ line ∧ CarriageReturn ∉ line

variable {lines : List Str} {k j : ℕ}

theorem take_ne_nil (hone : 1 ≤ k) (hle : k ≤ lines.length) : lines.take k ≠ [] :=
  List.ne_nil_of_length_pos (by rw [List.length_take]; omega)

theorem drop_ne_nil (hlt : k < lines.length) : lines.drop k ≠ [] :=
  List.ne_nil_of_length_pos (by rw [List.length_drop]; omega)

theorem textBefore_append (hlt : k < lines.length) :
    textBefore lines k ++ joinLines (lines.drop k) = joinLines lines := by
  rw [textBefore, ← joinLines_append_left _ (drop_ne_nil hlt), List.take_append_drop]

theorem textUpTo_append (hone : 1 ≤ k) (hle : k ≤ lines.length) :
    textUpTo lines k ++ textBehind lines k = joinLines lines := by
  rw [textUpTo, textBehind, ← joinLines_append_right (take_ne_nil hone hle), List.take_append_drop]

theorem textUpTo_lineFeed (hone : 1 ≤ k) (hle : k ≤ lines.length) :
    textUpTo lines k ++ [LineFeed] = textBefore lines k :=
  joinLines_append_lineFeed (take_ne_nil hone hle)

theorem textBehind_eq (hlt : k < lines.length) :
    textBehind lines k = [LineFeed] ++ joinLines (lines.drop k) :=
  (lineFeed_append_joinLines (drop_ne_nil hlt)).symm

theorem textBehind_lineEnds (lines : List Str) (k : ℕ) : LineEnds (textBehind lines k) := by
  unfold textBehind
  cases lines.drop k with
  | nil => exact .inl rfl
  | cons line rest => exact .inr ⟨_, by rw [List.flatMap_cons, List.cons_append]⟩

theorem take_append_extract (h : k ≤ j) : lines.take k ++ lines.extract k j = lines.take j := by
  obtain ⟨i, rfl⟩ := Nat.exists_eq_add_of_le h
  rw [List.extract_eq_take_drop, Nat.add_sub_cancel_left, List.take_add]

/-- Whole lines between two lines. -/
theorem textBefore_extract (h : k ≤ j) :
    textBefore lines k ++ (lines.extract k j).flatMap (· ++ [LineFeed]) = textBefore lines j := by
  rw [textBefore, textBefore, ← List.flatMap_append, take_append_extract h]

theorem extract_append_drop (h : k ≤ j) :
    lines.extract k j ++ lines.drop j = lines.drop k := by
  obtain ⟨i, rfl⟩ := Nat.exists_eq_add_of_le h
  rw [List.extract_eq_take_drop, Nat.add_sub_cancel_left, ← List.drop_drop, List.take_append_drop]

theorem extract_ne_nil (hlt : k < j) (hle : j ≤ lines.length) : lines.extract k j ≠ [] :=
  List.ne_nil_of_length_pos (by rw [List.extract_eq_take_drop]; simp; omega)

theorem Plain.noCarriageReturn (h : Plain lines) : CarriageReturn ∉ joinLines lines := by
  cases lines with
  | nil => simp [joinLines]
  | cons line rest =>
    rw [joinLines_cons, List.mem_append, List.mem_flatMap, not_or]
    refine ⟨(h line List.mem_cons_self).2, ?_⟩
    rintro ⟨other, hother, hmem⟩
    rcases List.mem_cons.1 hmem with hfeed | hmem
    · exact absurd hfeed (by decide)
    · exact (h other (List.mem_cons_of_mem line hother)).2 hmem

theorem Plain.behind_textBefore (h : Plain lines) (hle : k ≤ lines.length) :
    behind (textBefore lines k) = ⟨k + 1, 1⟩ := by
  induction k with
  | zero => rfl
  | succ k ih =>
    have hline := List.getElem_mem (show k < lines.length by omega)
    have hsame : textBefore lines (k + 1) = textBefore lines k ++ lines[k] ++ [LineFeed] := by
      rw [textBefore, List.take_succ_eq_append_getElem (by omega), List.flatMap_append,
        List.flatMap_singleton, textBefore, List.append_assoc]
    rw [hsame, behind_lineFeed, Window.lineNumber_append (h _ hline).1, ih (by omega)]
    rfl

theorem Plain.behind_textUpTo (h : Plain lines) (hone : 1 ≤ k) (hle : k ≤ lines.length) :
    (behind (textUpTo lines k)).lineNumber = k := by
  have hfeed := behind_lineFeed (textUpTo lines k)
  rw [textUpTo_lineFeed hone hle, h.behind_textBefore hle] at hfeed
  have hline := congrArg Position.lineNumber hfeed
  simp only at hline
  omega

theorem Plain.lineCount (h : Plain lines) (hne : lines ≠ []) :
    (textLength (joinLines lines)).lineCount + 1 = lines.length := by
  have hlength := List.length_pos_of_ne_nil hne
  have hline := h.behind_textUpTo hlength (le_refl _)
  rw [textUpTo, List.take_length, behind_lineNumber, ← textLength_eq] at hline
  omega

/-! ## Writing a text -/

/-- The text edits made from the replacements turn the rest of a text into what is written. -/
def Writes (front : Str) (rs : List LineReplacement) (rest written : Str) : Prop :=
  ∃ edits, LineEdit.toEditLoop (front ++ rest) rs = .ok edits ∧
    Patch.Fits front.length (front ++ rest).length (patches edits) ∧
    Patch.run front.length (patches edits) rest = written

variable {front gap old new rest written : Str} {r : LineReplacement} {rs : List LineReplacement}

theorem writes_nil (front rest : Str) : Writes front [] rest rest :=
  ⟨[], rfl, by simp [Patch.Fits], rfl⟩

theorem Writes.skip (h : Writes (front ++ gap) rs rest written) :
    Writes front rs (gap ++ rest) (gap ++ written) := by
  obtain ⟨edits, hedits, hfits, hrun⟩ := h
  rw [List.append_assoc] at hedits
  rw [List.append_assoc, List.length_append] at hfits
  push_cast at hfits
  rw [List.length_append] at hrun
  push_cast at hrun
  refine ⟨edits, hedits, hfits.mono_left (by omega), ?_⟩
  rw [Patch.run_append_left gap rest hfits, hrun]

theorem Writes.cons (hsplices : ∃ e, r.toSingleEdit (front ++ (old ++ rest)) = .ok e ∧
      Splices e front old new) (h : Writes (front ++ old) rs rest written) :
    Writes front (r :: rs) (old ++ rest) (new ++ written) := by
  obtain ⟨e, he, hsplice⟩ := hsplices
  obtain ⟨edits, hedits, hfits, hrun⟩ := h
  rw [List.append_assoc] at hedits hfits
  have hsplice' : Splices e (front ++ []) old new := by rwa [List.append_nil]
  have hafter := @run_of_splices front [] old new rest e _ _ hsplice' (by rwa [List.append_nil])
  rw [List.append_nil, List.nil_append, List.nil_append, hrun] at hafter
  refine ⟨e :: edits, ?_, hafter⟩
  rw [LineEdit.toEditLoop, he, hedits]
  rfl

/-- The text edit of the whole text. -/
theorem Writes.toEdit {e : LineEdit} (h : Writes [] e.replacements rest written) :
    ∃ edit, e.toEdit rest = .ok edit ∧ edit.apply rest = written := by
  obtain ⟨edits, hedits, hfits, hrun⟩ := h
  rw [List.nil_append] at hedits hfits
  obtain ⟨edit, hedit, hreplacements⟩ := createNew_of_fits hfits
  have hwithin : edit.Within rest.length := by
    rw [← hreplacements] at hfits
    exact within_of_fits hfits
  refine ⟨edit, ?_, ?_⟩
  · rw [LineEdit.toEdit, hedits]
    exact hedit
  · rw [hwithin.apply_eq_run, hreplacements]
    exact hrun

/-! ## Line feeds that are used -/

namespace LineReplacement

/-- The last of `n` lines are deleted, and with them the line feed in front. -/
def Borrows (n : ℕ) (r : LineReplacement) : Prop :=
  r.newLines = [] ∧ r.lineRange.startLineNumber < r.lineRange.endLineNumberExclusive ∧
    r.lineRange.endLineNumberExclusive = n + 1

/-- The line feed behind the replaced lines stays where it is. -/
def KeepsBreak (r : LineReplacement) : Prop :=
  r.newLines ≠ [] ∧ r.lineRange.startLineNumber < r.lineRange.endLineNumberExclusive

/-- The replacement before has not used the line feed that this one takes. -/
def Spares (n : ℕ) (previous r : LineReplacement) : Prop :=
  r.Borrows n → previous.lineRange.endLineNumberExclusive = r.lineRange.startLineNumber →
    previous.KeepsBreak

end LineReplacement

/-- Where the last lines are deleted, there is a line feed in front, and a replacement that ends
there has left it. -/
structure BreaksFree (n : ℕ) (rs : List LineReplacement) : Prop where
  notFirst : ∀ r ∈ rs, r.Borrows n → 1 < r.lineRange.startLineNumber
  spared : rs.IsChain (LineReplacement.Spares n)

/-- The replacements are in order behind the first `k` of `n` lines. -/
structure InOrderFrom (k n : ℕ) (rs : List LineReplacement) : Prop where
  sorted : rs.Pairwise fun a b =>
    a.lineRange.endLineNumberExclusive ≤ b.lineRange.startLineNumber
  within : ∀ r ∈ rs, k + 1 ≤ r.lineRange.startLineNumber ∧
    r.lineRange.endLineNumberExclusive ≤ n + 1

theorem InOrderFrom.tail {n : ℕ} (h : InOrderFrom k n (r :: rs)) :
    InOrderFrom (r.lineRange.endLineNumberExclusive - 1).toNat n rs := by
  obtain ⟨hfirst, hsorted⟩ := List.pairwise_cons.1 h.sorted
  refine ⟨hsorted, fun r' hr' => ⟨?_, (h.within r' (List.mem_cons_of_mem r hr')).2⟩⟩
  have hle := hfirst r' hr'
  have hwithin := h.within r List.mem_cons_self
  have hrange := r.lineRange.start_le_end
  omega

/-! ## One replacement -/

/-- Lines in front of another line are replaced with their line feeds. -/
theorem Writes.cons_inside (hplain : Plain lines) (hle : k ≤ j) (hlt : j < lines.length)
    (hstart : r.lineRange.startLineNumber = k + 1)
    (hend : r.lineRange.endLineNumberExclusive = j + 1)
    (h : Writes (textBefore lines j) rs (joinLines (lines.drop j)) written) :
    Writes (textBefore lines k) (r :: rs) (joinLines (lines.drop k))
      (r.newLines.flatMap (· ++ [LineFeed]) ++ written) := by
  have hbefore := @textBefore_extract lines k j hle
  have hlines : joinLines (lines.drop k) =
      (lines.extract k j).flatMap (· ++ [LineFeed]) ++ joinLines (lines.drop j) := by
    rw [← joinLines_append_left _ (drop_ne_nil hlt), extract_append_drop hle]
  have htext := @textBefore_append lines k (by omega)
  rw [hlines] at htext ⊢
  have hcr := hplain.noCarriageReturn
  refine Writes.cons (toSingleEdit_inside (by rwa [htext]) ?_ ?_) (by rwa [hbefore])
  · rw [hplain.behind_textBefore (by omega), hstart]
  · rw [hbefore, hplain.behind_textBefore (by omega), hend]

/-- Lines are replaced by lines up to their line feed. -/
theorem Writes.cons_lines (hplain : Plain lines) (hlt : k < j) (hle : j ≤ lines.length)
    (hstart : r.lineRange.startLineNumber = k + 1)
    (hend : r.lineRange.endLineNumberExclusive = j + 1) (hne : r.newLines ≠ [])
    (h : Writes (textUpTo lines j) rs (textBehind lines j) written) :
    Writes (textBefore lines k) (r :: rs) (joinLines (lines.drop k))
      (joinLines r.newLines ++ written) := by
  have hupTo : textBefore lines k ++ joinLines (lines.extract k j) = textUpTo lines j := by
    rw [textBefore, ← joinLines_append_left _ (extract_ne_nil hlt hle),
      take_append_extract hlt.le, textUpTo]
  have hlines : joinLines (lines.drop k) = joinLines (lines.extract k j) ++ textBehind lines j := by
    rw [textBehind, ← joinLines_append_right (extract_ne_nil hlt hle), extract_append_drop hlt.le]
  have htext := @textBefore_append lines k (by omega)
  rw [hlines] at htext ⊢
  have hcr := hplain.noCarriageReturn
  refine Writes.cons (toSingleEdit_lines (by rwa [htext]) (textBehind_lineEnds lines j) ?_ ?_ hne)
    (by rwa [hupTo])
  · rw [hplain.behind_textBefore (by omega), hstart]
  · rw [hupTo, hplain.behind_textUpTo (by omega) hle, hend]

/-- The last lines are replaced with the line feed in front of them. -/
theorem Writes.cons_atEnd (hplain : Plain lines) (hone : 1 ≤ k) (hle : k ≤ lines.length)
    (hstart : r.lineRange.startLineNumber = k + 1)
    (hend : r.lineRange.endLineNumberExclusive = lines.length + 1)
    (h : Writes (joinLines lines) rs [] written) :
    Writes (textUpTo lines k) (r :: rs) (textBehind lines k)
      (r.newLines.flatMap (LineFeed :: ·) ++ written) := by
  have htext := textUpTo_append hone hle
  have hcr := hplain.noCarriageReturn
  have hcount := hplain.lineCount (List.ne_nil_of_length_pos (hone.trans hle))
  have hsplices := @toSingleEdit_atEnd (textUpTo lines k) (textBehind lines k) r (by rwa [htext])
    (textBehind_lineEnds lines k) (by rw [hplain.behind_textUpTo hone hle, hstart])
    (by rw [htext, hend]; omega)
  have hcons := @Writes.cons (textUpTo lines k) (textBehind lines k)
    (r.newLines.flatMap (LineFeed :: ·)) [] written r rs (by rwa [List.append_nil]) (by rwa [htext])
  rwa [List.append_nil] at hcons

/-! ## All replacements -/

/-- Behind a line the line feed may be used. In front of a line it may not, but something of
the text is left there. -/
theorem writes_applyLinesFrom (hplain : Plain lines) (rs : List LineReplacement) (k : ℕ)
    (horder : InOrderFrom k lines.length rs)
    (hspared : rs.IsChain (LineReplacement.Spares lines.length)) :
    (1 ≤ k → k ≤ lines.length → Writes (textUpTo lines k) rs (textBehind lines k)
      ((applyLinesFrom lines k rs).flatMap (LineFeed :: ·))) ∧
    (k < lines.length → (∀ r ∈ rs.head?, r.Borrows lines.length →
        k + 1 < r.lineRange.startLineNumber) → applyLinesFrom lines k rs ≠ [] ∧
      Writes (textBefore lines k) rs (joinLines (lines.drop k))
        (joinLines (applyLinesFrom lines k rs))) := by
  induction rs generalizing k with
  | nil => exact ⟨fun _ _ => writes_nil _ _, fun hlt _ => ⟨drop_ne_nil hlt, writes_nil _ _⟩⟩
  | cons r rs ih =>
    obtain ⟨hhead, hspared⟩ := List.isChain_cons.1 hspared
    obtain ⟨hbehind, hbefore⟩ := ih _ horder.tail hspared
    obtain ⟨hstartGe, hendLe⟩ := horder.within r List.mem_cons_self
    have hrange := r.lineRange.start_le_end
    rw [applyLinesFrom]
    obtain ⟨j, hj⟩ : ∃ j : ℕ, (r.lineRange.startLineNumber - 1).toNat = j := ⟨_, rfl⟩
    obtain ⟨e, he⟩ : ∃ e : ℕ, (r.lineRange.endLineNumberExclusive - 1).toNat = e := ⟨_, rfl⟩
    have hstart : r.lineRange.startLineNumber = j + 1 := by omega
    have hend : r.lineRange.endLineNumberExclusive = e + 1 := by omega
    have hje : j ≤ e := by omega
    have hen : e ≤ lines.length := by omega
    have hkj : k ≤ j := by omega
    rw [he] at hbehind hbefore
    rw [hj, he, List.append_assoc]
    -- the replacement starts in front of a line
    have hfront (hlt : j < lines.length) (hborrows : ¬ r.Borrows lines.length) :
        r.newLines ++ applyLinesFrom lines e rs ≠ [] ∧
        Writes (textBefore lines j) (r :: rs) (joinLines (lines.drop j))
          (joinLines (r.newLines ++ applyLinesFrom lines e rs)) := by
      by_cases hkeeps : r.KeepsBreak
      · have hlt' : j < e := by
          have hnonempty := hkeeps.2
          omega
        refine ⟨List.append_ne_nil_of_left_ne_nil hkeeps.1 _, ?_⟩
        rw [joinLines_append_right hkeeps.1]
        exact Writes.cons_lines hplain hlt' hen hstart hend hkeeps.1 (hbehind (by omega) hen)
      · have hlast : e < lines.length := by
          by_contra hlast
          refine hborrows ⟨?_, by omega, by omega⟩
          by_contra hne
          exact hkeeps ⟨hne, by omega⟩
        obtain ⟨hne, hwrites⟩ := hbefore hlast fun r' hr' hborrows' => by
          have hwithin := (horder.tail.within r' (List.mem_of_mem_head? hr')).1
          refine lt_of_le_of_ne (by omega) fun heq => hkeeps (hhead r' hr' hborrows' (by omega))
        refine ⟨List.append_ne_nil_of_right_ne_nil _ hne, ?_⟩
        rw [joinLines_append_left _ hne]
        exact Writes.cons_inside hplain hje hlast hstart hend hwrites
    -- the replacement starts behind a line
    have hback (hone : 1 ≤ j) : Writes (textUpTo lines j) (r :: rs) (textBehind lines j)
        ((r.newLines ++ applyLinesFrom lines e rs).flatMap (LineFeed :: ·)) := by
      by_cases hinside : j < lines.length ∧ ¬ r.Borrows lines.length
      · obtain ⟨hne, hwrites⟩ := hfront hinside.1 hinside.2
        rw [textBehind_eq hinside.1, ← lineFeed_append_joinLines hne, ← List.singleton_append]
        exact Writes.skip (by rwa [textUpTo_lineFeed hone hinside.1.le])
      · have hlast : e = lines.length := by
          by_contra hlast
          exact hinside ⟨by omega, fun hborrows => hlast (by have := hborrows.2.2; omega)⟩
        subst hlast
        have hwrites := hbehind (by omega) hen
        rw [textUpTo, textBehind, List.take_length, List.drop_length, List.flatMap_nil] at hwrites
        rw [List.flatMap_append]
        exact Writes.cons_atEnd hplain hone (by omega) hstart hend hwrites
    constructor
    · intro hone _
      have hupTo : textUpTo lines k ++ (lines.extract k j).flatMap (LineFeed :: ·) =
          textUpTo lines j := by
        rw [textUpTo, ← joinLines_append_right (take_ne_nil hone (by omega)),
          take_append_extract hkj, textUpTo]
      have hrest : textBehind lines k = (lines.extract k j).flatMap (LineFeed :: ·) ++
          textBehind lines j := by
        rw [textBehind, textBehind, ← List.flatMap_append, extract_append_drop hkj]
      rw [hrest, List.flatMap_append]
      exact Writes.skip (by rw [hupTo]; exact hback (by omega))
    · intro hlt hfirst
      rcases Nat.eq_or_lt_of_le hkj with rfl | hkj
      · have hnone : lines.extract k k = [] := by simp [List.extract_eq_take_drop]
        rw [hnone, List.nil_append]
        refine hfront hlt fun hborrows => ?_
        have hgt := hfirst r rfl hborrows
        omega
      · have hne := extract_ne_nil hkj (show j ≤ lines.length by omega)
        have hupTo : textBefore lines k ++ joinLines (lines.extract k j) = textUpTo lines j := by
          rw [textBefore, ← joinLines_append_left _ hne, take_append_extract hkj.le, textUpTo]
        have hrest : joinLines (lines.drop k) = joinLines (lines.extract k j) ++
            textBehind lines j := by
          rw [textBehind, ← joinLines_append_right hne, extract_append_drop hkj.le]
        refine ⟨List.append_ne_nil_of_left_ne_nil hne _, ?_⟩
        rw [hrest, joinLines_append_right hne]
        exact Writes.skip (by rw [hupTo]; exact hback (by omega))

/-! ## Where no line feed is left -/

theorem length_flatMap_lineFeed (xs : List Str) :
    (xs.flatMap (· ++ [LineFeed])).length = (xs.flatMap (LineFeed :: ·)).length := by
  rw [List.length_flatMap, List.length_flatMap]
  simp only [List.length_append, List.length_cons, List.length_nil]

/-- All lines are deleted, between replacements that insert lines in front and at the end. -/
theorem writes_deleteAll (hplain : Plain lines) (hne : lines ≠ []) {pre post : List LineReplacement}
    (hpre : ∀ p ∈ pre, p.lineRange.startLineNumber = 1 ∧ p.lineRange.endLineNumberExclusive = 1)
    (hpost : InOrderFrom lines.length lines.length post) (hborrows : r.Borrows lines.length)
    (hstart : r.lineRange.startLineNumber = 1) :
    ∃ xs ys, applyLinesFrom lines 0 (pre ++ r :: post) = xs ++ ys ∧
      Writes [] (pre ++ r :: post) (joinLines lines)
        (xs.flatMap (· ++ [LineFeed]) ++ ys.flatMap (LineFeed :: ·)) := by
  have hpos := List.length_pos_of_ne_nil hne
  obtain ⟨hnewLines, -, hend⟩ := hborrows
  induction pre with
  | nil =>
    have hspared : post.IsChain (LineReplacement.Spares lines.length) := by
      refine List.isChain_iff_forall_rel_of_append_cons_cons.2 fun p b _ _ heq hborrows => ?_
      have hwithin := hpost.within b (by simp [heq])
      have hlt := hborrows.2.1
      omega
    have hposts := (writes_applyLinesFrom hplain post lines.length hpost hspared).1 hpos (le_refl _)
    rw [textUpTo, textBehind, List.take_length, List.drop_length, List.flatMap_nil] at hposts
    have hcount := hplain.lineCount hne
    have hcr := hplain.noCarriageReturn
    have hle := behind_le [] (joinLines lines)
    have hedit : r.toSingleTextEdit ([] ++ (joinLines lines ++ [])) =
        ⟨.fromPositions (behind []) (behind ([] ++ joinLines lines)), []⟩ := by
      rw [List.nil_append, List.append_nil, List.nil_append, LineReplacement.toSingleTextEdit,
        hnewLines, if_pos List.length_nil]
      simp only [hend, hstart]
      rw [if_pos (by omega), if_neg (by omega), textLength_eq]
      rfl
    have hsingle := toSingleEdit_of_range (by simpa using hcr) hedit
      (Range.fromPositions_start hle) (Range.fromPositions_end hle)
    have hwrites := Writes.cons hsingle hposts
    refine ⟨[], applyLinesFrom lines lines.length post, ?_, by simpa using hwrites⟩
    have hall : (r.lineRange.endLineNumberExclusive - 1).toNat = lines.length := by omega
    rw [List.nil_append, applyLinesFrom, hnewLines, hall, hstart]
    simp [List.extract_eq_take_drop]
  | cons p pre ih =>
    obtain ⟨hpStart, hpEnd⟩ := hpre p List.mem_cons_self
    obtain ⟨xs, ys, happly, hwrites⟩ := ih fun q hq => hpre q (List.mem_cons_of_mem p hq)
    have hzero : ((1 : ℤ) - 1).toNat = 0 := rfl
    have hcons := @Writes.cons_inside lines 0 0
      (xs.flatMap (· ++ [LineFeed]) ++ ys.flatMap (LineFeed :: ·)) p (pre ++ r :: post) hplain
      (le_refl 0) hpos hpStart hpEnd
    rw [textBefore, List.take_zero, List.flatMap_nil, List.drop_zero] at hcons
    refine ⟨p.newLines ++ xs, ys, ?_, ?_⟩
    · rw [List.cons_append, applyLinesFrom, hpStart, hpEnd, hzero, happly, List.extract_eq_take_drop]
      simp
    · rw [List.flatMap_append, List.append_assoc]
      exact hcons hwrites

/-- Text edits of touching replacements overlap when the second one takes the line feed that
the first one has used. -/
theorem lt_of_not_spares {p r : LineReplacement} {ep er : StringReplacement} (hplain : Plain lines)
    (hp : 1 ≤ p.lineRange.startLineNumber) (hstart : 1 < r.lineRange.startLineNumber)
    (hspares : ¬ p.Spares lines.length r) (hep : p.toSingleEdit (joinLines lines) = .ok ep)
    (her : r.toSingleEdit (joinLines lines) = .ok er) :
    er.replaceRange.start < ep.replaceRange.endExclusive := by
  unfold LineReplacement.Spares at hspares
  push Not at hspares
  obtain ⟨⟨hnewLines, hlt, hend⟩, htouch, hkeeps⟩ := hspares
  have hrange := p.lineRange.start_le_end
  obtain ⟨j, hj⟩ : ∃ j : ℕ, p.lineRange.startLineNumber = j + 1 :=
    ⟨(p.lineRange.startLineNumber - 1).toNat, by omega⟩
  obtain ⟨k, hk⟩ : ∃ k : ℕ, r.lineRange.startLineNumber = k + 1 :=
    ⟨(r.lineRange.startLineNumber - 1).toNat, by omega⟩
  have hjk : j ≤ k := by omega
  have hkn : k < lines.length := by omega
  have hcr := hplain.noCarriageReturn
  have hfeed := congrArg List.length (textUpTo_lineFeed (show 1 ≤ k by omega) hkn.le)
  rw [List.length_append, List.length_singleton] at hfeed
  have hepEnd : ep.replaceRange.endExclusive = (textBefore lines k).length := by
    have hbefore := @textBefore_extract lines j k hjk
    have htext := textBefore_append hkn
    rw [← hbefore, List.append_assoc] at htext
    obtain ⟨e, he, front', mid, rest', hold, hnew, -, hstop⟩ := toSingleEdit_inside
      (by rwa [htext]) (by rw [hplain.behind_textBefore (by omega), hj])
      (by rw [hbefore, hplain.behind_textBefore hkn.le, htouch, hk])
    rw [htext, hep] at he
    cases he
    obtain ⟨rfl, rfl⟩ : front' = [] ∧ rest' = [] := by
      by_cases hnone : p.newLines = []
      · rw [hnone, List.flatMap_nil] at hnew
        have hparts := List.append_eq_nil_iff.1 hnew.symm
        exact ⟨hparts.1, (List.append_eq_nil_iff.1 hparts.2).2⟩
      · have hsame : k = j := by
          by_contra hne
          exact hkeeps ⟨hnone, by omega⟩
        rw [hsame, List.extract_eq_take_drop, Nat.sub_self, List.take_zero, List.flatMap_nil] at hold
        have hparts := List.append_eq_nil_iff.1 hold.symm
        exact ⟨hparts.1, (List.append_eq_nil_iff.1 hparts.2).2⟩
    rw [List.nil_append, List.append_nil] at hold
    rw [hstop, ← hold, List.append_nil, hbefore]
  have herStart : er.replaceRange.start = (textUpTo lines k).length := by
    have htext := textUpTo_append (show 1 ≤ k by omega) hkn.le
    have hcount := hplain.lineCount (List.ne_nil_of_length_pos (show 0 < lines.length by omega))
    obtain ⟨e, he, front', mid, rest', -, hnew, hbegin, -⟩ := @toSingleEdit_atEnd
      (textUpTo lines k) (textBehind lines k) r (by rwa [htext]) (textBehind_lineEnds lines k)
      (by rw [hplain.behind_textUpTo (by omega) hkn.le, hk]) (by rw [htext, hend]; omega)
    rw [htext, her] at he
    cases he
    rw [hnewLines, List.flatMap_nil] at hnew
    obtain rfl := (List.append_eq_nil_iff.1 hnew.symm).1
    rw [hbegin, List.append_nil]
  omega

theorem toEditLoop_cons {text : Str} {edits : List StringReplacement}
    (h : LineEdit.toEditLoop text (r :: rs) = .ok edits) :
    ∃ e rest, r.toSingleEdit text = .ok e ∧ LineEdit.toEditLoop text rs = .ok rest ∧
      edits = e :: rest := by
  rw [LineEdit.toEditLoop] at h
  cases he : r.toSingleEdit text with
  | error error =>
    rw [he] at h
    cases h
  | ok e =>
    cases hrest : LineEdit.toEditLoop text rs with
    | error error =>
      rw [he, hrest] at h
      cases h
    | ok rest =>
      rw [he, hrest] at h
      cases h
      exact ⟨e, rest, rfl, rfl, rfl⟩

/-- The constructor of the text edit checks that nothing overlaps. -/
theorem isChain_spares (hplain : Plain lines) {edits : List StringReplacement} {last : ℤ}
    (hwithin : ∀ r ∈ rs, 1 ≤ r.lineRange.startLineNumber)
    (hfirst : ∀ r ∈ rs, r.Borrows lines.length → 1 < r.lineRange.startLineNumber)
    (hedits : LineEdit.toEditLoop (joinLines lines) rs = .ok edits)
    (hsorted : checkSorted last edits = .ok ()) :
    rs.IsChain (LineReplacement.Spares lines.length) := by
  induction rs generalizing edits last with
  | nil => exact .nil
  | cons p rs ih =>
    obtain ⟨ep, rest, hep, hrest, rfl⟩ := toEditLoop_cons hedits
    rw [checkSorted] at hsorted
    split_ifs at hsorted
    refine List.isChain_cons.2 ⟨fun r hr => ?_, ih
      (fun r hr => hwithin r (List.mem_cons_of_mem p hr))
      (fun r hr => hfirst r (List.mem_cons_of_mem p hr)) hrest hsorted⟩
    obtain ⟨rs, rfl⟩ := List.head?_eq_some_iff.1 hr
    obtain ⟨er, rest, her, -, rfl⟩ := toEditLoop_cons hrest
    rw [checkSorted] at hsorted
    split_ifs at hsorted with hle
    by_contra hspares
    have hborrows : r.Borrows lines.length := by
      by_contra hborrows
      exact hspares fun h => absurd h hborrows
    have hstart := hfirst r (by simp) hborrows
    have hlt := lt_of_not_spares hplain (hwithin p List.mem_cons_self) hstart hspares hep her
    exact absurd hlt (not_lt_of_ge hle)

theorem toEditLoop_of_toEdit {e : LineEdit} {text : Str} {edit : StringEdit}
    (h : e.toEdit text = .ok edit) :
    ∃ edits, LineEdit.toEditLoop text e.replacements = .ok edits ∧
      checkSorted (-1) edits = .ok () := by
  rw [LineEdit.toEdit] at h
  cases hedits : LineEdit.toEditLoop text e.replacements with
  | error error =>
    rw [hedits] at h
    cases h
  | ok edits =>
    rw [hedits] at h
    have hcreate : BaseEdit.createNew edits = .ok edit := h
    unfold BaseEdit.createNew at hcreate
    split at hcreate
    · exact ⟨edits, rfl, by assumption⟩
    · cases hcreate

/-- When all lines are deleted and some are inserted, there is one line feed too many. -/
theorem one_lt_of_applies (hne : lines ≠ []) (hplain : Plain lines) {e : LineEdit}
    (horder : InOrder lines.length e.replacements)
    (hresult : applyLineEdit e.replacements lines ≠ []) {edit : StringEdit}
    (hedit : e.toEdit (joinLines lines) = .ok edit)
    (happly : edit.apply (joinLines lines) = joinLines (applyLineEdit e.replacements lines))
    (hr : r ∈ e.replacements) (hborrows : r.Borrows lines.length) :
    1 < r.lineRange.startLineNumber := by
  by_contra hstart
  obtain ⟨pre, post, hsplit⟩ := List.append_of_mem hr
  have hsorted := horder.sorted
  rw [hsplit] at hsorted
  obtain ⟨-, hback, hfront⟩ := List.pairwise_append.1 hsorted
  obtain ⟨hbehind, hpostSorted⟩ := List.pairwise_cons.1 hback
  have hone : r.lineRange.startLineNumber = 1 := by
    have hwithin := (horder.within r hr).1
    omega
  have hpre : ∀ p ∈ pre, p.lineRange.startLineNumber = 1 ∧
      p.lineRange.endLineNumberExclusive = 1 := by
    intro p hp
    have hle := hfront p hp r List.mem_cons_self
    have hwithin := (horder.within p (by simp [hsplit, hp])).1
    have hrange := p.lineRange.start_le_end
    omega
  have hpost : InOrderFrom lines.length lines.length post := by
    refine ⟨hpostSorted, fun p hp => ⟨?_, (horder.within p (by simp [hsplit, hp])).2⟩⟩
    have hle := hbehind p hp
    have hend := hborrows.2.2
    omega
  obtain ⟨xs, ys, hlines, hwrites⟩ := writes_deleteAll hplain hne hpre hpost hborrows hone
  rw [← hsplit] at hlines hwrites
  obtain ⟨edit', hedit', happly'⟩ := hwrites.toEdit
  obtain rfl : edit = edit' := Except.ok.inj (hedit.symm.trans hedit')
  have hfeeds := congrArg List.length (lineFeed_append_joinLines hresult)
  have hlength := congrArg List.length (happly.symm.trans happly')
  rw [applyLineEdit, hlines] at hfeeds hlength
  rw [List.flatMap_append, List.length_append, List.length_cons] at hfeeds
  rw [List.length_append, length_flatMap_lineFeed] at hlength
  omega

/-- On lines without line breaks, the text edit has the effect of the line edit exactly where a
deletion of the last lines finds the line feed in front of them. -/
theorem LineEdit.toEdit_apply_iff {lines : List Str} (hne : lines ≠ []) (hplain : Plain lines)
    (e : LineEdit) (horder : InOrder lines.length e.replacements)
    (hresult : applyLineEdit e.replacements lines ≠ []) :
    (∃ edit, e.toEdit (joinLines lines) = .ok edit ∧
      edit.apply (joinLines lines) = joinLines (applyLineEdit e.replacements lines)) ↔
      BreaksFree lines.length e.replacements := by
  constructor
  · rintro ⟨edit, hedit, happly⟩
    have hfirst : ∀ r ∈ e.replacements, r.Borrows lines.length →
        1 < r.lineRange.startLineNumber := fun r hr hborrows =>
      one_lt_of_applies hne hplain horder hresult hedit happly hr hborrows
    obtain ⟨edits, hedits, hsorted⟩ := toEditLoop_of_toEdit hedit
    exact ⟨hfirst, isChain_spares hplain (fun r hr => (horder.within r hr).1) hfirst hedits hsorted⟩
  · intro hfree
    have hfrom : InOrderFrom 0 lines.length e.replacements :=
      ⟨horder.sorted, fun r hr => by simpa using horder.within r hr⟩
    obtain ⟨-, hwrites⟩ := (writes_applyLinesFrom hplain e.replacements 0 hfrom hfree.spared).2
      (List.length_pos_of_ne_nil hne) fun r hr hborrows => by
        simpa using hfree.notFirst r (List.mem_of_mem_head? hr) hborrows
    exact Writes.toEdit hwrites

/-- The last of two lines is deleted behind a line that is replaced. -/
theorem LineEdit.toEdit_apply_iff_replaced :
    (∃ edit, (LineEdit.mk [⟨⟨1, 2, by decide⟩, [ascii "x"]⟩, ⟨⟨2, 3, by decide⟩, []⟩] rfl).toEdit
        (joinLines [ascii "a", ascii "b"]) = .ok edit ∧
      edit.apply (joinLines [ascii "a", ascii "b"]) = joinLines (applyLineEdit
        [⟨⟨1, 2, by decide⟩, [ascii "x"]⟩, ⟨⟨2, 3, by decide⟩, []⟩] [ascii "a", ascii "b"])) ↔
      BreaksFree 2 [⟨⟨1, 2, by decide⟩, [ascii "x"]⟩, ⟨⟨2, 3, by decide⟩, []⟩] :=
  @LineEdit.toEdit_apply_iff [ascii "a", ascii "b"] (by decide) (by unfold Plain; decide)
    (LineEdit.mk [⟨⟨1, 2, by decide⟩, [ascii "x"]⟩, ⟨⟨2, 3, by decide⟩, []⟩] rfl)
    ⟨by decide, by decide⟩ (by decide)

/-- Two deletions at the end overlap in the line feed between them. -/
theorem LineEdit.toEdit_apply_taken :
    ¬ ∀ (lines : List Str) (e : LineEdit), lines ≠ [] → Plain lines →
      InOrder lines.length e.replacements → applyLineEdit e.replacements lines ≠ [] →
      ∃ edit, e.toEdit (joinLines lines) = .ok edit ∧
        edit.apply (joinLines lines) = joinLines (applyLineEdit e.replacements lines) := by
  intro h
  obtain ⟨edit, hedit, -⟩ := h [ascii "a", ascii "b", ascii "c"]
    ⟨[⟨⟨2, 3, by decide⟩, []⟩, ⟨⟨3, 4, by decide⟩, []⟩], rfl⟩ (by decide) (by unfold Plain; decide)
    ⟨by decide, by decide⟩ (by decide)
  have hthrows : (LineEdit.toEdit ⟨[⟨⟨2, 3, by decide⟩, []⟩, ⟨⟨3, 4, by decide⟩, []⟩], rfl⟩
      (joinLines [ascii "a", ascii "b", ascii "c"])).toOption = none := by decide +kernel
  rw [hedit] at hthrows
  cases hthrows

end NexgileIde.Edits
