import NexgileIde.Text.LineIndex

/-!
# Lines with their line ends

A text is cut behind each of its line ends. Where it is put together from parts that cut no
`\r\n` in two, the lines are those of the parts, the last of one joined to the first of the next.
-/
namespace NexgileIde.Text

theorem lineOffset_eq {str : Str} {k : ℕ} (h : k ≤ countBreaks str) :
    lineOffset str k = lineStart str k := if_pos h

theorem lineOffset_succ (str : Str) (k : ℕ) :
    lineOffset str (k + 1) = (lineEnds 0 str)[k]?.getD str.length := by
  have hlen := length_lineEnds 0 str
  by_cases h : k < countBreaks str
  · rw [lineOffset_eq h, lineStart_succ h, List.getElem?_eq_getElem (by omega), Option.getD_some]
  · rw [lineOffset, if_neg (by omega), List.getElem?_eq_none (by omega), Option.getD_none]

theorem lineOffset_le (str : Str) (k : ℕ) : lineOffset str k ≤ str.length := by
  cases k with
  | zero => simp
  | succ k =>
    rw [lineOffset_succ]
    cases hget : (lineEnds 0 str)[k]? with
    | none => exact le_rfl
    | some o =>
      have hmem := lineEnds_mem (List.mem_of_getElem? hget)
      rw [Option.getD_some]
      omega

theorem lineOffset_mono (str : Str) (k : ℕ) : lineOffset str k ≤ lineOffset str (k + 1) := by
  by_cases h : k < countBreaks str
  · rw [lineOffset_eq h.le, lineOffset_eq h]
    exact (lineStart_lt_succ h).le
  · rw [lineOffset_succ, List.getElem?_eq_none (by rw [length_lineEnds]; omega), Option.getD_none]
    exact lineOffset_le str k

/-- A line with its line end; lines count from zero. -/
def rawLine (str : Str) (k : ℕ) : Str :=
  (str.drop (lineOffset str k)).take (lineOffset str (k + 1) - lineOffset str k)

theorem lineOffset_last (w : Str) : lineOffset w (countBreaks w + 1) = w.length :=
  if_neg (by omega)

theorem rawLine_last (w : Str) :
    rawLine w (countBreaks w) = w.drop (lineOffset w (countBreaks w)) := by
  rw [rawLine, lineOffset_last, ← List.length_drop, List.take_length]

/-! ### One code unit more -/

theorem lineOffset_cons_end {chr : CodeUnit} {rest : Str} (h : IsLineEnd chr rest) (k : ℕ) :
    lineOffset (chr :: rest) (k + 1) = lineOffset rest k + 1 := by
  have hshift := lineEnds_add 1 0 rest
  rw [lineOffset_succ, lineEnds_cons, if_pos h]
  cases k with
  | zero => simp
  | succ k =>
    rw [List.getElem?_cons_succ, hshift, List.getElem?_map, lineOffset_succ, List.length_cons]
    cases (lineEnds 0 rest)[k]? with
    | none => rfl
    | some o => exact Nat.add_comm 1 o

theorem lineOffset_cons {chr : CodeUnit} {rest : Str} (h : ¬ IsLineEnd chr rest) (k : ℕ) :
    lineOffset (chr :: rest) (k + 1) = lineOffset rest (k + 1) + 1 := by
  have hshift := lineEnds_add 1 0 rest
  rw [lineOffset_succ, lineEnds_cons, if_neg h, hshift, List.getElem?_map, lineOffset_succ,
    List.length_cons]
  cases (lineEnds 0 rest)[k]? with
  | none => rfl
  | some o => exact Nat.add_comm 1 o

theorem rawLine_cons_end {chr : CodeUnit} {rest : Str} (h : IsLineEnd chr rest) :
    rawLine (chr :: rest) 0 = [chr] ∧ ∀ k, rawLine (chr :: rest) (k + 1) = rawLine rest k := by
  constructor
  · simp [rawLine, lineOffset_cons_end h]
  · intro k
    simp [rawLine, lineOffset_cons_end h]

theorem rawLine_cons {chr : CodeUnit} {rest : Str} (h : ¬ IsLineEnd chr rest) :
    rawLine (chr :: rest) 0 = chr :: rawLine rest 0 ∧
      ∀ k, rawLine (chr :: rest) (k + 1) = rawLine rest (k + 1) := by
  constructor
  · simp [rawLine, lineOffset_cons h]
  · intro k
    simp [rawLine, lineOffset_cons h]

theorem stripLineEnd_cons {chr : CodeUnit} {line : Str} (h : chr ≠ CarriageReturn)
    (hne : line ≠ []) : stripLineEnd (chr :: line) = chr :: stripLineEnd line := by
  have hlen := List.length_pos_iff.mpr hne
  have hsuffix : [CarriageReturn, LineFeed] <:+ chr :: line ↔
      [CarriageReturn, LineFeed] <:+ line := by
    rw [List.suffix_cons_iff]
    constructor
    · rintro (heq | hs)
      · exact absurd (List.cons.inj heq).1.symm h
      · exact hs
    · exact .inr
  have hlast : (chr :: line).getLast? = line.getLast? := by
    rw [List.getLast?_cons, List.getLast?_eq_some_getLast hne, Option.getD_some]
  simp only [stripLineEnd, hsuffix, hlast]
  split_ifs with hcrlf hend
  · have htwo := hcrlf.length_le
    simp only [List.length_cons, List.length_nil] at htwo
    rw [List.length_cons, show line.length + 1 - 2 = line.length - 2 + 1 by omega,
      List.take_succ_cons]
  · exact List.dropLast_cons_of_ne_nil hne
  · rfl

theorem rawLine_ne_nil {str : Str} {k : ℕ} (h : k < countBreaks str) : rawLine str k ≠ [] := by
  have hlt := lineStart_lt_succ h
  rw [← lineOffset_eq (k := k + 1) h, ← lineOffset_eq h.le] at hlt
  have hle := lineOffset_le str (k + 1)
  rw [rawLine, Ne, ← List.length_eq_zero_iff, List.length_take, List.length_drop]
  omega

/-- `split` gives the lines without their line ends. -/
theorem getElem?_splitLines {str : Str} {k : ℕ} (h : k ≤ countBreaks str) :
    (splitLines str)[k]? =
      some (if k = countBreaks str then rawLine str k else stripLineEnd (rawLine str k)) := by
  induction str generalizing k with
  | nil =>
    obtain rfl : k = 0 := Nat.le_zero.mp h
    rfl
  | cons chr rest ih =>
    rw [countBreaks_cons] at h ⊢
    rw [splitLines_cons]
    by_cases hend : IsLineEnd chr rest
    · simp only [if_pos hend] at h ⊢
      have hraw := rawLine_cons_end hend
      cases k with
      | zero =>
        have hone : stripLineEnd [chr] = [] := by
          rcases hend with rfl | ⟨rfl, -⟩ <;> rfl
        rw [if_neg (by omega), hraw.1, hone]
        rfl
      | succ k =>
        rw [List.getElem?_cons_succ, ih (by omega), hraw.2]
        simp only [Nat.add_comm 1, Nat.succ_inj]
    · simp only [if_neg hend, Nat.zero_add] at h ⊢
      have hraw := rawLine_cons hend
      by_cases hcr : chr = CarriageReturn
      · -- the `\r` of a `\r\n`
        subst hcr
        obtain ⟨rest, rfl⟩ : ∃ rest', rest = LineFeed :: rest' := by
          rw [← List.head?_eq_some_iff]
          by_contra hhead
          exact hend (.inr ⟨rfl, hhead⟩)
        rw [if_pos rfl, ih h]
        cases k with
        | zero =>
          have hlf := (rawLine_cons_end (isLineEnd_lineFeed rest)).1
          rw [countBreaks_lineFeed, if_neg (by omega), if_neg (by omega), hraw.1, hlf]
          rfl
        | succ k => rw [hraw.2]
      · rw [if_neg hcr, List.getElem?_modifyHead, ih h]
        cases k with
        | zero =>
          rw [if_pos rfl, Option.map_some, hraw.1]
          split_ifs with hlast
          · rfl
          · rw [stripLineEnd_cons hcr (rawLine_ne_nil (by omega))]
        | succ k => simp [hraw.2]

theorem length_splitLines (str : Str) : (splitLines str).length = countBreaks str + 1 := by
  induction str with
  | nil => rfl
  | cons chr rest ih =>
    rw [splitLines_cons, countBreaks_cons]
    split_ifs with hend hcr
    · rw [List.length_cons, ih, Nat.add_comm 1]
    · rw [ih, Nat.zero_add]
    · rw [List.length_modifyHead, ih, Nat.zero_add]

theorem getLast?_rawLine {str : Str} {k : ℕ} (h : k < countBreaks str) :
    (rawLine str k).getLast? = some CarriageReturn ∨ (rawLine str k).getLast? = some LineFeed := by
  induction str generalizing k with
  | nil => cases h
  | cons chr rest ih =>
    rw [countBreaks_cons] at h
    by_cases hend : IsLineEnd chr rest
    · have hraw := rawLine_cons_end hend
      cases k with
      | zero =>
        rw [hraw.1]
        rcases hend with rfl | ⟨rfl, -⟩
        · exact .inr rfl
        · exact .inl rfl
      | succ k =>
        rw [hraw.2]
        exact ih (by simp only [if_pos hend] at h; omega)
    · have hraw := rawLine_cons hend
      rw [if_neg hend, Nat.zero_add] at h
      cases k with
      | zero =>
        obtain ⟨next, line, hline⟩ := List.exists_cons_of_ne_nil (rawLine_ne_nil h)
        rw [hraw.1, hline, List.getLast?_cons_cons, ← hline]
        exact ih h
      | succ k =>
        rw [hraw.2]
        exact ih h

theorem length_stripLineEnd_lt {line : Str}
    (h : line.getLast? = some CarriageReturn ∨ line.getLast? = some LineFeed) :
    (stripLineEnd line).length < line.length := by
  have hne : line ≠ [] := by
    rintro rfl
    simp at h
  have hpos := List.length_pos_iff.mpr hne
  rw [stripLineEnd]
  split_ifs
  · rw [List.length_take]
    omega
  · rw [List.length_dropLast]
    omega

/-- The places on a line, up to its line end. -/
theorem lineAt_of_mem_line {str line : Str} {k c : ℕ} (h : (splitLines str)[k]? = some line)
    (hc : c ≤ line.length) : k ≤ countBreaks str ∧ lineAt str (lineOffset str k + c) = k ∧
      lineOffset str k + c ≤ lineOffset str (k + 1) := by
  have hlen := length_splitLines str
  have hk : k ≤ countBreaks str := by
    have := (List.getElem?_eq_some_iff.mp h).1
    omega
  have hle := lineOffset_le str (k + 1)
  have hstart := lineStart_le_iff hk (lineOffset str k + c)
  rw [← lineOffset_eq hk] at hstart
  have hge := hstart.mp (by omega)
  have hraw : (rawLine str k).length = lineOffset str (k + 1) - lineOffset str k := by
    rw [rawLine, List.length_take, List.length_drop]
    omega
  have hmono := lineOffset_mono str k
  rw [getElem?_splitLines hk, Option.some.injEq] at h
  by_cases hlast : k = countBreaks str
  · rw [if_pos hlast] at h
    have hmax := lineAt_le str (lineOffset str k + c)
    rw [← h] at hc
    exact ⟨hk, by omega, by omega⟩
  · have hlt : k < countBreaks str := by omega
    rw [if_neg hlast] at h
    have hstrip := length_stripLineEnd_lt (getLast?_rawLine hlt)
    rw [h] at hstrip
    have hnext := lineStart_le_iff (k := k + 1) hlt (lineOffset str k + c)
    rw [← lineOffset_eq (k := k + 1) hlt] at hnext
    exact ⟨hk, by omega, by omega⟩

/-! ### Texts put together -/

section Append

variable {u v : Str} (h : ¬ Seam u v)

include h

theorem lineOffset_append_left {k : ℕ} (hk : k ≤ countBreaks u) :
    lineOffset (u ++ v) k = lineOffset u k := by
  have hlen := length_lineEnds 0 u
  cases k with
  | zero => simp
  | succ k =>
    rw [lineOffset_succ, lineOffset_succ, lineEnds_append 0 h, List.getElem?_append_left (by omega),
      List.getElem?_eq_getElem (by omega), Option.getD_some, Option.getD_some]

theorem lineOffset_append_right (k : ℕ) :
    lineOffset (u ++ v) (countBreaks u + (k + 1)) = u.length + lineOffset v (k + 1) := by
  have hlen := length_lineEnds 0 u
  have hshift := lineEnds_add u.length 0 v
  rw [Nat.add_zero] at hshift
  rw [← Nat.add_assoc, lineOffset_succ, lineOffset_succ, lineEnds_append 0 h, Nat.zero_add, hshift,
    List.getElem?_append_right (by omega), hlen, Nat.add_sub_cancel_left, List.getElem?_map,
    List.length_append]
  cases (lineEnds 0 v)[k]? with
  | none => rfl
  | some o => rfl

theorem rawLine_append_left {k : ℕ} (hk : k < countBreaks u) :
    rawLine (u ++ v) k = rawLine u k := by
  have hle := lineOffset_le u (k + 1)
  have hmono := lineOffset_mono u k
  rw [rawLine, lineOffset_append_left h hk, lineOffset_append_left h hk.le,
    List.drop_append_of_le_length (by omega), List.take_append_of_le_length (by simp; omega)]
  rfl

/-- The last line of the first part goes on with the first line of the second. -/
theorem rawLine_append_middle :
    rawLine (u ++ v) (countBreaks u) = rawLine u (countBreaks u) ++ rawLine v 0 := by
  have hle := lineOffset_le u (countBreaks u)
  rw [rawLine, lineOffset_append_right h 0, lineOffset_append_left h le_rfl,
    List.drop_append_of_le_length hle, rawLine_last, rawLine, lineOffset_zero, List.drop_zero,
    Nat.sub_zero, Nat.zero_add, Nat.sub_add_comm hle, ← List.length_drop,
    List.take_length_add_append]

theorem rawLine_append_right (k : ℕ) :
    rawLine (u ++ v) (countBreaks u + (k + 1)) = rawLine v (k + 1) := by
  have hright := lineOffset_append_right h
  rw [rawLine, Nat.add_assoc, hright (k + 1), hright k, List.drop_append, rawLine,
    List.drop_eq_nil_of_le (by omega), List.nil_append, Nat.add_sub_cancel_left,
    Nat.add_sub_add_left]

end Append

end NexgileIde.Text
