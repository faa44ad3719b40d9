import NexgileIde.Text.TextLength
import NexgileIde.Text.LineBreaks

/-!
# Offsets of positions

A position is turned into an offset by the offsets at which lines start and end; columns
behind the end of a line are clamped to it. Lines end at line feeds only, and a `\r` in
front of one is no part of the line, so that the offset between `\r` and `\n` is the only
one no position has.
-/
namespace NexgileIde.Text

open TextLength

/-- The line starts `_computeLineOffsets` pushes when `i` code units have been read. -/
def lineStartOffsetsFrom (i : ℕ) : Str → List ℕ
  | [] => []
  | c :: rest =>
    if c = LineFeed then (i + 1) :: lineStartOffsetsFrom (i + 1) rest
    else lineStartOffsetsFrom (i + 1) rest

/-- The line ends it pushes; `previous` is the code unit read last. -/
def lineEndOffsetsFrom (i : ℕ) (previous : Option CodeUnit) : Str → List ℕ
  | [] => [i]
  | c :: rest =>
    if c = LineFeed then
      (if previous = some CarriageReturn then i - 1 else i) ::
        lineEndOffsetsFrom (i + 1) (some c) rest
    else lineEndOffsetsFrom (i + 1) (some c) rest

def lineStartOffsetByLineIdx (text : Str) : List ℕ := 0 :: lineStartOffsetsFrom 0 text

def lineEndOffsetByLineIdx (text : Str) : List ℕ := lineEndOffsetsFrom 0 none text

/-- `offsets[lineNumber - 1]`, for a line of the text. -/
def ofLine (offsets : List ℕ) (lineNumber : ℤ) : ℤ := (offsets[(lineNumber - 1).toNat]?.getD 0 : ℕ)

def textLength (text : Str) : TextLength :=
  let lineIdx := (lineStartOffsetByLineIdx text).length - 1
  ⟨lineIdx, text.length - (lineStartOffsetByLineIdx text)[lineIdx]?.getD 0⟩

def endPositionExclusive (text : Str) : Position := (textLength text).addToPosition ⟨1, 1⟩

def getLineLength (text : Str) (lineNumber : ℤ) : ℤ :=
  ofLine (lineEndOffsetByLineIdx text) lineNumber -
    ofLine (lineStartOffsetByLineIdx text) lineNumber

def validatePosition (text : Str) (position : Position) : Position :=
  if position.lineNumber < 1 then ⟨1, 1⟩
  else
    let lineCount : ℤ := (textLength text).lineCount + 1
    if position.lineNumber > lineCount then ⟨lineCount, getLineLength text lineCount + 1⟩
    else if position.column < 1 then ⟨position.lineNumber, 1⟩
    else
      let lineLength := getLineLength text position.lineNumber
      if position.column - 1 > lineLength then ⟨position.lineNumber, lineLength + 1⟩
      else position

def getOffset (text : Str) (position : Position) : ℤ :=
  let valPos := validatePosition text position
  ofLine (lineStartOffsetByLineIdx text) valPos.lineNumber + valPos.column - 1

/-- The position behind the beginning `u` of a text. -/
def behind (u : Str) : Position := (extent u).addToPosition ⟨1, 1⟩

theorem behind_eq (u : Str) : behind u = ⟨1 + (extent u).lineCount, 1 + (extent u).columnCount⟩ := by
  unfold behind addToPosition
  split_ifs with h
  · simp [h]
  · simp [add_comm]

@[simp] theorem behind_nil : behind [] = ⟨1, 1⟩ := rfl

theorem behind_append (u v : Str) : behind (u ++ v) = (extent v).addToPosition (behind u) := by
  rw [behind, extent_append, addToPosition_add]
  rfl

/-- How far the end of the line is from the beginning of the rest of a text; one to the
left between `\r` and `\n`. -/
def toLineEnd (previous : Option CodeUnit) : Str → ℤ
  | [] => 0
  | c :: rest =>
    if c = LineFeed then (if previous = some CarriageReturn then -1 else 0)
    else 1 + toLineEnd (some c) rest

theorem extent_columnCount_le (u : Str) : (extent u).columnCount ≤ u.length := by
  induction u with
  | nil => rfl
  | cons c u ih =>
    rw [extent_cons, add_def, ofUnit]
    split_ifs <;> simp_all <;> omega

/-- Between `u` and `v` a line starts. -/
def AtLineStart (u : Str) : Prop := u = [] ∨ u.getLast? = some LineFeed

theorem extent_columnCount_eq_zero {u : Str} : (extent u).columnCount = 0 ↔ AtLineStart u := by
  unfold AtLineStart
  rcases u.eq_nil_or_concat with rfl | ⟨u, c, rfl⟩
  · simp [zero_def]
  · rw [List.concat_eq_append, extent_append, extent_cons, extent_nil, add_zero]
    by_cases hc : c = LineFeed
    · rw [hc, add_ofUnit_lineFeed]
      simp
    · rw [add_ofUnit hc]
      simp [hc]

theorem lineStart_getElem (i k : ℕ) (u v : Str) :
    (k :: lineStartOffsetsFrom i (u ++ v))[(extent u).lineCount]? =
      some (if (extent u).lineCount = 0 then k else i + u.length - (extent u).columnCount) := by
  induction u generalizing i k with
  | nil => simp [zero_def]
  | cons c u ih =>
    rw [List.cons_append, lineStartOffsetsFrom]
    by_cases hc : c = LineFeed
    · subst hc
      rw [if_pos rfl, extent_cons_lineFeed, List.getElem?_cons_succ, ih, if_neg (Nat.succ_ne_zero _)]
      congr 1
      split_ifs with hline
      · rw [extent_of_noLineFeed (extent_lineCount_eq_zero.mp hline)]
        simp only [List.length_cons]
        omega
      · simp only [List.length_cons]
        omega
    · rw [if_neg hc, extent_cons_of_ne hc, ih]
      congr 1
      split_ifs with hline
      · rfl
      · simp only [List.length_cons]
        omega

/-- The end of the line that begins in front of a text. -/
theorem lineEnd_head {i : ℕ} {previous : Option CodeUnit}
    (hprev : previous = some CarriageReturn → 0 < i) (v : Str) :
    ∃ e : ℕ, (lineEndOffsetsFrom i previous v)[0]? = some e ∧
      (e : ℤ) = i + toLineEnd previous v := by
  induction v generalizing i previous with
  | nil => exact ⟨i, rfl, by simp [toLineEnd]⟩
  | cons c v ih =>
    by_cases hc : c = LineFeed
    · refine ⟨_, by rw [lineEndOffsetsFrom, if_pos hc]; rfl, ?_⟩
      rw [toLineEnd, if_pos hc]
      split_ifs with hp
      · have hi := hprev hp
        omega
      · simp
    · obtain ⟨e, he, hval⟩ := @ih (i + 1) (some c) (fun _ => Nat.succ_pos i)
      refine ⟨e, by rw [lineEndOffsetsFrom, if_neg hc, he], ?_⟩
      rw [toLineEnd, if_neg hc, hval]
      push_cast
      ring

theorem lineEnd_getElem {i : ℕ} {previous : Option CodeUnit}
    (hprev : previous = some CarriageReturn → 0 < i) (u v : Str) :
    ∃ e : ℕ, (lineEndOffsetsFrom i previous (u ++ v))[(extent u).lineCount]? = some e ∧
      (e : ℤ) = i + u.length + toLineEnd (u.getLast?.or previous) v := by
  induction u generalizing i previous with
  | nil => simpa [zero_def] using lineEnd_head hprev v
  | cons c u ih =>
    obtain ⟨e, he, hval⟩ := @ih (i + 1) (some c) (fun _ => Nat.succ_pos i)
    have hlast : (c :: u).getLast?.or previous = u.getLast?.or (some c) := by
      cases h : u.getLast? with
      | none => simp [List.getLast?_eq_none_iff.mp h]
      | some x => simp [List.getLast?_cons, h]
    refine ⟨e, ?_, ?_⟩
    · rw [List.cons_append, lineEndOffsetsFrom]
      by_cases hc : c = LineFeed
      · subst hc
        rw [if_pos rfl, extent_cons_lineFeed, List.getElem?_cons_succ, he]
      · rw [if_neg hc, extent_cons_of_ne hc, he]
    · rw [hlast, hval, List.length_cons]
      push_cast
      omega

/-- The line of the position behind `u` starts where the last line of `u` does. -/
theorem ofLine_starts (u v : Str) :
    ofLine (lineStartOffsetByLineIdx (u ++ v)) (behind u).lineNumber =
      u.length - (extent u).columnCount := by
  have hle := extent_columnCount_le u
  have hget := lineStart_getElem 0 0 u v
  have hindex : ((1 + (extent u).lineCount : ℤ) - 1).toNat = (extent u).lineCount := by omega
  rw [behind_eq, ofLine, hindex, lineStartOffsetByLineIdx, hget]
  split_ifs with h
  · rw [extent_of_noLineFeed (extent_lineCount_eq_zero.mp h)]
    simp
  · simp
    omega

theorem ofLine_ends (u v : Str) :
    ofLine (lineEndOffsetByLineIdx (u ++ v)) (behind u).lineNumber =
      u.length + toLineEnd u.getLast? v := by
  obtain ⟨e, he, hval⟩ := @lineEnd_getElem 0 none nofun u v
  have hindex : ((1 + (extent u).lineCount : ℤ) - 1).toNat = (extent u).lineCount := by omega
  rw [behind_eq, ofLine, hindex, lineEndOffsetByLineIdx, he]
  simpa using hval

theorem length_lineStarts (i : ℕ) (text : Str) :
    (lineStartOffsetsFrom i text).length = (extent text).lineCount := by
  induction text generalizing i with
  | nil => rfl
  | cons c text ih =>
    rw [lineStartOffsetsFrom]
    by_cases hc : c = LineFeed
    · subst hc
      rw [if_pos rfl, extent_cons_lineFeed, List.length_cons, ih]
    · rw [if_neg hc, extent_cons_of_ne hc, ih]

theorem textLength_eq (text : Str) : textLength text = extent text := by
  have hle := extent_columnCount_le text
  have hstart := ofLine_starts text []
  have hindex : (lineStartOffsetByLineIdx text).length - 1 = (extent text).lineCount := by
    simp [lineStartOffsetByLineIdx, length_lineStarts]
  have hnat : ((1 + (extent text).lineCount : ℤ) - 1).toNat = (extent text).lineCount := by omega
  rw [behind_eq, List.append_nil, ofLine, hnat] at hstart
  ext
  · exact hindex
  · simp only [textLength, hindex]
    omega

theorem endPositionExclusive_eq (text : Str) : endPositionExclusive text = behind text := by
  rw [endPositionExclusive, textLength_eq]
  rfl

theorem getLineLength_eq (u v : Str) :
    getLineLength (u ++ v) (behind u).lineNumber =
      (extent u).columnCount + toLineEnd u.getLast? v := by
  rw [getLineLength, ofLine_ends, ofLine_starts]
  ring

theorem toLineEnd_of_seam {u v : Str} (h : Seam u v) : toLineEnd u.getLast? v = -1 := by
  obtain ⟨hu, hv⟩ := h
  cases v with
  | nil => cases hv
  | cons c v =>
    obtain rfl : c = LineFeed := by simpa using hv
    rw [toLineEnd, if_pos rfl, if_pos hu]

theorem toLineEnd_nonneg {previous : Option CodeUnit} {v : Str}
    (h : ¬ (previous = some CarriageReturn ∧ v.head? = some LineFeed)) :
    0 ≤ toLineEnd previous v := by
  induction v generalizing previous with
  | nil => exact le_rfl
  | cons c v ih =>
    rw [toLineEnd]
    split_ifs with hc hp
    · simp [hc, hp] at h
    · exact le_rfl
    · by_cases hnext : some c = some CarriageReturn ∧ v.head? = some LineFeed
      · have hseam : Seam [c] v := ⟨by simpa using hnext.1, hnext.2⟩
        have hend := toLineEnd_of_seam hseam
        rw [List.getLast?_singleton] at hend
        omega
      · have := ih hnext
        omega

/-- The end of a line is not in front of its start. -/
theorem neg_columnCount_le (u v : Str) : -((extent u).columnCount : ℤ) ≤ toLineEnd u.getLast? v := by
  by_cases h : Seam u v
  · obtain ⟨w, rfl⟩ := List.getLast?_eq_some_iff.mp h.1
    rw [toLineEnd_of_seam h, extent_append, extent_cons, extent_nil, add_zero,
      add_ofUnit carriageReturn_ne_lineFeed]
    push_cast
    omega
  · have := toLineEnd_nonneg h
    omega

/-- The offset of a position in the line of the one behind `u`, at another column. -/
theorem getOffset_shifted (u v : Str) (d : ℤ) :
    getOffset (u ++ v) ⟨(behind u).lineNumber, (behind u).column + d⟩ =
      u.length + max (-((extent u).columnCount : ℤ)) (min (toLineEnd u.getLast? v) d) := by
  have hle := neg_columnCount_le u v
  have hline : (behind u).lineNumber = 1 + (extent u).lineCount := by rw [behind_eq]
  have hcolumn : (behind u).column = 1 + (extent u).columnCount := by rw [behind_eq]
  have hfirst : ¬ (behind u).lineNumber < 1 := by omega
  have hlast : ¬ (behind u).lineNumber > (textLength (u ++ v)).lineCount + 1 := by
    rw [textLength_eq, extent_append, lineCount_add]
    omega
  unfold getOffset validatePosition
  simp only [if_neg hfirst, if_neg hlast, getLineLength_eq]
  split_ifs with h1 h2
  · simp only [ofLine_starts]
    omega
  · simp only [ofLine_starts]
    omega
  · simp only [ofLine_starts]
    omega

theorem getOffset_behind {u v : Str} (h : ¬ Seam u v) : getOffset (u ++ v) (behind u) = u.length := by
  have hend := toLineEnd_nonneg h
  have hshift := getOffset_shifted u v 0
  rw [add_zero] at hshift
  rw [show behind u = ⟨(behind u).lineNumber, (behind u).column⟩ from rfl, hshift]
  omega

/-- Units up to the end of a line hold no line feed. -/
theorem take_toLineEnd {previous : Option CodeUnit} {v : Str} {n : ℕ}
    (h : (n : ℤ) ≤ toLineEnd previous v) :
    n ≤ v.length ∧ LineFeed ∉ v.take n := by
  induction v generalizing previous n with
  | nil =>
    rw [toLineEnd] at h
    simp
    omega
  | cons c v ih =>
    cases n with
    | zero => simp
    | succ n =>
      rw [toLineEnd] at h
      split_ifs at h with hc hp
      · omega
      · omega
      · obtain ⟨hlen, hmem⟩ := @ih (some c) n (by push_cast at h; omega)
        rw [List.length_cons, List.take_succ_cons, List.mem_cons, not_or]
        exact ⟨by omega, Ne.symm hc, hmem⟩

theorem toLineEnd_drop {previous : Option CodeUnit} {v : Str} {n : ℕ}
    (h : (n : ℤ) ≤ toLineEnd previous v) :
    toLineEnd ((v.take n).getLast?.or previous) (v.drop n) = toLineEnd previous v - n := by
  induction n generalizing previous v with
  | zero => simp
  | succ n ih =>
    cases v with
    | nil =>
      rw [toLineEnd] at h
      omega
    | cons c v =>
      rw [toLineEnd] at h ⊢
      split_ifs at h ⊢ with hc hp
      · omega
      · omega
      · have hlast : ((c :: v).take (n + 1)).getLast?.or previous = (v.take n).getLast?.or (some c) := by
          rw [List.take_succ_cons]
          cases h : (v.take n).getLast? with
          | none => simp [List.getLast?_eq_none_iff.mp h]
          | some x => simp [List.getLast?_cons, h]
        rw [hlast, List.drop_succ_cons, ih (by push_cast at h; omega)]
        push_cast
        ring

/-- The beginning of a text up to a line of it. -/
theorem exists_lineStart {text : Str} {n : ℕ} (h : n ≤ (extent text).lineCount) :
    ∃ u v, text = u ++ v ∧ extent u = ⟨n, 0⟩ := by
  induction text generalizing n with
  | nil =>
    obtain rfl : n = 0 := by simpa [zero_def] using h
    exact ⟨[], [], rfl, rfl⟩
  | cons c text ih =>
    rcases Nat.eq_zero_or_pos n with rfl | hn
    · exact ⟨[], c :: text, rfl, rfl⟩
    by_cases hc : c = LineFeed
    · subst hc
      rw [extent_cons_lineFeed] at h
      obtain ⟨u, v, rfl, hu⟩ := ih (n := n - 1) (by simp only at h; omega)
      refine ⟨LineFeed :: u, v, rfl, ?_⟩
      rw [extent_cons_lineFeed, hu]
      ext
      · simp only
        omega
      · rfl
    · rw [extent_cons_of_ne hc] at h
      obtain ⟨u, v, rfl, hu⟩ := ih h
      refine ⟨c :: u, v, rfl, ?_⟩
      rw [extent_cons_of_ne hc, hu]
      simp only
      rw [if_neg (by omega)]

/-- A position that needs no correction is the one behind some beginning of the text. -/
theorem exists_behind {text : Str} {p : Position} (h : validatePosition text p = p) :
    ∃ u v, text = u ++ v ∧ behind u = p ∧ ¬ Seam u v := by
  obtain ⟨hline, hcount, hcolumn, hend⟩ : 1 ≤ p.lineNumber ∧
      p.lineNumber ≤ (extent text).lineCount + 1 ∧ 1 ≤ p.column ∧
      p.column - 1 ≤ getLineLength text p.lineNumber := by
    unfold validatePosition at h
    simp only [textLength_eq] at h
    split_ifs at h with h1 h2 h3 h4
    · rw [← h] at h1
      simp at h1
    · rw [← h] at h2
      simp at h2
    · rw [← h] at h3
      simp at h3
    · rw [← h] at h4
      simp at h4
    · omega
  obtain ⟨u, v, rfl, hu⟩ := @exists_lineStart text (p.lineNumber - 1).toNat (by omega)
  have hbehind : behind u = ⟨p.lineNumber, 1⟩ := by
    rw [behind_eq, hu]
    simp only [Position.mk.injEq]
    omega
  have hlength := getLineLength_eq u v
  rw [hbehind, hu] at hlength
  simp only at hlength
  obtain ⟨n, hn⟩ : ∃ n : ℕ, p.column - 1 = n := ⟨(p.column - 1).toNat, by omega⟩
  have hle : (n : ℤ) ≤ toLineEnd u.getLast? v := by omega
  obtain ⟨hlen, hmem⟩ := take_toLineEnd hle
  refine ⟨u ++ v.take n, v.drop n, by simp, ?_, ?_⟩
  · rw [behind_append, extent_of_noLineFeed hmem, hbehind, List.length_take, min_eq_left hlen]
    simp only [addToPosition, if_true]
    rw [← hn]
    simp
  · intro hseam
    have hneg := toLineEnd_of_seam hseam
    rw [List.getLast?_append, toLineEnd_drop hle] at hneg
    omega

end NexgileIde.Text
