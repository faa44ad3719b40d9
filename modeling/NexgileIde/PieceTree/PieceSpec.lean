import NexgileIde.PieceTree.PieceTreeBase
import NexgileIde.Text.LineIndex

/-!
# Pieces as parts of buffers

A piece stands for the part `w` of a buffer `u ++ (w ++ v)`. Its cursors are the places
of the ends of `w` in the buffer, so that everything read through them is a fact about
`w`, where a `\r\n` may be cut in two between `w` and `v`.
-/
namespace NexgileIde.PieceTree

open Text

/-- The place of an offset in a text. -/
def cursorAt (str : Str) (o : ℕ) : BufferCursor :=
  ⟨lineAt str o, o - lineStart str (lineAt str o)⟩

@[simp] theorem cursorAt_line (str : Str) (o : ℕ) : (cursorAt str o).line = lineAt str o := rfl

@[simp] theorem lineStartAt_createLineStartsFast (str : Str) (k : ℕ) :
    lineStartAt (createLineStartsFast str) k = lineStart str k := rfl

theorem offset_cursorAt (str : Str) (o : ℕ) :
    lineStartAt (createLineStartsFast str) (cursorAt str o).line + (cursorAt str o).column = o := by
  have hle := lineStart_lineAt_le str o
  simp only [cursorAt, lineStartAt_createLineStartsFast]
  omega

theorem cursorAt_inj {str : Str} {o o' : ℕ} (h : cursorAt str o = cursorAt str o') : o = o' := by
  have h₁ := offset_cursorAt str o
  have h₂ := offset_cursorAt str o'
  rw [h] at h₁
  omega

/-- The end of a text is on its last line. -/
theorem cursorAt_length (str : Str) : cursorAt str str.length =
    ⟨(createLineStartsFast str).length - 1, str.length - lineStartAt (createLineStartsFast str)
      ((createLineStartsFast str).length - 1)⟩ := by
  have hline := lineAt_length str
  have hlast : ((createLineStartsFast str).length : Int) - 1 = countBreaks str := by
    rw [length_createLineStartsFast]
    omega
  rw [cursorAt, hline, hlast, lineStartAt_createLineStartsFast]

theorem cursorAt_zero (str : Str) : cursorAt str 0 = ⟨0, 0⟩ := by
  have hline : lineAt str 0 = 0 := by
    have h := lineStart_lineAt_le str 0
    rw [lineAt, List.countP_eq_zero]
    intro j hj
    have := lineEnds_mem hj
    simp only [decide_eq_true_eq]
    omega
  rw [cursorAt, hline, lineStart_zero]
  rfl

/-- Places in a text stay when it is extended, unless a `\r\n` appears behind them. -/
theorem cursorAt_append {u v : Str} {o : ℕ} (h : o < u.length ∨ o = u.length ∧ ¬ Seam u v) :
    cursorAt (u ++ v) o = cursorAt u o := by
  have hline := lineAt_append_left h
  have hle : o ≤ u.length := by omega
  have hstart := lineStart_append_left (u := u) (v := v) (k := lineAt u o)
    (hline ▸ lineAt_mono (u ++ v) hle)
  rw [cursorAt, hline, hstart, cursorAt]

/-- The place one code unit before. -/
theorem cursorAt_pred (str : Str) (o : ℕ) :
    (if (cursorAt str (o + 1)).column = 0 then
      (⟨(cursorAt str (o + 1)).line - 1,
        lineStartAt (createLineStartsFast str) (cursorAt str (o + 1)).line -
          lineStartAt (createLineStartsFast str) ((cursorAt str (o + 1)).line - 1) - 1⟩ :
        BufferCursor)
    else ⟨(cursorAt str (o + 1)).line, (cursorAt str (o + 1)).column - 1⟩) = cursorAt str o := by
  have hle := lineStart_lineAt_le str (o + 1)
  have hcol : (cursorAt str (o + 1)).column = ((o + 1 : ℕ) : Int) -
      lineStart str (lineAt str (o + 1)) := rfl
  rcases lineAt_succ str o with ⟨hline, hne⟩ | ⟨hline, heq⟩
  · rw [if_neg (by omega), hcol, cursorAt_line, hline, cursorAt, BufferCursor.mk.injEq]
    exact ⟨rfl, by omega⟩
  · have hcast : (lineAt str (o + 1) : Int) - 1 = lineAt str o := by omega
    rw [if_pos (by omega), cursorAt_line, hcast, lineStartAt_createLineStartsFast,
      lineStartAt_createLineStartsFast, heq, cursorAt, BufferCursor.mk.injEq]
    exact ⟨rfl, by omega⟩

theorem createLineStartsFast_append (u v : Str) : createLineStartsFast (u ++ v) =
    (createLineStartsFast u).take (countBreaks u + 1 - seam u v) ++
      (createLineStartsFast v).tail.map (· + u.length) := by
  have hle := seam_le_countBreaks u v
  have hshift := lineEnds_add u.length 0 v
  rw [Nat.add_zero] at hshift
  have htake : countBreaks u + 1 - seam u v = (countBreaks u - seam u v) + 1 := by omega
  have hcomm : (fun j => j + u.length) = (u.length + ·) := funext fun j => Nat.add_comm _ _
  simp only [createLineStartsFast, lineStartsFrom_eq, lineEnds_cut 0 u v, length_lineEnds, htake,
    List.take_succ_cons, List.tail_cons, List.cons_append, Nat.zero_add, hshift, hcomm]

/-- The binary search finds the line of an offset. -/
theorem searchLine_eq {str : Str} {o : ℕ} {low high : Int} {last : Int × Int} (hzero : 0 ≤ low)
    (hlow : low ≤ lineAt str o) (hhigh : lineAt str o ≤ high) (hmax : high ≤ countBreaks str) :
    PieceTreeBase.searchLine (createLineStartsFast str) o low high last =
      ((lineAt str o : Int), (lineStart str (lineAt str o) : Int)) := by
  obtain ⟨n, hn⟩ : ∃ n, n = (high + 1 - low).toNat := ⟨_, rfl⟩
  induction n using Nat.strong_induction_on generalizing low high last with
  | _ n ih =>
    rw [PieceTreeBase.searchLine, if_pos (by omega)]
    obtain ⟨mid, hmid⟩ : ∃ mid : ℕ, low + (high - low) / 2 = mid :=
      ⟨(low + (high - low) / 2).toNat, by omega⟩
    simp only [hmid]
    by_cases hend : (mid : Int) = high
    · have heq : mid = lineAt str o := by omega
      rw [if_pos hend, heq, lineStartAt_createLineStartsFast]
    · rw [if_neg hend]
      have hstart := @lineStart_le_iff str mid (by omega) o
      have hstop := @lineStart_le_iff str (mid + 1) (by omega) o
      have hcast : ((mid : Int) + 1) = ((mid + 1 : ℕ) : Int) := by omega
      rw [hcast, lineStartAt_createLineStartsFast, lineStartAt_createLineStartsFast]
      by_cases hbefore : (o : Int) < lineStart str mid
      · rw [if_pos hbefore]
        exact ih _ (by omega) (by omega) (by omega) (by omega) (by omega) rfl
      · rw [if_neg hbefore]
        by_cases hbehind : (o : Int) ≥ lineStart str (mid + 1)
        · rw [if_pos hbehind]
          exact ih _ (by omega) (by omega) (by omega) (by omega) (by omega) rfl
        · have heq : mid = lineAt str o := by omega
          rw [if_neg hbehind, heq]

/-- The piece is the part `w` of its buffer, behind `u` and before `v`. -/
structure Slice (buffers : List StringBuffer) (p : Piece) (u w v : Str) : Prop where
  buffer : buffers[p.bufferIndex]? = some (.ofStr (u ++ (w ++ v)))
  start : p.start = cursorAt (u ++ (w ++ v)) u.length
  stop : p.stop = cursorAt (u ++ (w ++ v)) (u.length + w.length)
  length : p.length = w.length

namespace PieceTreeBase

variable {t : PieceTreeBase} {p : Piece} {i : ℕ} {u w w' v : Str}

theorem offsetInBuffer_cursorAt {str : Str} (h : t.buffers[i]? = some (.ofStr str)) (o : ℕ) :
    t.offsetInBuffer i (cursorAt str o) = some (o : Int) := by
  simp only [offsetInBuffer, h, StringBuffer.ofStr, Option.bind_eq_bind, Option.bind_some,
    offset_cursorAt]
  rfl

theorem offsetInBuffer_start (h : Slice t.buffers p u w v) :
    t.offsetInBuffer p.bufferIndex p.start = some (u.length : Int) := by
  rw [h.start, offsetInBuffer_cursorAt h.buffer]

theorem offsetInBuffer_stop (h : Slice t.buffers p u w v) :
    t.offsetInBuffer p.bufferIndex p.stop = some ((u.length : Int) + w.length) := by
  rw [h.stop, offsetInBuffer_cursorAt h.buffer, Nat.cast_add]

theorem positionInBuffer_eq (h : Slice t.buffers p u w v) {o : ℕ} (ho : o ≤ w.length) :
    t.positionInBuffer p o = some (cursorAt (u ++ (w ++ v)) (u.length + o)) := by
  obtain ⟨str, hstr⟩ : ∃ str, str = u ++ (w ++ v) := ⟨_, rfl⟩
  have hoff := offset_cursorAt str u.length
  have hsearch : searchLine (createLineStartsFast str) ((u.length + o : ℕ) : Int)
      (lineAt str u.length) (lineAt str (u.length + w.length)) (0, 0) =
      ((lineAt str (u.length + o) : Int), (lineStart str (lineAt str (u.length + o)) : Int)) :=
    searchLine_eq (Int.natCast_nonneg _) (Int.ofNat_le.mpr (lineAt_mono _ (by omega)))
      (Int.ofNat_le.mpr (lineAt_mono _ (by omega))) (Int.ofNat_le.mpr (lineAt_le _ _))
  rw [cursorAt_line] at hoff
  simp only [positionInBuffer, h.buffer, h.start, h.stop, ← hstr, StringBuffer.ofStr,
    cursorAt_line, Option.bind_eq_bind, Option.bind_some, hoff, ← Nat.cast_add, hsearch]
  rfl

/-- The line of a place in `w`, counted from the line of its start. -/
theorem lineAt_slice (u w v : Str) (o : ℕ) :
    lineAt (u ++ (w ++ v)) (u.length + o) = lineAt (u ++ (w ++ v)) u.length + lineAt (w ++ v) o :=
  lineAt_append_right u (w ++ v) o

/-- The lines between the ends of a part, which misses the `\r` of a `\r\n` cut in two. -/
theorem lineAt_slice_length (u w v : Str) :
    lineAt (u ++ (w ++ v)) (u.length + w.length) + seam w v =
      lineAt (u ++ (w ++ v)) u.length + countBreaks w := by
  rw [lineAt_slice, Nat.add_assoc, lineAt_cut]

theorem column_eq_zero_iff {str : Str} {o : ℕ} :
    (cursorAt str o).column = 0 ↔ o = lineStart str (lineAt str o) := by
  have hle := lineStart_lineAt_le str o
  simp only [cursorAt]
  omega

/-- The line feeds up to a place: a `\r` counts although a `\n` follows it. -/
theorem getLineFeedCnt_eq {x y : Str} (h : t.buffers[i]? = some (.ofStr (x ++ y)))
    (start : BufferCursor) : t.getLineFeedCnt i start (cursorAt (x ++ y) x.length) =
      some (lineAt (x ++ y) x.length - start.line + seam x y) := by
  have hoff := offset_cursorAt (x ++ y) x.length
  rw [cursorAt_line] at hoff
  have hlen := length_createLineStartsFast (x ++ y)
  have hle := lineAt_le (x ++ y) x.length
  unfold getLineFeedCnt
  by_cases hcol : (cursorAt (x ++ y) x.length).column = 0
  · have hseam : ¬ Seam x y := fun hs => by
      have := column_eq_zero_iff.mp hcol
      have := (lineStart_of_seam hs).2.1
      omega
    simp [hcol, seam, hseam]
  rw [if_neg hcol]
  simp only [h, StringBuffer.ofStr, Option.bind_eq_bind, Option.bind_some, cursorAt_line, hlen]
  by_cases hlast : (lineAt (x ++ y) x.length : Int) = (countBreaks (x ++ y) + 1 : ℕ) - 1
  · have hseam : ¬ Seam x y := fun hs => by
      have := (lineStart_of_seam hs).1
      omega
    simp [hlast, seam, hseam]
  rw [if_neg hlast]
  have hcast : ((lineAt (x ++ y) x.length : Int) + 1) = ((lineAt (x ++ y) x.length + 1 : ℕ) : Int) :=
    rfl
  simp only [hoff, hcast, lineStartAt_createLineStartsFast _ (_ + 1)]
  by_cases hnext : (lineStart (x ++ y) (lineAt (x ++ y) x.length + 1) : Int) > x.length + 1
  · have hseam : ¬ Seam x y := fun hs => by
      have := (lineStart_of_seam hs).2.2
      omega
    simp [hnext, seam, hseam]
  rw [if_neg hnext]
  have hpos : x ≠ [] := by
    rintro rfl
    exact hcol (by rw [List.nil_append, List.length_nil, cursorAt_zero])
  have hchar : charCodeAt (x ++ y) (x.length - 1) = x.getLast? := by
    have hx := List.length_pos_iff.mpr hpos
    rw [charCodeAt, if_neg (by omega), List.getElem?_append_left (by omega), List.getLast?_eq_getElem?]
    congr 1
    omega
  rw [hchar]
  by_cases hcr : x.getLast? = some CarriageReturn
  · have hseam : Seam x y := by
      by_contra hs
      exact hcol (column_eq_zero_iff.mpr (lineStart_of_not_seam hcr hs).symm)
    simp [hcr, seam, hseam]
  · have hseam : ¬ Seam x y := fun hs => hcr hs.1
    simp [hcr, seam, hseam]

theorem getLineFeedCnt_slice (hw : w ≠ []) (h : t.buffers[i]? = some (.ofStr (u ++ (w ++ v)))) :
    t.getLineFeedCnt i (cursorAt (u ++ (w ++ v)) u.length)
      (cursorAt (u ++ (w ++ v)) (u.length + w.length)) = some (countBreaks w : Int) := by
  have hlines := lineAt_slice_length u w v
  have hseam := seam_append_left (u := u) (v := v) hw
  rw [← List.append_assoc] at h hlines ⊢
  rw [← List.length_append] at hlines ⊢
  rw [getLineFeedCnt_eq h, cursorAt_line, hseam]
  congr 1
  omega

theorem getLineFeedCnt_piece (h : Slice t.buffers p u w v) (hw : w ≠ []) :
    t.getLineFeedCnt p.bufferIndex p.start p.stop = some (countBreaks w : Int) := by
  rw [h.start, h.stop]
  exact getLineFeedCnt_slice hw h.buffer

theorem getPieceContent_eq (h : Slice t.buffers p u w v) : t.getPieceContent p = some w := by
  have hstart := offsetInBuffer_start h
  have hstop := offsetInBuffer_stop h
  unfold getPieceContent
  simp only [h.buffer, hstart, hstop, Option.bind_eq_bind, Option.bind_some, StringBuffer.ofStr,
    ← Nat.cast_add]
  rw [substring_of_le _ (by omega), List.drop_left, Nat.add_sub_cancel_left, List.take_left]
  rfl

/-! ### Ends of pieces -/

theorem charCodeAt_slice (u w v : Str) {o : ℕ} (ho : o < w.length) :
    charCodeAt (u ++ (w ++ v)) (u.length + o) = w[o]? := by
  rw [charCodeAt, if_neg (by omega), show ((u.length : Int) + o).toNat = u.length + o by omega,
    List.getElem?_append_right (by omega), Nat.add_sub_cancel_left,
    List.getElem?_append_left ho]

/-- Only pieces with line breaks are looked at for a `\n` or `\r`. -/
theorem nodeCharCodeAt_eq (h : Slice t.buffers p u w v) (hcnt : p.lineFeedCnt = countBreaks w)
    {o : ℕ} (ho : o < w.length) {chr : CodeUnit} (hchr : chr = LineFeed ∨ chr = CarriageReturn) :
    ∃ c, t.nodeCharCodeAt p o = some c ∧ (c = some chr ↔ w[o]? = some chr) := by
  unfold nodeCharCodeAt
  by_cases hnone : p.lineFeedCnt < 1
  · refine ⟨none, by rw [if_pos hnone]; rfl, ?_⟩
    constructor
    · intro hc
      cases hc
    · intro hc
      have := countBreaks_pos (List.mem_of_getElem? hc) hchr
      omega
  · refine ⟨w[o]?, ?_, Iff.rfl⟩
    have hstart := offsetInBuffer_start h
    simp only [if_neg hnone, h.buffer, hstart, Option.bind_eq_bind, Option.bind_some,
      StringBuffer.ofStr, charCodeAt_slice u w v ho]
    rfl

theorem pieceEndsWithCR_eq (h : Slice t.buffers p u w v) (hcnt : p.lineFeedCnt = countBreaks w)
    (hw : w ≠ []) :
    t.pieceEndsWithCR p = some (decide (w.getLast? = some CarriageReturn)) := by
  have hpos := List.length_pos_iff.mpr hw
  unfold pieceEndsWithCR
  by_cases hnone : p.lineFeedCnt = 0
  · have hlast : w.getLast? ≠ some CarriageReturn := fun hlast => by
      have := countBreaks_pos (List.mem_of_getLast? hlast) (.inr rfl)
      omega
    rw [if_pos hnone, decide_eq_false hlast]
    rfl
  · obtain ⟨c, hc, hiff⟩ := nodeCharCodeAt_eq h hcnt (o := w.length - 1) (by omega)
      (show CarriageReturn = LineFeed ∨ CarriageReturn = CarriageReturn from .inr rfl)
    have hlength : p.length - 1 = ((w.length - 1 : ℕ) : Int) := by
      rw [h.length]
      omega
    simp only [if_neg hnone, hlength, hc, Option.bind_eq_bind, Option.bind_some,
      List.getLast?_eq_getElem?, hiff]
    rfl

theorem pieceStartsWithLF_eq (h : Slice t.buffers p u w v) (hcnt : p.lineFeedCnt = countBreaks w)
    (hw : w ≠ []) :
    t.pieceStartsWithLF p = some (decide (w.head? = some LineFeed)) := by
  obtain ⟨str, hstr⟩ : ∃ str, str = u ++ (w ++ v) := ⟨_, rfl⟩
  have hpos := List.length_pos_iff.mpr hw
  have hoff := offset_cursorAt str u.length
  have hlines := length_createLineStartsFast str
  have hslice := charCodeAt_slice u w v hpos
  rw [Nat.cast_zero, add_zero, ← hstr, ← List.head?_eq_getElem?] at hslice
  have hle := lineAt_le str u.length
  have hlf : w.head? = some LineFeed → lineAt str u.length < countBreaks str ∧
      lineStart str (lineAt str u.length + 1) = u.length + 1 := by
    intro hhead
    obtain ⟨w', rfl⟩ := List.head?_eq_some_iff.mp hhead
    rw [hstr]
    exact (lineStart_behind_lineFeed u (w' ++ v)).2
  unfold pieceStartsWithLF
  by_cases hnone : p.lineFeedCnt = 0
  · have hhead : w.head? ≠ some LineFeed := fun hhead => by
      have := countBreaks_pos (List.mem_of_head? hhead) (.inl rfl)
      omega
    rw [if_pos hnone, decide_eq_false hhead]
    rfl
  rw [if_neg hnone]
  have hcast : (lineAt str u.length : Int) + 1 = ((lineAt str u.length + 1 : ℕ) : Int) := rfl
  simp only [h.buffer, h.start, ← hstr, StringBuffer.ofStr, Option.bind_eq_bind, Option.bind_some,
    hoff, hlines, hslice]
  simp only [cursorAt_line, hcast, lineStartAt_createLineStartsFast]
  by_cases hlast : lineAt str u.length = countBreaks str
  · have hhead : w.head? ≠ some LineFeed := fun hhead => by
      have := (hlf hhead).1
      omega
    simp [hlast, hhead]
  by_cases hnext : (lineStart str (lineAt str u.length + 1) : Int) > u.length + 1
  · have hhead : w.head? ≠ some LineFeed := fun hhead => by
      have := (hlf hhead).2
      omega
    simp [hlast, hnext, hhead]
  · simp [hlast, hnext]

/-- The piece without its first `\n`. -/
theorem withoutLF_eq (h : Slice t.buffers p u (LineFeed :: w) v) :
    ∃ q, t.withoutLF p = some q ∧ Slice t.buffers q (u ++ [LineFeed]) w v ∧
      q.lineFeedCnt = countBreaks w ∧ q.bufferIndex = p.bufferIndex ∧ q.stop = p.stop := by
  obtain ⟨hline, hlt, hstart⟩ := lineStart_behind_lineFeed u (w ++ v)
  have hlines := lineAt_slice_length u (LineFeed :: w) v
  have hcount := countBreaks_lineFeed w
  have hstr : (u ++ [LineFeed]) ++ (w ++ v) = u ++ (LineFeed :: w ++ v) := by simp
  have hnew : (⟨p.start.line + 1, 0⟩ : BufferCursor) =
      cursorAt (u ++ (LineFeed :: w ++ v)) (u.length + 1) := by
    rw [h.start, cursorAt_line, cursorAt, List.cons_append, hline, hstart]
    simp
  have hcnt : t.getLineFeedCnt p.bufferIndex ⟨p.start.line + 1, 0⟩ p.stop =
      some (countBreaks w : Int) := by
    have hbuf := h.buffer
    have hseam := seam_append_left (u := u) (v := v) (List.cons_ne_nil LineFeed w)
    rw [hnew, h.stop]
    rw [← List.append_assoc] at hbuf hlines ⊢
    rw [← List.length_append] at hlines ⊢
    rw [getLineFeedCnt_eq hbuf, cursorAt_line, hseam]
    rw [List.append_assoc, List.cons_append] at hlines ⊢
    rw [hline]
    congr 1
    omega
  unfold withoutLF
  simp only [hcnt, Option.bind_eq_bind, Option.bind_some]
  refine ⟨_, rfl, ?_, rfl, rfl, rfl⟩
  constructor
  · rw [hstr]
    exact h.buffer
  · rw [hstr, List.length_append]
    exact hnew
  · rw [hstr, List.length_append, List.length_singleton, Nat.add_assoc, Nat.add_comm 1]
    exact h.stop
  · have := h.length
    rw [List.length_cons] at this
    dsimp only
    omega

end PieceTreeBase

/-! ### Cutting and extending -/

theorem Slice.bufferIndex_lt {buffers : List StringBuffer} {p : Piece} {u w v : Str}
    (h : Slice buffers p u w v) : p.bufferIndex < buffers.length :=
  (List.getElem?_eq_some_iff.mp h.buffer).1

theorem Slice.takeLeft {buffers : List StringBuffer} {p : Piece} {u w₁ w₂ v : Str}
    (h : Slice buffers p u (w₁ ++ w₂) v) (cnt : Int) :
    Slice buffers ⟨p.bufferIndex, p.start,
      cursorAt (u ++ (w₁ ++ w₂ ++ v)) (u.length + w₁.length), cnt, w₁.length⟩ u w₁ (w₂ ++ v) := by
  have hstr : u ++ (w₁ ++ (w₂ ++ v)) = u ++ (w₁ ++ w₂ ++ v) := by simp
  constructor
  · rw [hstr]
    exact h.buffer
  · rw [hstr]
    exact h.start
  · rw [hstr]
  · rfl

theorem Slice.takeRight {buffers : List StringBuffer} {p : Piece} {u w₁ w₂ v : Str}
    (h : Slice buffers p u (w₁ ++ w₂) v) (cnt : Int) :
    Slice buffers ⟨p.bufferIndex, cursorAt (u ++ (w₁ ++ w₂ ++ v)) (u.length + w₁.length),
      p.stop, cnt, w₂.length⟩ (u ++ w₁) w₂ v := by
  have hstr : (u ++ w₁) ++ (w₂ ++ v) = u ++ (w₁ ++ w₂ ++ v) := by simp
  constructor
  · rw [hstr]
    exact h.buffer
  · rw [hstr, List.length_append]
  · have hlen : (u ++ w₁).length + w₂.length = u.length + (w₁ ++ w₂).length := by
      simp [Nat.add_assoc]
    rw [hstr, hlen]
    exact h.stop
  · rfl

/-- Other buffers may change. -/
theorem Slice.of_getElem? {buffers buffers' : List StringBuffer} {p : Piece} {u w v : Str}
    (h : Slice buffers p u w v)
    (heq : buffers'[p.bufferIndex]? = buffers[p.bufferIndex]?) : Slice buffers' p u w v :=
  ⟨heq.trans h.buffer, h.start, h.stop, h.length⟩

/-- A part stays where it is when its buffer is extended, unless a `\r\n` appears behind
it. -/
theorem Slice.extend {buffers buffers' : List StringBuffer} {p : Piece} {u w v x : Str}
    (h : Slice buffers p u w v)
    (hbuf : buffers'[p.bufferIndex]? = some (.ofStr (u ++ (w ++ v) ++ x)))
    (hx : v ≠ [] ∨ ¬ Seam (u ++ w) x) :
    Slice buffers' p u w (v ++ x) := by
  have hstr : u ++ (w ++ (v ++ x)) = u ++ (w ++ v) ++ x := by simp
  have hplace : ∀ o, o ≤ u.length + w.length →
      (o < u.length + w.length ∨ v ≠ [] ∨ ¬ Seam (u ++ w) x) →
      cursorAt (u ++ (w ++ v) ++ x) o = cursorAt (u ++ (w ++ v)) o := by
    intro o ho hcase
    apply cursorAt_append
    by_cases hlt : o < (u ++ (w ++ v)).length
    · exact .inl hlt
    · simp only [List.length_append] at hlt
      have hv : v = [] := List.length_eq_zero_iff.mp (by omega)
      refine .inr ⟨by simp; omega, ?_⟩
      rw [hv, List.append_nil]
      rcases hcase with hcase | hcase | hcase
      · omega
      · exact absurd hv hcase
      · exact hcase
  constructor
  · rw [hstr]
    exact hbuf
  · rw [hstr, hplace u.length (by omega), h.start]
    by_cases hw : w = []
    · subst hw
      rw [List.append_nil] at *
      exact .inr hx
    · exact .inl (by have := List.length_pos_iff.mpr hw; omega)
  · rw [hstr, hplace _ le_rfl (.inr hx), h.stop]
  · exact h.length

/-- The piece for a whole buffer. -/
theorem slice_wholePiece {buffers : List StringBuffer} {i : ℕ} {str : Str}
    (h : buffers[i]? = some (.ofStr str)) :
    Slice buffers (PieceTreeBase.wholePiece i (.ofStr str)) [] str [] ∧
      (PieceTreeBase.wholePiece i (.ofStr str)).lineFeedCnt = countBreaks str := by
  have hlines := length_createLineStartsFast str
  constructor
  · constructor
    · rw [List.nil_append, List.append_nil]
      exact h
    · simp [PieceTreeBase.wholePiece, cursorAt_zero]
    · simp only [List.nil_append, List.append_nil, List.length_nil, Nat.zero_add, cursorAt_length]
      rfl
    · rfl
  · simp only [PieceTreeBase.wholePiece, StringBuffer.ofStr]
    omega

end NexgileIde.PieceTree
