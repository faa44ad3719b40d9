import NexgileIde.PieceTree.LineContent

/-!
# Offsets and positions

An offset is turned into a line and a column and back by descending the tree, by the stored
lengths one way and by the stored line feeds the other.
-/
namespace NexgileIde.PieceTree

open Library RBTree Text

namespace PieceTreeBase

/-- The loop of `getOffsetAt`. -/
def offsetAtLoop (t : PieceTreeBase) (column : Int) : Nodes → Int → Int → Option Int
  | nil, _, leftLen => some leftLen
  | node _ l a r, lineNumber, leftLen =>
    if !l.isNil && a.lfLeft + 1 ≥ lineNumber then offsetAtLoop t column l lineNumber leftLen
    else if a.lfLeft + a.piece.lineFeedCnt + 1 ≥ lineNumber then do
      let accumulatedValue ← t.getAccumulatedValue a.piece (lineNumber - a.lfLeft - 2)
      return leftLen + a.sizeLeft + (accumulatedValue + column - 1)
    else offsetAtLoop t column r (lineNumber - (a.lfLeft + a.piece.lineFeedCnt))
      (leftLen + (a.sizeLeft + a.piece.length))

def getOffsetAt (t : PieceTreeBase) (lineNumber column : Int) : Option Int :=
  t.offsetAtLoop column t.root lineNumber 0

/-- `getIndexOf(node, accumulatedValue)`: the index and the remainder. -/
def getIndexOf (t : PieceTreeBase) (piece : Piece) (accumulatedValue : Int) :
    Option (Int × Int) := do
  let pos ← t.positionInBuffer piece accumulatedValue
  let lineCnt := pos.line - piece.start.line
  if (← t.offsetInBuffer piece.bufferIndex piece.stop) -
      (← t.offsetInBuffer piece.bufferIndex piece.start) = accumulatedValue then
    -- at the end of the node a `\r\n` may be cut in two
    let realLineCnt ← t.getLineFeedCnt piece.bufferIndex piece.start pos
    if realLineCnt ≠ lineCnt then return (realLineCnt, 0)
  return (lineCnt, pos.column)

/-- The loop of `getPositionAt`: the line number and the column. -/
def positionAtLoop (t : PieceTreeBase) (originalOffset : Int) :
    Nodes → Int → Int → Option (Int × Int)
  | nil, _, _ => some (1, 1)
  | node _ l a r, offset, lfCnt =>
    if a.sizeLeft ≠ 0 ∧ a.sizeLeft ≥ offset then positionAtLoop t originalOffset l offset lfCnt
    else if a.sizeLeft + a.piece.length ≥ offset then do
      let (index, remainder) ← t.getIndexOf a.piece (offset - a.sizeLeft)
      let lfCnt := lfCnt + (a.lfLeft + index)
      if index = 0 then
        let lineStartOffset ← t.getOffsetAt (lfCnt + 1) 1
        return (lfCnt + 1, originalOffset - lineStartOffset + 1)
      return (lfCnt + 1, remainder + 1)
    else
      let offset := offset - (a.sizeLeft + a.piece.length)
      let lfCnt := lfCnt + (a.lfLeft + a.piece.lineFeedCnt)
      if r.isNil then do
        let lineStartOffset ← t.getOffsetAt (lfCnt + 1) 1
        return (lfCnt + 1, originalOffset - offset - lineStartOffset + 1)
      else positionAtLoop t originalOffset r offset lfCnt

def getPositionAt (t : PieceTreeBase) (offset : Int) : Option (Int × Int) :=
  t.positionAtLoop (max 0 offset) t.root (max 0 offset) 0

variable {t : PieceTreeBase} {segs : List Seg} {n : ℕ}

theorem offsetAtLoop_eq {x : Nodes} {column lineNumber leftLen line o : Int} {a : TreeNode}
    (h : lineNode x lineNumber leftLen = some (a, line, o)) :
    t.offsetAtLoop column x lineNumber leftLen = do
      let accumulatedValue ← t.getAccumulatedValue a.piece (line - 2)
      return o + (accumulatedValue + column - 1) := by
  induction x generalizing lineNumber leftLen with
  | nil => cases h
  | node c l b r ihl ihr =>
    have hgo_iff : b.lfLeft + 1 ≥ lineNumber ↔ b.lfLeft ≥ lineNumber - 1 := by omega
    rw [lineNode] at h
    rw [offsetAtLoop]
    simp only [hgo_iff]
    split_ifs at h with hgo hin
    · rw [if_pos hgo]
      exact ihl h
    · obtain ⟨rfl, rfl, rfl⟩ := by simpa using h
      rw [if_neg hgo, if_pos (by omega)]
    · rw [if_neg hgo, if_neg (by omega)]
      exact ihr h

/-- An offset is counted from the start of its line. -/
theorem getOffsetAt_eq (h : Sound t segs) (hn : n ≤ breaksOf segs) {column : Int}
    (hcolumn : segs = [] → column = 1) :
    t.getOffsetAt ((n : Int) + 1) column = some (lineOffset (textOf segs) n + (column - 1)) := by
  unfold getOffsetAt
  by_cases hne : t.root = nil
  · obtain rfl : segs = [] := h.layout.isNil_iff.mp (by rw [hne]; rfl)
    obtain rfl : n = 0 := Nat.le_zero.mp hn
    rw [hne, hcolumn rfl]
    rfl
  · obtain ⟨A, s, B, k, a, hstarts, ha, hfound⟩ := lineNode_spec h.layout.holds.exact hne
      h.layout.holds.entries h.layout.fits h.whole hn 0
    have hoffset := hstarts.lineOffset_eq h.whole h.chain
    obtain rfl := hstarts.split
    obtain ⟨b, z, hr⟩ := exists_reads h.layout (h.whole s (by simp)) hstarts.le
    have hprev : (k : Int) + 1 - 2 = (k : Int) - 1 := by omega
    have hpiece : a.piece = s.piece := congrArg Prod.snd ha
    rw [offsetAtLoop_eq hfound, hpiece, hprev, hr.start, hoffset]
    refine congrArg some ?_
    push_cast
    omega

/-- The offset of a column, up to the end of the line. -/
theorem getOffsetAt_column (h : Sound t segs) (hn : n ≤ breaksOf segs) {c : ℕ}
    (hc : lineOffset (textOf segs) n + c ≤ lineOffset (textOf segs) (n + 1)) :
    t.getOffsetAt ((n : Int) + 1) ((c : Int) + 1) =
      some ((lineOffset (textOf segs) n + c : ℕ) : Int) := by
  have hlen := lineOffset_le (textOf segs) (n + 1)
  rw [getOffsetAt_eq h hn]
  · refine congrArg some ?_
    push_cast
    omega
  · rintro rfl
    have := Nat.le_zero.mp hlen
    omega

/-- The line feeds up to a place of a piece. -/
theorem getIndexOf_eq {p : Piece} {u w v : Str} (h : Slice t.buffers p u w v) (hw : w ≠ []) {r : ℕ}
    (hr : r ≤ w.length) : ∃ remainder, t.getIndexOf p r = some ((lineAt w r : Int), remainder) ∧
      (0 < lineAt w r → remainder = r - (lineOffset w (lineAt w r) : Int)) := by
  have hline := lineAt_slice u w v r
  have hpos := positionInBuffer_eq h hr
  have hend : ((u.length : Int) + w.length - u.length = r) ↔ r = w.length := by omega
  -- the column counts from the line start of the buffer, which is one of the piece
  have hcolumn : ∀ k, lineAt (w ++ v) r = k + 1 → lineAt w r = k + 1 →
      ((u.length + r : ℕ) : Int) - lineStart (u ++ (w ++ v)) (lineAt (u ++ (w ++ v)) u.length + (k + 1)) =
        r - (lineOffset w (k + 1) : Int) := by
    intro k hk hk'
    have hle := lineAt_le (w ++ v) r
    have hle' := lineAt_le w r
    have hmono : lineAt (w ++ v) r ≤ lineAt (w ++ v) w.length := lineAt_mono _ hr
    rw [lineStart_append_right (by omega), lineStart_append_left (u := w) (by omega),
      ← lineOffset_eq (by omega)]
    omega
  have hcnt : ((cursorAt (u ++ (w ++ v)) (u.length + r)).line - p.start.line) =
      (lineAt (w ++ v) r : Int) := by
    rw [h.start, cursorAt_line, cursorAt_line, hline]
    omega
  have hfound : lineAt (w ++ v) r = lineAt w r → ∃ remainder,
      some ((lineAt (w ++ v) r : Int), (cursorAt (u ++ (w ++ v)) (u.length + r)).column) =
        some ((lineAt w r : Int), remainder) ∧
      (0 < lineAt w r → remainder = r - (lineOffset w (lineAt w r) : Int)) := by
    intro heq
    refine ⟨_, by rw [heq], fun hk => ?_⟩
    obtain ⟨k, hk⟩ := Nat.exists_eq_add_of_lt hk
    rw [Nat.zero_add] at hk
    rw [cursorAt, hline, heq, hk]
    exact hcolumn k (heq.trans hk) hk
  unfold getIndexOf
  simp only [hpos, offsetInBuffer_start h, offsetInBuffer_stop h, Option.bind_eq_bind,
    Option.bind_some, hend, hcnt]
  by_cases hlast : r = w.length
  · subst hlast
    have hfeeds := getLineFeedCnt_slice hw h.buffer
    rw [← h.start] at hfeeds
    have hall := lineAt_length w
    simp only [if_true, hfeeds, Option.bind_some]
    by_cases heq : lineAt (w ++ v) w.length = lineAt w w.length
    · simp only [heq, hall, ne_eq, not_true, if_false]
      rw [heq, hall] at hfound
      exact hfound rfl
    · have hcut := lineAt_cut w v
      have hseam : Seam w v := by
        by_contra hseam
        rw [seam_of_not_seam hseam] at hcut
        omega
      refine ⟨0, ?_, fun _ => ?_⟩
      · rw [if_pos (by omega), hall]
        rfl
      · rw [hall, lineOffset_eq le_rfl, lineStart_last hseam.1, sub_self]
  · rw [if_neg hlast]
    exact hfound (lineAt_append_left (.inl (by omega)))

/-- The place of an offset in the piece it is found in. -/
structure FoundIn (segs : List Seg) (o : ℕ) (A : List Seg) (s : Seg) (B : List Seg) (r : ℕ) :
    Prop where
  split : segs = A ++ s :: B
  offset : o = (textOf A).length + r
  le : r ≤ s.text.length

theorem positionAtLoop_spec {x : Nodes} (h : Exact x) (hne : x ≠ nil) {M : List Seg}
    (hM : entries x = M.map Seg.entry) (hfits : ∀ m ∈ M, Fits t.buffers m.piece m.text)
    (hw : Whole M) {o : ℕ} (ho : o ≤ (textOf M).length) (original lfCnt : Int) :
    ∃ (A : List Seg) (s : Seg) (B : List Seg) (r : ℕ), FoundIn M o A s B r ∧
      t.positionAtLoop original x o lfCnt = do
        let (index, remainder) ← t.getIndexOf s.piece r
        if index = 0 then
          let lineStartOffset ← t.getOffsetAt (lfCnt + (breaksOf A + index) + 1) 1
          return (lfCnt + (breaksOf A + index) + 1, original - lineStartOffset + 1)
        return (lfCnt + (breaksOf A + index) + 1, remainder + 1) := by
  induction x generalizing M o lfCnt with
  | nil => exact absurd rfl hne
  | node c l a r ihl ihr =>
    obtain ⟨L, s, R, rfl, hwL, hwR, hparts⟩ := exists_nodeParts h hM hfits hw
    obtain ⟨hL, hR, hs, hsize, hlf, hcnt, hlen⟩ := hparts
    obtain ⟨-, hexl, hexr⟩ := h
    rw [textOf_append, textOf_cons, List.length_append, List.length_append] at ho
    rw [positionAtLoop, hsize, hlf, hcnt, hlen]
    by_cases hgo : ((textOf L).length : Int) ≠ 0 ∧ ((textOf L).length : Int) ≥ o
    · rw [if_pos hgo]
      have hl : l ≠ nil := by
        rintro rfl
        rw [entries_nil, eq_comm, List.map_eq_nil_iff] at hL
        simp [hL] at hgo
      obtain ⟨A, s', B, r, ⟨rfl, hoff, hle⟩, hfound⟩ := ihl hexl hl hL
        (fun m hm => hfits m (by simp [hm])) hwL (o := o) (by omega) lfCnt
      exact ⟨A, s', B ++ s :: R, r, ⟨by simp, hoff, hle⟩, hfound⟩
    · rw [if_neg hgo]
      by_cases hin : ((textOf L).length : Int) + s.text.length ≥ o
      · refine ⟨L, s, R, o - (textOf L).length, ⟨rfl, by omega, by omega⟩, ?_⟩
        have hr : ((o - (textOf L).length : ℕ) : Int) = o - (textOf L).length := by omega
        have hpiece : a.piece = s.piece := congrArg Prod.snd hs
        rw [if_pos hin, hr, hpiece]
      · have hr : r ≠ nil := by
          rintro rfl
          rw [entries_nil, eq_comm, List.map_eq_nil_iff] at hR
          simp [hR] at ho
          omega
        have hrnil : r.isNil = false := by
          cases r with
          | nil => exact absurd rfl hr
          | node => rfl
        obtain ⟨A, s', B, i, ⟨rfl, hoff, hle⟩, hfound⟩ := ihr hexr hr hR
          (fun m hm => hfits m (by simp [hm])) hwR
          (o := o - ((textOf L).length + s.text.length)) (by omega)
          (lfCnt + (breaksOf L + countBreaks s.text))
        refine ⟨L ++ s :: A, s', B, i, ⟨by simp, ?_, hle⟩, ?_⟩
        · rw [textOf_append, textOf_cons, List.length_append, List.length_append]
          omega
        · have hcast : (o : Int) - ((textOf L).length + s.text.length) =
              ((o - ((textOf L).length + s.text.length) : ℕ) : Int) := by omega
          rw [if_neg hin, hrnil, hcast]
          simp only [Bool.false_eq_true, if_false]
          rw [hfound, breaksOf_append, breaksOf_cons]
          simp only [Nat.cast_add, add_assoc]

theorem FoundIn.lineAt_eq {A B : List Seg} {s : Seg} {o r : ℕ} (h : FoundIn segs o A s B r)
    (hw : Whole segs) (hc : Chain segs) :
    lineAt (textOf segs) o = breaksOf A + lineAt s.text r := by
  have hle := h.le
  obtain ⟨htext, hbreaks, hseam, hseam'⟩ := text_parts h.split hw hc
  have hcut := lineAt_cut (textOf A) (s.text ++ textOf B)
  rw [seam_of_not_seam hseam, Nat.add_zero] at hcut
  rw [htext, h.offset, lineAt_append_right, hcut, lineAt_append_left (u := s.text), hbreaks]
  by_cases hlt : r < s.text.length
  · exact .inl hlt
  · exact .inr ⟨by omega, hseam'⟩

/-- The line and the column of an offset. -/
theorem getPositionAt_eq (h : Sound t segs) {o : ℕ} (ho : o ≤ (textOf segs).length) :
    t.getPositionAt o = some ((lineAt (textOf segs) o : Int) + 1,
      o - (lineOffset (textOf segs) (lineAt (textOf segs) o) : Int) + 1) := by
  have hmax : max 0 (o : Int) = o := by omega
  rw [getPositionAt, hmax]
  by_cases hne : t.root = nil
  · obtain rfl : segs = [] := h.layout.isNil_iff.mp (by rw [hne]; rfl)
    obtain rfl : o = 0 := Nat.le_zero.mp ho
    rw [hne]
    rfl
  · obtain ⟨A, s, B, r, hfound, hloop⟩ := positionAtLoop_spec h.layout.holds.exact hne
      h.layout.holds.entries h.layout.fits h.whole ho (o : Int) 0
    have hline := hfound.lineAt_eq h.whole h.chain
    have hsplit := hfound.split
    have hs := h.whole s (by simp [hsplit])
    obtain ⟨u, v, hslice⟩ := (h.layout.fits s (by simp [hsplit])).slice
    obtain ⟨remainder, hindex, hremainder⟩ := getIndexOf_eq hslice hs hfound.le
    have hle : lineAt (textOf segs) o ≤ breaksOf segs := by
      rw [breaksOf_eq h.whole h.chain]
      exact lineAt_le _ _
    have hcast : (0 : Int) + (breaksOf A + lineAt s.text r) + 1 =
        (lineAt (textOf segs) o : Int) + 1 := by
      rw [hline]
      push_cast
      omega
    rw [hloop, hindex]
    simp only [Option.bind_eq_bind, Option.bind_some, hcast]
    by_cases hzero : lineAt s.text r = 0
    · have hoff : t.getOffsetAt (_ + 1) 1 = _ := getOffsetAt_eq h hle fun _ => rfl
      simp only [hzero, Nat.cast_zero, if_true, hoff, Option.bind_some, sub_self, add_zero]
      rfl
    · have hstarts : StartsIn segs (lineAt (textOf segs) o) A s B (lineAt s.text r) :=
        ⟨hsplit, hline, lineAt_le _ _, .inl (by omega)⟩
      have hoff := hstarts.lineOffset_eq h.whole h.chain
      have ho' := hfound.offset
      rw [if_neg (by omega), hremainder (by omega), hoff, ho']
      refine congrArg (fun c => some ((lineAt (textOf segs) ((textOf A).length + r) : Int) + 1, c)) ?_
      push_cast
      omega

end PieceTreeBase

open PieceTreeBase in
/-- After any run `getPositionAt` and `getOffsetAt` undo each other: every offset comes back, and
so does every column of every line up to the line end. -/
theorem run_positions {chunks : List Str} (hempties : EmptiesLast chunks)
    (hunbroken : Unbroken chunks) (eol : EndOfLine) {ops : List Op}
    (hops : AllInRange ops chunks.flatten) :
    ∃ t, ((create (chunks.map .ofStr) eol false).bind fun t₀ => t₀.run ops) = some t ∧
      (∀ o ≤ (spliceAll ops chunks.flatten).length, ∃ lineNumber column,
        t.getPositionAt o = some (lineNumber, column) ∧ 1 ≤ lineNumber ∧
          lineNumber ≤ t.getLineCount ∧ 1 ≤ column ∧ t.getOffsetAt lineNumber column = some o) ∧
      ∀ (n : ℕ) (line : Str), (splitLines (spliceAll ops chunks.flatten))[n]? = some line →
        ∀ c ≤ line.length, ∃ o, t.getOffsetAt ((n : Int) + 1) ((c : Int) + 1) = some o ∧
          t.getPositionAt o = some ((n : Int) + 1, (c : Int) + 1) := by
  obtain ⟨t₀, segs₀, hcreate, h₀, htext₀⟩ := create_chunks hempties hunbroken eol
  rw [← htext₀] at hops ⊢
  obtain ⟨t, segs, hrun, h, htext⟩ := run_sound h₀ hops
  have hbreaks := breaksOf_eq h.whole h.chain
  rw [← htext]
  refine ⟨t, by rw [hcreate]; exact hrun, fun o ho => ?_, fun n line hline c hc => ?_⟩
  · have hle := lineAt_le (textOf segs) o
    have hstart := lineStart_lineAt_le (textOf segs) o
    rw [← lineOffset_eq hle] at hstart
    refine ⟨_, _, getPositionAt_eq h ho, by omega, ?_, by omega, ?_⟩
    · rw [PieceTreeBase.getLineCount, h.lineCnt, hbreaks]
      omega
    · rw [getOffsetAt_eq h (by omega)]
      · refine congrArg some ?_
        omega
      · rintro rfl
        obtain rfl : o = 0 := Nat.le_zero.mp ho
        rfl
  · obtain ⟨hn, hat, hend⟩ := lineAt_of_mem_line hline hc
    have hle := lineOffset_le (textOf segs) (n + 1)
    refine ⟨_, getOffsetAt_column h (by omega) hend, ?_⟩
    rw [getPositionAt_eq h (by omega), hat]
    refine congrArg (fun c => some ((n : Int) + 1, c)) ?_
    push_cast
    omega

open PieceTreeBase in
theorem run_positions_typed :
    ∃ t o, ((create (typedChunks.map .ofStr) .lf false).bind fun t₀ => t₀.run typedOps) = some t ∧
      t.getOffsetAt 3 2 = some o ∧ t.getPositionAt o = some (3, 2) := by
  obtain ⟨t, hrun, -, hcolumn⟩ := run_positions (by decide) typedChunks_unbroken .lf
    typedOps_inRange
  obtain ⟨o, hoffset, hposition⟩ := hcolumn 2 (ascii "yc") (by decide) 1 (by decide)
  exact ⟨t, o, hrun, hoffset, hposition⟩

end NexgileIde.PieceTree
