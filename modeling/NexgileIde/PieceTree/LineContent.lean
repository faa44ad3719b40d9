import NexgileIde.PieceTree.PieceTreeRun
import NexgileIde.Text.RawLines

/-!
# The lines of the piece tree

A line is looked for by the line feeds stored in the nodes and read from the node it starts in
and the nodes behind. It is the line of the text, however the text is cut into pieces, and so
is the line remembered from the last lookup.
-/
namespace NexgileIde.PieceTree

open Library RBTree Text

namespace PieceTreeBase

variable {t : PieceTreeBase} {p : Piece} {u w v : Str}

/-- The offset at which a line of a piece starts; the end of a piece cut behind a `\r` starts
a line too. -/
theorem getAccumulatedValue_eq (h : Slice t.buffers p u w v) {k : ℕ} (hk : k ≤ countBreaks w) :
    t.getAccumulatedValue p ((k : Int) - 1) = some (lineOffset w k : Int) := by
  cases k with
  | zero => rw [getAccumulatedValue, if_pos (by omega), lineOffset_zero]; rfl
  | succ k =>
    have hstart := offset_cursorAt (u ++ (w ++ v)) u.length
    have hstop := offset_cursorAt (u ++ (w ++ v)) (u.length + w.length)
    have hlines := lineAt_slice_length u w v
    rw [← h.start, h.start, cursorAt_line] at hstart
    rw [cursorAt_line] at hstop
    rw [getAccumulatedValue, if_neg (by omega), lineOffset_eq hk]
    simp only [h.buffer, h.start, h.stop, StringBuffer.ofStr, Option.bind_eq_bind, Option.bind_some,
      cursorAt_line]
    have hindex : (lineAt (u ++ (w ++ v)) u.length : Int) + ((k + 1 : ℕ) - 1) + 1 =
        ((lineAt (u ++ (w ++ v)) u.length + (k + 1) : ℕ) : Int) := by omega
    rw [hindex]
    split_ifs with hbehind
    · -- the `\r` at the end does not end a line of the buffer
      have hseam : Seam w v := by
        by_contra hseam
        rw [seam_of_not_seam hseam] at hlines
        omega
      rw [seam_of_seam hseam] at hlines
      have hlast := lineStart_last hseam.1
      rw [show k + 1 = countBreaks w by omega, hlast]
      refine congrArg some ?_
      omega
    · have hcut := lineAt_cut w v
      have hle := lineAt_le (w ++ v) w.length
      have hright := lineStart_append_right (u := u) (v := w ++ v) (k := k) (by omega)
      rw [lineStart_append_left (u := w) (v := v) (k := k + 1) (by omega)] at hright
      rw [lineStartAt_createLineStartsFast, hright]
      refine congrArg some ?_
      omega

theorem substring_slice (u w v : Str) {i j : ℕ} (hi : i ≤ j) (hj : j ≤ w.length) :
    substring (u ++ (w ++ v)) ((u.length : Int) + i) ((u.length : Int) + j) =
      (w.drop i).take (j - i) := by
  rw [← Nat.cast_add, ← Nat.cast_add, substring_of_le _ (by omega), Nat.add_sub_add_left,
    List.drop_append, List.drop_eq_nil_of_le (by omega), List.nil_append, Nat.add_sub_cancel_left,
    List.drop_append_of_le_length (by omega), List.take_append_of_le_length (by simp; omega)]

/-! ### The node a line starts in -/

/-- The descent to the node in which a line starts: the node, the line counted from its left
subtree, and the offset of the node. -/
def lineNode : Nodes → Int → Int → Option (TreeNode × Int × Int)
  | nil, _, _ => none
  | node _ l a r, lineNumber, nodeStartOffset =>
    if !l.isNil && a.lfLeft ≥ lineNumber - 1 then lineNode l lineNumber nodeStartOffset
    else if a.lfLeft + a.piece.lineFeedCnt ≥ lineNumber - 1 then
      some (a, lineNumber - a.lfLeft, nodeStartOffset + a.sizeLeft)
    else lineNode r (lineNumber - (a.lfLeft + a.piece.lineFeedCnt))
      (nodeStartOffset + (a.sizeLeft + a.piece.length))

/-- A node with the pieces to its left and to its right. -/
structure NodeParts (l : Nodes) (a : TreeNode) (r : Nodes) (L : List Seg) (s : Seg) (R : List Seg) :
    Prop where
  left : entries l = L.map Seg.entry
  right : entries r = R.map Seg.entry
  entry : a.entry = s.entry
  sizeLeft : a.sizeLeft = (textOf L).length
  lfLeft : a.lfLeft = breaksOf L
  lineFeedCnt : a.piece.lineFeedCnt = countBreaks s.text
  length : a.piece.length = s.text.length

theorem exists_nodeParts {c : Color} {l r : Nodes} {a : TreeNode} (h : Exact (node c l a r))
    {M : List Seg} (hM : entries (node c l a r) = M.map Seg.entry)
    (hfits : ∀ m ∈ M, Fits t.buffers m.piece m.text) (hw : Whole M) :
    ∃ L s R, M = L ++ s :: R ∧ Whole L ∧ Whole R ∧ NodeParts l a r L s R := by
  rw [entries_node, eq_comm, List.map_eq_append_iff] at hM
  obtain ⟨L, rest, rfl, hL, hrest⟩ := hM
  obtain ⟨s, R, rfl, hs, hR⟩ := List.map_eq_cons_iff.mp hrest
  obtain ⟨hwL, hws⟩ := whole_append.mp hw
  obtain ⟨hne, hwR⟩ := whole_cons.mp hws
  have hfit : Fits t.buffers s.piece s.text := hfits s (by simp)
  have hpiece : a.piece = s.piece := congrArg Prod.snd hs.symm
  have hmeasure : a.leftMeasure = (((textOf L).length : Int), (breaksOf L : Int)) := by
    rw [h.1, measure, ← hL, total_eq (fun m hm => hfits m (by simp [hm])) hwL]
  exact ⟨L, s, R, rfl, hwL, hwR, hL.symm, hR.symm, hs.symm, congrArg Prod.fst hmeasure,
    congrArg Prod.snd hmeasure, hpiece ▸ hfit.lineFeedCnt hne, hpiece ▸ hfit.length⟩

/-- The line `n` starts `k` line feeds into the piece of `s`. -/
structure StartsIn (segs : List Seg) (n : ℕ) (A : List Seg) (s : Seg) (B : List Seg) (k : ℕ) :
    Prop where
  split : segs = A ++ s :: B
  line : n = breaksOf A + k
  le : k ≤ countBreaks s.text
  first : 0 < k ∨ A = []

theorem lineNode_spec {x : Nodes} (h : Exact x) (hne : x ≠ nil) {M : List Seg}
    (hM : entries x = M.map Seg.entry) (hfits : ∀ m ∈ M, Fits t.buffers m.piece m.text)
    (hw : Whole M) {n : ℕ} (hn : n ≤ breaksOf M) (start : Int) :
    ∃ (A : List Seg) (s : Seg) (B : List Seg) (k : ℕ) (a : TreeNode),
      StartsIn M n A s B k ∧ a.entry = s.entry ∧
      lineNode x ((n : Int) + 1) start = some (a, (k : Int) + 1, start + (textOf A).length) := by
  induction x generalizing M n start with
  | nil => exact absurd rfl hne
  | node c l a r ihl ihr =>
    obtain ⟨L, s, R, rfl, hwL, hwR, hparts⟩ := exists_nodeParts h hM hfits hw
    obtain ⟨hL, hR, hs, hsize, hlf, hcnt, hlen⟩ := hparts
    obtain ⟨-, hexl, hexr⟩ := h
    rw [breaksOf_append, breaksOf_cons] at hn
    rw [lineNode, hsize, hlf, hcnt, hlen]
    by_cases hgo : (!l.isNil && decide ((breaksOf L : Int) ≥ (n : Int) + 1 - 1)) = true
    · rw [if_pos hgo]
      simp only [Bool.and_eq_true, Bool.not_eq_true', decide_eq_true_eq] at hgo
      have hl : l ≠ nil := by
        rintro rfl
        cases hgo.1
      obtain ⟨A, s', B, k, b, hstarts, hb, hfound⟩ := ihl hexl hl hL
        (fun m hm => hfits m (by simp [hm])) hwL (n := n) (by omega) start
      obtain ⟨rfl, hline, hle, hfirst⟩ := hstarts
      exact ⟨A, s', B ++ s :: R, k, b, ⟨by simp, hline, hle, hfirst⟩, hb, hfound⟩
    · rw [if_neg hgo]
      simp only [Bool.and_eq_true, Bool.not_eq_true', decide_eq_true_eq, not_and] at hgo
      have hL' : n < breaksOf L + 1 → L = [] := by
        intro hlt
        cases l with
        | nil => simpa using hL.symm
        | node => exact absurd (by omega) (hgo rfl)
      by_cases hin : (breaksOf L : Int) + countBreaks s.text ≥ (n : Int) + 1 - 1
      · have hge : breaksOf L ≤ n := by
          by_contra hlt
          have hnil := hL' (by omega)
          rw [hnil, breaksOf_nil] at hlt
          omega
        refine ⟨L, s, R, n - breaksOf L, a, ⟨rfl, by omega, by omega, ?_⟩, hs, ?_⟩
        · by_cases hpos : 0 < n - breaksOf L
          · exact .inl hpos
          · exact .inr (hL' (by omega))
        · rw [if_pos hin, Option.some.injEq, Prod.mk.injEq, Prod.mk.injEq]
          exact ⟨rfl, by omega, rfl⟩
      · rw [if_neg hin]
        have hr : r ≠ nil := by
          rintro rfl
          rw [entries_nil, eq_comm, List.map_eq_nil_iff] at hR
          rw [hR, breaksOf_nil] at hn
          omega
        obtain ⟨A, s', B, k, b, hstarts, hb, hfound⟩ := ihr hexr hr hR
          (fun m hm => hfits m (by simp [hm])) hwR (n := n - (breaksOf L + countBreaks s.text))
          (by omega) (start + ((textOf L).length + s.text.length))
        obtain ⟨rfl, hline, hle, hfirst⟩ := hstarts
        refine ⟨L ++ s :: A, s', B, k, b, ⟨by simp, ?_, hle, ?_⟩, hb, ?_⟩
        · rw [breaksOf_append, breaksOf_cons]
          omega
        · rcases hfirst with hk | rfl
          · exact .inl hk
          · rw [breaksOf_nil] at hline
            omega
        · have hcast : (n : Int) + 1 - (breaksOf L + countBreaks s.text) =
              ((n - (breaksOf L + countBreaks s.text) : ℕ) : Int) + 1 := by omega
          rw [hcast, hfound, textOf_append, textOf_cons, List.length_append, List.length_append]
          simp only [Nat.cast_add, add_assoc]

section Lines

variable {segs A B : List Seg} {s : Seg} {n k : ℕ}

theorem text_parts (h : segs = A ++ s :: B) (hw : Whole segs) (hc : Chain segs) :
    textOf segs = textOf A ++ (s.text ++ textOf B) ∧ breaksOf A = countBreaks (textOf A) ∧
      ¬ Seam (textOf A) (s.text ++ textOf B) ∧ ¬ Seam s.text (textOf B) := by
  subst h
  obtain ⟨hwA, hwB⟩ := whole_append.mp hw
  obtain ⟨hcA, hcB, hseam⟩ := (chain_append hwA hwB).mp hc
  obtain ⟨hs, hwB⟩ := whole_cons.mp hwB
  rw [textOf_cons] at hseam
  exact ⟨by simp, breaksOf_eq hwA hcA, hseam, ((chain_cons hs hwB).mp hcB).2⟩

/-- Where a line starts in a text made of pieces. -/
theorem StartsIn.lineOffset_eq (h : StartsIn segs n A s B k) (hw : Whole segs) (hc : Chain segs) :
    lineOffset (textOf segs) n = (textOf A).length + lineOffset s.text k := by
  obtain ⟨htext, hbreaks, hseam, hseam'⟩ := text_parts h.split hw hc
  rw [htext, h.line, ← lineOffset_append_left hseam' h.le]
  rcases h.first with hk | rfl
  · obtain ⟨k, rfl⟩ := Nat.exists_eq_add_of_lt hk
    rw [hbreaks, Nat.zero_add, lineOffset_append_right hseam]
  · simp

theorem StartsIn.rawLine_eq (h : StartsIn segs n A s B k) (hw : Whole segs) (hc : Chain segs) :
    rawLine (textOf segs) n =
      if k < countBreaks s.text then rawLine s.text k else rawLine s.text k ++ rawLine (textOf B) 0 := by
  obtain ⟨htext, hbreaks, hseam, hseam'⟩ := text_parts h.split hw hc
  have hrest : rawLine (textOf segs) n = rawLine (s.text ++ textOf B) k := by
    rw [htext, h.line]
    rcases h.first with hk | rfl
    · obtain ⟨k, rfl⟩ := Nat.exists_eq_add_of_lt hk
      rw [hbreaks, Nat.zero_add, rawLine_append_right hseam]
    · simp
  rw [hrest]
  split_ifs with hlt
  · exact rawLine_append_left hseam' hlt
  · obtain rfl : k = countBreaks s.text := by
      have := h.le
      omega
    exact rawLine_append_middle hseam'

theorem nodesAfter_eq {fuel : ℕ} (h : Layout t (A ++ s :: B)) (hfuel : B.length ≤ fuel) :
    t.nodesAfter fuel (some s.id) = some (B.map Seg.id) := by
  induction B generalizing A s fuel with
  | nil =>
    cases fuel with
    | zero => rfl
    | succ fuel =>
      rw [nodesAfter, h.next]
      rfl
  | cons b B ih =>
    obtain ⟨fuel, rfl⟩ : ∃ m, fuel = m + 1 := ⟨fuel - 1, by simp at hfuel; omega⟩
    have hrest := @ih (A ++ [s]) b fuel (by simpa using h) (by simpa using hfuel)
    rw [nodesAfter, h.next]
    simp only [List.head?_cons, Option.map_some, Option.bind_eq_bind, Option.bind_some, hrest]
    rfl

/-- What is read of the piece of `s`, and of a line that starts `k` line feeds into it. -/
structure Reads (t : PieceTreeBase) (s : Seg) (k : ℕ) (b : StringBuffer) (z : Int) : Prop where
  piece : t.root.pieceOf s.id = some s.piece
  lineFeedCnt : s.piece.lineFeedCnt = countBreaks s.text
  length : s.piece.length = s.text.length
  buffer : t.buffers[s.piece.bufferIndex]? = some b
  offset : t.offsetInBuffer s.piece.bufferIndex s.piece.start = some z
  start : t.getAccumulatedValue s.piece ((k : Int) - 1) = some (lineOffset s.text k : Int)
  stop : k < countBreaks s.text →
    t.getAccumulatedValue s.piece k = some (lineOffset s.text (k + 1) : Int)
  part : ∀ i j : ℕ, i ≤ j → j ≤ s.text.length →
    substring b.buffer (z + i) (z + j) = (s.text.drop i).take (j - i)

theorem exists_reads (h : Layout t (A ++ s :: B)) (hs : s.text ≠ []) (hk : k ≤ countBreaks s.text) :
    ∃ b z, Reads t s k b z := by
  have hfit := h.fits_seg
  obtain ⟨u, v, hslice⟩ := hfit.slice
  refine ⟨_, _, h.pieceOf, hfit.lineFeedCnt hs, hfit.length, hslice.buffer,
    offsetInBuffer_start hslice, getAccumulatedValue_eq hslice hk, fun hlt => ?_,
    fun i j hi hj => substring_slice u s.text v hi hj⟩
  have hacc := getAccumulatedValue_eq hslice (k := k + 1) hlt
  rwa [show ((k + 1 : ℕ) : Int) - 1 = k by omega] at hacc

theorem Reads.line {b : StringBuffer} {z : Int} (h : Reads t s k b z) :
    substring b.buffer (z + lineOffset s.text k) (z + lineOffset s.text (k + 1)) =
      rawLine s.text k :=
  h.part _ _ (lineOffset_mono s.text k) (lineOffset_le s.text (k + 1))

theorem Reads.last {b : StringBuffer} {z : Int} (h : Reads t s k b z) (hk : k ≤ countBreaks s.text)
    (hlast : ¬ k < countBreaks s.text) : s.piece.length = lineOffset s.text (k + 1) := by
  rw [h.length, show k = countBreaks s.text by omega, lineOffset_last]

/-- The walk reads up to the first line end behind the node it starts from. -/
theorem rawContentWalk_eq (h : Layout t (A ++ B)) (hw : Whole B) (hc : Chain B) :
    t.rawContentWalk 0 (B.map Seg.id) = some (rawLine (textOf B) 0) := by
  induction B generalizing A with
  | nil => rfl
  | cons b B ih =>
    obtain ⟨hb, hwB⟩ := whole_cons.mp hw
    obtain ⟨hcB, hseam⟩ := (chain_cons hb hwB).mp hc
    obtain ⟨c, z, hr⟩ := exists_reads (k := 0) h hb (Nat.zero_le _)
    have hline := hr.line
    have hrest := ih (A := A ++ [b]) (by simpa using h) hwB hcB
    rw [lineOffset_zero, Nat.cast_zero, add_zero] at hline
    rw [List.map_cons, rawContentWalk, hr.piece, textOf_cons]
    simp only [Option.bind_eq_bind, Option.bind_some, hr.buffer, hr.offset, hr.lineFeedCnt]
    by_cases hbreak : 0 < countBreaks b.text
    · have hstop := hr.stop hbreak
      rw [Nat.cast_zero] at hstop
      rw [if_pos (by omega), rawLine_append_left hseam hbreak, hstop, Option.bind_some, sub_zero,
        hline]
      rfl
    · have hmiddle := rawLine_append_middle hseam
      rw [show countBreaks b.text = 0 by omega] at hmiddle
      rw [if_neg (by omega), hrest, Option.bind_some, hr.last (Nat.zero_le _) hbreak, hline, hmiddle]
      rfl

/-- All nodes behind a node. -/
theorem nodesAfter_root (h : Layout t (A ++ s :: B)) :
    t.nodesAfter t.root.toList.length (some s.id) = some (B.map Seg.id) := by
  have hlen := congrArg List.length h.holds.entries
  simp only [entries, List.length_map, @List.length_append _ A, List.length_cons] at hlen
  exact nodesAfter_eq h (by omega)

/-- The last line of a node goes on in the nodes behind. -/
theorem walk_behind (h : Sound t (A ++ s :: B)) :
    t.rawContentWalk 0 (B.map Seg.id) = some (rawLine (textOf B) 0) := by
  obtain ⟨hwA, hwB⟩ := whole_append.mp h.whole
  obtain ⟨-, hcB, -⟩ := (chain_append hwA hwB).mp h.chain
  obtain ⟨hs, hwB⟩ := whole_cons.mp hwB
  exact rawContentWalk_eq (A := A ++ [s]) (by simpa using h.layout) hwB
    ((chain_cons hs hwB).mp hcB).1

/-- The descent of `getLineRawContent` ends at the node in which the line starts. -/
theorem rawContentLoop_eq {x : Nodes} {original lineNumber start line o : Int} {a : TreeNode}
    (h : lineNode x lineNumber start = some (a, line, o)) :
    t.rawContentLoop original 0 x lineNumber start =
      if a.piece.lineFeedCnt > line - 1 then do
        let prevAccumulatedValue ← t.getAccumulatedValue a.piece (line - 2)
        let accumulatedValue ← t.getAccumulatedValue a.piece (line - 1)
        let b ← t.buffers[a.piece.bufferIndex]?
        let startOffset ← t.offsetInBuffer a.piece.bufferIndex a.piece.start
        return .whole (substring b.buffer (startOffset + prevAccumulatedValue)
          (startOffset + accumulatedValue - 0)) ⟨a.id, o, some (original - (line - 1))⟩
      else do
        let prevAccumulatedValue ← t.getAccumulatedValue a.piece (line - 2)
        let b ← t.buffers[a.piece.bufferIndex]?
        let startOffset ← t.offsetInBuffer a.piece.bufferIndex a.piece.start
        return .part (substring b.buffer (startOffset + prevAccumulatedValue)
          (startOffset + a.piece.length)) (some a.id) := by
  induction x generalizing lineNumber start with
  | nil => cases h
  | node c l b r ihl ihr =>
    rw [lineNode] at h
    rw [rawContentLoop]
    split_ifs at h with hgo hin
    · rw [if_pos hgo]
      exact ihl h
    · obtain ⟨rfl, rfl, rfl⟩ := by simpa using h
      have hline : lineNumber - b.lfLeft - 1 = lineNumber - 1 - b.lfLeft := by omega
      rw [if_neg hgo]
      by_cases hwhole : b.piece.lineFeedCnt > lineNumber - b.lfLeft - 1
      · rw [if_pos (by omega), if_pos hwhole, hline]
      · rw [if_neg (by omega), if_neg hwhole, if_pos (by omega)]
    · rw [if_neg hgo, if_neg (by omega), if_neg (by omega)]
      exact ihr h

theorem cacheGet2_spec (h : Sound t segs) (lineNumber : Int) :
    t.cacheGet2 lineNumber = some none ∨ ∃ A s B e, segs = A ++ s :: B ∧
      t.cacheGet2 lineNumber = some (some (e, 1 + (breaksOf A : Int))) ∧ e.node = s.id ∧
      1 + (breaksOf A : Int) < lineNumber ∧
      lineNumber ≤ 1 + (breaksOf A : Int) + countBreaks s.text := by
  unfold cacheGet2
  rcases h.searchCache_cases with hcache | ⟨e, hcache, A, s, B, rfl, hnode, -, hline⟩
  · left
    rw [hcache]
    rfl
  · have hcnt := h.layout.fits_seg.lineFeedCnt (h.whole s (by simp))
    rw [hcache]
    simp only [List.reverse_singleton, cacheGet2.go, hnode, h.layout.pieceOf, Option.bind_eq_bind,
      Option.bind_some]
    cases hstart : e.nodeStartLineNumber with
    | none => exact .inl rfl
    | some line =>
      obtain rfl := hline line hstart
      dsimp only
      split_ifs with hhit
      · refine .inr ⟨A, s, B, e, rfl, rfl, hnode, hhit.2.1, ?_⟩
        rw [hcnt] at hhit
        exact hhit.2.2
      · exact .inl rfl

/-- The line `n` of the text, with its line end. -/
theorem getLineRawContent_eq (h : Sound t segs) (hn : n ≤ breaksOf segs) :
    ∃ t', t.getLineRawContent ((n : Int) + 1) 0 = some (rawLine (textOf segs) n, t') := by
  unfold getLineRawContent
  rcases cacheGet2_spec h ((n : Int) + 1) with
    hcache | ⟨A, s, B, e, rfl, hcache, hnode, hlt, hle⟩
  · simp only [hcache, Option.bind_eq_bind, Option.bind_some]
    by_cases hne : t.root = nil
    · obtain rfl : segs = [] := h.layout.isNil_iff.mp (by rw [hne]; rfl)
      obtain rfl : n = 0 := Nat.le_zero.mp hn
      rw [hne]
      exact ⟨t, rfl⟩
    · obtain ⟨A, s, B, k, a, hstarts, ha, hfound⟩ := lineNode_spec h.layout.holds.exact hne
        h.layout.holds.entries h.layout.fits h.whole hn 0
      have hraw := hstarts.rawLine_eq h.whole h.chain
      obtain rfl := hstarts.split
      obtain ⟨hid, hpiece⟩ := Prod.mk.inj ha
      obtain ⟨b, z, hr⟩ := exists_reads h.layout (h.whole s (by simp)) hstarts.le
      have hprev : (k : Int) + 1 - 2 = (k : Int) - 1 := by omega
      rw [rawContentLoop_eq hfound, hpiece, hid, hr.lineFeedCnt, hprev, Int.add_sub_cancel,
        hr.start, hr.buffer, hr.offset, hraw]
      by_cases hlt : k < countBreaks s.text
      · simp only [if_pos hlt, if_pos (show (countBreaks s.text : Int) > k by omega), hr.stop hlt,
          Option.bind_eq_bind, Option.bind_some, sub_zero, hr.line]
        exact ⟨_, rfl⟩
      · simp only [if_neg hlt, if_neg (show ¬ (countBreaks s.text : Int) > k by omega),
          hr.last hstarts.le hlt, Option.bind_eq_bind, Option.bind_some, Option.pure_def, hr.line,
          nodesAfter_root h.layout, walk_behind h]
        exact ⟨_, rfl⟩
  · -- the cached node is the one in which the line starts
    obtain ⟨k, rfl⟩ : ∃ k, n = breaksOf A + k := ⟨n - breaksOf A, by omega⟩
    have hstarts : StartsIn (A ++ s :: B) (breaksOf A + k) A s B k :=
      ⟨rfl, rfl, by omega, .inl (by omega)⟩
    obtain ⟨b, z, hr⟩ := exists_reads h.layout (h.whole s (by simp)) hstarts.le
    have hnext : ((breaksOf A + k : ℕ) : Int) + 1 - (1 + breaksOf A) = (k : Int) := by omega
    rw [hstarts.rawLine_eq h.whole h.chain]
    simp only [hcache, hnode, hr.piece, hnext, hr.start, hr.buffer, hr.offset,
      hr.lineFeedCnt, Option.bind_eq_bind, Option.bind_some]
    by_cases hlt : k < countBreaks s.text
    · simp only [if_pos hlt, if_neg (show ¬ 1 + (breaksOf A : Int) + countBreaks s.text =
        ((breaksOf A + k : ℕ) : Int) + 1 by omega), hr.stop hlt, Option.bind_some, sub_zero, hr.line]
      exact ⟨_, rfl⟩
    · simp only [if_neg hlt, if_pos (show 1 + (breaksOf A : Int) + countBreaks s.text =
        ((breaksOf A + k : ℕ) : Int) + 1 by omega), hr.last hstarts.le hlt, Option.bind_some,
        hr.line, nodesAfter_root h.layout, walk_behind h]
      exact ⟨_, rfl⟩

end Lines

end PieceTreeBase

/-! ### Runs -/

/-- The state between operations on a text with line ends of any kind. The line remembered is
a line of the text. -/
structure Lined (t : PieceTreeBase) (segs : List Seg) : Prop extends Sound t segs where
  mixed : t.eolNormalized = false
  visited : ∀ n ≤ countBreaks (textOf segs), t.lastVisitedLine.lineNumber = (n : Int) + 1 →
    (splitLines (textOf segs))[n]? = some t.lastVisitedLine.value

section Lookups

variable {t t' : PieceTreeBase} {segs : List Seg}

theorem getLineRawContent_mixed {lineNumber endOffset : Int} {raw : Str}
    (h : t.getLineRawContent lineNumber endOffset = some (raw, t')) :
    t'.eolNormalized = t.eolNormalized := by
  unfold PieceTreeBase.getLineRawContent at h
  obtain ⟨cached, -, h⟩ := Option.bind_eq_some_iff.mp h
  rcases cached with _ | ⟨e, line⟩
  · obtain ⟨found, -, h⟩ := Option.bind_eq_some_iff.mp h
    rcases found with ⟨content, entry⟩ | ⟨content, x⟩
    · cases h
      rfl
    · simp only [Option.bind_eq_bind, Option.bind_eq_some_iff] at h
      obtain ⟨_, -, _, -, h⟩ := h
      cases h
      rfl
  · simp only [Option.bind_eq_bind, Option.bind_eq_some_iff] at h
    obtain ⟨_, -, _, -, _, -, _, -, h⟩ := h
    split_ifs at h
    all_goals
      simp only [Option.bind_eq_some_iff] at h
      obtain ⟨_, -, h⟩ := h
      first | cases h; rfl | obtain ⟨_, -, h⟩ := h; cases h; rfl

/-- The line read for `lineNumber` is remembered as it is in the text. -/
theorem Lined.getLineContent_spec (h : Lined t segs) (lineNumber : Int) :
    Lined (t.getLineContent lineNumber).2 segs ∧ ∀ n ≤ countBreaks (textOf segs),
      lineNumber = (n : Int) + 1 →
        (splitLines (textOf segs))[n]? = (t.getLineContent lineNumber).1 := by
  have hbreaks := breaksOf_eq h.whole h.chain
  unfold PieceTreeBase.getLineContent
  split_ifs with hvisited
  · exact ⟨h, fun n hn hline => h.visited n hn (hvisited.trans hline)⟩
  · have hsound := h.toSound.setVisited { t.lastVisitedLine with lineNumber := lineNumber }
    have hend : (if lineNumber ≠ t.lineCnt ∧ t.eolNormalized = true then
        (t.eol.toStr.length : Int) else 0) = 0 := by simp [h.mixed]
    simp only [hend]
    split
    · rename_i hnone
      have hbehind : ∀ n ≤ countBreaks (textOf segs), lineNumber ≠ (n : Int) + 1 := by
        rintro n hn rfl
        obtain ⟨t', hraw⟩ := PieceTreeBase.getLineRawContent_eq hsound (n := n) (by omega)
        rw [hraw] at hnone
        cases hnone
      refine ⟨⟨hsound, h.mixed, ?_⟩, fun n hn hline => absurd hline (hbehind n hn)⟩
      exact fun n hn hline => absurd hline (hbehind n hn)
    · rename_i raw t' hraw
      have hsound' := getLineRawContent_sound hsound hraw
      have hmixed' := getLineRawContent_mixed hraw
      have hvalue : ∀ n ≤ countBreaks (textOf segs), lineNumber = (n : Int) + 1 →
          (splitLines (textOf segs))[n]? = some (if lineNumber = t'.lineCnt ∨ t'.eolNormalized = true
            then raw else stripLineEnd raw) := by
        rintro n hn rfl
        obtain ⟨t'', hraw'⟩ := PieceTreeBase.getLineRawContent_eq hsound (n := n) (by omega)
        obtain rfl : rawLine (textOf segs) n = raw := by
          rw [hraw] at hraw'
          exact (Prod.mk.inj (Option.some.inj hraw')).1.symm
        have hlast : (n : Int) + 1 = t'.lineCnt ↔ n = countBreaks (textOf segs) := by
          rw [hsound'.lineCnt, hbreaks]
          omega
        have hfalse : ¬ t'.eolNormalized = true := by
          rw [hmixed']
          simp [h.mixed]
        rw [getElem?_splitLines hn, if_congr ((or_iff_left hfalse).trans hlast) rfl rfl]
      exact ⟨⟨hsound'.setVisited _, hmixed'.trans h.mixed, hvalue⟩, hvalue⟩

theorem Lined.getCharCode (h : Lined t segs) (offset : Int) :
    Lined (t.getCharCode offset).2 segs := by
  refine ⟨getCharCode_sound h.toSound offset, ?_, ?_⟩ <;>
  · unfold PieceTreeBase.getCharCode
    split
    · first | exact h.mixed | exact h.visited
    · rename_i pos t' hpos
      obtain ⟨_, _, _, e, _, -, -, -, rfl, -⟩ := h.nodeAt_spec hpos
      first | exact h.mixed | exact h.visited

end Lookups

open PieceTreeBase in
theorem step_lined {t : PieceTreeBase} {segs : List Seg} (h : Lined t segs) {op : Op}
    (hop : op.InRange (textOf segs)) :
    ∃ t' segs', t.step op = some t' ∧ Lined t' segs' ∧ textOf segs' = op.splice (textOf segs) := by
  have hfresh : ∀ {t' : PieceTreeBase} {segs' : List Seg}, t'.lastVisitedLine = ⟨0, []⟩ →
      ∀ n ≤ countBreaks (textOf segs'), t'.lastVisitedLine.lineNumber = (n : Int) + 1 →
        (splitLines (textOf segs'))[n]? = some t'.lastVisitedLine.value := by
    intro t' segs' hreset n _ hline
    rw [hreset] at hline
    dsimp only at hline
    omega
  cases op with
  | insert offset value =>
    obtain ⟨hzero, hle, hvalue⟩ := hop
    have hlen : ((textOf segs).take offset.toNat).length = offset.toNat := by
      rw [List.length_take]
      omega
    obtain ⟨t', segs', hins, hsound, htext, -, hmixed, hreset⟩ :=
      insert_sound h.toSound (List.take_append_drop offset.toNat _).symm hvalue false (by simp)
    rw [hlen, Int.toNat_of_nonneg hzero] at hins
    exact ⟨t', segs', hins, ⟨hsound, by rw [hmixed, Bool.and_false], hfresh hreset⟩, htext⟩
  | delete offset cnt =>
    obtain ⟨hzero, hle⟩ := hop
    by_cases hcnt : cnt ≤ 0
    · refine ⟨{ t with lastVisitedLine := ⟨0, []⟩ }, segs, ?_,
        ⟨h.toSound.setVisited _, h.mixed, hfresh rfl⟩, ?_⟩
      · simp [PieceTreeBase.step, PieceTreeBase.delete, hcnt]
      · rw [Op.splice, Int.toNat_eq_zero.mpr hcnt, Nat.add_zero, List.take_append_drop]
    · have hlen : ((textOf segs).take offset.toNat).length = offset.toNat := by
        rw [List.length_take]
        omega
      have hmid : (((textOf segs).drop offset.toNat).take cnt.toNat).length = cnt.toNat := by
        rw [List.length_take, List.length_drop]
        omega
      have hsplit : textOf segs = (textOf segs).take offset.toNat ++
          (((textOf segs).drop offset.toNat).take cnt.toNat ++
            (textOf segs).drop (offset.toNat + cnt.toNat)) := by
        rw [← List.drop_drop, List.take_append_drop, List.take_append_drop]
      obtain ⟨t', segs', hdel, hsound, htext, -, hmixed, hreset⟩ := delete_sound h.toSound hsplit
      rw [hlen, hmid, Int.toNat_of_nonneg hzero, Int.toNat_of_nonneg (by omega)] at hdel
      exact ⟨t', segs', hdel, ⟨hsound, hmixed.trans h.mixed, hfresh hreset⟩, htext⟩
  | getLineContent lineNumber => exact ⟨_, segs, rfl, (h.getLineContent_spec lineNumber).1, rfl⟩
  | getOffsetAt lineNumber column => exact ⟨t, segs, rfl, h, rfl⟩
  | getPositionAt offset => exact ⟨t, segs, rfl, h, rfl⟩
  | getCharCode offset => exact ⟨_, segs, rfl, h.getCharCode offset, rfl⟩
  | getValueInRange range => exact ⟨t, segs, rfl, h, rfl⟩

open PieceTreeBase in
theorem run_lined {t : PieceTreeBase} {segs : List Seg} (h : Lined t segs) {ops : List Op}
    (hops : AllInRange ops (textOf segs)) :
    ∃ t' segs', t.run ops = some t' ∧ Lined t' segs' ∧
      textOf segs' = spliceAll ops (textOf segs) := by
  induction ops generalizing t segs with
  | nil => exact ⟨t, segs, rfl, h, rfl⟩
  | cons op ops ih =>
    obtain ⟨hop, hrest⟩ := hops
    obtain ⟨t₁, segs₁, hstep, h₁, htext₁⟩ := step_lined h hop
    rw [← htext₁] at hrest
    obtain ⟨t', segs', hrun, h', htext'⟩ := ih h₁ hrest
    refine ⟨t', segs', ?_, h', ?_⟩
    · rw [PieceTreeBase.run] at hrun ⊢
      rw [List.foldlM_cons, hstep]
      exact hrun
    · rw [htext', htext₁]
      rfl

theorem createLoop_visited {t t' : PieceTreeBase} {last : Option ℕ} {i : ℕ}
    {chunks : List StringBuffer} (h : t.createLoop last i chunks = some t') :
    t'.lastVisitedLine = t.lastVisitedLine := by
  induction chunks generalizing t last i with
  | nil =>
    obtain rfl := Option.some.inj h
    rfl
  | cons chunk chunks ih =>
    rw [PieceTreeBase.createLoop] at h
    split_ifs at h
    · simp only [PieceTreeBase.insertRight, Option.bind_eq_bind, Option.bind_eq_some_iff] at h
      obtain ⟨_, ⟨_, -, hinsert⟩, h⟩ := h
      cases hinsert
      have hrest := ih h
      exact hrest
    · exact ih h

/-- The tree made of chunks. -/
theorem create_lined {chunks : List Str} (hempties : EmptiesLast chunks)
    (hunbroken : Unbroken chunks) (eol : EndOfLine) :
    ∃ t segs, PieceTreeBase.create (chunks.map .ofStr) eol false = some t ∧ Lined t segs ∧
      textOf segs = chunks.flatten := by
  obtain ⟨texts, empties, rfl, htexts, hempty⟩ := hempties.split
  obtain ⟨t, segs, hcreate, hsound, hsegs, -, hmixed⟩ := create_sound htexts hempty eol false
    (.inl rfl) (List.IsChain.left_of_append hunbroken)
  refine ⟨t, segs, hcreate, ⟨hsound, hmixed, fun n _ hline => ?_⟩, ?_⟩
  · -- no line is remembered yet
    rw [PieceTreeBase.create, Option.bind_eq_bind, Option.bind_eq_some_iff] at hcreate
    obtain ⟨t', hloop, hcreate⟩ := hcreate
    cases hcreate
    have hzero : t'.lastVisitedLine.lineNumber = 0 := by rw [createLoop_visited hloop]
    have hcontra : (n : Int) + 1 = 0 := hline.symm.trans hzero
    omega
  · rw [textOf_eq, hsegs, List.flatten_append, List.flatten_eq_nil_iff.mpr hempty, List.append_nil]

open PieceTreeBase in
/-- After any run of edits and lookups the lines of the tree are those of the text, whether a
line is read from the tree or remembered from an earlier lookup. -/
theorem run_getLineContent {chunks : List Str} (hempties : EmptiesLast chunks)
    (hunbroken : Unbroken chunks) (eol : EndOfLine) {ops : List Op}
    (hops : AllInRange ops chunks.flatten) :
    ∃ t, ((create (chunks.map .ofStr) eol false).bind fun t₀ => t₀.run ops) = some t ∧
      t.getLineCount = (splitLines (spliceAll ops chunks.flatten)).length ∧
      ∀ n < (splitLines (spliceAll ops chunks.flatten)).length,
        (t.getLineContent ((n : Int) + 1)).1 = (splitLines (spliceAll ops chunks.flatten))[n]? := by
  obtain ⟨t₀, segs₀, hcreate, h₀, htext₀⟩ := create_lined hempties hunbroken eol
  rw [← htext₀] at hops ⊢
  obtain ⟨t, segs, hrun, h, htext⟩ := run_lined h₀ hops
  rw [← htext, length_splitLines]
  refine ⟨t, ?_, ?_, fun n hn => ?_⟩
  · rw [hcreate, Option.bind_some]
    exact hrun
  · rw [PieceTreeBase.getLineCount, h.lineCnt, breaksOf_eq h.whole h.chain]
    omega
  · exact ((h.getLineContent_spec _).2 n (by omega) rfl).symm

/-- A `\n` typed behind the `\r` at a chunk's end, and a lookup between two edits. -/
def typedChunks : List Str := [ascii "ab\r", ascii "c\nde"]

open PieceTreeBase in
def typedOps : List Op := [.insert 3 (ascii "\nx\ry"), .getLineContent 2, .delete 1 1]

open PieceTreeBase in
theorem typedOps_inRange : AllInRange typedOps typedChunks.flatten :=
  ⟨⟨by decide, by decide, by decide⟩, trivial, ⟨by decide, by decide⟩, trivial⟩

theorem typedChunks_unbroken : Unbroken typedChunks := .cons_cons (by decide) (.singleton _)

open PieceTreeBase in
theorem run_getLineContent_typed :
    ∃ t, ((create (typedChunks.map .ofStr) .lf false).bind fun t₀ => t₀.run typedOps) = some t ∧
      t.getLineCount = 4 ∧ (t.getLineContent 3).1 = some (ascii "yc") := by
  obtain ⟨t, hrun, hcount, hline⟩ := run_getLineContent (by decide) typedChunks_unbroken .lf
    typedOps_inRange
  exact ⟨t, hrun, hcount.trans (by decide), (hline 2 (by decide)).trans (by decide)⟩

end NexgileIde.PieceTree
