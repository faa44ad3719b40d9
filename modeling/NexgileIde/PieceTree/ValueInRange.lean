import NexgileIde.PieceTree.Positions

/-!
# The text of a range

The nodes of both ends are looked for by line and column, and what lies between is read node by
node. It is the part of the text between the offsets of both ends.
-/
namespace NexgileIde.PieceTree

open Library RBTree Text

namespace PieceTreeBase

/-- What the descent of `nodeAt2` ends with: a node and a place in it, or the node behind which
the rest of the column is looked for. -/
inductive FoundColumn where
  | within (node : ℕ) (remainder : Int)
  | behind (x : Option ℕ) (column : Int)

def nodeAt2Loop (t : PieceTreeBase) (column : Int) : Nodes → Int → Option FoundColumn
  | nil, _ => some (.behind none column)
  | node _ l a r, lineNumber =>
    if !l.isNil && a.lfLeft ≥ lineNumber - 1 then nodeAt2Loop t column l lineNumber
    else if a.lfLeft + a.piece.lineFeedCnt > lineNumber - 1 then do
      let prevAccumulatedValue ← t.getAccumulatedValue a.piece (lineNumber - a.lfLeft - 2)
      let accumulatedValue ← t.getAccumulatedValue a.piece (lineNumber - a.lfLeft - 1)
      return .within a.id (min (prevAccumulatedValue + column - 1) accumulatedValue)
    else if a.lfLeft + a.piece.lineFeedCnt = lineNumber - 1 then do
      let prevAccumulatedValue ← t.getAccumulatedValue a.piece (lineNumber - a.lfLeft - 2)
      if prevAccumulatedValue + column - 1 ≤ a.piece.length then
        return .within a.id (prevAccumulatedValue + column - 1)
      else return .behind (some a.id) (column - (a.piece.length - prevAccumulatedValue))
    else nodeAt2Loop t column r (lineNumber - (a.lfLeft + a.piece.lineFeedCnt))

/-- The walk of `nodeAt2` to the node of the column. -/
def nodeAt2Walk (t : PieceTreeBase) : List ℕ → Int → Option (ℕ × Int)
  | [], _ => none
  | x :: xs, column => do
    let piece ← t.root.pieceOf x
    if piece.lineFeedCnt > 0 then
      return (x, min (column - 1) (← t.getAccumulatedValue piece 0))
    else if piece.length ≥ column - 1 then return (x, column - 1)
    else nodeAt2Walk t xs (column - piece.length)

/-- `nodeAt2(lineNumber, column)`: the node and the remainder. -/
def nodeAt2 (t : PieceTreeBase) (lineNumber column : Int) : Option (ℕ × Int) := do
  match ← t.nodeAt2Loop column t.root lineNumber with
  | .within x remainder => return (x, remainder)
  | .behind x column => t.nodeAt2Walk (← t.nodesAfter t.root.toList.length x) column

/-- The nodes behind the first one, up to the end. -/
def valueWalk (t : PieceTreeBase) (endPosition : ℕ × Int) : List ℕ → Option Str
  | [] => some []
  | x :: xs => do
    let piece ← t.root.pieceOf x
    let b ← t.buffers[piece.bufferIndex]?
    let startOffset ← t.offsetInBuffer piece.bufferIndex piece.start
    if x = endPosition.1 then
      return substring b.buffer startOffset (startOffset + endPosition.2)
    else
      let rest ← valueWalk t endPosition xs
      return substring b.buffer startOffset (startOffset + piece.length) ++ rest

def getValueInRange2 (t : PieceTreeBase) (startPosition endPosition : ℕ × Int) : Option Str := do
  let piece ← t.root.pieceOf startPosition.1
  let b ← t.buffers[piece.bufferIndex]?
  let startOffset ← t.offsetInBuffer piece.bufferIndex piece.start
  if startPosition.1 = endPosition.1 then
    return substring b.buffer (startOffset + startPosition.2) (startOffset + endPosition.2)
  else
    let rest ← t.valueWalk endPosition
      (← t.nodesAfter t.root.toList.length (some startPosition.1))
    return substring b.buffer (startOffset + startPosition.2) (startOffset + piece.length) ++ rest

/-- `getValueInRange(range, eol)` -/
def getValueInRange (t : PieceTreeBase) (range : Range) (eol? : Option EndOfLine) :
    Option Str := do
  if range.startLineNumber = range.endLineNumber ∧ range.startColumn = range.endColumn then
    return []
  let startPosition ← t.nodeAt2 range.startLineNumber range.startColumn
  let endPosition ← t.nodeAt2 range.endLineNumber range.endColumn
  let value ← t.getValueInRange2 startPosition endPosition
  match eol? with
  | none => return value
  | some eol =>
    if eol ≠ t.eol ∨ !t.eolNormalized then return replaceEOL eol.toStr value else return value

variable {t : PieceTreeBase} {segs A B : List Seg} {s : Seg} {n : ℕ}

theorem nodeAt2Loop_eq {x : Nodes} {column lineNumber start line o : Int} {a : TreeNode}
    (h : lineNode x lineNumber start = some (a, line, o)) :
    t.nodeAt2Loop column x lineNumber =
      if a.piece.lineFeedCnt > line - 1 then do
        let prevAccumulatedValue ← t.getAccumulatedValue a.piece (line - 2)
        let accumulatedValue ← t.getAccumulatedValue a.piece (line - 1)
        return .within a.id (min (prevAccumulatedValue + column - 1) accumulatedValue)
      else do
        let prevAccumulatedValue ← t.getAccumulatedValue a.piece (line - 2)
        if prevAccumulatedValue + column - 1 ≤ a.piece.length then
          return .within a.id (prevAccumulatedValue + column - 1)
        else return .behind (some a.id) (column - (a.piece.length - prevAccumulatedValue)) := by
  induction x generalizing lineNumber start with
  | nil => cases h
  | node c l b r ihl ihr =>
    rw [lineNode] at h
    rw [nodeAt2Loop]
    split_ifs at h with hgo hin
    · rw [if_pos hgo]
      exact ihl h
    · obtain ⟨rfl, rfl, rfl⟩ := by simpa using h
      rw [if_neg hgo]
      by_cases hwhole : b.piece.lineFeedCnt > lineNumber - b.lfLeft - 1
      · rw [if_pos (by omega), if_pos hwhole]
      · rw [if_neg (by omega), if_neg hwhole, if_pos (by omega)]
    · rw [if_neg hgo, if_neg (by omega), if_neg (by omega)]
      exact ihr h

theorem nodeAt2Walk_eq (h : Layout t (A ++ B)) (hw : Whole B) (hc : Chain B) {c : ℕ} (hpos : 0 < c)
    (hle : c ≤ lineOffset (textOf B) 1) : ∃ C b D r, FoundIn B c C b D r ∧
      t.nodeAt2Walk (B.map Seg.id) ((c : Int) + 1) = some (b.id, (r : Int)) := by
  induction B generalizing A c with
  | nil =>
    have hzero := lineOffset_le (textOf []) 1
    rw [textOf_nil, List.length_nil] at hzero
    rw [textOf_nil] at hle
    omega
  | cons b B ih =>
    obtain ⟨hb, hwB⟩ := whole_cons.mp hw
    obtain ⟨hcB, hseam⟩ := (chain_cons hb hwB).mp hc
    obtain ⟨b', z, hr⟩ := exists_reads (k := 0) h hb (Nat.zero_le _)
    have hlen := h.fits_seg.length
    rw [textOf_cons] at hle
    rw [List.map_cons, nodeAt2Walk, hr.piece]
    simp only [Option.bind_eq_bind, Option.bind_some, hr.lineFeedCnt, hlen, Int.add_sub_cancel]
    by_cases hbreak : 0 < countBreaks b.text
    · have hstop := hr.stop hbreak
      have hmax := lineOffset_le b.text 1
      rw [Nat.cast_zero] at hstop
      have hleft : lineOffset (b.text ++ textOf B) 1 = lineOffset b.text 1 :=
        lineOffset_append_left hseam hbreak
      rw [hleft] at hle
      rw [if_pos (by omega), hstop]
      refine ⟨[], b, B, c, ⟨rfl, by simp, by omega⟩, ?_⟩
      rw [Option.bind_some, Nat.zero_add, min_eq_left (by omega)]
      rfl
    · have hzero : countBreaks b.text = 0 := by omega
      have hright := lineOffset_append_right hseam 0
      rw [hzero, Nat.zero_add, Nat.zero_add] at hright
      rw [hright] at hle
      rw [if_neg (by omega)]
      by_cases hin : (b.text.length : Int) ≥ c
      · rw [if_pos hin]
        exact ⟨[], b, B, c, ⟨rfl, by simp, by omega⟩, rfl⟩
      · obtain ⟨C, b'', D, r, ⟨hsplit, hoff, hr'⟩, hrest⟩ := ih (A := A ++ [b]) (by simpa using h)
          hwB hcB (c := c - b.text.length) (by omega) (by omega)
        have hcast : (c : Int) + 1 - b.text.length = ((c - b.text.length : ℕ) : Int) + 1 := by omega
        rw [if_neg hin, hcast]
        refine ⟨b :: C, b'', D, r, ⟨by rw [hsplit, List.cons_append], ?_, hr'⟩, hrest⟩
        rw [textOf_cons, List.length_append]
        omega

/-- The node and the place in it of a column, up to the end of the line. -/
theorem nodeAt2_eq (h : Sound t segs) (hne : t.root ≠ nil) (hn : n ≤ breaksOf segs) {c : ℕ}
    (hc : lineOffset (textOf segs) n + c ≤ lineOffset (textOf segs) (n + 1)) :
    ∃ A s B r, FoundIn segs (lineOffset (textOf segs) n + c) A s B r ∧
      t.nodeAt2 ((n : Int) + 1) ((c : Int) + 1) = some (s.id, (r : Int)) := by
  obtain ⟨A, s, B, k, a, hstarts, ha, hfound⟩ := lineNode_spec h.layout.holds.exact hne
    h.layout.holds.entries h.layout.fits h.whole hn 0
  have hstart := hstarts.lineOffset_eq h.whole h.chain
  obtain ⟨htext, hbreaks, hseam, hseam'⟩ := text_parts hstarts.split h.whole h.chain
  have hnext : lineOffset (textOf segs) (n + 1) =
      (textOf A).length + lineOffset (s.text ++ textOf B) (k + 1) := by
    rw [htext, hstarts.line, hbreaks, Nat.add_assoc, lineOffset_append_right hseam]
  obtain rfl := hstarts.split
  obtain ⟨hid, hpiece⟩ := Prod.mk.inj ha
  obtain ⟨b, z, hr⟩ := exists_reads h.layout (h.whole s (by simp)) hstarts.le
  have hprev : (k : Int) + 1 - 2 = (k : Int) - 1 := by omega
  have hlen := h.layout.fits_seg.length
  unfold nodeAt2
  rw [nodeAt2Loop_eq hfound, hpiece, hid, hr.lineFeedCnt, hprev, Int.add_sub_cancel, hr.start]
  by_cases hlt : k < countBreaks s.text
  · have hmax := lineOffset_le s.text (k + 1)
    have hleft : lineOffset (s.text ++ textOf B) (k + 1) = lineOffset s.text (k + 1) :=
      lineOffset_append_left hseam' hlt
    rw [hleft] at hnext
    refine ⟨A, s, B, lineOffset s.text k + c, ⟨rfl, by omega, by omega⟩, ?_⟩
    simp only [if_pos (show (countBreaks s.text : Int) > k by omega), hr.stop hlt,
      Option.bind_eq_bind, Option.bind_some, Option.pure_def, Option.some.injEq, Prod.mk.injEq,
      true_and]
    omega
  · have hk : k = countBreaks s.text := by
      have := hstarts.le
      omega
    have hbehind := lineOffset_append_right hseam' 0
    rw [Nat.zero_add, ← hk] at hbehind
    rw [hbehind] at hnext
    simp only [if_neg (show ¬ (countBreaks s.text : Int) > k by omega), Option.bind_eq_bind,
      Option.bind_some, hlen]
    by_cases hin : (lineOffset s.text k : Int) + ((c : Int) + 1) - 1 ≤ s.text.length
    · refine ⟨A, s, B, lineOffset s.text k + c, ⟨rfl, by omega, by omega⟩, ?_⟩
      simp only [if_pos hin, Option.pure_def, Option.bind_some, Option.some.injEq, Prod.mk.injEq,
        true_and]
      omega
    · have hmax := lineOffset_le s.text k
      obtain ⟨hwA, hwB⟩ := whole_append.mp h.whole
      obtain ⟨-, hcB, -⟩ := (chain_append hwA hwB).mp h.chain
      obtain ⟨hs, hwB⟩ := whole_cons.mp hwB
      have hids := nodesAfter_root h.layout
      obtain ⟨C, b', D, r, ⟨rfl, hoff, hr'⟩, hwalk⟩ := nodeAt2Walk_eq (A := A ++ [s])
        (by simpa using h.layout) hwB ((chain_cons hs hwB).mp hcB).1
        (c := lineOffset s.text k + c - s.text.length) (by omega) (by omega)
      have hcast : (c : Int) + 1 - (s.text.length - lineOffset s.text k) =
          ((lineOffset s.text k + c - s.text.length : ℕ) : Int) + 1 := by omega
      refine ⟨A ++ s :: C, b', D, r, ⟨by simp, ?_, hr'⟩, ?_⟩
      · rw [hstart, textOf_append, textOf_cons, List.length_append, List.length_append]
        omega
      · simp only [if_neg hin, Option.pure_def, Option.bind_some, hids, hcast]
        exact hwalk

theorem valueWalk_eq {C D : List Seg} {s' : Seg} {r : ℕ} (h : Layout t (A ++ (C ++ s' :: D)))
    (hw : Whole (C ++ s' :: D)) (hr : r ≤ s'.text.length) : t.valueWalk (s'.id, r) ((C ++ s' :: D).map Seg.id) =
      some (textOf C ++ s'.text.take r) := by
  induction C generalizing A with
  | nil =>
    obtain ⟨b, z, hb⟩ := exists_reads h (whole_cons.mp hw).1 (Nat.zero_le _)
    have hpart := hb.part 0 r (Nat.zero_le _) hr
    rw [Nat.cast_zero, add_zero, List.drop_zero, Nat.sub_zero] at hpart
    rw [List.nil_append, List.map_cons, valueWalk, hb.piece]
    simp only [Option.bind_eq_bind, Option.bind_some, hb.buffer, hb.offset, if_true, hpart]
    rfl
  | cons m C ih =>
    obtain ⟨hm, hw⟩ := whole_cons.mp hw
    obtain ⟨b, z, hb⟩ := exists_reads h hm (Nat.zero_le _)
    have hne : m.id ≠ s'.id := by
      have hdistinct := h.distinct
      simp only [List.map_append, List.map_cons, List.nodup_append, List.cons_append,
        List.nodup_cons, List.mem_append, List.mem_cons] at hdistinct
      exact fun heq => hdistinct.2.1.1 (.inr (.inl heq))
    have hpart := hb.part 0 m.text.length (Nat.zero_le _) le_rfl
    rw [Nat.cast_zero, add_zero, List.drop_zero, Nat.sub_zero, List.take_length] at hpart
    rw [List.cons_append, List.map_cons, valueWalk, hb.piece]
    simp only [Option.bind_eq_bind, Option.bind_some, hb.buffer, hb.offset, if_neg hne, hb.length,
      ih (A := A ++ [m]) (by simpa using h) hw, hpart, textOf_cons, List.append_assoc]
    rfl

/-- What lies between two places is read node by node. -/
theorem getValueInRange2_eq (h : Sound t segs) {A' B' : List Seg} {s' : Seg} {o o' r r' : ℕ}
    (hstart : FoundIn segs o A s B r) (hend : FoundIn segs o' A' s' B' r') (hlt : o < o') :
    t.getValueInRange2 (s.id, r) (s'.id, r') = some (substring (textOf segs) o o') := by
  obtain ⟨rfl, rfl, hr⟩ := hstart
  obtain ⟨hsplit, rfl, hr'⟩ := hend
  obtain ⟨b, z, hb⟩ := exists_reads h.layout (h.whole s (by simp)) (Nat.zero_le _)
  rw [substring_of_le _ hlt.le]
  unfold getValueInRange2
  simp only [hb.piece, hb.buffer, hb.offset, Option.bind_eq_bind, Option.bind_some]
  have hplaces : A' = A ∧ s' = s ∨ ∃ C, A' = A ++ s :: C ∧ B = C ++ s' :: B' := by
    rcases List.append_eq_append_iff.mp hsplit with ⟨C, rfl, hC⟩ | ⟨C, rfl, hC⟩ <;>
      cases C with
      | nil => exact .inl ⟨by simp, by simp_all⟩
      | cons m C =>
        obtain ⟨rfl, rfl⟩ := List.cons.inj hC
        first
        | exact .inr ⟨C, rfl, rfl⟩
        | rw [textOf_append, textOf_cons, List.length_append, List.length_append] at hlt
          omega
  rcases hplaces with ⟨rfl, rfl⟩ | ⟨C, rfl, rfl⟩
  · rw [if_pos rfl, hb.part r r' (by omega) hr']
    refine congrArg some ?_
    rw [textOf_append, textOf_cons, List.drop_length_add_append, List.drop_append_of_le_length hr,
      List.take_append_of_le_length (by simp; omega), Nat.add_sub_add_left]
  · have hids := nodesAfter_root h.layout
    have hwalk := valueWalk_eq (A := A ++ [s]) (C := C) (D := B') (by simpa using h.layout)
      (whole_cons.mp (whole_append.mp h.whole).2).2 hr'
    have hne : s.id ≠ s'.id := by
      have hdistinct := h.layout.distinct
      simp only [List.map_append, List.map_cons, List.nodup_append, List.nodup_cons,
        List.mem_append, List.mem_cons] at hdistinct
      exact fun heq => hdistinct.2.1.1 (.inr (.inl heq))
    have htext : textOf (A ++ s :: (C ++ s' :: B')) =
        textOf A ++ (s.text ++ (textOf C ++ (s'.text ++ textOf B'))) := by simp
    have hcount : (textOf (A ++ s :: C)).length + r' - ((textOf A).length + r) =
        (s.text.length - r) + ((textOf C).length + r') := by
      rw [textOf_append, textOf_cons, List.length_append, List.length_append]
      omega
    rw [if_neg hne, hids, hb.length, hb.part r s.text.length hr le_rfl]
    simp only [Option.bind_some, hwalk]
    refine congrArg some ?_
    rw [htext, hcount, List.drop_length_add_append, List.drop_append_of_le_length hr,
      ← List.length_drop, List.take_length_add_append, List.take_length_add_append,
      List.take_length, List.take_append_of_le_length hr']

end PieceTreeBase

/-- A line and a column of a text; the column is at most behind the last character of the line. -/
def IsPosition (str : Str) (lineNumber column : Int) : Prop :=
  ∃ (n c : ℕ) (line : Str), lineNumber = (n : Int) + 1 ∧ column = (c : Int) + 1 ∧
    (splitLines str)[n]? = some line ∧ c ≤ line.length

open PieceTreeBase in
theorem getValueInRange_eq {t : PieceTreeBase} {segs : List Seg} (h : Lined t segs) {range : Range}
    (hle : range.startLineNumber < range.endLineNumber ∨
      range.startLineNumber = range.endLineNumber ∧ range.startColumn ≤ range.endColumn)
    (hstart : IsPosition (textOf segs) range.startLineNumber range.startColumn)
    (hend : IsPosition (textOf segs) range.endLineNumber range.endColumn) :
    ∃ o o' : ℕ, t.getOffsetAt range.startLineNumber range.startColumn = some (o : Int) ∧
      t.getOffsetAt range.endLineNumber range.endColumn = some (o' : Int) ∧
      ∀ eol? : Option EndOfLine, t.getValueInRange range eol? =
        some ((eol?.elim id fun eol => replaceEOL eol.toStr) (substring (textOf segs) o o')) := by
  obtain ⟨startLineNumber, startColumn, endLineNumber, endColumn⟩ := range
  dsimp only at hle hstart hend ⊢
  obtain ⟨n, c, line, rfl, rfl, hline, hc⟩ := hstart
  obtain ⟨n', c', line', rfl, rfl, hline', hc'⟩ := hend
  obtain ⟨hn, hat, hstop⟩ := lineAt_of_mem_line hline hc
  obtain ⟨hn', hat', hstop'⟩ := lineAt_of_mem_line hline' hc'
  rw [← breaksOf_eq h.whole h.chain] at hn hn'
  refine ⟨_, _, getOffsetAt_column h.toSound hn hstop,
    getOffsetAt_column h.toSound hn' hstop', fun eol? => ?_⟩
  unfold getValueInRange
  by_cases heq : n = n' ∧ c = c'
  · obtain ⟨rfl, rfl⟩ := heq
    rw [substring_of_le _ le_rfl, Nat.sub_self, List.take_zero]
    simp only [and_self, if_true]
    cases eol? <;> rfl
  · have hlt : lineOffset (textOf segs) n + c < lineOffset (textOf segs) n' + c' := by
      by_contra hge
      have hmono := lineAt_mono (textOf segs) (Nat.not_lt.mp hge)
      rw [hat, hat'] at hmono
      obtain rfl : n = n' := by omega
      omega
    have hne : t.root ≠ nil := by
      intro hnil
      obtain rfl : segs = [] := h.layout.isNil_iff.mp (by rw [hnil]; rfl)
      have := Nat.le_zero.mp (lineOffset_le (textOf []) (n' + 1))
      omega
    obtain ⟨A, s, B, r, hfound, hnode⟩ := nodeAt2_eq h.toSound hne hn hstop
    obtain ⟨A', s', B', r', hfound', hnode'⟩ := nodeAt2_eq h.toSound hne hn' hstop'
    have hvalue := getValueInRange2_eq h.toSound hfound hfound' hlt
    rw [if_neg (show ¬ ((n : Int) + 1 = n' + 1 ∧ (c : Int) + 1 = c' + 1) by omega), hnode, hnode']
    simp only [Option.bind_eq_bind, Option.bind_some, hvalue, h.mixed]
    cases eol? <;> simp

open PieceTreeBase in
/-- After any run the value of a range is the part of the text between the offsets of its ends,
with the line ends asked for. -/
theorem run_getValueInRange {chunks : List Str} (hempties : EmptiesLast chunks)
    (hunbroken : Unbroken chunks) (eol : EndOfLine) {ops : List Op}
    (hops : AllInRange ops chunks.flatten) :
    ∃ t, ((create (chunks.map .ofStr) eol false).bind fun t₀ => t₀.run ops) = some t ∧
      ∀ range : Range, range.startLineNumber < range.endLineNumber ∨
          range.startLineNumber = range.endLineNumber ∧ range.startColumn ≤ range.endColumn →
        IsPosition (spliceAll ops chunks.flatten) range.startLineNumber range.startColumn →
        IsPosition (spliceAll ops chunks.flatten) range.endLineNumber range.endColumn →
        ∃ o o' : ℕ, t.getOffsetAt range.startLineNumber range.startColumn = some (o : Int) ∧
          t.getOffsetAt range.endLineNumber range.endColumn = some (o' : Int) ∧
          ∀ eol? : Option EndOfLine, t.getValueInRange range eol? =
            some ((eol?.elim id fun eol => replaceEOL eol.toStr)
              (substring (spliceAll ops chunks.flatten) o o')) := by
  obtain ⟨t₀, segs₀, hcreate, h₀, htext₀⟩ := create_lined hempties hunbroken eol
  rw [← htext₀] at hops ⊢
  obtain ⟨t, segs, hrun, h, htext⟩ := run_lined h₀ hops
  rw [← htext]
  exact ⟨t, by rw [hcreate]; exact hrun, fun range hle hstart hend =>
    getValueInRange_eq h hle hstart hend⟩

open PieceTreeBase in
theorem run_getValueInRange_typed :
    ∃ (t : PieceTreeBase) (o o' : ℕ),
      ((create (typedChunks.map .ofStr) .lf false).bind fun t₀ => t₀.run typedOps) = some t ∧
      t.getOffsetAt 1 2 = some (o : Int) ∧ t.getOffsetAt 3 2 = some (o' : Int) ∧
      t.getValueInRange ⟨1, 2, 3, 2⟩ (some .crlf) =
        some (replaceEOL EndOfLine.crlf.toStr (substring (ascii "a\r\nx\ryc\nde") o o')) := by
  obtain ⟨t, hrun, hvalue⟩ := run_getValueInRange (by decide) typedChunks_unbroken .lf
    typedOps_inRange
  have htext : spliceAll typedOps typedChunks.flatten = ascii "a\r\nx\ryc\nde" := by decide
  rw [htext] at hvalue
  obtain ⟨o, o', ho, ho', hvalue⟩ := hvalue ⟨1, 2, 3, 2⟩ (by decide)
    ⟨0, 1, ascii "a", rfl, rfl, by decide, by decide⟩
    ⟨2, 1, ascii "yc", rfl, rfl, by decide, by decide⟩
  exact ⟨t, o, o', hrun, ho, ho', hvalue (some .crlf)⟩

end NexgileIde.PieceTree
