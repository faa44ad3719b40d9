import NexgileIde.PieceTree.PieceTreeInvariant

/-!
# Insertion splices the text

Each of the ways to insert puts the text behind the nodes `A` into the sequence and leaves
`A` and the start of the node it was found at in place, which keeps the cached entry right.
-/
namespace NexgileIde.PieceTree

open Library RBTree Text

/-! ### Cutting a node -/

namespace Layout

variable {t : PieceTreeBase} {A B : List Seg} {s : Seg} {w₁ w₂ : Str} {pos : BufferCursor}

/-- The end of a node is cut off at a place in its piece. -/
theorem deleteNodeTail (h : Layout t (A ++ s :: B)) (hs : s.text = w₁ ++ w₂)
    (hpos : t.positionInBuffer s.piece w₁.length = some pos) :
    ∃ t' q, t.deleteNodeTail s.id pos = some t' ∧ q.length = (w₁.length : Int) ∧
      (w₂ ≠ [] → ¬ AtEnd t.lastChangeBufferPos q) ∧ Reshaped t t' ∧ t'.nextId = t.nextId ∧
      Layout t' (A ++ ⟨s.id, q, w₁⟩ :: B) := by
  obtain ⟨u, v, hslice⟩ := h.fits_seg.slice
  rw [hs] at hslice
  rw [PieceTreeBase.positionInBuffer_eq hslice (by simp)] at hpos
  obtain rfl := Option.some.inj hpos
  have hlength := hslice.length
  rw [List.length_append, Nat.cast_add] at hlength
  have hstop := PieceTreeBase.offsetInBuffer_stop hslice
  have hcut := PieceTreeBase.offsetInBuffer_cursorAt hslice.buffer (u.length + w₁.length)
  have hstr : u ++ (w₁ ++ w₂ ++ v) = (u ++ w₁) ++ (w₂ ++ v) := by simp
  have hcnt : ∃ cnt : Int, t.getLineFeedCnt s.piece.bufferIndex s.piece.start
      (cursorAt (u ++ (w₁ ++ w₂ ++ v)) (u.length + w₁.length)) = some cnt ∧
      (w₁ ≠ [] → cnt = countBreaks w₁) := by
    by_cases hw₁ : w₁ = []
    · have hbuf := hslice.buffer
      rw [hstr] at hbuf ⊢
      rw [← List.length_append]
      exact ⟨_, PieceTreeBase.getLineFeedCnt_eq hbuf _, fun hne => absurd hw₁ hne⟩
    · have hleft := hslice.takeLeft 0
      exact ⟨_, PieceTreeBase.getLineFeedCnt_piece hleft hw₁, fun _ => rfl⟩
  obtain ⟨cnt, hcnt, hexact⟩ := hcnt
  have hleft := hslice.takeLeft cnt
  have hend : w₂ ≠ [] → ¬ AtEnd t.lastChangeBufferPos ⟨s.piece.bufferIndex, s.piece.start,
      cursorAt (u ++ (w₁ ++ w₂ ++ v)) (u.length + w₁.length), cnt, w₁.length⟩ :=
    fun hw₂ => h.not_atEnd hleft (by simp [hw₂])
  obtain ⟨t', hrep, hr, hid, h'⟩ := h.replacePiece (w := w₁)
    (d := ((u.length + w₁.length : ℕ) : Int) - (u.length + (w₁ ++ w₂).length))
    (e := cnt - s.piece.lineFeedCnt) ⟨⟨_, _, hleft⟩, hexact⟩
    (by
      intro hq
      by_cases hw₂ : w₂ = []
      · refine ⟨hq.1, ?_⟩
        rw [hslice.stop, hw₂, List.append_nil]
        simpa [hw₂] using hq.2
      · exact absurd hq (hend hw₂))
    (by
      dsimp only
      rw [List.length_append]
      omega) rfl
  refine ⟨t', _, ?_, rfl, hend, hr, hid, h'⟩
  unfold PieceTreeBase.deleteNodeTail
  simp only [h.pieceOf, hstop, hcut, hcnt, Option.bind_eq_bind, Option.bind_some]
  rw [show s.piece.length + (((u.length + w₁.length : ℕ) : Int) - (u.length + (w₁ ++ w₂).length)) =
    w₁.length by
      rw [List.length_append]
      omega]
  exact hrep

/-- The start of a node is cut off at a place in its piece. -/
theorem deleteNodeHead (h : Layout t (A ++ s :: B)) (hs : s.text = w₁ ++ w₂)
    (hpos : t.positionInBuffer s.piece w₁.length = some pos) :
    ∃ t' q, t.deleteNodeHead s.id pos = some t' ∧ q.length = (w₂.length : Int) ∧ Reshaped t t' ∧
      t'.nextId = t.nextId ∧ Layout t' (A ++ ⟨s.id, q, w₂⟩ :: B) := by
  obtain ⟨u, v, hslice⟩ := h.fits_seg.slice
  rw [hs] at hslice
  rw [PieceTreeBase.positionInBuffer_eq hslice (by simp)] at hpos
  obtain rfl := Option.some.inj hpos
  have hlength := hslice.length
  rw [List.length_append, Nat.cast_add] at hlength
  have hstart := PieceTreeBase.offsetInBuffer_start hslice
  have hcut := PieceTreeBase.offsetInBuffer_cursorAt hslice.buffer (u.length + w₁.length)
  have hcnt : ∃ cnt : Int, t.getLineFeedCnt s.piece.bufferIndex
      (cursorAt (u ++ (w₁ ++ w₂ ++ v)) (u.length + w₁.length)) s.piece.stop = some cnt ∧
      (w₂ ≠ [] → cnt = countBreaks w₂) := by
    by_cases hw₂ : w₂ = []
    · have hstr : u ++ (w₁ ++ w₂ ++ v) = (u ++ (w₁ ++ w₂)) ++ v := by simp
      have hbuf := hslice.buffer
      rw [hslice.stop]
      rw [hstr] at hbuf ⊢
      rw [show u.length + (w₁ ++ w₂).length = (u ++ (w₁ ++ w₂)).length from
        List.length_append.symm]
      exact ⟨_, PieceTreeBase.getLineFeedCnt_eq hbuf _, fun hne => absurd hw₂ hne⟩
    · have hright := hslice.takeRight 0
      exact ⟨_, PieceTreeBase.getLineFeedCnt_piece hright hw₂, fun _ => rfl⟩
  obtain ⟨cnt, hcnt, hexact⟩ := hcnt
  have hright := hslice.takeRight cnt
  obtain ⟨t', hrep, hr, hid, h'⟩ := h.replacePiece (w := w₂)
    (d := (u.length : Int) - ((u.length + w₁.length : ℕ) : Int))
    (e := cnt - s.piece.lineFeedCnt) ⟨⟨_, _, hright⟩, hexact⟩ (fun hend => hend)
    (by
      dsimp only
      omega) rfl
  refine ⟨t', _, ?_, rfl, hr, hid, h'⟩
  unfold PieceTreeBase.deleteNodeHead
  simp only [h.pieceOf, hstart, hcut, hcnt, Option.bind_eq_bind, Option.bind_some]
  rw [show s.piece.length + ((u.length : Int) - ((u.length + w₁.length : ℕ) : Int)) = w₂.length by
    omega]
  exact hrep

end Layout
/-- The node `s` behind `A` and the nodes `B` behind it have become `F`, which stands for
`text`; `s` is the first node of `F` or is gone. -/
structure Changed (t t' : PieceTreeBase) (A : List Seg) (s : Seg) (B F : List Seg) (text : Str) :
    Prop where
  kept : Kept t t'
  layout : Layout t' (A ++ F)
  text : textOf F = text
  whole : Whole F
  chain : t.shouldCheckCRLF = true → Chain (A ++ s :: B) → Chain (A ++ F)
  start : ∀ m ∈ F.tail, m.id ≠ s.id

/-! ### Typing on -/

theorem lineStarts_append {str x : Str} {hit : Bool} (hhit : hit = true ↔ Seam str x) :
    (if hit then (createLineStartsFast str).dropLast else createLineStartsFast str) ++
      ((createLineStartsFast x).map (· + str.length)).drop 1 = createLineStartsFast (str ++ x) := by
  have hlen := length_createLineStartsFast str
  rw [createLineStartsFast_append, List.drop_one, List.map_tail]
  congr 1
  by_cases hs : Seam str x
  · rw [if_pos (hhit.mpr hs), seam, if_pos hs, List.dropLast_eq_take, hlen]
  · have hfalse : ¬ hit = true := fun hit => hs (hhit.mp hit)
    rw [if_neg hfalse, seam, if_neg hs, Nat.sub_zero, ← hlen, List.take_length]

/-- The buffer of a piece that ends at its end. -/
theorem Layout.slice_atEnd {t : PieceTreeBase} {A B : List Seg} {s : Seg}
    (h : Layout t (A ++ s :: B)) (hend : AtEnd t.lastChangeBufferPos s.piece) :
    ∃ u, Slice t.buffers s.piece u s.text [] ∧
      t.buffers[0]? = some (.ofStr (u ++ s.text)) := by
  obtain ⟨u, v, hslice⟩ := h.fits_seg.slice
  have hv : v = [] := by
    by_contra hv
    exact h.not_atEnd hslice hv hend
  subst hv
  have hbuf := hslice.buffer
  rw [hend.1, List.append_nil] at hbuf
  exact ⟨u, hslice, hbuf⟩

/-- Text is appended to the change buffer and to the piece at its end, even if the `\n` of a
`\r\n` comes to it. -/
theorem Layout.growNode {t : PieceTreeBase} {A B : List Seg} {s : Seg} {x : Str}
    (h : Layout t (A ++ s :: B)) (hs : s.text ≠ []) (hend : AtEnd t.lastChangeBufferPos s.piece)
    (hx : x ≠ []) :
    ∃ str cnt t', t.buffers[0]? = some (.ofStr str) ∧ str.getLast? = s.text.getLast? ∧
      (∀ pos, ({ t with
          buffers := t.buffers.set 0 (.ofStr (str ++ x))
          lastChangeBufferPos := pos } : PieceTreeBase).getLineFeedCnt 0 s.piece.start
        (cursorAt (str ++ x) (str ++ x).length) = some cnt) ∧
      ({ t with
          buffers := t.buffers.set 0 (.ofStr (str ++ x))
          lastChangeBufferPos := cursorAt (str ++ x) (str ++ x).length } :
        PieceTreeBase).replacePiece s.id
          ⟨s.piece.bufferIndex, s.piece.start, cursorAt (str ++ x) (str ++ x).length, cnt,
            s.piece.length + x.length⟩ x.length (cnt - s.piece.lineFeedCnt) = some t' ∧
      Kept t t' ∧ Layout t' (A ++ ⟨s.id, ⟨s.piece.bufferIndex, s.piece.start,
        cursorAt (str ++ x) (str ++ x).length, cnt, s.piece.length + x.length⟩, s.text ++ x⟩ :: B) := by
  obtain ⟨u, hslice, hbuf⟩ := h.slice_atEnd hend
  obtain ⟨str, hstr⟩ : ∃ str, str = u ++ s.text := ⟨_, rfl⟩
  rw [← hstr] at hbuf
  have hlt := (List.getElem?_eq_some_iff.mp hbuf).1
  have hset : (t.buffers.set 0 (.ofStr (str ++ x)))[0]? = some (.ofStr (str ++ x)) :=
    List.getElem?_set_self hlt
  have hnew : str ++ x = u ++ (s.text ++ x ++ []) := by simp [hstr]
  have hqslice : Slice (t.buffers.set 0 (.ofStr (str ++ x))) ⟨s.piece.bufferIndex, s.piece.start,
      cursorAt (str ++ x) (str ++ x).length, countBreaks (s.text ++ x),
      s.piece.length + x.length⟩ u (s.text ++ x) [] := by
    have hlength := hslice.length
    have hpos := List.length_pos_iff.mpr hs
    rw [← hnew.symm]
    constructor
    · rw [← hnew]
      simpa only [hend.1] using hset
    · have hplace := cursorAt_append (u := str) (v := x) (o := u.length)
        (.inl (by rw [hstr, List.length_append]; omega))
      rw [← hnew, hplace, hstr]
      simpa using hslice.start
    · have hlen : (str ++ x).length = u.length + (s.text ++ x).length := by
        rw [hnew, List.append_nil, List.length_append]
      rw [← hnew, hlen]
    · simp [hlength]
  have hpos : t.lastChangeBufferPos = cursorAt str str.length := by
    obtain ⟨str', hbuf', hpos⟩ := h.changeBuffer
    rw [hbuf] at hbuf'
    rw [hpos, show str = str' from congrArg StringBuffer.buffer (Option.some.inj hbuf')]
  have hothers : ∀ m ∈ A ++ B, Fits (t.buffers.set 0 (.ofStr (str ++ x))) m.piece m.text ∧
      ¬ AtEnd (cursorAt (str ++ x) (str ++ x).length) m.piece := by
    intro m hm
    have hnot := h.other_ends hend m hm
    rw [hpos] at hnot
    have hfit := h.fits m (by
      simp only [List.mem_append, List.mem_cons] at hm ⊢
      tauto)
    exact hfit.extend hbuf hx (.inl hnot)
  obtain ⟨t', hrep, hr, -, h'⟩ := h.replace (d := x.length)
    (e := countBreaks (s.text ++ x) - s.piece.lineFeedCnt)
    (show ({ t with
      buffers := t.buffers.set 0 (.ofStr (str ++ x))
      lastChangeBufferPos := cursorAt (str ++ x) (str ++ x).length } : PieceTreeBase).root = t.root
      from rfl) rfl
    ⟨⟨_, _, hqslice⟩, fun _ => rfl⟩ (fun m hm => (hothers m hm).1) ⟨str ++ x, hset, rfl⟩
    (List.pairwise_of_forall_mem_list fun m hm _ _ hboth => (hothers m hm).2 hboth.1)
    (fun _ m hm => (hothers m hm).2) (by dsimp only; omega) rfl
  refine ⟨str, countBreaks (s.text ++ x), t', hbuf, by rw [hstr, List.getLast?_append_of_ne_nil u hs],
    ?_, hrep, ⟨hr.eol, hr.eolNormalized, hr.searchCache, hr.lastVisitedLine, hr.nextId⟩, h'⟩
  intro pos
  have hcnt := PieceTreeBase.getLineFeedCnt_piece
    (t := { t with buffers := t.buffers.set 0 (.ofStr (str ++ x)), lastChangeBufferPos := pos })
    hqslice (by simp [hs])
  rwa [hend.1] at hcnt

theorem appendToNode_spec {t : PieceTreeBase} {A B : List Seg} {s : Seg} {value : Str}
    (h : Layout t (A ++ s :: B)) (hw : Whole (A ++ s :: B)) (hguard : Guarded t (s.text ++ value))
    (hend : AtEnd t.lastChangeBufferPos s.piece) (hv : value ≠ []) :
    ∃ t' F, t.appendToNode s.id value = some t' ∧
      Changed t t' A s B F (s.text ++ (value ++ textOf B)) := by
  obtain ⟨hA, hs, hB⟩ : Whole A ∧ s.text ≠ [] ∧ Whole B := by simpa using hw
  obtain ⟨t₁, moved, x, B₁, hadjust, hx, hxne, hr₁, h₁, hB₁, hxtext, hchain, hxseam⟩ :=
    adjusted_text h hB (hguard.mono rfl (List.subset_append_right _ _)) hv
  have hend₁ : AtEnd t₁.lastChangeBufferPos s.piece := by rwa [hr₁.lastChangeBufferPos]
  obtain ⟨str, cnt, t₂, hbuf, hlast, hcnt, hrep, hkept, h₂⟩ := h₁.growNode hs hend₁ hxne
  refine ⟨t₂, _, ?_, hr₁.toKept.trans hkept, h₂, ?_, ?_, ?_, ?_⟩
  · have hcr := h₁.pieceEndsWithCR hs
    have hhit : (startsWithLF x && decide (s.text.getLast? = some CarriageReturn)) = true ↔
        Seam str x := by
      rw [Bool.and_eq_true, startsWithLF_iff, decide_eq_true_eq, Seam, hlast, and_comm]
    have hstarts := lineStarts_append hhit
    have htest := hguard.and (b := startsWithLF x && decide (s.text.getLast? = some CarriageReturn))
      fun htest => List.mem_append_left value (List.mem_of_getLast? (hlast ▸ (hhit.mp htest).1))
    have hstop := cursorAt_length (str ++ x)
    unfold PieceTreeBase.appendToNode
    simp only [hadjust, hx, h₁.pieceOf, hcr, hbuf, hr₁.shouldCheckCRLF, Bool.and_assoc, htest,
      StringBuffer.ofStr, hstarts, Option.bind_eq_bind, Option.bind_some]
    rw [← hstop]
    have hcnt := hcnt t₁.lastChangeBufferPos
    rw [StringBuffer.ofStr] at hcnt hrep
    rw [hcnt]
    exact hrep
  · simpa [List.append_assoc] using hxtext
  · simp [hs, hB₁]
  · intro _ hold
    obtain ⟨hcA, hcsB, hjoint⟩ := (chain_append hA (by simp [hs, hB])).mp hold
    obtain ⟨hcB, hsB⟩ := (chain_cons hs hB).mp hcsB
    rw [chain_append hA (by simp [hs, hB₁]), chain_cons (by simp [hs]) hB₁]
    refine ⟨hcA, ⟨hchain hcB, ?_⟩, ?_⟩
    · dsimp only
      rwa [seam_append_left_iff hxne]
    · rw [textOf_cons, seam_append_right_iff hs] at hjoint
      rwa [textOf_cons, seam_append_right_iff (by simp [hs]), seam_append_right_iff hs]
  · intro m hm
    exact h₂.not_mem m (by simpa using Or.inr hm)

/-! ### Inserting behind a node -/

theorem insertContentToNodeRight_spec {t : PieceTreeBase} {A B : List Seg} {s : Seg} {value : Str}
    (h : Layout t (A ++ s :: B)) (hw : Whole (A ++ s :: B)) (hguard : Guarded t value)
    (hv : value ≠ []) :
    ∃ t' F, t.insertContentToNodeRight value s.id = some t' ∧
      Changed t t' A s B F (s.text ++ (value ++ textOf B)) := by
  obtain ⟨hA, hs, hB⟩ : Whole A ∧ s.text ≠ [] ∧ Whole B := by simpa using hw
  obtain ⟨t₁, moved, x, B₁, hadjust, hx, hxne, hr₁, h₁, hB₁, hxtext, hchain, hxseam⟩ :=
    adjusted_text h hB hguard hv
  obtain ⟨t₂, ps, hcreate, hgrown, h₂, hps, -⟩ := h₁.createNewPieces hxne
  cases ps with
  | nil => exact absurd hps.text.symm hxne
  | cons e ps =>
    obtain ⟨p, w⟩ := e
    obtain ⟨t₃, hins, hr₃, h₃⟩ := h₂.insertRight (hps.fits (p, w) List.mem_cons_self)
      (hps.fresh (p, w) List.mem_cons_self)
    obtain ⟨n, hn⟩ : ∃ n : Seg, n = ⟨t₂.nextId, p, w⟩ := ⟨_, rfl⟩
    rw [← hn] at h₃
    have h₃' : Layout t₃ ((A ++ [s]) ++ n :: B₁) := by simpa using h₃
    obtain ⟨t₄, rest, hall, hr₄, h₄, hrest⟩ := h₃'.insertAllRight (hps.toLinkable.tail hr₃ (by
      intro m hm
      simp only [List.mem_append, List.mem_cons, List.mem_nil_iff, or_false] at hm ⊢
      rcases hm with (hm | rfl) | rfl | hm
      · exact .inl (.inl hm)
      · exact .inl (.inr (.inl rfl))
      · exact .inr (by rw [hn])
      · exact .inl (.inr (.inr hm))))
    obtain ⟨hnews, hcnews, htnews⟩ := hps.news (show (n :: rest).map Seg.part = _ from by
      rw [List.map_cons, hrest, hn]
      rfl)
    obtain ⟨hnne, hrestw⟩ := whole_cons.mp hnews
    obtain ⟨t₅, F, hval, -, hrep⟩ := validateCRLF_spec h₄ (by simp [hA, hs]) hnne
    obtain ⟨front, rfl, hfront⟩ := hrep.front A s rfl
    have hkept : Kept t t₅ := hr₁.toKept.trans (hgrown.toKept.trans (hr₃.toKept.trans
      (hr₄.toKept.trans hrep.kept)))
    have hcheck₄ : t₄.shouldCheckCRLF = t.shouldCheckCRLF := by
      rw [hr₄.shouldCheckCRLF, hr₃.shouldCheckCRLF, hgrown.shouldCheckCRLF, hr₁.shouldCheckCRLF]
    have hbehind : Whole (rest ++ B₁) := by simp [hrestw, hB₁]
    refine ⟨t₅, front ++ (rest ++ B₁), ?_, hkept, by simpa using hrep.layout, ?_, ?_, ?_, ?_⟩
    · unfold PieceTreeBase.insertContentToNodeRight
      simp only [hadjust, hx, hcreate, List.map_cons, List.head?_cons, List.tail_cons, hins,
        Option.bind_eq_bind, Option.bind_some]
      rw [hn] at hall hval
      rw [hall, Option.bind_some, hval]
    · have htext := hrep.text
      simp only [textOf_append, textOf_cons, textOf_nil, List.append_nil, List.append_assoc,
        List.append_cancel_left_eq] at htext
      rw [textOf_append, htext, textOf_append, List.append_assoc, ← List.append_assoc n.text,
        ← textOf_cons, htnews, hxtext]
    · rw [whole_append]
      exact ⟨(whole_append.mp hrep.whole).2, hbehind⟩
    · intro hcheck hold
      obtain ⟨hcA, hcsB, hjoint⟩ := (chain_append hA (by simp [hs, hB])).mp hold
      obtain ⟨hcB, hsB⟩ := (chain_cons hs hB).mp hcsB
      have hcAs : Chain (A ++ [s]) := by
        rw [chain_append hA (by simpa using hs)]
        rw [textOf_cons, seam_append_right_iff hs] at hjoint
        exact ⟨hcA, chain_singleton s, by simpa using hjoint⟩
      have hcn : Chain (n :: (rest ++ B₁)) := by
        rw [← List.cons_append, chain_append hnews hB₁, htnews]
        exact ⟨hcnews, hchain hcB, hxseam⟩
      rw [← List.append_assoc]
      exact hrep.chain_behind hnne hbehind (hcheck₄.trans hcheck) hcAs hcn
    · intro m hm
      have hother : ∀ m ∈ rest ++ B₁, m.id ≠ s.id := by
        intro m hm
        have h₄' : Layout t₄ (A ++ s :: (n :: (rest ++ B₁))) := by simpa using h₄
        exact h₄'.not_mem m (by simpa using Or.inr (Or.inr (List.mem_append.mp hm)))
      cases front with
      | nil => exact hother m (List.mem_of_mem_tail hm)
      | cons f front =>
        rw [List.cons_append, List.tail_cons, List.mem_append] at hm
        exact hm.elim (hfront m) (hother m)

/-! ### Inserting in front of a node -/

/-- The `\n` at the start of a node is taken into the text inserted in front of it. -/
theorem takeLF_spec {t : PieceTreeBase} {A B : List Seg} {s : Seg} {value : Str}
    (h : Layout t (A ++ s :: B)) (hw : Whole (s :: B)) (hv : value ≠ []) :
    ∃ moved emptied x t' s', t.pieceStartsWithLF s.piece = some (decide (s.text.head? = some LineFeed)) ∧
      (endsWithCR value && decide (s.text.head? = some LineFeed)) = moved ∧
      (if moved = true then do
          let newPiece ← t.withoutLF s.piece
          return (← t.replacePiece s.id newPiece (-1) (-1), decide (newPiece.length = 0))
        else some (t, false)) = some (t', emptied) ∧
      (if moved then value ++ [LineFeed] else value) = x ∧ x ≠ [] ∧ Reshaped t t' ∧
      Layout t' (A ++ s' :: B) ∧ s'.id = s.id ∧ emptied = decide (s'.piece.length = 0) ∧
      x ++ s'.text = value ++ s.text ∧ ¬ Seam x (s'.text ++ textOf B) ∧
      (Chain (s :: B) → Chain (s'.keep ++ B)) := by
  obtain ⟨hs, hB⟩ := whole_cons.mp hw
  have hlength := h.fits_seg.length
  have hpos := List.length_pos_iff.mpr hs
  by_cases hcase : value.getLast? = some CarriageReturn ∧ s.text.head? = some LineFeed
  · obtain ⟨hcr, hlf⟩ := hcase
    obtain ⟨w, hw⟩ := List.head?_eq_some_iff.mp hlf
    obtain ⟨q, t', hq, hrep, hqlen, hr, -, h'⟩ := h.takeLF hw
    refine ⟨true, _, value ++ [LineFeed], t', ⟨s.id, q, w⟩, h.pieceStartsWithLF hs, ?_, ?_, rfl,
      by simp, hr, h', rfl, rfl, by simp [hw], by simp [Seam], ?_⟩
    · rw [Bool.and_eq_true, endsWithCR_iff, decide_eq_true_eq]
      exact ⟨hcr, hlf⟩
    · simp [hq, hrep]
    · intro hchain
      obtain ⟨hcB, hseam⟩ := (chain_cons hs hB).mp hchain
      rw [chain_append (whole_keep _) hB]
      refine ⟨chain_keep _, hcB, ?_⟩
      rw [textOf_keep]
      rintro ⟨hlast, hhead⟩
      refine hseam ⟨?_, hhead⟩
      cases w with
      | nil => cases hlast
      | cons chr w => simpa [hw] using hlast
  · refine ⟨false, false, value, t, s, h.pieceStartsWithLF hs, ?_, rfl, rfl, hv, .refl t, h, rfl, ?_,
      rfl, ?_, ?_⟩
    · rw [← Bool.not_eq_true, Bool.and_eq_true, endsWithCR_iff, decide_eq_true_eq]
      exact hcase
    · rw [eq_comm, decide_eq_false_iff_not]
      omega
    · rwa [seam_append_right_iff hs]
    · intro hchain
      rwa [Seg.keep, if_neg hs, List.singleton_append]

theorem insertContentToNodeLeft_spec {t : PieceTreeBase} {A B : List Seg} {s : Seg} {value : Str}
    (h : Layout t (A ++ s :: B)) (hw : Whole (A ++ s :: B)) (hguard : Guarded t value)
    (hv : value ≠ []) :
    ∃ t' segs, t.insertContentToNodeLeft value s.id = some t' ∧ Kept t t' ∧ Layout t' segs ∧
      textOf segs = textOf A ++ (value ++ (s.text ++ textOf B)) ∧ Whole segs ∧
      (t.shouldCheckCRLF = true → Chain (A ++ s :: B) → Chain segs) := by
  obtain ⟨hA, hsB⟩ := whole_append.mp hw
  obtain ⟨hs, hB⟩ := whole_cons.mp hsB
  obtain ⟨moved, emptied, x, t₁, s₁, hlf, hmoved, htake, hx, hxne, hr₁, h₁, hid, hempty, hxtext,
    hxseam, hchain⟩ := takeLF_spec h hsB hv
  obtain ⟨t₂, ps, hcreate, hgrown, h₂, hps, -⟩ := h₁.createNewPieces hxne
  rcases List.eq_nil_or_concat' ps with rfl | ⟨init, ⟨p, w⟩, rfl⟩
  · exact absurd hps.text.symm hxne
  · have hlinkable := hps.toLinkable.reverse
    rw [List.reverse_append, List.reverse_singleton, List.singleton_append] at hlinkable
    obtain ⟨t₃, hins, hr₃, h₃⟩ := h₂.insertLeft (hlinkable.fits (p, w) List.mem_cons_self)
      (hlinkable.fresh (p, w) List.mem_cons_self)
    obtain ⟨n, hn⟩ : ∃ n : Seg, n = ⟨t₂.nextId, p, w⟩ := ⟨_, rfl⟩
    rw [← hn] at h₃
    obtain ⟨t₄, front, first, rest, hall, hr₄, h₄, hfront, hfirst⟩ := h₃.insertAllLeft
      (hlinkable.tail hr₃ (by
        intro m hm
        simp only [List.mem_append, List.mem_cons] at hm ⊢
        rcases hm with hm | rfl | hm
        · exact .inl (.inl hm)
        · exact .inr (by rw [hn])
        · exact .inl (.inr hm)))
    rw [List.reverse_reverse] at hfront
    obtain ⟨hnews, hcnews, htnews⟩ := hps.news (show (first :: rest).map Seg.part = _ from by
      rw [← hfirst, List.map_append, hfront, hn]
      rfl)
    obtain ⟨hfne, hrestw⟩ := whole_cons.mp hnews
    have hlist : front ++ n :: s₁ :: B = first :: (rest ++ s₁ :: B) := by
      rw [← List.cons_append, ← hfirst]
      simp
    rw [hlist] at h₄
    obtain ⟨t₅, F, hval, -, hrep⟩ := validateCRLF_spec h₄ hA hfne
    have hlayout : Layout t₅ ((F ++ rest) ++ s₁ :: B) := by simpa using hrep.layout
    obtain ⟨t₆, hdel, hr₆, -, h₆⟩ := hlayout.deleteIfEmpty
    have hkept : Kept t t₆ := hr₁.toKept.trans (hgrown.toKept.trans (hr₃.toKept.trans
      (hr₄.toKept.trans (hrep.kept.trans hr₆.toKept))))
    have hcheck₄ : t₄.shouldCheckCRLF = t.shouldCheckCRLF := by
      rw [hr₄.shouldCheckCRLF, hr₃.shouldCheckCRLF, hgrown.shouldCheckCRLF, hr₁.shouldCheckCRLF]
    have hbehind : Whole (rest ++ (s₁.keep ++ B)) := by simp [hrestw, hB]
    refine ⟨t₆, (F ++ rest) ++ (s₁.keep ++ B), ?_, hkept, h₆, ?_, ?_, ?_⟩
    · have htest := hguard.and (b := endsWithCR value && decide (s.text.head? = some LineFeed))
        fun htest => List.mem_of_getLast? (endsWithCR_iff.mp (Bool.and_eq_true_iff.mp htest).1)
      rw [hmoved] at htest
      unfold PieceTreeBase.insertContentToNodeLeft
      simp only [h.pieceOf, hlf, Bool.and_assoc, htest, hmoved, Option.bind_eq_bind,
        Option.bind_some]
      simp only [Option.bind_eq_bind, pure] at htake
      simp only [pure, htake, hx, hcreate, List.map_append, List.map_cons, List.map_nil,
        List.getLast?_concat, List.dropLast_concat, Option.bind_some]
      rw [hid] at hins hdel
      rw [hn, List.map_reverse] at hall
      rw [hins, Option.bind_some, hall, Option.bind_some, hval, Option.bind_some, hempty]
      simpa only [decide_eq_true_eq] using hdel
    · have htext := hrep.text
      rw [textOf_append, textOf_append, htext, textOf_append, textOf_keep, List.append_assoc,
        List.append_assoc, ← List.append_assoc first.text, ← textOf_cons, htnews,
        ← List.append_assoc x, hxtext, List.append_assoc]
    · simp only [whole_append] at hbehind ⊢
      exact ⟨⟨hrep.whole, hbehind.1⟩, hbehind.2⟩
    · intro hcheck hold
      obtain ⟨hcA, hcsB, hjoint⟩ := (chain_append hA hsB).mp hold
      have hcfirst : Chain (first :: (rest ++ (s₁.keep ++ B))) := by
        rw [← List.cons_append, chain_append hnews (by simp [hB]), htnews]
        refine ⟨hcnews, hchain hcsB, ?_⟩
        rwa [textOf_append, textOf_keep]
      rw [List.append_assoc]
      exact hrep.chain_behind hfne hbehind (hcheck₄.trans hcheck) hcA hcfirst

/-! ### Inserting into a node -/

theorem rightOfInsert_spec {t : PieceTreeBase} {p : Piece} {w₁ w₂ value : Str} {pos : BufferCursor}
    (h : Fits t.buffers p (w₁ ++ w₂)) (hguard : Guarded t value) (hw₂ : w₂ ≠ [])
    (hv : value ≠ []) (hpos : t.positionInBuffer p w₁.length = some pos) :
    ∃ right x w, t.rightOfInsert p w₁.length pos value = some (right, x) ∧ x ≠ [] ∧
      x ++ w = value ++ w₂ ∧ Fits t.buffers right w ∧ right.bufferIndex = p.bufferIndex ∧
      right.stop = p.stop ∧ (∀ y, ¬ Seam x (w ++ y)) ∧ ∀ y, Seam w y → Seam (w₁ ++ w₂) y := by
  obtain ⟨u, v, hslice⟩ := h.slice
  have hcntp := h.lineFeedCnt (by simp [hw₂])
  rw [PieceTreeBase.positionInBuffer_eq hslice (by simp)] at hpos
  obtain rfl := Option.some.inj hpos
  have hright := hslice.takeRight (countBreaks w₂)
  have hcnt := PieceTreeBase.getLineFeedCnt_piece hright hw₂
  have hlen₂ := List.length_pos_iff.mpr hw₂
  obtain ⟨c, hchar, hiff⟩ := PieceTreeBase.nodeCharCodeAt_eq hslice hcntp (o := w₁.length)
    (by rw [List.length_append]; omega)
    (show LineFeed = LineFeed ∨ LineFeed = CarriageReturn from .inl rfl)
  have hhead : (w₁ ++ w₂)[w₁.length]? = w₂.head? := by
    rw [List.getElem?_append_right le_rfl, Nat.sub_self, List.head?_eq_getElem?]
  rw [hhead] at hiff
  have hoffsets : ((u.length : Int) + (w₁ ++ w₂).length) - ((u.length + w₁.length : ℕ) : Int) =
      w₂.length := by
    rw [List.length_append]
    omega
  have hstopOff := PieceTreeBase.offsetInBuffer_stop hslice
  have hposOff := PieceTreeBase.offsetInBuffer_cursorAt hslice.buffer (u.length + w₁.length)
  have htest := hguard.and (b := endsWithCR value && decide (c = some LineFeed))
    fun htest => List.mem_of_getLast? (endsWithCR_iff.mp (Bool.and_eq_true_iff.mp htest).1)
  dsimp only at hcnt
  unfold PieceTreeBase.rightOfInsert
  simp only [hstopOff, hposOff, hcnt, hchar, hoffsets, Bool.and_assoc, htest, Option.bind_eq_bind,
    Option.bind_some]
  by_cases hcase : value.getLast? = some CarriageReturn ∧ w₂.head? = some LineFeed
  · obtain ⟨hcr, hlf⟩ := hcase
    obtain ⟨w, rfl⟩ := List.head?_eq_some_iff.mp hlf
    obtain ⟨right, hwithout, hslice', hcnt', hindex, hstop⟩ := PieceTreeBase.withoutLF_eq hright
    have hmoved : (endsWithCR value && decide (c = some LineFeed)) = true := by
      rw [Bool.and_eq_true, endsWithCR_iff, decide_eq_true_eq]
      exact ⟨hcr, hiff.mpr hlf⟩
    refine ⟨right, value ++ [LineFeed], w, ?_, by simp, by simp, ⟨⟨_, _, hslice'⟩, fun _ => hcnt'⟩,
      hindex, hstop, fun y => by simp [Seam], ?_⟩
    · rw [if_pos hmoved, hwithout]
      rfl
    · rintro y ⟨hlast, hy⟩
      refine ⟨?_, hy⟩
      cases w with
      | nil => cases hlast
      | cons chr w => simpa using hlast
  · have hmoved : ¬ (endsWithCR value && decide (c = some LineFeed)) = true := by
      rw [Bool.and_eq_true, endsWithCR_iff, decide_eq_true_eq, hiff]
      exact hcase
    refine ⟨_, value, w₂, by rw [if_neg hmoved]; rfl, hv, rfl,
      ⟨⟨_, _, hright⟩, fun _ => rfl⟩, rfl, rfl, ?_, ?_⟩
    · intro y
      rwa [seam_append_right_iff hw₂]
    · rintro y hseam
      rwa [seam_append_left_iff hw₂]

theorem leftOfInsert_spec {t : PieceTreeBase} {A B : List Seg} {s : Seg} {w₁ w₂ value : Str}
    {pos : BufferCursor} (h : Layout t (A ++ s :: B)) (hguard : Guarded t w₁)
    (hs : s.text = w₁ ++ w₂) (hw₁ : w₁ ≠ []) (hw₂ : w₂ ≠ []) (hv : value ≠ [])
    (hpos : t.positionInBuffer s.piece w₁.length = some pos) :
    ∃ t' x q w, t.leftOfInsert s.id w₁.length pos value = some (t', x, decide (q.length = 0)) ∧
      Reshaped t t' ∧ Layout t' (A ++ ⟨s.id, q, w⟩ :: B) ∧ ¬ AtEnd t.lastChangeBufferPos q ∧
      w ++ x = w₁ ++ value ∧ ¬ Seam w x ∧ x.getLast? = value.getLast? ∧
      (∀ y, Seam y (w ++ x) → Seam y w₁) := by
  obtain ⟨u, v, hslice⟩ := h.fits_seg.slice
  have hcntp := h.fits_seg.lineFeedCnt (by simp [hs, hw₁])
  have hlen₁ := List.length_pos_iff.mpr hw₁
  have hcast : (w₁.length : Int) - 1 = ((w₁.length - 1 : ℕ) : Int) := by omega
  obtain ⟨c, hchar, hiff⟩ := PieceTreeBase.nodeCharCodeAt_eq hslice hcntp (o := w₁.length - 1)
    (by rw [hs, List.length_append]; omega)
    (show CarriageReturn = LineFeed ∨ CarriageReturn = CarriageReturn from .inr rfl)
  have hlast : s.text[w₁.length - 1]? = w₁.getLast? := by
    rw [hs, List.getElem?_append_left (by omega), List.getLast?_eq_getElem?]
  rw [hlast] at hiff
  rw [← hcast] at hchar
  have htest := hguard.and (b := startsWithLF value && decide (c = some CarriageReturn))
    fun htest => List.mem_of_getLast? (hiff.mp (of_decide_eq_true (Bool.and_eq_true_iff.mp htest).2))
  unfold PieceTreeBase.leftOfInsert
  simp only [h.pieceOf, hchar, Bool.and_assoc, htest, Option.bind_eq_bind, Option.bind_some]
  by_cases hcase : value.head? = some LineFeed ∧ w₁.getLast? = some CarriageReturn
  · obtain ⟨hlf, hcr⟩ := hcase
    obtain ⟨w, rfl⟩ := List.getLast?_eq_some_iff.mp hcr
    have hcut : t.positionInBuffer s.piece w.length =
        some (cursorAt (u ++ (s.text ++ v)) (u.length + w.length)) :=
      PieceTreeBase.positionInBuffer_eq hslice (by rw [hs]; simp)
    have hlen : ((w ++ [CarriageReturn]).length - 1 : Int) = w.length := by simp
    have hsplit : s.text = w ++ ([CarriageReturn] ++ w₂) := by rw [hs, List.append_assoc]
    obtain ⟨t', q, hdel, -, hend, hr, -, h'⟩ := h.deleteNodeTail hsplit hcut
    have hjoined : (startsWithLF value && decide (c = some CarriageReturn)) = true := by
      rw [Bool.and_eq_true, startsWithLF_iff, decide_eq_true_eq]
      exact ⟨hlf, hiff.mpr hcr⟩
    have hpiece := h'.pieceOf
    refine ⟨t', CarriageReturn :: value, q, w, ?_, hr, h', hend (by simp), by simp, ?_,
      List.getLast?_cons_of_ne_nil hv, ?_⟩
    · dsimp only at hpiece
      rw [if_pos hjoined, hlen, hcut, Option.bind_some, hdel, Option.bind_some, hpiece]
      rfl
    · simp [Seam, LineFeed, CarriageReturn]
    · rintro y ⟨hy, hhead⟩
      refine ⟨hy, ?_⟩
      cases w with
      | nil => simp [LineFeed, CarriageReturn] at hhead
      | cons chr w => simpa using hhead
  · obtain ⟨t', q, hdel, hqlen, hend, hr, -, h'⟩ := h.deleteNodeTail hs hpos
    have hjoined : ¬ (startsWithLF value && decide (c = some CarriageReturn)) = true := by
      rw [Bool.and_eq_true, startsWithLF_iff, decide_eq_true_eq, hiff]
      exact hcase
    refine ⟨t', value, q, w₁, ?_, hr, h', hend hw₂, rfl, fun hseam => hcase ⟨hseam.2, hseam.1⟩, rfl, ?_⟩
    · rw [if_neg hjoined, hdel, Option.bind_some, decide_eq_false (by omega)]
      rfl
    · intro y hy
      rwa [seam_append_right_iff hw₁] at hy

/-- The piece behind the insertion becomes a node if it is not empty. -/
theorem linkRight_spec {t : PieceTreeBase} {A B : List Seg} {s : Seg} {right : Piece} {w : Str}
    (h : Layout t (A ++ s :: B)) (hfit : Fits t.buffers right w)
    (hend : AtEnd t.lastChangeBufferPos right →
      ∀ m ∈ A ++ s :: B, ¬ AtEnd t.lastChangeBufferPos m.piece) :
    ∃ t' R, (if right.length > 0 then do
          let (t, _) ← t.insertRight (some s.id) right
          return t
        else some t : Option PieceTreeBase) = some t' ∧ Reshaped t t' ∧
      Layout t' (A ++ s :: (R ++ B)) ∧ textOf R = w ∧ Whole R ∧ Chain R ∧
      ∀ m ∈ R, m.piece = right := by
  have hlength := hfit.length
  by_cases hw : w = []
  · have hzero : ¬ right.length > 0 := by simp [hlength, hw]
    exact ⟨t, [], if_neg hzero, .refl t, h, hw.symm, whole_nil, chain_nil, by simp⟩
  · have hpos := List.length_pos_iff.mpr hw
    obtain ⟨t', hins, hr, h'⟩ := h.insertRight hfit hend
    refine ⟨t', [⟨t.nextId, right, w⟩], ?_, hr, h', by simp, by simp [hw], chain_singleton _, by simp⟩
    rw [if_pos (by omega), hins]
    rfl

theorem insertContentToNodeMiddle_spec {t : PieceTreeBase} {A B : List Seg} {s : Seg}
    {w₁ w₂ value : Str} {pos : BufferCursor} (h : Layout t (A ++ s :: B)) (hw : Whole (A ++ s :: B))
    (hguard : Guarded t (s.text ++ value)) (hv : value ≠ []) (hs : s.text = w₁ ++ w₂) (hw₁ : w₁ ≠ [])
    (hw₂ : w₂ ≠ []) (hpos : t.positionInBuffer s.piece w₁.length = some pos) :
    ∃ t' F, t.insertContentToNodeMiddle value s.id w₁.length pos = some t' ∧
      Changed t t' A s B F (w₁ ++ (value ++ (w₂ ++ textOf B))) := by
  obtain ⟨hA, hsne, hB⟩ : Whole A ∧ s.text ≠ [] ∧ Whole B := by simpa using hw
  obtain ⟨right, x, w, hright, hxne, hxtext, hfit, hindex, hstop, hxseam, hwseam⟩ :=
    rightOfInsert_spec (hs ▸ h.fits_seg) (hguard.mono rfl (List.subset_append_right _ _)) hw₂ hv hpos
  obtain ⟨t₁, z, q, w', hleft, hr₁, h₁, hqend, hztext, hzseam, hzlast, hzfront⟩ :=
    leftOfInsert_spec h (hguard.mono rfl (by
      rw [hs, List.append_assoc]
      exact List.subset_append_left _ _)) hs hw₁ hw₂ hxne hpos
  have hzne : z ≠ [] := by
    intro hnil
    rw [hnil, List.getLast?_nil, eq_comm, List.getLast?_eq_none_iff] at hzlast
    exact hxne hzlast
  obtain ⟨t₂, ps, hcreate, hgrown, h₂, hps, -⟩ := h₁.createNewPieces hzne
  have hfit₁ : Fits t₁.buffers right w := by rwa [hr₁.buffers]
  have hend₂ : AtEnd t₂.lastChangeBufferPos right →
      ∀ m ∈ A ++ ⟨s.id, q, w'⟩ :: B, ¬ AtEnd t₂.lastChangeBufferPos m.piece := by
    intro hend m hm
    have hlast := (hgrown.ends right w hfit₁ hend).1
    rw [hlast, hr₁.lastChangeBufferPos] at hend ⊢
    have hothers := h.other_ends ⟨hindex ▸ hend.1, hstop ▸ hend.2⟩
    simp only [List.mem_append, List.mem_cons] at hm hothers
    rcases hm with hm | rfl | hm
    · exact hothers m (.inl hm)
    · exact hqend
    · exact hothers m (.inr hm)
  obtain ⟨t₃, R, hlink, hr₃, h₃, hRtext, hRwhole, hRchain, hRpiece⟩ :=
    linkRight_spec h₂ (hgrown.fits right w hfit₁) hend₂
  have hlinkable : Linkable t₃ (A ++ ⟨s.id, q, w'⟩ :: (R ++ B)) ps := by
    refine ⟨?_, ?_, ?_⟩
    · rw [hr₃.buffers]
      exact hps.fits
    · rw [hr₃.lastChangeBufferPos]
      exact hps.ends
    · rw [hr₃.lastChangeBufferPos]
      intro e he hend m hm
      have hold := hps.fresh e he hend
      simp only [List.mem_append, List.mem_cons] at hm hold
      rcases hm with hm | hm | hm | hm
      · exact hold m (.inl hm)
      · exact hold m (.inr (.inl hm))
      · rw [hRpiece m hm]
        exact fun hright => (hgrown.ends right w hfit₁ hright).2 e he hend
      · exact hold m (.inr (.inr hm))
  obtain ⟨t₄, news, hall, hr₄, h₄, hnewsp⟩ := h₃.insertAllRight hlinkable
  obtain ⟨hnews, hcnews, htnews⟩ := hps.news hnewsp
  obtain ⟨t₅, hclean, hr₅, -, h₅⟩ := h₄.deleteIfEmpty
  have hkept : Kept t t₅ := hr₁.toKept.trans (hgrown.toKept.trans (hr₃.toKept.trans
    (hr₄.toKept.trans hr₅.toKept)))
  refine ⟨t₅, (⟨s.id, q, w'⟩ : Seg).keep ++ (news ++ (R ++ B)), ?_, hkept, h₅, ?_, ?_, ?_, ?_⟩
  · unfold PieceTreeBase.insertContentToNodeMiddle
    simp only [Option.bind_eq_bind, pure] at hlink
    dsimp only at hall hclean
    simp only [pure, h.pieceOf, hright, hleft, hcreate, hlink, hall, Option.bind_eq_bind,
      Option.bind_some]
    simpa only [decide_eq_true_eq] using hclean
  · rw [textOf_append, textOf_keep, textOf_append, htnews, textOf_append, hRtext,
      ← List.append_assoc w', hztext, List.append_assoc, ← List.append_assoc x, hxtext,
      List.append_assoc]
  · simp [hnews, hRwhole, hB]
  · intro _ hold
    obtain ⟨hcA, hcsB, hjoint⟩ := (chain_append hA (by simp [hsne, hB])).mp hold
    obtain ⟨hcB, hsB⟩ := (chain_cons hsne hB).mp hcsB
    have hRB : Whole (R ++ B) := by simp [hRwhole, hB]
    have hrest : Whole (news ++ (R ++ B)) := by simp [hnews, hRwhole, hB]
    rw [chain_append hA (by simp [hnews, hRwhole, hB]), chain_append (whole_keep _) hrest,
      chain_append hnews hRB, chain_append hRwhole hB, hRtext, htnews]
    refine ⟨hcA, ⟨chain_keep _, ⟨hcnews, ⟨hRchain, hcB, ?_⟩, ?_⟩, ?_⟩, ?_⟩
    · intro hseam
      exact hsB (by rw [hs]; exact hwseam _ hseam)
    · rw [textOf_append, hRtext, Seam, hzlast]
      exact hxseam (textOf B)
    · rw [textOf_keep, textOf_append, htnews, seam_append_right_iff hzne]
      exact hzseam
    · rw [textOf_append, textOf_keep, textOf_append, htnews, ← List.append_assoc,
        seam_append_right_iff (by simp [hzne])]
      intro hseam
      rw [textOf_cons, hs, List.append_assoc, seam_append_right_iff hw₁] at hjoint
      exact hjoint (hzfront _ hseam)
  · intro m hm
    unfold Seg.keep at hm
    split_ifs at hm with hempty
    · exact h₄.not_mem m (by
        rw [List.mem_append]
        exact .inr (List.mem_of_mem_tail hm))
    · exact h₄.not_mem m (by
        rw [List.mem_append]
        exact .inr hm)

/-! ### The operation -/

/-- The cached entry is right for the node in front of which nothing has changed. -/
theorem Changed.tracked {t t' : PieceTreeBase} {A B F : List Seg} {s : Seg} {text : Str}
    {e : CacheEntry} (h : Changed t t' A s B F text) (hlayout : Layout t (A ++ s :: B))
    (hnode : e.node = s.id) (hstart : e.nodeStartOffset = (textOf A).length)
    (hline : ∀ line, e.nodeStartLineNumber = some line → line = 1 + breaksOf A) :
    Tracked (A ++ F) e := by
  have hA : ∀ m ∈ A, m.id ≠ s.id := fun m hm => hlayout.not_mem m (List.mem_append_left B hm)
  rw [Tracked, hnode]
  rcases F with _ | ⟨f, F⟩
  · left
    simpa using hA
  · by_cases hf : f.id = s.id
    · exact .inr ⟨A, f, F, rfl, hnode.trans hf.symm, hstart, hline⟩
    · left
      intro m hm
      rcases List.mem_append.mp hm with hm | hm
      · exact hA m hm
      · rcases List.mem_cons.mp hm with rfl | hm
        · exact hf
        · exact h.start m hm

theorem Changed.sound {t t' : PieceTreeBase} {A B F : List Seg} {s : Seg} {text : Str}
    {e : CacheEntry} (h : Changed t t' A s B F text) (hsound : Sound t (A ++ s :: B))
    (hguard : Guarded t (textOf A ++ text)) (hcache : t.searchCache = [e]) (hnode : e.node = s.id)
    (hstart : e.nodeStartOffset = (textOf A).length)
    (hline : ∀ line, e.nodeStartLineNumber = some line → line = 1 + breaksOf A) :
    Sound t'.computeBufferMetadata (A ++ F) := by
  have hcache' : t'.searchCache = [e] := h.kept.searchCache.trans hcache
  have hcheck := h.kept.shouldCheckCRLF
  refine computeBufferMetadata_sound h.layout ?_ (by rw [hcache']; exact le_rfl) ?_ ?_ ?_
  · rw [whole_append]
    exact ⟨(whole_append.mp hsound.whole).1, h.whole⟩
  · rw [hcache']
    simpa using h.tracked hsound.layout hnode hstart hline
  · rw [textOf_append, h.text]
    exact hguard.mono hcheck (List.Subset.refl _)
  · exact fun hchecked => h.chain (hcheck.symm.trans hchecked) hsound.chain

theorem Layout.insertFirst {t : PieceTreeBase} {q : Piece} {w : Str} (h : Layout t [])
    (hq : Fits t.buffers q w) :
    ∃ t', t.insertLeft none q = some (t', t.nextId) ∧ Reshaped t t' ∧
      Layout t' [⟨t.nextId, q, w⟩] := by
  have hnil : t.root = nil := h.holds.eq_nil_iff.mpr rfl
  obtain ⟨root, hins, hholds⟩ := rbInsertLeft_nil (z := ⟨t.nextId, q, 0, 0⟩) none rfl
  have hlink := link (A := []) (B := []) h hq (by simp) hholds
  refine ⟨{ t with root := root, nextId := t.nextId + 1 }, ?_, hlink.1, hlink.2⟩
  simp only [PieceTreeBase.insertLeft, hnil, hins, Option.bind_eq_bind, Option.bind_some]
  rfl

/-- The first text of an empty tree. -/
theorem insert_nil {t : PieceTreeBase} (h : Sound t []) {value : Str} (hguard : Guarded t value)
    (hv : value ≠ []) :
    ∃ t' segs, (do
        let (t, pieces) ← t.createNewPieces value
        let (t, x) ← t.insertLeft none (← pieces.head?)
        return (← t.insertAllRight x pieces.tail).computeBufferMetadata) = some t' ∧
      Sound t' segs ∧ textOf segs = value ∧ SameSettings t t' := by
  obtain ⟨t₁, ps, hcreate, hgrown, h₁, hps, -⟩ := h.layout.createNewPieces hv
  cases ps with
  | nil => exact absurd hps.text.symm hv
  | cons e ps =>
    obtain ⟨p, w⟩ := e
    obtain ⟨t₂, hins, hr₂, h₂⟩ := h₁.insertFirst (hps.fits (p, w) List.mem_cons_self)
    obtain ⟨t₃, news, hall, hr₃, h₃, hnews⟩ := Layout.insertAllRight (A := []) (B := []) h₂
      (hps.toLinkable.tail hr₂ (by simp))
    obtain ⟨hwhole, hchain, htext⟩ := hps.news (show ((⟨t₁.nextId, p, w⟩ : Seg) :: news).map Seg.part = _ from by
      rw [List.map_cons, hnews]
      rfl)
    rw [List.append_nil, List.nil_append] at h₃
    have hkept : Kept t t₃ := hgrown.toKept.trans (hr₂.toKept.trans hr₃.toKept)
    have hcache : t₃.searchCache = [] := by
      rw [hkept.searchCache]
      rcases h.searchCache_cases with hcache | ⟨e, -, A, s, B, hnil, -⟩
      · exact hcache
      · simp at hnil
    refine ⟨_, _, ?_, computeBufferMetadata_sound h₃ hwhole (by simp [hcache]) (by simp [hcache])
      (hguard.mono hkept.shouldCheckCRLF (by rw [htext]; exact List.Subset.refl _))
      fun _ => hchain, htext, hkept.settings.computed⟩
    dsimp only at hall
    simp only [hcreate, List.map_cons, List.head?_cons, List.tail_cons, hins, hall,
      Option.bind_eq_bind, Option.bind_some]
    rfl

/-- A place in a node cuts its text and that of the nodes around it. -/
theorem split_text {A B : List Seg} {s : Seg} {x y : Str} (h : textOf (A ++ s :: B) = x ++ y)
    (hge : (textOf A).length ≤ x.length) (hle : x.length ≤ (textOf A).length + s.text.length) :
    ∃ w₁ w₂, s.text = w₁ ++ w₂ ∧ x = textOf A ++ w₁ ∧ y = w₂ ++ textOf B := by
  rw [textOf_append, textOf_cons] at h
  obtain ⟨w₁, rfl⟩ : textOf A <+: x := List.prefix_of_prefix_length_le ⟨_, h⟩ ⟨y, rfl⟩ hge
  rw [List.append_assoc, List.append_cancel_left_eq] at h
  rw [List.length_append] at hle
  obtain ⟨w₂, hw⟩ : w₁ <+: s.text :=
    List.prefix_of_prefix_length_le ⟨y, h.symm⟩ ⟨textOf B, rfl⟩ (by omega)
  rw [← hw, List.append_assoc, List.append_cancel_left_eq] at h
  exact ⟨w₁, w₂, hw.symm, rfl, h.symm⟩

/-- Text inserted in front of a node is spliced in; the cached entry is dropped. -/
theorem insertLeft_sound {t : PieceTreeBase} {A B : List Seg} {s : Seg}
    {e : CacheEntry} {value : Str} (h : Sound t (A ++ s :: B)) (hguard : Guarded t value)
    (hguard' : Guarded t (textOf A ++ (value ++ (s.text ++ textOf B)))) (hv : value ≠ [])
    (hcache : t.searchCache = [e]) (hstart : e.nodeStartOffset = (textOf A).length) :
    ∃ t' segs, t.insertContentToNodeLeft value s.id = some t' ∧
      Sound (t'.cacheValidate (textOf A).length).computeBufferMetadata segs ∧
      textOf segs = textOf A ++ (value ++ (s.text ++ textOf B)) ∧ SameSettings t t' := by
  obtain ⟨t', segs, hins, hkept, h', htext, hwhole, hchain⟩ :=
    insertContentToNodeLeft_spec h.layout h.whole hguard hv
  have hnone : (t'.cacheValidate (textOf A).length).searchCache = [] := by
    simp [PieceTreeBase.cacheValidate, hkept.searchCache, hcache, hstart]
  have hcheck := hkept.shouldCheckCRLF
  refine ⟨t', segs, hins, computeBufferMetadata_sound
    ⟨h'.holds, h'.distinct, h'.fresh, h'.fits, h'.changeBuffer, h'.ends⟩ hwhole
    (by simp [hnone]) (by simp [hnone]) ?_ ?_, htext, hkept.settings⟩
  · rw [htext]
    exact hguard'.mono hcheck (List.Subset.refl _)
  · exact fun hchecked => hchain (hcheck.symm.trans hchecked) h.chain

theorem insert_sound {t : PieceTreeBase} {segs : List Seg} {x y value : Str} (h : Sound t segs)
    (htext : textOf segs = x ++ y) (hv : value ≠ []) (eolNormalized : Bool)
    (hguard : eolNormalized = true → Guarded t value) :
    ∃ t' segs', t.insert x.length value eolNormalized = some t' ∧ Sound t' segs' ∧
      textOf segs' = x ++ (value ++ y) ∧ t'.eol = t.eol ∧
      t'.eolNormalized = (t.eolNormalized && eolNormalized) ∧ t'.lastVisitedLine = ⟨0, []⟩ := by
  unfold PieceTreeBase.insert
  obtain ⟨t₀, ht₀⟩ : ∃ t₀ : PieceTreeBase, t₀ = { t with
      eolNormalized := t.eolNormalized && eolNormalized, lastVisitedLine := ⟨0, []⟩ } := ⟨_, rfl⟩
  have hguard₀ : Guarded t₀ (textOf segs ++ value) := by
    cases eolNormalized with
    | false => exact .inl (by simp [ht₀, PieceTreeBase.shouldCheckCRLF])
    | true =>
      have hcheck : t₀.shouldCheckCRLF = t.shouldCheckCRLF := by
        simp [ht₀, PieceTreeBase.shouldCheckCRLF]
      rcases h.guarded with hchecked | hmem
      · exact .inl (hcheck.trans hchecked)
      · refine (hguard rfl).imp hcheck.trans fun hmem' => ?_
        rw [List.mem_append]
        exact not_or.mpr ⟨hmem, hmem'⟩
  have h₀ : Sound t₀ segs := by
    have hguard' := hguard₀.mono rfl (List.subset_append_left (textOf segs) value)
    rw [ht₀] at hguard' ⊢
    exact ⟨⟨h.layout.holds, h.layout.distinct, h.layout.fresh, h.layout.fits, h.layout.changeBuffer,
      h.layout.ends⟩, h.whole, h.length, h.lineCnt, h.cacheLimit, h.cache, hguard', h.chain⟩
  have hsettings : ∀ {t'}, SameSettings t₀ t' → t'.eol = t.eol ∧
      t'.eolNormalized = (t.eolNormalized && eolNormalized) ∧ t'.lastVisitedLine = ⟨0, []⟩ := by
    rw [ht₀]
    exact fun hsame => ⟨hsame.eol, hsame.eolNormalized, hsame.lastVisitedLine⟩
  rw [← ht₀]
  by_cases hnil : segs = []
  · subst hnil
    obtain ⟨rfl, rfl⟩ := List.append_eq_nil_iff.mp htext.symm
    obtain ⟨t', segs', hins, hsound, htext', hkept⟩ := insert_nil h₀ hguard₀ hv
    have hroot : t₀.root.isNil = true := h₀.layout.isNil_iff.mpr rfl
    refine ⟨t', segs', ?_, hsound, by simpa using htext', hsettings hkept⟩
    simp only [if_pos hroot]
    exact hins
  · have hroot : ¬ t₀.root.isNil = true := h₀.layout.isNil_iff.not.mpr hnil
    have hlen : (textOf segs).length = x.length + y.length := by rw [htext, List.length_append]
    obtain ⟨pos, t₁, hnode⟩ := h₀.nodeAt_isSome hnil (o := x.length) (by omega) (by omega)
    obtain ⟨A, s, B, e, rfl, hpos, hge, hle, ht₁, hid, hstart, hline⟩ := h₀.nodeAt_spec hnode
    have h₁ : Sound t₁ (A ++ s :: B) := by
      rw [ht₁]
      exact h₀.setCache ⟨A, s, B, rfl, hid, hstart, hline⟩
    have hcache₁ : t₁.searchCache = [e] := by rw [ht₁]
    have hsettings₁ : SameSettings t₀ t₁ := by
      rw [ht₁]
      exact ⟨rfl, rfl, rfl⟩
    have hguard₁ := hguard₀.mono hsettings₁.shouldCheckCRLF (List.Subset.refl _)
    have hguardValue := hguard₁.mono rfl (List.subset_append_right _ value)
    have hguardNode : Guarded t₁ (s.text ++ value) := hguard₁.mono rfl (by
      intro c
      simp only [textOf_append, textOf_cons, List.mem_append]
      tauto)
    obtain ⟨w₁, w₂, hw, hx, hy⟩ := split_text htext (by omega) (by omega)
    subst hx hy
    have hs : s.text ≠ [] := (whole_cons.mp (whole_append.mp h₁.whole).2).1
    have hslen : s.text.length = w₁.length + w₂.length := by rw [hw, List.length_append]
    have hlength := h₁.layout.fits_seg.length
    have hremainder : ((textOf A ++ w₁).length : Int) - (textOf A).length = w₁.length := by
      rw [List.length_append]
      omega
    obtain ⟨u, v, hslice⟩ := h₁.layout.fits_seg.slice
    have hinsPos := PieceTreeBase.positionInBuffer_eq hslice (o := w₁.length) (by omega)
    simp only [if_neg hroot, hnode, hpos, h₁.layout.pieceOf, hremainder, hinsPos,
      Option.bind_eq_bind, Option.bind_some]
    -- a change that starts at the node
    have hfinish : ∀ {t₂ F text}, Changed t₁ t₂ A s B F text →
        text = w₁ ++ (value ++ (w₂ ++ textOf B)) →
        ∃ t' segs', some t₂.computeBufferMetadata = some t' ∧ Sound t' segs' ∧
          textOf segs' = textOf A ++ w₁ ++ (value ++ (w₂ ++ textOf B)) ∧ t'.eol = t.eol ∧
          t'.eolNormalized = (t.eolNormalized && eolNormalized) ∧
          t'.lastVisitedLine = ⟨0, []⟩ := by
      rintro t₂ F text hchanged rfl
      refine ⟨_, A ++ F, rfl, hchanged.sound h₁ ?_ hcache₁ hid hstart hline, ?_, ?_⟩
      · refine hguard₁.mono rfl ?_
        rw [htext]
        intro c
        simp only [List.mem_append]
        tauto
      · rw [textOf_append, hchanged.text, List.append_assoc]
      · exact hsettings (hsettings₁.trans hchanged.kept.settings.computed)
    by_cases happend : s.piece.bufferIndex = 0 ∧ s.piece.stop.line = t₁.lastChangeBufferPos.line ∧
        s.piece.stop.column = t₁.lastChangeBufferPos.column ∧
        ((textOf A).length : Int) + s.piece.length = (textOf A ++ w₁).length ∧
        value.length < AverageBufferSize
    · rw [if_pos happend]
      obtain ⟨hindex, hstopLine, hstopColumn, hend, -⟩ := happend
      have hw₂ : w₂ = [] := List.length_eq_zero_iff.mp (by
        rw [List.length_append] at hend
        omega)
      have hatEnd : AtEnd t₁.lastChangeBufferPos s.piece :=
        ⟨hindex, by cases hp : s.piece.stop; cases hq : t₁.lastChangeBufferPos; simp_all⟩
      obtain ⟨t₂, F, hins, hchanged⟩ := appendToNode_spec h₁.layout h₁.whole hguardNode hatEnd hv
      rw [hins, Option.bind_some]
      exact hfinish hchanged (by simp [hw, hw₂])
    rw [if_neg happend]
    by_cases hfirst : ((textOf A).length : Int) = (textOf A ++ w₁).length
    · have hw₁ : w₁ = [] := List.length_eq_zero_iff.mp (by
        rw [List.length_append] at hfirst
        omega)
      subst hw₁
      have hguard' : Guarded t₁ (textOf A ++ (value ++ (s.text ++ textOf B))) := by
        refine hguard₁.mono rfl ?_
        intro c
        simp only [textOf_append, textOf_cons, List.mem_append]
        tauto
      obtain ⟨t₂, segs', hins, hsound, htext', hkept⟩ :=
        insertLeft_sound h₁ hguardValue hguard' hv hcache₁ hstart
      rw [if_pos hfirst, hins, Option.bind_some, ← hfirst]
      refine ⟨_, segs', rfl, hsound, ?_, hsettings (hsettings₁.trans ⟨hkept.eol, hkept.eolNormalized, hkept.lastVisitedLine⟩)⟩
      rw [htext', hw]
      simp
    rw [if_neg hfirst]
    by_cases hinside : ((textOf A).length : Int) + s.piece.length > (textOf A ++ w₁).length
    · have hw₁ : w₁ ≠ [] := by
        rintro rfl
        simp at hfirst
      have hw₂ : w₂ ≠ [] := by
        rintro rfl
        rw [List.length_append] at hinside
        rw [List.length_nil] at hslen
        omega
      obtain ⟨t₂, F, hins, hchanged⟩ := insertContentToNodeMiddle_spec h₁.layout h₁.whole hguardNode hv
        hw hw₁ hw₂ hinsPos
      rw [if_pos hinside, hins, Option.bind_some]
      exact hfinish hchanged rfl
    · have hw₂ : w₂ = [] := List.length_eq_zero_iff.mp (by
        rw [List.length_append] at hinside
        omega)
      obtain ⟨t₂, F, hins, hchanged⟩ :=
        insertContentToNodeRight_spec h₁.layout h₁.whole hguardValue hv
      rw [if_neg hinside, hins, Option.bind_some]
      exact hfinish hchanged (by simp [hw, hw₂])

end NexgileIde.PieceTree
