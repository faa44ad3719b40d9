import NexgileIde.PieceTree.InsertSpec

/-!
# Deletion cuts the text

The nodes at the ends of the deleted range are shortened, those between are unlinked, and
the joint that appears is repaired.
-/
namespace NexgileIde.PieceTree

open Library RBTree Text

/-! ### Joints -/

/-- The nodes `A` and `B`, which have come together, have become `segs`. -/
structure Joined (t t' : PieceTreeBase) (A B segs : List Seg) : Prop where
  kept : Kept t t'
  layout : Layout t' segs
  text : textOf segs = textOf A ++ textOf B
  whole : Whole segs
  chain : t.shouldCheckCRLF = true → Chain A → Chain B → Chain segs
  ids : ∀ m ∈ segs, (∃ m' ∈ A ++ B, m'.id = m.id) ∨ t.nextId ≤ m.id
  front : ∀ A' r, A = A' ++ [r] → ∃ rest, segs = A' ++ rest ∧ ∀ m ∈ rest.tail, m.id ≠ r.id

theorem validateJoint_spec {t : PieceTreeBase} {A B : List Seg} (h : Layout t (A ++ B))
    (hA : Whole A) (hB : Whole B) :
    ∃ t' segs, t.validateCRLFWithPrevNode (B.head?.map Seg.id) = some t' ∧
      t.validateCRLFWithNextNode (A.getLast?.map Seg.id) = some t' ∧ Joined t t' A B segs := by
  rcases B with _ | ⟨s, B⟩
  · refine ⟨t, A, ?_, ?_, .refl t, by simpa using h, by simp, hA, fun _ hcA _ => hcA,
      fun m hm => .inl ⟨m, by simpa using hm, rfl⟩, ?_⟩
    · simp [PieceTreeBase.validateCRLFWithPrevNode, PieceTreeBase.startWithLF]
    · unfold PieceTreeBase.validateCRLFWithNextNode
      rcases List.eq_nil_or_concat' A with rfl | ⟨A, r, rfl⟩
      · simp [PieceTreeBase.endWithCR]
      · have h' : Layout t (A ++ r :: []) := by simpa using h
        have hr : r.text ≠ [] := by simpa using (whole_append.mp hA).2
        have hend := h'.endWithCR hr
        have hnext := h'.next
        simp only [List.getLast?_concat, Option.map_some, hend, hnext, List.head?_nil,
          Option.map_none, PieceTreeBase.startWithLF, Option.bind_eq_bind, Option.bind_some]
        split_ifs <;> simp_all
    · rintro A' r rfl
      exact ⟨[r], rfl, by simp⟩
  · obtain ⟨hs, hB⟩ := whole_cons.mp hB
    obtain ⟨t', F, hprev, hnext, hrep⟩ := validateCRLF_spec h hA hs
    refine ⟨t', F ++ B, hprev, hnext, hrep.kept, hrep.layout, ?_, ?_, ?_, ?_, ?_⟩
    · rw [textOf_append, hrep.text, textOf_cons, List.append_assoc]
    · rw [whole_append]
      exact ⟨hrep.whole, hB⟩
    · exact fun hcheck hcA hcB => hrep.chain_behind hs hB hcheck hcA hcB
    · intro m hm
      rcases List.mem_append.mp hm with hm | hm
      · refine (hrep.ids m hm).imp_left ?_
        rintro ⟨m', hm', hid⟩
        refine ⟨m', ?_, hid⟩
        simp only [List.mem_append, List.mem_cons, List.mem_nil_iff, or_false] at hm' ⊢
        tauto
      · exact .inl ⟨m, by simp [hm], rfl⟩
    · rintro A' r rfl
      obtain ⟨rest, rfl, hrest⟩ := hrep.front A' r rfl
      refine ⟨rest ++ B, by simp, ?_⟩
      have hother : ∀ m ∈ B, m.id ≠ r.id := by
        intro m hm
        have h' : Layout t (A' ++ r :: s :: B) := by simpa using h
        exact h'.not_mem m (by simp [hm])
      intro m hm
      rcases rest with _ | ⟨f, rest⟩
      · exact hother m (List.mem_of_mem_tail hm)
      · rw [List.cons_append, List.tail_cons, List.mem_append] at hm
        exact hm.elim (hrest m) (hother m)

/-- What is left of a node at its start. -/
theorem chain_takeLeft {A B : List Seg} {s : Seg} {w₁ w₂ : Str} (hw : Whole (A ++ s :: B))
    (h : Chain (A ++ s :: B)) (hs : s.text = w₁ ++ w₂) (q : Piece) :
    Chain (A ++ (⟨s.id, q, w₁⟩ : Seg).keep) := by
  obtain ⟨hA, hsB⟩ := whole_append.mp hw
  obtain ⟨hcA, -, hjoint⟩ := (chain_append hA hsB).mp h
  rw [chain_append hA (whole_keep _)]
  refine ⟨hcA, chain_keep _, ?_⟩
  rw [textOf_keep]
  rintro ⟨hlast, hhead⟩
  refine hjoint ⟨hlast, ?_⟩
  cases w₁ with
  | nil => cases hhead
  | cons chr w₁ => simpa [hs] using hhead

/-- What is left of a node at its end. -/
theorem chain_takeRight {B : List Seg} {s : Seg} {w₁ w₂ : Str} (hw : Whole (s :: B))
    (h : Chain (s :: B)) (hs : s.text = w₁ ++ w₂) (i : ℕ) (q : Piece) :
    Chain ((⟨i, q, w₂⟩ : Seg).keep ++ B) := by
  obtain ⟨hsne, hB⟩ := whole_cons.mp hw
  obtain ⟨hcB, hseam⟩ := (chain_cons hsne hB).mp h
  rw [chain_append (whole_keep _) hB]
  refine ⟨chain_keep _, hcB, ?_⟩
  rw [textOf_keep]
  rintro ⟨hlast, hhead⟩
  refine hseam ⟨?_, hhead⟩
  by_cases hw₂ : w₂ = []
  · subst hw₂
    cases hlast
  · rwa [hs, List.getLast?_append_of_ne_nil _ hw₂]

theorem Chain.right {A B : List Seg} (hw : Whole (A ++ B)) (h : Chain (A ++ B)) : Chain B :=
  ((chain_append (whole_append.mp hw).1 (whole_append.mp hw).2).mp h).2.1

theorem Chain.left {A B : List Seg} (hw : Whole (A ++ B)) (h : Chain (A ++ B)) : Chain A :=
  ((chain_append (whole_append.mp hw).1 (whole_append.mp hw).2).mp h).1

theorem Seg.keep_eq {i : ℕ} {q : Piece} {w : Str} (hw : w ≠ []) :
    (⟨i, q, w⟩ : Seg).keep = [⟨i, q, w⟩] := if_neg hw

theorem Joined.sound {t t' : PieceTreeBase} {A B segs : List Seg}
    (h : Joined t t' A B segs) (hlimit : t.searchCache.length ≤ 1)
    (hcache : ∀ e ∈ t.searchCache, Tracked segs e) (hguard : Guarded t (textOf A ++ textOf B))
    (hA : Chain A) (hB : Chain B) : Sound t'.computeBufferMetadata segs := by
  have hcheck := h.kept.shouldCheckCRLF
  refine computeBufferMetadata_sound h.layout h.whole ?_ ?_ ?_ ?_
  · rwa [h.kept.searchCache]
  · rwa [h.kept.searchCache]
  · rw [h.text]
    exact hguard.mono hcheck (List.Subset.refl _)
  · exact fun hchecked => h.chain (hcheck.symm.trans hchecked) hA hB

/-! ### Within a node -/

section InNode

variable {t : PieceTreeBase} {A B : List Seg} {s : Seg} {e : CacheEntry}
  {w₁ w₂ m : Str} {pos : BufferCursor}

/-- A node is unlinked. -/
theorem deleteWhole_sound (h : Sound t (A ++ s :: B)) (hcache : t.searchCache = [e])
    (hnode : e.node = s.id) :
    ∃ t₁ t₂ segs, t.deleteNode s.id = some t₁ ∧
      t₁.validateCRLFWithPrevNode (B.head?.map Seg.id) = some t₂ ∧
      Sound t₂.computeBufferMetadata segs ∧ textOf segs = textOf A ++ textOf B ∧
      SameSettings t t₂ := by
  obtain ⟨hA, hsB⟩ := whole_append.mp h.whole
  obtain ⟨hs, hB⟩ := whole_cons.mp hsB
  obtain ⟨t₁, hdel, hr, hid, h₁⟩ := h.layout.deleteNode
  obtain ⟨t₂, segs, hval, -, hjoined⟩ := validateJoint_spec h₁ hA hB
  have hcache₁ : t₁.searchCache = [e] := hr.searchCache.trans hcache
  refine ⟨t₁, t₂, segs, hdel, hval, hjoined.sound (by simp [hcache₁]) ?_ ?_
    (h.chain.left h.whole) ((chain_cons hs hB).mp (h.chain.right h.whole)).1, hjoined.text,
    hr.toKept.settings.trans hjoined.kept.settings⟩
  · rw [hcache₁]
    simp only [List.mem_singleton, forall_eq]
    left
    intro m hm
    rw [hnode]
    have hfresh := h.layout.fresh s (by simp)
    rcases hjoined.ids m hm with ⟨m', hm', heq⟩ | hge
    · rw [← heq]
      exact h.layout.not_mem m' hm'
    · omega
  · refine h.guarded.mono hr.shouldCheckCRLF ?_
    intro c
    simp only [textOf_append, textOf_cons, List.mem_append]
    tauto

/-- The start of a node is deleted. -/
theorem deleteHead_sound (h : Sound t (A ++ s :: B)) (hcache : t.searchCache = [e])
    (hstart : e.nodeStartOffset = (textOf A).length) (hs : s.text = m ++ w₂) (hw₂ : w₂ ≠ [])
    (hpos : t.positionInBuffer s.piece m.length = some pos) :
    ∃ t₁ t₂ segs, t.deleteNodeHead s.id pos = some t₁ ∧
      (t₁.cacheValidate (textOf A).length).validateCRLFWithPrevNode (some s.id) = some t₂ ∧
      Sound t₂.computeBufferMetadata segs ∧
      textOf segs = textOf A ++ (w₂ ++ textOf B) ∧ SameSettings t t₂ := by
  obtain ⟨hA, hsB⟩ := whole_append.mp h.whole
  obtain ⟨hsne, hB⟩ := whole_cons.mp hsB
  obtain ⟨t₁, q, hdel, -, hr, hid, h₁⟩ := h.layout.deleteNodeHead hs hpos
  have hcache₁ : (t₁.cacheValidate (textOf A).length).searchCache = [] := by
    simp [PieceTreeBase.cacheValidate, hr.searchCache, hcache, hstart]
  have h₁' : Layout (t₁.cacheValidate (textOf A).length) (A ++ ⟨s.id, q, w₂⟩ :: B) :=
    ⟨h₁.holds, h₁.distinct, h₁.fresh, h₁.fits, h₁.changeBuffer, h₁.ends⟩
  obtain ⟨t₂, segs, hval, -, hjoined⟩ := validateJoint_spec h₁' hA (by simp [hw₂, hB])
  have hright := chain_takeRight hsB (h.chain.right h.whole) hs s.id q
  rw [Seg.keep_eq hw₂] at hright
  have hsame : SameSettings t (t₁.cacheValidate (textOf A).length) :=
    ⟨hr.eol, hr.eolNormalized, hr.lastVisitedLine⟩
  refine ⟨t₁, t₂, segs, hdel, hval, hjoined.sound (by simp [hcache₁]) (by simp [hcache₁]) ?_
    (h.chain.left h.whole) hright, ?_, hsame.trans hjoined.kept.settings⟩
  · refine h.guarded.mono hsame.shouldCheckCRLF ?_
    intro c
    simp only [textOf_append, textOf_cons, hs, List.mem_append]
    tauto
  · rw [hjoined.text, textOf_cons]

/-- The end of a node is deleted. -/
theorem deleteTail_spec (h : Layout t (A ++ s :: B)) (hw : Whole (A ++ s :: B))
    (hs : s.text = w₁ ++ m) (hw₁ : w₁ ≠ []) (hpos : t.positionInBuffer s.piece w₁.length = some pos) :
    ∃ t₁ t₂ F, t.deleteNodeTail s.id pos = some t₁ ∧
      t₁.validateCRLFWithNextNode (some s.id) = some t₂ ∧
      Changed t t₂ A s B F (w₁ ++ textOf B) := by
  obtain ⟨hA, hsB⟩ := whole_append.mp hw
  obtain ⟨hsne, hB⟩ := whole_cons.mp hsB
  obtain ⟨t₁, q, hdel, -, -, hr, hid, h₁⟩ := h.deleteNodeTail hs hpos
  have h₁' : Layout t₁ ((A ++ [⟨s.id, q, w₁⟩]) ++ B) := by simpa using h₁
  obtain ⟨t₂, segs, -, hval, hjoined⟩ := validateJoint_spec h₁' (by simp [hA, hw₁]) hB
  obtain ⟨F, rfl, hF⟩ := hjoined.front A ⟨s.id, q, w₁⟩ rfl
  rw [List.getLast?_concat, Option.map_some] at hval
  refine ⟨t₁, t₂, F, hdel, hval, hr.toKept.trans hjoined.kept, hjoined.layout, ?_,
    (whole_append.mp hjoined.whole).2, ?_, hF⟩
  · have htext := hjoined.text
    simpa using htext
  · intro hcheck hchain
    have hleft := chain_takeLeft hw hchain hs q
    rw [Seg.keep_eq hw₁] at hleft
    exact hjoined.chain (hr.shouldCheckCRLF.trans hcheck) hleft
      ((chain_cons hsne hB).mp (hchain.right hw)).1

/-- A node is split around the deleted text. -/
theorem shrinkNode_spec {pos' : BufferCursor} (h : Layout t (A ++ s :: B)) (hw : Whole (A ++ s :: B))
    (hs : s.text = w₁ ++ m ++ w₂) (hw₁ : w₁ ≠ []) (hw₂ : w₂ ≠ [])
    (hpos : t.positionInBuffer s.piece w₁.length = some pos)
    (hpos' : t.positionInBuffer s.piece (w₁ ++ m).length = some pos') :
    ∃ t' F, t.shrinkNode s.id pos pos' = some t' ∧
      Changed t t' A s B F (w₁ ++ (w₂ ++ textOf B)) := by
  obtain ⟨hA, hsB⟩ := whole_append.mp hw
  obtain ⟨hsne, hB⟩ := whole_cons.mp hsB
  obtain ⟨u, v, hslice⟩ := h.fits_seg.slice
  have hsplit : w₁ ++ m ++ w₂ = w₁ ++ (m ++ w₂) := List.append_assoc _ _ _
  rw [PieceTreeBase.positionInBuffer_eq hslice (by simp [hs])] at hpos
  rw [PieceTreeBase.positionInBuffer_eq hslice (by rw [hs]; simp)] at hpos'
  obtain rfl := Option.some.inj hpos
  obtain rfl := Option.some.inj hpos'
  rw [hs] at hslice ⊢
  have hright := hslice.takeRight (countBreaks w₂)
  have hslice' := hslice
  rw [hsplit] at hslice'
  have hleft := hslice'.takeLeft (countBreaks w₁)
  rw [← hsplit] at hleft
  have hleftCnt := PieceTreeBase.getLineFeedCnt_piece hleft hw₁
  have hstart := PieceTreeBase.offsetInBuffer_start hslice
  have hcut := PieceTreeBase.offsetInBuffer_cursorAt hslice.buffer (u.length + w₁.length)
  have hlen₁ : ((u.length + w₁.length : ℕ) : Int) - u.length = w₁.length := by omega
  have hend := h.not_atEnd hleft (by simp [hw₂])
  obtain ⟨t₁, hrep, hr₁, hid₁, h₁⟩ := h.replacePiece (w := w₁)
    (d := w₁.length - s.piece.length) (e := countBreaks w₁ - s.piece.lineFeedCnt)
    ⟨⟨_, _, hleft⟩, fun _ => rfl⟩ (fun hq => absurd hq hend) rfl rfl
  have hright₁ : Fits t₁.buffers ⟨s.piece.bufferIndex,
      cursorAt (u ++ (w₁ ++ m ++ w₂ ++ v)) (u.length + (w₁ ++ m).length), s.piece.stop,
      countBreaks w₂, w₂.length⟩ w₂ := by
    rw [hr₁.buffers]
    exact ⟨⟨_, _, hright⟩, fun _ => rfl⟩
  obtain ⟨t₂, hins, hr₂, h₂⟩ := h₁.insertRight hright₁ (by
    rw [hr₁.lastChangeBufferPos]
    intro hatEnd n hn
    have hothers := h.other_ends hatEnd
    simp only [List.mem_append, List.mem_cons] at hn hothers
    rcases hn with hn | rfl | hn
    · exact hothers n (.inl hn)
    · exact hend
    · exact hothers n (.inr hn))
  obtain ⟨left, hleftSeg⟩ : ∃ left : Seg, left = ⟨s.id, ⟨s.piece.bufferIndex, s.piece.start,
      cursorAt (u ++ (w₁ ++ m ++ w₂ ++ v)) (u.length + w₁.length), countBreaks w₁, w₁.length⟩, w₁⟩ :=
    ⟨_, rfl⟩
  obtain ⟨n, hn⟩ : ∃ n : Seg, n = ⟨t₁.nextId, ⟨s.piece.bufferIndex,
      cursorAt (u ++ (w₁ ++ m ++ w₂ ++ v)) (u.length + (w₁ ++ m).length), s.piece.stop,
      countBreaks w₂, w₂.length⟩, w₂⟩ := ⟨_, rfl⟩
  rw [← hleftSeg, ← hn] at h₂
  have hleftText : left.text = w₁ := by rw [hleftSeg]
  have hnText : n.text = w₂ := by rw [hn]
  have h₂' : Layout t₂ ((A ++ [left]) ++ n :: B) := by simpa using h₂
  obtain ⟨t₃, segs, hval, -, hjoined⟩ := validateJoint_spec h₂' (by simp [hA, hleftText, hw₁])
    (by simp [hnText, hw₂, hB])
  obtain ⟨F, rfl, hF⟩ := hjoined.front A left rfl
  have hkept : Kept t t₃ := hr₁.toKept.trans (hr₂.toKept.trans hjoined.kept)
  refine ⟨t₃, F, ?_, hkept, hjoined.layout, ?_, (whole_append.mp hjoined.whole).2, ?_, ?_⟩
  · have hrightCnt := PieceTreeBase.getLineFeedCnt_piece (t := t₁) (hr₁.buffers ▸ hright) hw₂
    have hslice₁ : Slice t₁.buffers s.piece u (w₁ ++ m ++ w₂) v := by rwa [hr₁.buffers]
    have hstop₁ := PieceTreeBase.offsetInBuffer_stop hslice₁
    have hcut₁ := PieceTreeBase.offsetInBuffer_cursorAt hslice₁.buffer (u.length + (w₁ ++ m).length)
    have hlen₂ : (u.length : Int) + (w₁ ++ m ++ w₂).length -
        ((u.length + (w₁ ++ m).length : ℕ) : Int) = w₂.length := by
      have hlength : (w₁ ++ m ++ w₂).length = (w₁ ++ m).length + w₂.length := List.length_append
      omega
    unfold PieceTreeBase.shrinkNode
    dsimp only at hleftCnt hrightCnt
    simp only [h.pieceOf, hleftCnt, hcut, hstart, hlen₁, hrep, hrightCnt, hstop₁, hcut₁, hlen₂,
      Option.bind_eq_bind, Option.bind_some]
    dsimp only at hins
    rw [hn, List.head?_cons, Option.map_some] at hval
    rw [hins, Option.bind_some]
    exact hval
  · have htext := hjoined.text
    simpa [hleftText, hnText] using htext
  · intro hcheck hchain
    have hcA := chain_takeLeft hw hchain (show s.text = w₁ ++ (m ++ w₂) from by rw [hs, hsplit])
      left.piece
    have hcB := chain_takeRight hsB (hchain.right hw) hs t₁.nextId n.piece
    rw [Seg.keep_eq hw₁] at hcA
    rw [Seg.keep_eq hw₂] at hcB
    refine hjoined.chain ((hr₂.shouldCheckCRLF.trans hr₁.shouldCheckCRLF).trans hcheck) ?_ ?_
    · rw [hleftSeg] at hcA ⊢
      exact hcA
    · rw [hn] at hcB ⊢
      exact hcB
  · intro k hk
    have := hF k hk
    rwa [hleftSeg] at this

end InNode

/-! ### Across nodes -/

theorem PieceTreeBase.deleteNodes_append (t : PieceTreeBase) (nodes nodes' : List ℕ) :
    t.deleteNodes (nodes ++ nodes') = (t.deleteNodes nodes).bind (·.deleteNodes nodes') :=
  List.foldlM_append

namespace Layout

variable {t : PieceTreeBase} {segs A A' B B' : List Seg} {s s' : Seg}

theorem length_toList (h : Layout t segs) : t.root.toList.length = segs.length := by
  have hentries := congrArg List.length h.holds.entries
  simpa [entries] using hentries

/-- A node has one place in the sequence. -/
theorem split_unique (h : Layout t (A ++ s :: B)) (heq : A ++ s :: B = A' ++ s' :: B')
    (hid : s'.id = s.id) : A' = A ∧ s' = s ∧ B' = B := by
  have hdistinct := h.distinct
  rcases List.append_eq_append_iff.mp heq with ⟨C, rfl, hC⟩ | ⟨C, rfl, hC⟩
  · rcases C with _ | ⟨c, C⟩
    · simp_all
    · obtain ⟨rfl, rfl⟩ := List.cons.inj hC
      have hne := h.not_mem s' (by simp)
      exact absurd hid hne
  · rcases C with _ | ⟨c, C⟩
    · simp_all
    · obtain ⟨rfl, rfl⟩ := List.cons.inj hC
      have hne := h.not_mem s' (by simp)
      exact absurd hid hne

theorem nodesUpTo {C : List Seg} (h : Layout t (A ++ (C ++ s :: B))) {fuel : ℕ}
    (hfuel : C.length < fuel) :
    t.nodesUpTo s.id fuel ((C ++ s :: B).head?.map Seg.id) = some (C.map Seg.id) := by
  induction C generalizing A fuel with
  | nil =>
    obtain ⟨fuel, rfl⟩ := Nat.exists_eq_add_one_of_ne_zero (Nat.ne_of_gt hfuel)
    simp [PieceTreeBase.nodesUpTo]
  | cons c C ih =>
    obtain ⟨fuel, rfl⟩ := Nat.exists_eq_add_one_of_ne_zero (by omega : fuel ≠ 0)
    have h' : Layout t (A ++ c :: (C ++ s :: B)) := by simpa using h
    have hbehind : Layout t ((A ++ [c]) ++ (C ++ s :: B)) := by simpa using h
    have hne : ¬ c.id = s.id := fun heq => h'.not_mem s (by simp) heq.symm
    have hnext := h'.next
    have hrest := ih hbehind (by simpa using hfuel)
    rw [List.cons_append, List.head?_cons, Option.map_some, PieceTreeBase.nodesUpTo, if_neg hne, hnext]
    simp only [Option.bind_eq_bind, Option.bind_some, hrest]
    rfl

end Layout

section Across

variable {t : PieceTreeBase} {A B C : List Seg} {s s' : Seg} {w₁ w₂ m₁ m₂ : Str}

theorem Layout.cacheValidate {segs : List Seg} (h : Layout t segs) (offset : Int) :
    Layout (t.cacheValidate offset) segs :=
  ⟨h.holds, h.distinct, h.fresh, h.fits, h.changeBuffer, h.ends⟩

theorem Layout.positionInBuffer (h : Layout t (A ++ s :: B)) {o : ℕ} (ho : o ≤ s.text.length) :
    ∃ pos, t.positionInBuffer s.piece o = some pos := by
  obtain ⟨u, v, hslice⟩ := h.fits_seg.slice
  exact ⟨_, PieceTreeBase.positionInBuffer_eq hslice ho⟩

/-- The emptied nodes at the ends and the nodes between them are unlinked. -/
theorem unlinkAcross (h : Layout t (A ++ s :: (C ++ s' :: B))) :
    ∃ t', t.deleteNodes ((if s.piece.length = 0 then [s.id] else []) ++
        ((if s'.piece.length = 0 then [s'.id] else []) ++ C.map Seg.id)) = some t' ∧
      Reshaped t t' ∧ Layout t' ((A ++ s.keep) ++ (s'.keep ++ B)) := by
  obtain ⟨t₁, hdel₁, hr₁, -, h₁⟩ := h.deleteIfEmpty
  have h₁' : Layout t₁ ((A ++ s.keep ++ C) ++ s' :: B) := by simpa using h₁
  obtain ⟨t₂, hdel₂, hr₂, -, h₂⟩ := h₁'.deleteIfEmpty
  have h₂' : Layout t₂ ((A ++ s.keep) ++ (C ++ (s'.keep ++ B))) := by simpa using h₂
  obtain ⟨t₃, hdel₃, hr₃, -, h₃⟩ := h₂'.deleteNodes
  refine ⟨t₃, ?_, (hr₁.trans hr₂).trans hr₃, h₃⟩
  rw [PieceTreeBase.deleteNodes_append, hdel₁, Option.bind_some, PieceTreeBase.deleteNodes_append,
    hdel₂, Option.bind_some, hdel₃]

/-- The nodes at the ends are cut and those between them go. -/
theorem deleteAcross_sound (h : Sound t (A ++ s :: (C ++ s' :: B)))
    (hcache : ∀ e ∈ t.searchCache, e.nodeStartOffset ≥ (textOf A ++ w₁).length)
    (hs : s.text = w₁ ++ m₁) (hs' : s'.text = m₂ ++ w₂) (start start' : Int) :
    ∃ t' segs, t.deleteAcross (textOf A ++ w₁).length ⟨s.id, w₁.length, start⟩
        ⟨s'.id, m₂.length, start'⟩ = some t' ∧ Sound t' segs ∧
      textOf segs = textOf A ++ (w₁ ++ (w₂ ++ textOf B)) ∧ SameSettings t t' := by
  obtain ⟨hA, hsB⟩ := whole_append.mp h.whole
  obtain ⟨-, hCB⟩ := whole_cons.mp hsB
  have hB : Whole B := (whole_cons.mp (whole_append.mp hCB).2).2
  obtain ⟨pos, hpos⟩ := h.layout.positionInBuffer (o := w₁.length) (by simp [hs])
  obtain ⟨t₁, q, htail, hq, -, hr₁, -, h₁⟩ := h.layout.deleteNodeTail hs hpos
  obtain ⟨t₂, ht₂⟩ : ∃ t₂, t₂ = t₁.cacheValidate (textOf A ++ w₁).length := ⟨_, rfl⟩
  have h₂ : Layout t₂ (A ++ ⟨s.id, q, w₁⟩ :: (C ++ s' :: B)) := by
    rw [ht₂]
    exact h₁.cacheValidate _
  have hcache₂ : t₂.searchCache = [] := by
    rw [ht₂, PieceTreeBase.cacheValidate, hr₁.searchCache, List.filter_eq_nil_iff]
    intro e he
    have hge := hcache e he
    rw [List.length_append, Nat.cast_add] at hge
    simp [hge]
  have h₂' : Layout t₂ ((A ++ ⟨s.id, q, w₁⟩ :: C) ++ s' :: B) := by simpa using h₂
  obtain ⟨pos', hpos'⟩ := h₂'.positionInBuffer (o := m₂.length) (by simp [hs'])
  obtain ⟨t₃, q', hhead, hq', hr₃, -, h₃⟩ := h₂'.deleteNodeHead hs' hpos'
  have h₃' : Layout t₃ (A ++ ⟨s.id, q, w₁⟩ :: (C ++ ⟨s'.id, q', w₂⟩ :: B)) := by simpa using h₃
  have h₃'' : Layout t₃ ((A ++ [⟨s.id, q, w₁⟩]) ++ (C ++ ⟨s'.id, q', w₂⟩ :: B)) := by
    simpa using h₃
  have hfuel : C.length < t₃.root.toList.length := by
    rw [h₃''.length_toList]
    simp only [List.length_append, List.length_cons]
    omega
  have hbetween := h₃''.nodesUpTo hfuel
  obtain ⟨t₄, hunlink, hr₄, h₄⟩ := unlinkAcross h₃'
  obtain ⟨t₅, segs, -, hval, hjoined⟩ := validateJoint_spec h₄ (by simp [hA]) (by simp [hB])
  have hprev : (if q.length = 0 then t₃.root.prev (some s.id) else some (some s.id)) =
      some ((A ++ (⟨s.id, q, w₁⟩ : Seg).keep).getLast?.map Seg.id) := by
    by_cases hw₁ : w₁ = []
    · rw [if_pos (by simp [hq, hw₁]), Seg.keep, if_pos hw₁, List.append_nil]
      exact h₃'.prev
    · have hlength := List.length_pos_iff.mpr hw₁
      rw [if_neg (by omega), Seg.keep, if_neg hw₁, List.getLast?_concat]
      rfl
  have hcache₄ : t₄.searchCache = [] := by rw [hr₄.searchCache, hr₃.searchCache, hcache₂]
  have hsame : SameSettings t t₄ := by
    have hcut : SameSettings t t₂ := by
      rw [ht₂]
      exact ⟨hr₁.eol, hr₁.eolNormalized, hr₁.lastVisitedLine⟩
    exact hcut.trans (hr₃.toKept.settings.trans hr₄.toKept.settings)
  have hleft := chain_takeLeft h.whole h.chain hs q
  have hwhole' : Whole ((A ++ s :: C) ++ s' :: B) := by simpa using h.whole
  have hchain' : Chain ((A ++ s :: C) ++ s' :: B) := by simpa using h.chain
  have hright := chain_takeRight (whole_append.mp hwhole').2 (hchain'.right hwhole') hs' s'.id q'
  refine ⟨t₅.computeBufferMetadata, segs, ?_, hjoined.sound (by simp [hcache₄]) (by simp [hcache₄]) ?_
    hleft hright, ?_, (hsame.trans hjoined.kept.settings).computed⟩
  · have hpiece₂ := h₂.pieceOf
    have hpiece₂' := h₂'.pieceOf
    have hpiece₃ := h₃.pieceOf
    have hnext := h₃'.next
    dsimp only at hpiece₂ hpiece₃ hnext hunlink hbetween
    unfold PieceTreeBase.deleteAcross
    simp only [h.layout.pieceOf, hpos, htail, ← ht₂, hpiece₂, hpiece₂', hpos', hhead, hpiece₃, hnext,
      hbetween, hprev, hunlink, hval, Option.bind_eq_bind, Option.bind_some]
    rfl
  · refine h.guarded.mono hsame.shouldCheckCRLF ?_
    intro c
    simp only [textOf_append, textOf_cons, textOf_keep, hs, hs', List.mem_append]
    tauto
  · rw [hjoined.text]
    simp

end Across

/-! ### The operation -/

theorem deleteInNode_sound {t : PieceTreeBase} {A B : List Seg} {s : Seg}
    {e : CacheEntry} {w₁ w₂ m : Str} (h : Sound t (A ++ s :: B)) (hcache : t.searchCache = [e])
    (hnode : e.node = s.id) (hstart : e.nodeStartOffset = (textOf A).length)
    (hline : ∀ line, e.nodeStartLineNumber = some line → line = 1 + breaksOf A)
    (hs : s.text = w₁ ++ m ++ w₂) (start : Int) :
    ∃ t' segs, t.deleteInNode (textOf A ++ w₁).length m.length
        ⟨s.id, w₁.length, (textOf A).length⟩ ⟨s.id, (w₁ ++ m).length, start⟩ = some t' ∧
      Sound t' segs ∧ textOf segs = textOf A ++ (w₁ ++ (w₂ ++ textOf B)) ∧
      SameSettings t t' := by
  have hlength : s.piece.length = w₁.length + m.length + w₂.length := by
    rw [h.layout.fits_seg.length, hs]
    simp [add_assoc]
  have hoffset : ((textOf A ++ w₁).length : Int) = (textOf A).length + w₁.length := by simp
  obtain ⟨pos, hpos⟩ := h.layout.positionInBuffer (o := w₁.length) (by rw [hs]; simp)
  obtain ⟨pos', hpos'⟩ := h.layout.positionInBuffer (o := (w₁ ++ m).length) (by rw [hs]; simp)
  unfold PieceTreeBase.deleteInNode
  simp only [h.layout.pieceOf, hpos, hpos', Option.bind_eq_bind, Option.bind_some]
  -- the node is shortened from its end or split
  have hfinish : ∀ {t₂ F}, Changed t t₂ A s B F (w₁ ++ (w₂ ++ textOf B)) →
      ∃ t' segs, some t₂.computeBufferMetadata = some t' ∧ Sound t' segs ∧
        textOf segs = textOf A ++ (w₁ ++ (w₂ ++ textOf B)) ∧ SameSettings t t' := by
    intro t₂ F hchanged
    refine ⟨_, A ++ F, rfl, hchanged.sound h ?_ hcache hnode hstart hline, ?_, ?_⟩
    · refine h.guarded.mono rfl ?_
      intro c
      simp only [textOf_append, textOf_cons, hs, List.mem_append]
      tauto
    · rw [textOf_append, hchanged.text]
    · exact hchanged.kept.settings.computed
  by_cases hw₁ : w₁ = []
  · subst hw₁
    rw [List.nil_append] at hs hpos'
    rw [if_pos (by simp)]
    by_cases hw₂ : w₂ = []
    · subst hw₂
      obtain ⟨t₁, t₂, segs, hdel, hval, hsound, htext, hsame⟩ :=
        deleteWhole_sound h hcache hnode
      rw [if_pos (by simp [hlength]), h.layout.next, Option.bind_some, hdel, Option.bind_some, hval]
      exact ⟨_, segs, rfl, hsound, by simpa using htext, hsame.computed⟩
    · have hw₂len := List.length_pos_iff.mpr hw₂
      obtain ⟨t₁, t₂, segs, hdel, hval, hsound, htext, hsame⟩ :=
        deleteHead_sound h hcache hstart hs hw₂ hpos'
      rw [if_neg (by omega), hdel, Option.bind_some, List.append_nil, hval]
      exact ⟨_, segs, rfl, hsound, htext, hsame.computed⟩
  · have hw₁len := List.length_pos_iff.mpr hw₁
    rw [if_neg (by omega)]
    by_cases hw₂ : w₂ = []
    · subst hw₂
      rw [List.append_nil] at hs
      obtain ⟨t₁, t₂, F, hdel, hval, hchanged⟩ := deleteTail_spec h.layout h.whole hs hw₁ hpos
      rw [List.length_nil] at hlength
      rw [if_pos (by omega), hdel, Option.bind_some, hval]
      exact hfinish hchanged
    · have hw₂len := List.length_pos_iff.mpr hw₂
      obtain ⟨t₂, F, hshrink, hchanged⟩ :=
        shrinkNode_spec h.layout h.whole hs hw₁ hw₂ hpos hpos'
      rw [if_neg (by omega), hshrink]
      exact hfinish hchanged

/-- The text of a range is cut out of the text. -/
theorem delete_sound {t : PieceTreeBase} {segs : List Seg} {x m y : Str}
    (h : Sound t segs) (htext : textOf segs = x ++ (m ++ y)) :
    ∃ t' segs', t.delete x.length m.length = some t' ∧ Sound t' segs' ∧
      textOf segs' = x ++ y ∧ t'.eol = t.eol ∧ t'.eolNormalized = t.eolNormalized ∧
      t'.lastVisitedLine = ⟨0, []⟩ := by
  obtain ⟨t₀, ht₀⟩ : ∃ t₀ : PieceTreeBase, t₀ = { t with lastVisitedLine := ⟨0, []⟩ } := ⟨_, rfl⟩
  have h₀ : Sound t₀ segs := by
    rw [ht₀]
    exact ⟨⟨h.layout.holds, h.layout.distinct, h.layout.fresh, h.layout.fits, h.layout.changeBuffer,
      h.layout.ends⟩, h.whole, h.length, h.lineCnt, h.cacheLimit, h.cache, h.guarded,
      h.chain⟩
  have hsettings : ∀ {t'}, SameSettings t₀ t' → t'.eol = t.eol ∧
      t'.eolNormalized = t.eolNormalized ∧ t'.lastVisitedLine = ⟨0, []⟩ := by
    rw [ht₀]
    exact fun hsame => ⟨hsame.eol, hsame.eolNormalized, hsame.lastVisitedLine⟩
  unfold PieceTreeBase.delete
  rw [← ht₀]
  by_cases hm : m = []
  · subst hm
    exact ⟨t₀, segs, if_pos (by simp), h₀, by simpa using htext, hsettings ⟨rfl, rfl, rfl⟩⟩
  have hmlen := List.length_pos_iff.mpr hm
  have hlen : (textOf segs).length = x.length + (m.length + y.length) := by
    rw [htext, List.length_append, List.length_append]
  have hne : segs ≠ [] := by
    rintro rfl
    rw [textOf_nil, List.length_nil] at hlen
    omega
  have hroot : ¬ t₀.root.isNil = true := h₀.layout.isNil_iff.not.mpr hne
  rw [if_neg (by simp [hm, hroot])]
  obtain ⟨pos, t₁, hnode⟩ := h₀.nodeAt_isSome hne (o := x.length) (by omega) (by omega)
  obtain ⟨A, s, B, e, rfl, rfl, hge, hle, ht₁, hid, hstart, hline⟩ := h₀.nodeAt_spec hnode
  have h₁ : Sound t₁ (A ++ s :: B) := by
    rw [ht₁]
    exact h₀.setCache ⟨A, s, B, rfl, hid, hstart, hline⟩
  obtain ⟨pos', t₂, hnode'⟩ := h₁.nodeAt_isSome hne (o := x.length + m.length) (by omega) (by omega)
  obtain ⟨A', s', B', e', hsplit, rfl, hge', hle', ht₂, hid', hstart', hline'⟩ :=
    h₁.nodeAt_spec hnode'
  have h₂ : Sound t₂ (A ++ s :: B) := by
    rw [ht₂]
    exact h₁.setCache ⟨A', s', B', hsplit, hid', hstart', hline'⟩
  have hcache₂ : t₂.searchCache = [e'] := by rw [ht₂]
  have hsettings₂ : SameSettings t₀ t₂ := by
    rw [ht₂, ht₁]
    exact ⟨rfl, rfl, rfl⟩
  obtain ⟨w₁, w, hw, rfl, hrest⟩ := split_text htext (by omega) (by omega)
  have htext' : textOf (A' ++ s' :: B') = (textOf A ++ w₁ ++ m) ++ y := by
    rw [← hsplit, htext]
    simp
  have hrange : ((textOf A ++ w₁ ++ m).length : Int) = (textOf A ++ w₁).length + m.length := by
    simp [add_assoc]
  obtain ⟨v, w₂, hv, hx', rfl⟩ := split_text htext' (by omega) (by omega)
  have hremainder : ((textOf A ++ w₁).length : Int) - (textOf A).length = w₁.length := by simp
  simp only [hnode, hnode', Option.bind_eq_bind, Option.bind_some, hremainder]
  by_cases hsame : s.id = s'.id
  · rw [if_pos hsame]
    obtain ⟨rfl, rfl, rfl⟩ := h₂.layout.split_unique hsplit hsame.symm
    rw [List.append_assoc, List.append_cancel_left_eq] at hx'
    subst hx'
    have hend : ((textOf A' ++ w₁).length : Int) + m.length - (textOf A').length =
        (w₁ ++ m).length := by
      simp only [List.length_append, Nat.cast_add]
      omega
    obtain ⟨t', segs', hdel, hsound, htext'', hsame'⟩ :=
      deleteInNode_sound h₂ hcache₂ hid' hstart' hline' hv (textOf A').length
    rw [hend, hdel]
    exact ⟨t', segs', rfl, hsound, by rw [htext'']; simp, hsettings (hsettings₂.trans hsame')⟩
  · rw [if_neg hsame]
    have hwlen : s.text.length = w₁.length + w.length := by rw [hw, List.length_append]
    -- the node in which the range ends is behind the one in which it starts
    obtain ⟨C, rfl, rfl⟩ : ∃ C, A' = A ++ s :: C ∧ B = C ++ s' :: B' := by
      rcases List.append_eq_append_iff.mp hsplit with ⟨_ | ⟨c, C⟩, hA, hC⟩ | ⟨_ | ⟨c, C⟩, hA, hC⟩
      · exact absurd (congrArg Seg.id (List.cons.inj hC).1) hsame
      · obtain ⟨rfl, hB⟩ := List.cons.inj hC
        exact ⟨C, hA, hB⟩
      · exact absurd (congrArg Seg.id (List.cons.inj hC).1).symm hsame
      · obtain ⟨rfl, -⟩ := List.cons.inj hC
        have hAlen : (textOf A).length = (textOf A').length + (s'.text.length + (textOf C).length) := by
          rw [hA]
          simp
        omega
    have hend : ((textOf A ++ w₁).length : Int) + m.length - (textOf (A ++ s :: C)).length =
        v.length := by
      rw [← hrange, hx', List.length_append, Nat.cast_add]
      omega
    have hcache : ∀ e ∈ t₂.searchCache, e.nodeStartOffset ≥ (textOf A ++ w₁).length := by
      rw [hcache₂]
      simp only [List.mem_singleton, forall_eq, hstart', textOf_append, textOf_cons,
        List.length_append]
      omega
    obtain ⟨t', segs', hdel, hsound, htext'', hsame'⟩ :=
      deleteAcross_sound h₂ hcache hw hv (textOf A).length (textOf (A ++ s :: C)).length
    rw [hend, hdel]
    exact ⟨t', segs', rfl, hsound, by rw [htext'']; simp, hsettings (hsettings₂.trans hsame')⟩

end NexgileIde.PieceTree
