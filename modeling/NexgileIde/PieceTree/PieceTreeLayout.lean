import NexgileIde.PieceTree.PieceSpec
import NexgileIde.PieceTree.PieceTreeEdit
import NexgileIde.PieceTree.RbTreeSpec

/-!
# The pieces of a tree with their texts

The state of a piece tree is described by the sequence of its nodes, each with its piece
and the text the piece stands for. During an operation pieces may be empty.
-/
namespace NexgileIde.PieceTree

open Library RBTree Text

/-- A node with its piece and the text of the piece. -/
structure Seg where
  id : ℕ
  piece : Piece
  text : Str

def Seg.entry (s : Seg) : ℕ × Piece := (s.id, s.piece)

def textOf (segs : List Seg) : Str := segs.flatMap Seg.text

@[simp] theorem textOf_nil : textOf [] = [] := rfl
@[simp] theorem textOf_cons (s : Seg) (segs : List Seg) :
    textOf (s :: segs) = s.text ++ textOf segs := by simp [textOf]
@[simp] theorem textOf_append (segs segs' : List Seg) :
    textOf (segs ++ segs') = textOf segs ++ textOf segs' := by simp [textOf]

/-- The piece stands for the text; the line feeds of an empty piece do not matter. -/
structure Fits (buffers : List StringBuffer) (p : Piece) (w : Str) : Prop where
  slice : ∃ u v, Slice buffers p u w v
  lineFeedCnt : w ≠ [] → p.lineFeedCnt = countBreaks w

theorem Fits.length {buffers : List StringBuffer} {p : Piece} {w : Str} (h : Fits buffers p w) :
    p.length = w.length := by
  obtain ⟨u, v, hslice⟩ := h.slice
  exact hslice.length

/-- The piece ends where the change buffer ended at the last change. -/
def AtEnd (pos : BufferCursor) (p : Piece) : Prop := p.bufferIndex = 0 ∧ p.stop = pos

/-- The nodes of the tree in order. Only one piece ends at the end of the change buffer. -/
structure Layout (t : PieceTreeBase) (segs : List Seg) : Prop where
  holds : Holds t.root (segs.map Seg.entry)
  distinct : (segs.map Seg.id).Nodup
  fresh : ∀ s ∈ segs, s.id < t.nextId
  fits : ∀ s ∈ segs, Fits t.buffers s.piece s.text
  changeBuffer : ∃ str, t.buffers[0]? = some (.ofStr str) ∧
    t.lastChangeBufferPos = cursorAt str str.length
  ends : segs.Pairwise fun s s' =>
    ¬ (AtEnd t.lastChangeBufferPos s.piece ∧ AtEnd t.lastChangeBufferPos s'.piece)

/-- What no step inside an operation changes. -/
structure Kept (t t' : PieceTreeBase) : Prop where
  eol : t'.eol = t.eol
  eolNormalized : t'.eolNormalized = t.eolNormalized
  searchCache : t'.searchCache = t.searchCache
  lastVisitedLine : t'.lastVisitedLine = t.lastVisitedLine
  nextId : t.nextId ≤ t'.nextId

/-- Only nodes change. -/
structure Reshaped (t t' : PieceTreeBase) : Prop extends Kept t t' where
  buffers : t'.buffers = t.buffers
  lastChangeBufferPos : t'.lastChangeBufferPos = t.lastChangeBufferPos

theorem Kept.refl (t : PieceTreeBase) : Kept t t := ⟨rfl, rfl, rfl, rfl, le_rfl⟩

theorem Kept.trans {t t' t'' : PieceTreeBase} (h : Kept t t') (h' : Kept t' t'') : Kept t t'' :=
  ⟨h'.eol.trans h.eol, h'.eolNormalized.trans h.eolNormalized, h'.searchCache.trans h.searchCache,
    h'.lastVisitedLine.trans h.lastVisitedLine, h.nextId.trans h'.nextId⟩

theorem Reshaped.refl (t : PieceTreeBase) : Reshaped t t := ⟨.refl t, rfl, rfl⟩

theorem Reshaped.trans {t t' t'' : PieceTreeBase} (h : Reshaped t t') (h' : Reshaped t' t'') :
    Reshaped t t'' :=
  ⟨h.toKept.trans h'.toKept, h'.buffers.trans h.buffers,
    h'.lastChangeBufferPos.trans h.lastChangeBufferPos⟩

theorem Kept.shouldCheckCRLF {t t' : PieceTreeBase} (h : Kept t t') :
    t'.shouldCheckCRLF = t.shouldCheckCRLF := by
  unfold PieceTreeBase.shouldCheckCRLF
  rw [h.eol, h.eolNormalized]

namespace Layout

variable {t : PieceTreeBase} {A B segs : List Seg} {s : Seg} {q : Piece} {w : Str}

theorem entries_split (h : Layout t (A ++ s :: B)) :
    Holds t.root (A.map Seg.entry ++ (s.id, s.piece) :: B.map Seg.entry) := by
  have hholds := h.holds
  rwa [List.map_append, List.map_cons] at hholds

theorem entries_distinct (h : Layout t (A ++ s :: B)) :
    Distinct (A.map Seg.entry ++ (s.id, s.piece) :: B.map Seg.entry) := by
  have hdistinct := h.distinct
  simpa [Distinct, Seg.entry, Function.comp_def] using hdistinct

/-- The layout of a tree whose nodes have changed. -/
theorem reshape {t' : PieceTreeBase} {segs' : List Seg} (h : Layout t segs) (hr : Reshaped t t')
    (holds : Holds t'.root (segs'.map Seg.entry)) (distinct : (segs'.map Seg.id).Nodup)
    (fresh : ∀ s ∈ segs', s.id < t'.nextId) (fits : ∀ s ∈ segs', Fits t.buffers s.piece s.text)
    (ends : segs'.Pairwise fun s s' =>
      ¬ (AtEnd t.lastChangeBufferPos s.piece ∧ AtEnd t.lastChangeBufferPos s'.piece)) :
    Layout t' segs' := by
  obtain ⟨str, hbuf, hpos⟩ := h.changeBuffer
  refine ⟨holds, distinct, fresh, ?_, ⟨str, ?_, ?_⟩, ?_⟩
  · rwa [hr.buffers]
  · rwa [hr.buffers]
  · rwa [hr.lastChangeBufferPos]
  · rwa [hr.lastChangeBufferPos]

theorem not_mem (h : Layout t (A ++ s :: B)) : ∀ m ∈ A ++ B, m.id ≠ s.id := by
  intro m hm
  have hne := h.entries_distinct.not_mem m.entry (by
    rw [← List.map_append]
    exact List.mem_map_of_mem hm)
  exact hne

/-- No other piece ends at the end of the change buffer. -/
theorem other_ends (h : Layout t (A ++ s :: B)) (hs : AtEnd t.lastChangeBufferPos s.piece) :
    ∀ m ∈ A ++ B, ¬ AtEnd t.lastChangeBufferPos m.piece := by
  have hends := h.ends
  simp only [List.pairwise_append, List.pairwise_cons, List.mem_cons, forall_eq_or_imp] at hends
  obtain ⟨-, ⟨hsB, -⟩, hAB⟩ := hends
  intro m hm hm'
  rcases List.mem_append.mp hm with hm | hm
  · exact (hAB m hm).1 ⟨hm', hs⟩
  · exact hsB m hm ⟨hs, hm'⟩

theorem pieceOf (h : Layout t (A ++ s :: B)) : t.root.pieceOf s.id = some s.piece :=
  pieceOf_eq h.entries_split h.entries_distinct

theorem next (h : Layout t (A ++ s :: B)) : t.root.next (some s.id) = some (B.head?.map Seg.id) := by
  rw [next_eq h.entries_split h.entries_distinct, List.head?_map, Option.map_map]
  rfl

theorem prev (h : Layout t (A ++ s :: B)) :
    t.root.prev (some s.id) = some (A.getLast?.map Seg.id) := by
  rw [prev_eq h.entries_split h.entries_distinct, List.getLast?_map, Option.map_map]
  rfl

theorem isNil_iff (h : Layout t segs) : t.root.isNil = true ↔ segs = [] := by
  have hiff := h.holds.eq_nil_iff
  rw [List.map_eq_nil_iff] at hiff
  rw [← hiff]
  cases t.root <;> simp [RBTree.isNil]

/-- A piece is replaced and the change of its sums is passed on; buffers may have grown in
between. -/
theorem replace {t₁ : PieceTreeBase} (h : Layout t (A ++ s :: B)) (hroot : t₁.root = t.root)
    (hid : t₁.nextId = t.nextId) (hq : Fits t₁.buffers q w)
    (hfits : ∀ m ∈ A ++ B, Fits t₁.buffers m.piece m.text)
    (hbuffer : ∃ str, t₁.buffers[0]? = some (.ofStr str) ∧
      t₁.lastChangeBufferPos = cursorAt str str.length)
    (hends : (A ++ B).Pairwise fun m m' =>
      ¬ (AtEnd t₁.lastChangeBufferPos m.piece ∧ AtEnd t₁.lastChangeBufferPos m'.piece))
    (hend : AtEnd t₁.lastChangeBufferPos q →
      ∀ m ∈ A ++ B, ¬ AtEnd t₁.lastChangeBufferPos m.piece) {d e : Int}
    (hd : d = q.length - s.piece.length) (he : e = q.lineFeedCnt - s.piece.lineFeedCnt) :
    ∃ t', t₁.replacePiece s.id q d e = some t' ∧ Reshaped t₁ t' ∧ t'.nextId = t₁.nextId ∧
      Layout t' (A ++ ⟨s.id, q, w⟩ :: B) := by
  obtain ⟨u₁, u₂, hset, hupdate, hholds⟩ := setPiece_holds h.entries_split h.entries_distinct q
  refine ⟨{ t₁ with root := u₂ }, ?_, ⟨⟨rfl, rfl, rfl, rfl, le_rfl⟩, rfl, rfl⟩, rfl,
    ⟨by simpa [Seg.entry] using hholds, by simpa using h.distinct, ?_, ?_, hbuffer, ?_⟩⟩
  · subst hd he
    simp only [PieceTreeBase.replacePiece, hroot, hset, hupdate, Option.bind_eq_bind,
      Option.bind_some]
    rfl
  · intro m hm
    have hfresh := h.fresh
    simp only [List.mem_append, List.mem_cons, hid] at hm hfresh ⊢
    rcases hm with hm | rfl | hm
    · exact hfresh m (.inl hm)
    · exact hfresh s (.inr (.inl rfl))
    · exact hfresh m (.inr (.inr hm))
  · intro m hm
    simp only [List.mem_append, List.mem_cons] at hm hfits
    rcases hm with hm | rfl | hm
    · exact hfits m (.inl hm)
    · exact hq
    · exact hfits m (.inr hm)
  · simp only [List.pairwise_append, List.pairwise_cons, List.mem_cons, List.mem_append,
      forall_eq_or_imp] at hends hend ⊢
    obtain ⟨hA, hB, hAB⟩ := hends
    exact ⟨hA, ⟨fun m hm hboth => hend hboth.1 m (.inr hm) hboth.2, hB⟩,
      fun m hm => ⟨fun hboth => hend hboth.2 m (.inl hm) hboth.1, hAB m hm⟩⟩

theorem replacePiece (h : Layout t (A ++ s :: B)) (hq : Fits t.buffers q w)
    (hend : AtEnd t.lastChangeBufferPos q → AtEnd t.lastChangeBufferPos s.piece) {d e : Int}
    (hd : d = q.length - s.piece.length) (he : e = q.lineFeedCnt - s.piece.lineFeedCnt) :
    ∃ t', t.replacePiece s.id q d e = some t' ∧ Reshaped t t' ∧ t'.nextId = t.nextId ∧
      Layout t' (A ++ ⟨s.id, q, w⟩ :: B) := by
  have hsub : (A ++ B).Sublist (A ++ s :: B) :=
    List.Sublist.append_left (List.sublist_cons_self s B) A
  refine h.replace rfl rfl hq (fun m hm => h.fits m (hsub.subset hm)) h.changeBuffer
    (h.ends.sublist hsub) (fun hatEnd => h.other_ends (hend hatEnd)) hd he

/-- A new node gets its place in the sequence. -/
theorem link {root : Nodes} (h : Layout t (A ++ B)) (hq : Fits t.buffers q w)
    (hend : AtEnd t.lastChangeBufferPos q → ∀ m ∈ A ++ B, ¬ AtEnd t.lastChangeBufferPos m.piece)
    (hholds : Holds root (A.map Seg.entry ++ (t.nextId, q) :: B.map Seg.entry)) :
    Reshaped t { t with root := root, nextId := t.nextId + 1 } ∧
      Layout { t with root := root, nextId := t.nextId + 1 } (A ++ ⟨t.nextId, q, w⟩ :: B) := by
  have hr : Reshaped t { t with root := root, nextId := t.nextId + 1 } :=
    ⟨⟨rfl, rfl, rfl, rfl, Nat.le_succ _⟩, rfl, rfl⟩
  refine ⟨hr, h.reshape hr ?_ ?_ ?_ ?_ ?_⟩
  · simpa [Seg.entry] using hholds
  · have hdistinct := h.distinct
    rw [List.map_append, List.map_cons, List.nodup_middle, List.nodup_cons, ← List.map_append]
    refine ⟨?_, hdistinct⟩
    rw [List.mem_map]
    rintro ⟨m, hm, heq⟩
    have := h.fresh m hm
    dsimp only at heq
    omega
  · intro m hm
    simp only [List.mem_append, List.mem_cons] at hm
    have hfresh := h.fresh
    simp only [List.mem_append] at hfresh
    rcases hm with hm | rfl | hm
    · exact Nat.lt_succ_of_lt (hfresh m (.inl hm))
    · exact Nat.lt_succ_self _
    · exact Nat.lt_succ_of_lt (hfresh m (.inr hm))
  · intro m hm
    simp only [List.mem_append, List.mem_cons] at hm
    have hfits := h.fits
    simp only [List.mem_append] at hfits
    rcases hm with hm | rfl | hm
    · exact hfits m (.inl hm)
    · exact hq
    · exact hfits m (.inr hm)
  · have hends := h.ends
    simp only [List.pairwise_append, List.pairwise_cons, List.mem_cons, List.mem_append,
      forall_eq_or_imp] at hends hend ⊢
    obtain ⟨hA, hB, hAB⟩ := hends
    refine ⟨hA, ⟨fun m hm hboth => hend hboth.1 m (.inr hm) hboth.2, hB⟩, fun m hm => ⟨?_, ?_⟩⟩
    · exact fun hboth => hend hboth.2 m (.inl hm) hboth.1
    · exact hAB m hm

theorem insertRight (h : Layout t (A ++ s :: B)) (hq : Fits t.buffers q w)
    (hend : AtEnd t.lastChangeBufferPos q →
      ∀ m ∈ A ++ s :: B, ¬ AtEnd t.lastChangeBufferPos m.piece) :
    ∃ t', t.insertRight (some s.id) q = some (t', t.nextId) ∧ Reshaped t t' ∧
      Layout t' (A ++ s :: ⟨t.nextId, q, w⟩ :: B) := by
  obtain ⟨root, hins, hholds⟩ := rbInsertRight_holds (z := ⟨t.nextId, q, 0, 0⟩)
    h.entries_split h.entries_distinct rfl
  have hbehind : Holds root ((A ++ [s]).map Seg.entry ++ (t.nextId, q) :: B.map Seg.entry) := by
    simpa [Seg.entry, TreeNode.entry] using hholds
  have hlink := link (A := A ++ [s]) (B := B) (t := t) (by simpa using h) hq (by simpa using hend)
    hbehind
  refine ⟨{ t with root := root, nextId := t.nextId + 1 }, ?_, hlink.1, by simpa using hlink.2⟩
  simp only [PieceTreeBase.insertRight, hins, Option.bind_eq_bind, Option.bind_some]
  rfl

theorem insertLeft (h : Layout t (A ++ s :: B)) (hq : Fits t.buffers q w)
    (hend : AtEnd t.lastChangeBufferPos q →
      ∀ m ∈ A ++ s :: B, ¬ AtEnd t.lastChangeBufferPos m.piece) :
    ∃ t', t.insertLeft (some s.id) q = some (t', t.nextId) ∧ Reshaped t t' ∧
      Layout t' (A ++ ⟨t.nextId, q, w⟩ :: s :: B) := by
  obtain ⟨root, hins, hholds⟩ := rbInsertLeft_holds (z := ⟨t.nextId, q, 0, 0⟩)
    h.entries_split h.entries_distinct rfl
  have hbefore : Holds root (A.map Seg.entry ++ (t.nextId, q) :: (s :: B).map Seg.entry) := by
    simpa [Seg.entry, TreeNode.entry] using hholds
  have hlink := link h hq hend hbefore
  refine ⟨{ t with root := root, nextId := t.nextId + 1 }, ?_, hlink.1, hlink.2⟩
  simp only [PieceTreeBase.insertLeft, hins, Option.bind_eq_bind, Option.bind_some]
  rfl

theorem deleteNode (h : Layout t (A ++ s :: B)) :
    ∃ t', t.deleteNode s.id = some t' ∧ Reshaped t t' ∧ t'.nextId = t.nextId ∧
      Layout t' (A ++ B) := by
  obtain ⟨root, hdel, hholds⟩ := rbDelete_holds h.entries_split h.entries_distinct
  have hr : Reshaped t { t with root := root } := ⟨⟨rfl, rfl, rfl, rfl, le_rfl⟩, rfl, rfl⟩
  have hsub : (A ++ B).Sublist (A ++ s :: B) :=
    List.Sublist.append_left (List.sublist_cons_self s B) A
  refine ⟨{ t with root := root }, ?_, hr, rfl, h.reshape hr ?_ ?_ ?_ ?_ ?_⟩
  · simp only [PieceTreeBase.deleteNode, hdel, Option.bind_eq_bind, Option.bind_some]
    rfl
  · simpa using hholds
  · exact h.distinct.sublist (hsub.map Seg.id)
  · exact fun m hm => h.fresh m (hsub.subset hm)
  · exact fun m hm => h.fits m (hsub.subset hm)
  · exact h.ends.sublist hsub

theorem deleteNodes {M : List Seg} (h : Layout t (A ++ (M ++ B))) :
    ∃ t', t.deleteNodes (M.map Seg.id) = some t' ∧ Reshaped t t' ∧ t'.nextId = t.nextId ∧
      Layout t' (A ++ B) := by
  induction M generalizing t with
  | nil => exact ⟨t, rfl, .refl t, rfl, h⟩
  | cons m M ih =>
    obtain ⟨t₁, hdel, hr₁, hid₁, h₁⟩ := h.deleteNode
    obtain ⟨t₂, hrest, hr₂, hid₂, h₂⟩ := ih h₁
    refine ⟨t₂, ?_, hr₁.trans hr₂, hid₂.trans hid₁, h₂⟩
    rw [PieceTreeBase.deleteNodes] at hrest ⊢
    simp only [List.map_cons, List.foldlM_cons, hdel, Option.bind_eq_bind, Option.bind_some]
    exact hrest

end Layout
end NexgileIde.PieceTree
