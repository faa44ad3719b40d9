import NexgileIde.PieceTree.CrlfRepair

/-!
# The invariant between operations

Between operations no piece is empty, the length and the line count are those of the text,
and the search cache holds at most one node of the tree with the place it really has.
-/
namespace NexgileIde.PieceTree

open Library RBTree Text

/-- The line breaks of the pieces, each counted by itself. -/
def breaksOf (segs : List Seg) : ℕ := (segs.map fun s => countBreaks s.text).sum

@[simp] theorem breaksOf_nil : breaksOf [] = 0 := rfl
@[simp] theorem breaksOf_cons (s : Seg) (segs : List Seg) :
    breaksOf (s :: segs) = countBreaks s.text + breaksOf segs := by simp [breaksOf]
@[simp] theorem breaksOf_append (A B : List Seg) :
    breaksOf (A ++ B) = breaksOf A + breaksOf B := by simp [breaksOf]

/-- Pieces that cut no `\r\n` have the line breaks of their text. -/
theorem breaksOf_eq {segs : List Seg} (hw : Whole segs) (hc : Chain segs) :
    breaksOf segs = countBreaks (textOf segs) := by
  induction segs with
  | nil => rfl
  | cons s segs ih =>
    obtain ⟨hs, hw⟩ := whole_cons.mp hw
    obtain ⟨hc, hseam⟩ := (chain_cons hs hw).mp hc
    rw [breaksOf_cons, textOf_cons, countBreaks_append hseam, ih hw hc]

/-- The stored sums are those of the texts. -/
theorem total_eq {buffers : List StringBuffer} {segs : List Seg}
    (hfits : ∀ s ∈ segs, Fits buffers s.piece s.text) (hw : Whole segs) :
    total (segs.map Seg.entry) = (((textOf segs).length : Int), (breaksOf segs : Int)) := by
  induction segs with
  | nil => rfl
  | cons s segs ih =>
    obtain ⟨hs, hw⟩ := whole_cons.mp hw
    have hfit := hfits s List.mem_cons_self
    rw [List.map_cons, total_cons, ih (fun m hm => hfits m (List.mem_cons_of_mem s hm)) hw]
    simp [Seg.entry, Piece.measure, hfit.length, hfit.lineFeedCnt hs]

/-- The entry is a node of the tree with the offset and the line at which it starts. -/
def Located (segs : List Seg) (e : CacheEntry) : Prop :=
  ∃ A s B, segs = A ++ s :: B ∧ e.node = s.id ∧ e.nodeStartOffset = (textOf A).length ∧
    ∀ line, e.nodeStartLineNumber = some line → line = 1 + breaksOf A

/-- An entry that is right as soon as its node is known to be in the tree. -/
def Tracked (segs : List Seg) (e : CacheEntry) : Prop :=
  (∀ m ∈ segs, m.id ≠ e.node) ∨ Located segs e

/-- The state between operations; `\r\n` is kept together by the pieces. -/
structure Sound (t : PieceTreeBase) (segs : List Seg) : Prop where
  layout : Layout t segs
  whole : Whole segs
  length : t.length = (textOf segs).length
  lineCnt : t.lineCnt = 1 + breaksOf segs
  cacheLimit : t.searchCache.length ≤ 1
  cache : ∀ e ∈ t.searchCache, Located segs e
  guarded : Guarded t (textOf segs)
  chain : Chain segs

/-- What a whole operation leaves as it finds it. -/
structure SameSettings (t t' : PieceTreeBase) : Prop where
  eol : t'.eol = t.eol
  eolNormalized : t'.eolNormalized = t.eolNormalized
  lastVisitedLine : t'.lastVisitedLine = t.lastVisitedLine

theorem SameSettings.trans {t t' t'' : PieceTreeBase} (h : SameSettings t t')
    (h' : SameSettings t' t'') : SameSettings t t'' :=
  ⟨h'.eol.trans h.eol, h'.eolNormalized.trans h.eolNormalized,
    h'.lastVisitedLine.trans h.lastVisitedLine⟩

theorem SameSettings.shouldCheckCRLF {t t' : PieceTreeBase} (h : SameSettings t t') :
    t'.shouldCheckCRLF = t.shouldCheckCRLF := by
  unfold PieceTreeBase.shouldCheckCRLF
  rw [h.eol, h.eolNormalized]

theorem SameSettings.computed {t t' : PieceTreeBase} (h : SameSettings t t') :
    SameSettings t t'.computeBufferMetadata := ⟨h.eol, h.eolNormalized, h.lastVisitedLine⟩

theorem Kept.settings {t t' : PieceTreeBase} (h : Kept t t') : SameSettings t t' :=
  ⟨h.eol, h.eolNormalized, h.lastVisitedLine⟩

theorem Layout.pieceOf_eq_none {t : PieceTreeBase} {segs : List Seg} {i : ℕ} (h : Layout t segs)
    (hi : ∀ m ∈ segs, m.id ≠ i) : t.root.pieceOf i = none := by
  have hnone : locate (fun a : TreeNode => a.id = i) t.root [] = none := by
    apply locate_eq_none
    intro a ha
    have hmem : a.entry ∈ segs.map Seg.entry := by
      rw [← h.holds.entries]
      exact List.mem_map_of_mem ha
    obtain ⟨m, hm, heq⟩ := List.mem_map.mp hmem
    have hid : m.id = a.id := congrArg Prod.fst heq
    have := hi m hm
    simp only [decide_eq_true_eq]
    omega
  simp only [Nodes.pieceOf, hnone, bind, Option.bind]

theorem bufferMetadata_eq {t : Nodes} (h : Exact t) :
    PieceTreeBase.bufferMetadata t = ((measure t).2, (measure t).1) := by
  induction t with
  | nil => rfl
  | node c l a r _ ihr =>
    obtain ⟨hl, -, hr⟩ := h
    have hleft₁ : a.sizeLeft = (measure l).1 := congrArg Prod.fst hl
    have hleft₂ : a.lfLeft = (measure l).2 := congrArg Prod.snd hl
    rw [PieceTreeBase.bufferMetadata, ihr hr, hleft₁, hleft₂, measure_node]
    simp [Piece.measure, add_assoc]

/-- Without `\r` no `\r\n` is cut in two. -/
theorem chain_of_not_mem {segs : List Seg} (h : CarriageReturn ∉ textOf segs) : Chain segs := by
  rw [Chain, Unbroken, List.isChain_iff_forall_rel_of_append_cons_cons]
  rintro u v front back hsplit
  apply not_seam_of_noCarriageReturn
  intro hmem
  apply h
  rw [textOf_eq, hsplit, List.mem_flatten]
  exact ⟨u, by simp, hmem⟩

theorem computeBufferMetadata_sound {t : PieceTreeBase} {segs : List Seg}
    (h : Layout t segs) (hw : Whole segs) (hlimit : t.searchCache.length ≤ 1)
    (hcache : ∀ e ∈ t.searchCache, Tracked segs e) (hguard : Guarded t (textOf segs))
    (hchain : t.shouldCheckCRLF = true → Chain segs) :
    Sound t.computeBufferMetadata segs := by
  have hmeta := bufferMetadata_eq h.holds.exact
  rw [h.holds.measure_eq, total_eq h.fits hw] at hmeta
  have hlayout : Layout t.computeBufferMetadata segs :=
    ⟨h.holds, h.distinct, h.fresh, h.fits, h.changeBuffer, h.ends⟩
  refine ⟨hlayout, hw, ?_, ?_, ?_, ?_, hguard, hguard.elim hchain chain_of_not_mem⟩
  · simp only [PieceTreeBase.computeBufferMetadata, PieceTreeBase.cacheValidate, hmeta]
  · simp only [PieceTreeBase.computeBufferMetadata, PieceTreeBase.cacheValidate, hmeta]
  · exact (List.length_filter_le _ _).trans hlimit
  · intro e he
    obtain ⟨hmem, htest⟩ := List.mem_filter.mp he
    rcases hcache e hmem with hnone | hlocated
    · rw [Bool.and_eq_true] at htest
      have hpiece := h.pieceOf_eq_none hnone
      have hsome := htest.1
      rw [show (t.root.pieceOf e.node).isSome = false by rw [hpiece]; rfl] at hsome
      cases hsome
    · exact hlocated

/-! ### Finding the node of an offset -/

theorem nodeAtLoop_spec {u : Nodes} (h : Exact u) {o start : Int} {pos : NodePosition}
    (hpos : PieceTreeBase.nodeAtLoop u o start = some pos) :
    ∃ A i p B, entries u = A ++ (i, p) :: B ∧
      pos = ⟨i, o - (total A).1, start + (total A).1⟩ ∧
      (total A).1 ≤ o ∧ o ≤ (total A).1 + p.length := by
  induction u generalizing o start with
  | nil => cases hpos
  | node c l a r ihl ihr =>
    obtain ⟨hleft, hl, hr⟩ := h
    have hsize : a.sizeLeft = (total (entries l)).1 := congrArg Prod.fst hleft
    rw [PieceTreeBase.nodeAtLoop] at hpos
    split_ifs at hpos with hlt hge
    · obtain ⟨A, i, p, B, hA, rfl, hbounds⟩ := ihl hl hpos
      exact ⟨A, i, p, B ++ a.entry :: entries r, by simp [hA], rfl, hbounds⟩
    · obtain rfl := Option.some.inj hpos
      refine ⟨entries l, a.id, a.piece, entries r, entries_node c l a r, by rw [hsize], ?_, ?_⟩
      · omega
      · omega
    · obtain ⟨A, i, p, B, hA, rfl, hbounds⟩ := ihr hr hpos
      have htotal : (total (entries l ++ a.entry :: A)).1 =
          a.sizeLeft + a.piece.length + (total A).1 := by
        rw [hsize]
        simp [TreeNode.entry, Piece.measure, add_assoc]
      refine ⟨entries l ++ a.entry :: A, i, p, B, by simp [hA], ?_, ?_, ?_⟩
      · rw [htotal, NodePosition.mk.injEq]
        omega
      · omega
      · omega

theorem nodeAtLoop_isSome {u : Nodes} (h : Exact u) (hne : u ≠ nil) {o : Int} (hzero : 0 ≤ o)
    (ho : o ≤ (measure u).1) (start : Int) :
    ∃ pos, PieceTreeBase.nodeAtLoop u o start = some pos := by
  induction u generalizing o start with
  | nil => exact absurd rfl hne
  | node c l a r ihl ihr =>
    obtain ⟨hleft, hl, hr⟩ := h
    have hsize : a.sizeLeft = (measure l).1 := congrArg Prod.fst hleft
    rw [measure_node] at ho
    have hsum : (measure l + (a.piece.measure + measure r)).1 =
        a.sizeLeft + a.piece.length + (measure r).1 := by
      rw [hsize]
      simp [Piece.measure, add_assoc]
    rw [PieceTreeBase.nodeAtLoop]
    split_ifs with hlt hge
    · refine ihl hl ?_ hzero (by omega) start
      rintro rfl
      simp at hsize
      omega
    · exact ⟨_, rfl⟩
    · refine ihr hr ?_ (by omega) (by omega) _
      rintro rfl
      have hnil : (measure nil).1 = 0 := rfl
      omega

theorem Layout.split_entries {t : PieceTreeBase} {segs : List Seg} {A B : List (ℕ × Piece)}
    {i : ℕ} {p : Piece} (h : Layout t segs) (hsplit : entries t.root = A ++ (i, p) :: B) :
    ∃ A' s B', segs = A' ++ s :: B' ∧ A = A'.map Seg.entry ∧ s.id = i ∧ s.piece = p := by
  rw [h.holds.entries, List.map_eq_append_iff] at hsplit
  obtain ⟨A', rest, rfl, rfl, hrest⟩ := hsplit
  rw [List.map_eq_cons_iff] at hrest
  obtain ⟨s, B', rfl, hs, -⟩ := hrest
  exact ⟨A', s, B', rfl, rfl, congrArg Prod.fst hs, congrArg Prod.snd hs⟩

namespace Sound

variable {t : PieceTreeBase} {segs : List Seg}

theorem total_front {A B : List Seg} (h : Sound t (A ++ B)) :
    total (A.map Seg.entry) = (((textOf A).length : Int), (breaksOf A : Int)) :=
  total_eq (fun m hm => h.layout.fits m (by simp [hm])) (whole_append.mp h.whole).1

theorem nodeAtLoop_eq (h : Sound t segs) {o : Int} {pos : NodePosition}
    (hpos : PieceTreeBase.nodeAtLoop t.root o 0 = some pos) :
    ∃ A s B, segs = A ++ s :: B ∧
      pos = ⟨s.id, o - (textOf A).length, (textOf A).length⟩ ∧
      ((textOf A).length : Int) ≤ o ∧ o ≤ (textOf A).length + s.text.length := by
  obtain ⟨A, i, p, B, hsplit, rfl, hge, hle⟩ := nodeAtLoop_spec h.layout.holds.exact hpos
  obtain ⟨A, s, B, rfl, rfl, rfl, rfl⟩ := h.layout.split_entries hsplit
  have hlength := h.layout.fits_seg.length
  rw [h.total_front] at hge hle ⊢
  exact ⟨A, s, B, rfl, by simp, hge, by omega⟩

theorem searchCache_cases (h : Sound t segs) :
    t.searchCache = [] ∨ ∃ e, t.searchCache = [e] ∧ Located segs e := by
  have hlimit := h.cacheLimit
  rcases hcache : t.searchCache with _ | ⟨e, _ | ⟨e', es⟩⟩
  · exact .inl rfl
  · exact .inr ⟨e, rfl, h.cache e (by simp [hcache])⟩
  · simp [hcache] at hlimit

theorem cacheSet_eq (h : Sound t segs) (e : CacheEntry) :
    t.cacheSet e = { t with searchCache := [e] } := by
  unfold PieceTreeBase.cacheSet
  rcases h.searchCache_cases with hcache | ⟨e', hcache, -⟩
  · simp [hcache]
  · simp [hcache]

theorem cacheGet_spec (h : Sound t segs) (o : Int) :
    t.cacheGet o = some none ∨ ∃ A s B e, segs = A ++ s :: B ∧ t.cacheGet o = some (some e) ∧
      t.searchCache = [e] ∧ e.node = s.id ∧ e.nodeStartOffset = (textOf A).length ∧
      (∀ line, e.nodeStartLineNumber = some line → line = 1 + breaksOf A) ∧
      ((textOf A).length : Int) ≤ o ∧ o ≤ (textOf A).length + s.text.length := by
  unfold PieceTreeBase.cacheGet
  rcases h.searchCache_cases with hcache | ⟨e, hcache, A, s, B, rfl, hnode, hstart, hline⟩
  · left
    rw [hcache]
    rfl
  · have hlength := h.layout.fits_seg.length
    by_cases hhit : e.nodeStartOffset ≤ o ∧ e.nodeStartOffset + s.piece.length ≥ o
    · refine .inr ⟨A, s, B, e, rfl, ?_, hcache, hnode, hstart, hline, by omega, by omega⟩
      rw [hcache]
      simp [PieceTreeBase.cacheGet.go, hnode, h.layout.pieceOf, hhit]
    · left
      rw [hcache]
      simp only [List.reverse_singleton, PieceTreeBase.cacheGet.go, hnode, h.layout.pieceOf,
        Option.bind_eq_bind, Option.bind_some, if_neg hhit]

/-- The cached entry is used, or the tree is searched; then the node found is cached. -/
theorem nodeAt_spec (h : Sound t segs) {o : Int} {pos : NodePosition} {t' : PieceTreeBase}
    (hpos : t.nodeAt o = some (pos, t')) :
    ∃ A s B e, segs = A ++ s :: B ∧
      pos = ⟨s.id, o - (textOf A).length, (textOf A).length⟩ ∧
      ((textOf A).length : Int) ≤ o ∧ o ≤ (textOf A).length + s.text.length ∧
      t' = { t with searchCache := [e] } ∧ e.node = s.id ∧
      e.nodeStartOffset = (textOf A).length ∧
      ∀ line, e.nodeStartLineNumber = some line → line = 1 + breaksOf A := by
  unfold PieceTreeBase.nodeAt at hpos
  rcases h.cacheGet_spec o with hget | ⟨A, s, B, e, rfl, hget, hcache, hnode, hstart, hline, hge, hle⟩
  · simp only [hget, Option.bind_eq_bind, Option.bind_some] at hpos
    obtain ⟨pos', hloop, hpos⟩ := Option.bind_eq_some_iff.mp hpos
    obtain ⟨A, s, B, rfl, rfl, hge, hle⟩ := h.nodeAtLoop_eq hloop
    obtain ⟨rfl, rfl⟩ := Prod.mk.inj (Option.some.inj hpos)
    exact ⟨A, s, B, _, rfl, rfl, hge, hle, h.cacheSet_eq _, rfl, rfl, fun _ hnone => by cases hnone⟩
  · simp only [hget, Option.bind_eq_bind, Option.bind_some] at hpos
    obtain ⟨rfl, rfl⟩ := Prod.mk.inj (Option.some.inj hpos)
    refine ⟨A, s, B, e, rfl, by rw [hnode, hstart], hge, hle, ?_, hnode, hstart, hline⟩
    rw [← hcache]

theorem nodeAt_isSome (h : Sound t segs) (hne : segs ≠ []) {o : Int} (hzero : 0 ≤ o)
    (ho : o ≤ (textOf segs).length) : ∃ pos t', t.nodeAt o = some (pos, t') := by
  unfold PieceTreeBase.nodeAt
  rcases h.cacheGet_spec o with hget | ⟨A, s, B, e, rfl, hget, -⟩
  · have hmeasure := h.layout.holds.measure_eq
    have htotal : total (segs.map Seg.entry) = (((textOf segs).length : Int), (breaksOf segs : Int)) :=
      total_eq h.layout.fits h.whole
    have hroot : t.root ≠ nil := by
      rw [Ne, h.layout.holds.eq_nil_iff, List.map_eq_nil_iff]
      exact hne
    obtain ⟨pos, hloop⟩ := nodeAtLoop_isSome h.layout.holds.exact hroot hzero
      (by rw [hmeasure, htotal]; exact ho) 0
    exact ⟨_, _, by simp only [hget, hloop, Option.bind_eq_bind, Option.bind_some]; rfl⟩
  · exact ⟨_, _, by simp only [hget, Option.bind_eq_bind, Option.bind_some]; rfl⟩

/-- Only the search cache has changed. -/
theorem setCache (h : Sound t segs) {e : CacheEntry} (he : Located segs e) :
    Sound { t with searchCache := [e] } segs :=
  ⟨⟨h.layout.holds, h.layout.distinct, h.layout.fresh, h.layout.fits, h.layout.changeBuffer,
    h.layout.ends⟩, h.whole, h.length, h.lineCnt, le_rfl, by simpa using he, h.guarded, h.chain⟩

end Sound
end NexgileIde.PieceTree
