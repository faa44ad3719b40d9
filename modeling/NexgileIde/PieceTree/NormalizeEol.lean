import NexgileIde.PieceTree.DeleteSpec
import NexgileIde.Text.LineBreaks

/-!
# Creation of the tree and normalisation of its line ends

A tree is built from chunks of text, one piece for each. To normalise the line ends the
contents of the pieces are collected into chunks, each chunk is normalised by itself, and the
tree is built anew from the results.
-/
namespace NexgileIde.PieceTree

open Library RBTree Text

namespace PieceTreeBase

/-- The contents `iterate` comes across; a sentinel has none. -/
def iterateContents (t : PieceTreeBase) : Nodes → Option (List Str)
  | nil => some [[]]
  | node _ l a r => do
    let left ← t.iterateContents l
    let content ← t.getPieceContent a.piece
    let right ← t.iterateContents r
    return left ++ content :: right

/-- The variables of `normalizeEOL`. -/
structure Collected where
  tempChunk : Str
  tempChunkLen : ℕ
  chunks : List StringBuffer

def minChunk : ℕ := AverageBufferSize - AverageBufferSize / 3

def maxChunk : ℕ := minChunk * 2

def normalizedChunk (eol : EndOfLine) (tempChunk : Str) : StringBuffer :=
  .ofStr (replaceEOL eol.toStr tempChunk)

/-- The callback of `normalizeEOL` for the content of a node. -/
def collect (eol : EndOfLine) (state : Collected) (str : Str) : Collected :=
  if state.tempChunkLen ≤ minChunk ∨ state.tempChunkLen + str.length < maxChunk then
    { state with
      tempChunk := state.tempChunk ++ str
      tempChunkLen := state.tempChunkLen + str.length }
  else ⟨str, str.length, state.chunks ++ [normalizedChunk eol state.tempChunk]⟩

def normalizeEOL (t : PieceTreeBase) (eol : EndOfLine) : Option PieceTreeBase := do
  let state := (← t.iterateContents t.root).foldl (collect eol) ⟨[], 0, []⟩
  let chunks := if state.tempChunkLen > 0
    then state.chunks ++ [normalizedChunk eol state.tempChunk] else state.chunks
  create chunks eol true

def setEOL (t : PieceTreeBase) (newEOL : EndOfLine) : Option PieceTreeBase :=
  normalizeEOL { t with eol := newEOL } newEOL

end PieceTreeBase

/-! ### Creation -/

/-- A new buffer behind the others. -/
theorem Layout.pushBuffer {t : PieceTreeBase} {segs : List Seg} (h : Layout t segs)
    (b : StringBuffer) : Layout { t with buffers := t.buffers ++ [b] } segs := by
  obtain ⟨str, hbuf, hpos⟩ := h.changeBuffer
  refine ⟨h.holds, h.distinct, h.fresh, fun m hm => (h.fits m hm).append, ⟨str, ?_, hpos⟩, h.ends⟩
  rw [List.getElem?_append_left (List.getElem?_eq_some_iff.mp hbuf).1]
  exact hbuf

/-- A piece of a read-only buffer becomes the last node. -/
theorem Layout.insertLast {t : PieceTreeBase} {A : List Seg} {q : Piece} {w : Str} (h : Layout t A)
    (hq : Fits t.buffers q w) (hindex : q.bufferIndex ≠ 0) :
    ∃ t', t.insertRight (A.getLast?.map Seg.id) q = some (t', t.nextId) ∧ Reshaped t t' ∧
      Layout t' (A ++ [⟨t.nextId, q, w⟩]) := by
  have hend : ¬ AtEnd t.lastChangeBufferPos q := fun hatEnd => hindex hatEnd.1
  rcases List.eq_nil_or_concat' A with rfl | ⟨A, s, rfl⟩
  · have hnil : t.root = nil := h.holds.eq_nil_iff.mpr rfl
    obtain ⟨root, hins, hholds⟩ := rbInsertRight_nil (z := ⟨t.nextId, q, 0, 0⟩) none rfl
    have hlink := Layout.link (A := []) (B := []) h hq (by simp) hholds
    refine ⟨{ t with root := root, nextId := t.nextId + 1 }, ?_, hlink.1, hlink.2⟩
    simp only [PieceTreeBase.insertRight, hnil, List.getLast?_nil, Option.map_none, hins,
      Option.bind_eq_bind, Option.bind_some]
    rfl
  · obtain ⟨t', hins, hr, h'⟩ := h.insertRight hq fun hatEnd => absurd hatEnd hend
    refine ⟨t', ?_, hr, by simpa using h'⟩
    rw [List.getLast?_concat]
    exact hins

theorem createLoop_nil {t : PieceTreeBase} {lastNode : Option ℕ} {i : ℕ} {texts : List Str}
    (h : ∀ w ∈ texts, w = []) : t.createLoop lastNode i (texts.map .ofStr) = some t := by
  induction texts generalizing i with
  | nil => rfl
  | cons w texts ih =>
    have hw := h w List.mem_cons_self
    subst hw
    rw [List.map_cons, PieceTreeBase.createLoop, if_neg (by simp [StringBuffer.ofStr])]
    exact ih fun w hw => h w (List.mem_cons_of_mem [] hw)

/-- Each chunk gets a buffer and a node, as long as none before it is empty. -/
theorem createLoop_spec {t : PieceTreeBase} {A : List Seg} {texts empties : List Str} {i : ℕ}
    (h : Layout t A) (hbuffers : t.buffers.length = i + 1) (htexts : ∀ w ∈ texts, w ≠ [])
    (hempties : ∀ w ∈ empties, w = []) :
    ∃ t' news, t.createLoop (A.getLast?.map Seg.id) i ((texts ++ empties).map .ofStr) = some t' ∧
      Kept t t' ∧ Layout t' (A ++ news) ∧ news.map Seg.text = texts := by
  induction texts generalizing t A i with
  | nil => exact ⟨t, [], createLoop_nil hempties, .refl t, by simpa using h, rfl⟩
  | cons w texts ih =>
    have hw := htexts w List.mem_cons_self
    have hlen := List.length_pos_iff.mpr hw
    have hget : (t.buffers ++ [StringBuffer.ofStr w])[i + 1]? = some (.ofStr w) := by
      rw [← hbuffers, List.getElem?_concat_length]
    obtain ⟨hslice, hcount⟩ := slice_wholePiece hget
    obtain ⟨t₁, hins, hr, h₁⟩ := (h.pushBuffer (.ofStr w)).insertLast
      ⟨⟨_, _, hslice⟩, fun _ => hcount⟩ (Nat.succ_ne_zero i)
    obtain ⟨t', news, hloop, hkept, h', hnews⟩ := ih h₁ (i := i + 1)
      (by rw [hr.buffers]; simp [hbuffers]) fun v hv => htexts v (List.mem_cons_of_mem w hv)
    rw [List.getLast?_concat, Option.map_some] at hloop
    have hpush : Kept t { t with buffers := t.buffers ++ [.ofStr w] } := ⟨rfl, rfl, rfl, rfl, le_rfl⟩
    refine ⟨t', _ :: news, ?_, hpush.trans (hr.toKept.trans hkept), by simpa using h', ?_⟩
    · rw [List.cons_append, List.map_cons, PieceTreeBase.createLoop,
        if_pos (by simpa [StringBuffer.ofStr] using hlen)]
      simp only [hins, Option.bind_eq_bind, Option.bind_some]
      exact hloop
    · rw [List.map_cons, hnews]

theorem create_sound {texts empties : List Str} (htexts : ∀ w ∈ texts, w ≠ [])
    (hempties : ∀ w ∈ empties, w = []) (eol : EndOfLine) (eolNormalized : Bool)
    (hguard : eolNormalized = false ∨ eol = .crlf ∨ CarriageReturn ∉ texts.flatten)
    (hunbroken : Unbroken texts) :
    ∃ t segs, PieceTreeBase.create ((texts ++ empties).map .ofStr) eol eolNormalized = some t ∧
      Sound t segs ∧ segs.map Seg.text = texts ∧ t.eol = eol ∧
      t.eolNormalized = eolNormalized := by
  obtain ⟨t₀, ht₀⟩ : ∃ t₀ : PieceTreeBase, t₀ = {
      root := nil, buffers := [⟨[], [0]⟩], lineCnt := 1, length := 0, eol := eol,
      eolNormalized := eolNormalized, lastChangeBufferPos := ⟨0, 0⟩, searchCache := [],
      lastVisitedLine := ⟨0, []⟩, nextId := 0 } := ⟨_, rfl⟩
  have h₀ : Layout t₀ [] := by
    rw [ht₀]
    exact ⟨holds_nil, List.nodup_nil, by simp, by simp, ⟨[], rfl, rfl⟩, .nil⟩
  obtain ⟨t, segs, hloop, hkept, h, htext⟩ := createLoop_spec h₀ (i := 0) (by simp [ht₀]) htexts hempties
  have hcache : t.searchCache = [] := by
    rw [hkept.searchCache, ht₀]
  refine ⟨t.computeBufferMetadata, segs, ?_, ?_, htext, ?_, ?_⟩
  · rw [PieceTreeBase.create]
    simp only [← ht₀, Option.bind_eq_bind]
    rw [List.getLast?_nil, Option.map_none] at hloop
    rw [hloop]
    rfl
  · rw [List.nil_append] at h
    refine computeBufferMetadata_sound h ?_ (by simp [hcache]) (by simp [hcache]) ?_ ?_
    · intro m hm
      apply htexts
      rw [← htext]
      exact List.mem_map_of_mem hm
    · rw [Guarded, hkept.shouldCheckCRLF, textOf_eq, htext, ht₀]
      rcases hguard with rfl | rfl | hmem
      · exact .inl rfl
      · exact .inl (by simp [PieceTreeBase.shouldCheckCRLF])
      · exact .inr hmem
    · intro _
      rwa [Chain, htext]
  · rw [show t.computeBufferMetadata.eol = t.eol from rfl, hkept.eol, ht₀]
  · rw [show t.computeBufferMetadata.eolNormalized = t.eolNormalized from rfl,
      hkept.eolNormalized, ht₀]

/-! ### Collecting the contents -/

theorem uncut_of_unbroken {texts : List Str} (h : Unbroken (texts.filter (· ≠ []))) :
    Uncut texts := by
  rintro front back rfl
  have hne : ∀ part : List Str, ∀ w ∈ part.filter (· ≠ []), w ≠ [] := by
    intro part w hw
    simpa using (List.mem_filter.mp hw).2
  rw [List.filter_append, unbroken_append (hne front) (hne back)] at h
  have hseam := h.2.2
  rwa [List.flatten_filter_ne_nil, List.flatten_filter_ne_nil] at hseam

theorem iterateContents_spec {t : PieceTreeBase} {u : Nodes} {M : List Seg}
    (hentries : entries u = M.map Seg.entry) (hfits : ∀ m ∈ M, Fits t.buffers m.piece m.text) :
    ∃ contents, t.iterateContents u = some contents ∧
      contents.filter (· ≠ []) = (M.map Seg.text).filter (· ≠ []) := by
  induction u generalizing M with
  | nil =>
    obtain rfl := List.map_eq_nil_iff.mp hentries.symm
    exact ⟨[[]], rfl, rfl⟩
  | node c l a r ihl ihr =>
    rw [entries_node, eq_comm, List.map_eq_append_iff] at hentries
    obtain ⟨A, rest, rfl, hl, hrest⟩ := hentries
    obtain ⟨s, B, rfl, hs, hr⟩ := List.map_eq_cons_iff.mp hrest
    obtain ⟨left, hleft, hleftText⟩ := ihl hl.symm fun m hm => hfits m (by simp [hm])
    obtain ⟨right, hright, hrightText⟩ := ihr hr.symm fun m hm => hfits m (by simp [hm])
    obtain ⟨x, v, hslice⟩ := (hfits s (by simp)).slice
    have hpiece : s.piece = a.piece := congrArg Prod.snd hs
    rw [hpiece] at hslice
    refine ⟨left ++ s.text :: right, ?_, ?_⟩
    · simp only [PieceTreeBase.iterateContents, hleft, hright,
        PieceTreeBase.getPieceContent_eq hslice, Option.bind_eq_bind, Option.bind_some]
      rfl
    · simp only [List.filter_append, List.filter_cons, List.map_append, List.map_cons, hleftText,
        hrightText]

/-- The chunks made are groups of the contents, and the text not yet flushed is the rest. -/
def Gathered (eol : EndOfLine) (state : PieceTreeBase.Collected) (contents : List Str) : Prop :=
  ∃ (groups : List (List Str)) (rest : List Str), contents = groups.flatten ++ rest ∧
    state.chunks = groups.map (fun group => PieceTreeBase.normalizedChunk eol group.flatten) ∧
    state.tempChunk = rest.flatten ∧ state.tempChunkLen = rest.flatten.length ∧
    ∀ group ∈ groups, group.flatten ≠ []

theorem collect_gathered {eol : EndOfLine} {state : PieceTreeBase.Collected} {contents : List Str}
    (h : Gathered eol state contents) (str : Str) :
    Gathered eol (PieceTreeBase.collect eol state str) (contents ++ [str]) := by
  obtain ⟨groups, rest, rfl, hchunks, htemp, hlen, hgroups⟩ := h
  unfold PieceTreeBase.collect
  split_ifs with hroom
  · exact ⟨groups, rest ++ [str], by simp, hchunks, by simp [htemp], by simp [hlen], hgroups⟩
  · have hrest : rest.flatten ≠ [] := by
      rw [hlen] at hroom
      rw [← List.length_pos_iff]
      omega
    refine ⟨groups ++ [rest], [str], by simp, by simp [hchunks, htemp], by simp, by simp, ?_⟩
    intro group hgroup
    rcases List.mem_append.mp hgroup with hgroup | hgroup
    · exact hgroups group hgroup
    · rwa [List.mem_singleton.mp hgroup]

theorem foldl_collect_gathered {eol : EndOfLine} {state : PieceTreeBase.Collected}
    {contents : List Str} (h : Gathered eol state contents) (more : List Str) :
    Gathered eol (more.foldl (PieceTreeBase.collect eol) state) (contents ++ more) := by
  induction more generalizing state contents with
  | nil => simpa using h
  | cons str more ih =>
    have hrest := ih (collect_gathered h str)
    rwa [List.append_assoc] at hrest

theorem isEol_toStr (eol : EndOfLine) : IsEol eol.toStr := by
  cases eol <;> exact ⟨by decide, by decide⟩

theorem toStr_ne_nil (eol : EndOfLine) : eol.toStr ≠ [] := by
  cases eol <;> decide

/-- What `normalizeEOL` builds the new tree from. -/
theorem chunks_spec (eol : EndOfLine) {contents : List Str} (h : Uncut contents) :
    ∃ texts : List Str, (let state := contents.foldl (PieceTreeBase.collect eol) ⟨[], 0, []⟩
        if state.tempChunkLen > 0
          then state.chunks ++ [PieceTreeBase.normalizedChunk eol state.tempChunk]
          else state.chunks) = texts.map .ofStr ∧
      texts.flatten = replaceEOL eol.toStr contents.flatten ∧
      ∀ w ∈ texts, w ≠ [] ∧ w.getLast? ≠ some CarriageReturn := by
  have hstart : Gathered eol ⟨[], 0, []⟩ [] := ⟨[], [], rfl, rfl, rfl, rfl, by simp⟩
  obtain ⟨groups, rest, hsplit, hchunks, htemp, hlen, hgroups⟩ :=
    foldl_collect_gathered hstart contents
  rw [List.nil_append] at hsplit
  have hcut : Uncut (groups ++ [rest]).flatten := by
    rw [List.flatten_append, List.flatten_singleton, ← hsplit]
    exact h
  have hreplace := replaceEOL_flatten eol.toStr hcut.groups
  rw [← List.flatten_flatten, List.flatten_append, List.flatten_singleton, ← hsplit] at hreplace
  have hgroup : ∀ group ∈ groups, replaceEOL eol.toStr group.flatten ≠ [] ∧
      (replaceEOL eol.toStr group.flatten).getLast? ≠ some CarriageReturn := fun group hgroup =>
    ⟨(replaceEOL_eq_nil (toStr_ne_nil eol)).not.mpr (hgroups group hgroup),
      getLast?_replaceEOL (isEol_toStr eol) _⟩
  dsimp only
  rw [hlen, hchunks, htemp]
  by_cases hrest : rest.flatten = []
  · refine ⟨groups.map fun group => replaceEOL eol.toStr group.flatten, ?_, ?_, ?_⟩
    · rw [if_neg (by simp [hrest]), List.map_map]
      rfl
    · rw [← hreplace]
      simp [hrest, replaceEOL, Function.comp_def]
    · simpa using hgroup
  · have hpos := List.length_pos_iff.mpr hrest
    refine ⟨(groups ++ [rest]).map fun group => replaceEOL eol.toStr group.flatten, ?_, ?_, ?_⟩
    · rw [if_pos hpos]
      simp [PieceTreeBase.normalizedChunk]
    · rw [← hreplace, List.map_map]
      rfl
    · intro w hw
      obtain ⟨group, hmem, rfl⟩ := List.mem_map.mp hw
      rcases List.mem_append.mp hmem with hmem | hmem
      · exact hgroup group hmem
      · rw [List.mem_singleton.mp hmem]
        exact ⟨(replaceEOL_eq_nil (toStr_ne_nil eol)).not.mpr hrest,
          getLast?_replaceEOL (isEol_toStr eol) _⟩

theorem unbroken_of_getLast? {texts : List Str} (h : ∀ w ∈ texts, w.getLast? ≠ some CarriageReturn) :
    Unbroken texts := by
  rw [Unbroken, List.isChain_iff_forall_rel_of_append_cons_cons]
  rintro u v front back rfl ⟨hlast, -⟩
  exact h u (by simp) hlast

/-- The line ends of the whole text are replaced, though each chunk is treated by itself. -/
theorem setEOL_sound {t : PieceTreeBase} {segs : List Seg} (h : Sound t segs) (newEOL : EndOfLine) :
    ∃ t' segs', t.setEOL newEOL = some t' ∧ Sound t' segs' ∧
      textOf segs' = replaceEOL newEOL.toStr (textOf segs) ∧ t'.lineCnt = t.lineCnt ∧
      t'.eol = newEOL ∧ t'.eolNormalized = true := by
  obtain ⟨contents, hiterate, hcontents⟩ :=
    iterateContents_spec (t := { t with eol := newEOL }) h.layout.holds.entries h.layout.fits
  have hwhole : (segs.map Seg.text).filter (· ≠ []) = segs.map Seg.text := by
    rw [List.filter_eq_self]
    intro w hw
    obtain ⟨m, hm, rfl⟩ := List.mem_map.mp hw
    simpa using h.whole m hm
  rw [hwhole] at hcontents
  have hcut : Uncut contents := by
    apply uncut_of_unbroken
    rw [hcontents]
    exact h.chain
  have htext : contents.flatten = textOf segs := by
    rw [textOf_eq, ← hcontents, List.flatten_filter_ne_nil]
  obtain ⟨texts, hchunks, htexts, hlast⟩ := chunks_spec newEOL hcut
  rw [htext] at htexts
  have hguard : newEOL = .crlf ∨ CarriageReturn ∉ texts.flatten := by
    rw [htexts]
    cases newEOL with
    | crlf => exact .inl rfl
    | lf => exact .inr (not_mem_replaceEOL (by decide) _)
  obtain ⟨t', segs', hcreate, hsound, hsegs, heol, hnormalized⟩ :=
    create_sound (fun w hw => (hlast w hw).1) (List.forall_mem_nil _) newEOL true (.inr hguard)
      (unbroken_of_getLast? fun w hw => (hlast w hw).2)
  have htext' : textOf segs' = replaceEOL newEOL.toStr (textOf segs) := by
    rw [textOf_eq, hsegs, htexts]
  refine ⟨t', segs', ?_, hsound, htext', ?_, heol, hnormalized⟩
  · rw [List.append_nil, ← hchunks] at hcreate
    rw [PieceTreeBase.setEOL, PieceTreeBase.normalizeEOL]
    simp only [hiterate, Option.bind_eq_bind, Option.bind_some]
    exact hcreate
  · rw [hsound.lineCnt, h.lineCnt, breaksOf_eq hsound.whole hsound.chain, breaksOf_eq h.whole h.chain,
      htext', countBreaks_replaceEOL (isEol_toStr newEOL)]

end NexgileIde.PieceTree
