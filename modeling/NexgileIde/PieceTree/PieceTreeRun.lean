import NexgileIde.PieceTree.NormalizeEol
import NexgileIde.PieceTree.PieceTreeLines

/-!
# Runs of the piece tree

Edits and lookups follow each other in any order. Every edit does to the text what it does to a
plain string, and lookups change nothing but the caches.
-/
namespace NexgileIde.PieceTree

open Library RBTree Text

/-! ### Lookups -/

/-- A line found in one node is remembered with the node's place. -/
theorem rawContentLoop_entry {t : PieceTreeBase} {u : Nodes} (h : Exact u)
    {original endOffset lineNumber start : Int} {content : Str} {e : CacheEntry}
    (hfound : t.rawContentLoop original endOffset u lineNumber start = some (.whole content e)) :
    ∃ A i p B, entries u = A ++ (i, p) :: B ∧ e.node = i ∧ e.nodeStartOffset = start + (total A).1 ∧
      e.nodeStartLineNumber = some (original - (lineNumber - 1 - (total A).2)) := by
  induction u generalizing lineNumber start with
  | nil => cases hfound
  | node c l a r ihl ihr =>
    obtain ⟨hleft, hl, hr⟩ := h
    have hsize : a.sizeLeft = (total (entries l)).1 := congrArg Prod.fst hleft
    have hlf : a.lfLeft = (total (entries l)).2 := congrArg Prod.snd hleft
    rw [PieceTreeBase.rawContentLoop] at hfound
    split_ifs at hfound with hgo hinside hend
    · obtain ⟨A, i, p, B, hA, hnode, hstart, hline⟩ := ihl hl hfound
      exact ⟨A, i, p, B ++ a.entry :: entries r, by simp [hA], hnode, hstart, hline⟩
    · simp only [Option.bind_eq_bind, Option.bind_eq_some_iff] at hfound
      obtain ⟨_, _, _, _, _, _, _, _, hentry⟩ := hfound
      obtain ⟨-, rfl⟩ := PieceTreeBase.RawLine.whole.inj (Option.some.inj hentry)
      exact ⟨entries l, a.id, a.piece, entries r, entries_node c l a r, rfl, by rw [hsize],
        by rw [hlf]⟩
    · simp only [Option.bind_eq_bind, Option.bind_eq_some_iff] at hfound
      obtain ⟨_, _, _, _, _, _, hpart⟩ := hfound
      cases hpart
    · obtain ⟨A, i, p, B, hA, hnode, hstart, hline⟩ := ihr hr hfound
      have htotal : total (entries l ++ a.entry :: A) =
          (a.sizeLeft + a.piece.length + (total A).1,
            a.lfLeft + a.piece.lineFeedCnt + (total A).2) := by
        rw [hsize, hlf]
        simp [TreeNode.entry, Piece.measure, add_assoc, Prod.ext_iff]
      refine ⟨entries l ++ a.entry :: A, i, p, B, by simp [hA], hnode, ?_, ?_⟩
      · rw [hstart, htotal, add_assoc]
      · rw [hline, htotal]
        congr 1
        dsimp only
        omega

section Lookups

variable {t : PieceTreeBase} {segs : List Seg}

theorem Sound.cacheSet (h : Sound t segs) {e : CacheEntry} (he : Located segs e) :
    Sound (t.cacheSet e) segs := by
  rw [h.cacheSet_eq]
  exact h.setCache he

theorem Sound.setVisited (h : Sound t segs) (visited : VisitedLine) :
    Sound { t with lastVisitedLine := visited } segs :=
  ⟨⟨h.layout.holds, h.layout.distinct, h.layout.fresh, h.layout.fits, h.layout.changeBuffer,
    h.layout.ends⟩, h.whole, h.length, h.lineCnt, h.cacheLimit, h.cache, h.guarded, h.chain⟩

theorem getLineRawContent_sound (h : Sound t segs) {lineNumber endOffset : Int} {raw : Str}
    {t' : PieceTreeBase} (hraw : t.getLineRawContent lineNumber endOffset = some (raw, t')) :
    Sound t' segs := by
  unfold PieceTreeBase.getLineRawContent at hraw
  obtain ⟨cached, -, hraw⟩ := Option.bind_eq_some_iff.mp hraw
  rcases cached with _ | ⟨e, line⟩
  · obtain ⟨found, hfound, hraw⟩ := Option.bind_eq_some_iff.mp hraw
    rcases found with ⟨content, entry⟩ | ⟨content, x⟩
    · obtain ⟨-, rfl⟩ := Prod.mk.inj (Option.some.inj hraw)
      obtain ⟨A, i, p, B, hsplit, hnode, hstart, hline⟩ :=
        rawContentLoop_entry h.layout.holds.exact hfound
      obtain ⟨A, s, B, rfl, rfl, rfl, rfl⟩ := h.layout.split_entries hsplit
      refine h.cacheSet ⟨A, s, B, rfl, hnode, ?_, ?_⟩
      · rw [hstart, h.total_front, zero_add]
      · intro line heq
        rw [hline, h.total_front, Option.some.injEq] at heq
        rw [← heq]
        dsimp only
        omega
    · obtain ⟨_, -, hraw⟩ := Option.bind_eq_some_iff.mp hraw
      obtain ⟨_, -, hraw⟩ := Option.bind_eq_some_iff.mp hraw
      obtain ⟨-, rfl⟩ := Prod.mk.inj (Option.some.inj hraw)
      exact h
  · simp only [Option.bind_eq_bind, Option.bind_eq_some_iff] at hraw
    obtain ⟨_, -, _, -, _, -, _, -, hraw⟩ := hraw
    split_ifs at hraw
    · simp only [Option.bind_eq_some_iff] at hraw
      obtain ⟨_, -, _, -, hraw⟩ := hraw
      obtain ⟨-, rfl⟩ := Prod.mk.inj (Option.some.inj hraw)
      exact h
    · simp only [Option.bind_eq_some_iff] at hraw
      obtain ⟨_, -, hraw⟩ := hraw
      obtain ⟨-, rfl⟩ := Prod.mk.inj (Option.some.inj hraw)
      exact h

theorem getLineContent_sound (h : Sound t segs) (lineNumber : Int) :
    Sound (t.getLineContent lineNumber).2 segs := by
  unfold PieceTreeBase.getLineContent
  split_ifs with hvisited
  · exact h
  · dsimp only
    split
    · exact h.setVisited _
    · rename_i raw t' hraw
      exact (getLineRawContent_sound (h.setVisited _) hraw).setVisited _

theorem getCharCode_sound (h : Sound t segs) (offset : Int) :
    Sound (t.getCharCode offset).2 segs := by
  unfold PieceTreeBase.getCharCode
  split
  · exact h
  · rename_i pos t' hpos
    obtain ⟨A, s, B, e, rfl, -, -, -, rfl, hid, hstart, hline⟩ := h.nodeAt_spec hpos
    exact h.setCache ⟨A, s, B, rfl, hid, hstart, hline⟩

end Lookups

/-! ### Runs -/

namespace PieceTreeBase

/-- What an operation does to a plain string. -/
def Op.splice : Op → Str → Str
  | .insert offset value, str => str.take offset.toNat ++ (value ++ str.drop offset.toNat)
  | .delete offset cnt, str => str.take offset.toNat ++ str.drop (offset.toNat + cnt.toNat)
  | _, str => str

/-- Edits stay within the text, and no empty text is inserted. -/
def Op.InRange : Op → Str → Prop
  | .insert offset value, str => 0 ≤ offset ∧ offset ≤ str.length ∧ value ≠ []
  | .delete offset cnt, str => 0 ≤ offset ∧ offset + cnt ≤ str.length
  | _, _ => True

def spliceAll (ops : List Op) (str : Str) : Str := ops.foldl (fun str op => op.splice str) str

def AllInRange : List Op → Str → Prop
  | [], _ => True
  | op :: ops, str => op.InRange str ∧ AllInRange ops (op.splice str)

end PieceTreeBase

open PieceTreeBase in
theorem step_sound {t : PieceTreeBase} {segs : List Seg} (h : Sound t segs) {op : Op}
    (hop : op.InRange (textOf segs)) :
    ∃ t' segs', t.step op = some t' ∧ Sound t' segs' ∧ textOf segs' = op.splice (textOf segs) := by
  cases op with
  | insert offset value =>
    obtain ⟨hzero, hle, hvalue⟩ := hop
    have hlen : ((textOf segs).take offset.toNat).length = offset.toNat := by
      rw [List.length_take]
      omega
    obtain ⟨t', segs', hins, hsound, htext, -⟩ :=
      insert_sound h (List.take_append_drop offset.toNat _).symm hvalue false (by simp)
    rw [hlen, Int.toNat_of_nonneg hzero] at hins
    exact ⟨t', segs', hins, hsound, htext⟩
  | delete offset cnt =>
    obtain ⟨hzero, hle⟩ := hop
    by_cases hcnt : cnt ≤ 0
    · refine ⟨{ t with lastVisitedLine := ⟨0, []⟩ }, segs, ?_, h.setVisited _, ?_⟩
      · rw [PieceTreeBase.step, PieceTreeBase.delete]
        simp [hcnt]
      · rw [Op.splice, Int.toNat_eq_zero.mpr hcnt, Nat.add_zero, List.take_append_drop]
    · have hlen : ((textOf segs).take offset.toNat).length = offset.toNat := by
        rw [List.length_take]
        omega
      have hmid : (((textOf segs).drop offset.toNat).take cnt.toNat).length = cnt.toNat := by
        rw [List.length_take, List.length_drop]
        omega
      have hsplit : textOf segs = (textOf segs).take offset.toNat ++
          (((textOf segs).drop offset.toNat).take cnt.toNat ++
            (textOf segs).drop (offset.toNat + cnt.toNat)) := by
        rw [← List.drop_drop, List.take_append_drop, List.take_append_drop]
      obtain ⟨t', segs', hdel, hsound, htext, -⟩ := delete_sound h hsplit
      rw [hlen, hmid, Int.toNat_of_nonneg hzero, Int.toNat_of_nonneg (by omega)] at hdel
      exact ⟨t', segs', hdel, hsound, htext⟩
  | getLineContent lineNumber => exact ⟨_, segs, rfl, getLineContent_sound h lineNumber, rfl⟩
  | getOffsetAt lineNumber column => exact ⟨t, segs, rfl, h, rfl⟩
  | getPositionAt offset => exact ⟨t, segs, rfl, h, rfl⟩
  | getCharCode offset => exact ⟨_, segs, rfl, getCharCode_sound h offset, rfl⟩
  | getValueInRange range => exact ⟨t, segs, rfl, h, rfl⟩

open PieceTreeBase in
theorem run_sound {t : PieceTreeBase} {segs : List Seg} (h : Sound t segs) {ops : List Op}
    (hops : AllInRange ops (textOf segs)) :
    ∃ t' segs', t.run ops = some t' ∧ Sound t' segs' ∧
      textOf segs' = spliceAll ops (textOf segs) := by
  induction ops generalizing t segs with
  | nil => exact ⟨t, segs, rfl, h, rfl⟩
  | cons op ops ih =>
    obtain ⟨hop, hrest⟩ := hops
    obtain ⟨t₁, segs₁, hstep, h₁, htext₁⟩ := step_sound h hop
    rw [← htext₁] at hrest
    obtain ⟨t', segs', hrun, h', htext'⟩ := ih h₁ hrest
    refine ⟨t', segs', ?_, h', ?_⟩
    · rw [PieceTreeBase.run] at hrun ⊢
      rw [List.foldlM_cons, hstep]
      exact hrun
    · rw [htext', htext₁]
      rfl

theorem mapM_getPieceContent {t : PieceTreeBase} {nodes : List TreeNode} {M : List Seg}
    (hnodes : nodes.map TreeNode.entry = M.map Seg.entry)
    (hfits : ∀ m ∈ M, Fits t.buffers m.piece m.text) :
    nodes.mapM (fun a => t.getPieceContent a.piece) = some (M.map Seg.text) := by
  induction nodes generalizing M with
  | nil =>
    obtain rfl := List.map_eq_nil_iff.mp hnodes.symm
    rfl
  | cons a nodes ih =>
    obtain ⟨s, M, rfl, hs, hM⟩ := List.map_eq_cons_iff.mp hnodes.symm
    obtain ⟨u, v, hslice⟩ := (hfits s List.mem_cons_self).slice
    have hpiece : s.piece = a.piece := congrArg Prod.snd hs
    rw [hpiece] at hslice
    have hrest := ih hM.symm fun m hm => hfits m (List.mem_cons_of_mem s hm)
    rw [List.mapM_cons, PieceTreeBase.getPieceContent_eq hslice, hrest]
    rfl

theorem Sound.getLinesRawContent {t : PieceTreeBase} {segs : List Seg}
    (h : Sound t segs) : t.getLinesRawContent = some (textOf segs) := by
  rw [PieceTreeBase.getLinesRawContent, mapM_getPieceContent h.layout.holds.entries h.layout.fits,
    textOf_eq]
  rfl

/-- Only empty chunks come behind an empty one. -/
def EmptiesLast (chunks : List Str) : Prop :=
  chunks.Pairwise fun chunk later => chunk = [] → later = []

instance (chunks : List Str) : Decidable (EmptiesLast chunks) :=
  inferInstanceAs (Decidable (chunks.Pairwise _))

theorem EmptiesLast.split {chunks : List Str} (h : EmptiesLast chunks) :
    ∃ texts empties, chunks = texts ++ empties ∧ (∀ w ∈ texts, w ≠ []) ∧ ∀ w ∈ empties, w = [] := by
  induction chunks with
  | nil => exact ⟨[], [], rfl, by simp, by simp⟩
  | cons chunk chunks ih =>
    obtain ⟨hbehind, hrest⟩ := List.pairwise_cons.mp h
    by_cases hchunk : chunk = []
    · refine ⟨[], chunk :: chunks, rfl, by simp, ?_⟩
      intro w hw
      rcases List.mem_cons.mp hw with rfl | hw
      · exact hchunk
      · exact hbehind w hw hchunk
    · obtain ⟨texts, empties, rfl, htexts, hempties⟩ := ih hrest
      refine ⟨chunk :: texts, empties, rfl, ?_, hempties⟩
      intro w hw
      rcases List.mem_cons.mp hw with rfl | hw
      · exact hchunk
      · exact htexts w hw

/-- The tree of chunks that cut no `\r\n` in two. -/
theorem create_chunks {chunks : List Str} (hempties : EmptiesLast chunks)
    (hunbroken : Unbroken chunks) (eol : EndOfLine) :
    ∃ t segs, PieceTreeBase.create (chunks.map .ofStr) eol false = some t ∧ Sound t segs ∧
      textOf segs = chunks.flatten := by
  obtain ⟨texts, empties, rfl, htexts, hempty⟩ := hempties.split
  obtain ⟨t, segs, hcreate, hsound, hsegs, -, -⟩ := create_sound htexts hempty eol false
    (.inl rfl) (List.IsChain.left_of_append hunbroken)
  refine ⟨t, segs, hcreate, hsound, ?_⟩
  rw [textOf_eq, hsegs, List.flatten_append, List.flatten_eq_nil_iff.mpr hempty, List.append_nil]

open PieceTreeBase in
/-- Whatever the pieces are after a run, `setEOL` replaces every line end of the text and
no other, and keeps the number of lines. -/
theorem run_setEOL {chunks : List Str} (hempties : EmptiesLast chunks) (hunbroken : Unbroken chunks)
    (eol : EndOfLine) {ops : List Op} (hops : AllInRange ops chunks.flatten) (newEOL : EndOfLine) :
    ∃ t t', ((create (chunks.map .ofStr) eol false).bind fun t₀ => t₀.run ops) = some t ∧
      t.getLinesRawContent = some (spliceAll ops chunks.flatten) ∧ t.setEOL newEOL = some t' ∧
      t'.getLinesRawContent = some (replaceEOL newEOL.toStr (spliceAll ops chunks.flatten)) ∧
      t'.getLineCount = t.getLineCount := by
  obtain ⟨t₀, segs₀, hcreate, h₀, htext₀⟩ := create_chunks hempties hunbroken eol
  rw [← htext₀] at hops
  obtain ⟨t, segs, hrun, hsound, htext⟩ := run_sound h₀ hops
  obtain ⟨t', segs', hset, hsound', htext', hlines, -, -⟩ := setEOL_sound hsound newEOL
  refine ⟨t, t', ?_, ?_, hset, ?_, hlines⟩
  · rw [hcreate, Option.bind_some]
    exact hrun
  · rw [hsound.getLinesRawContent, htext, htext₀]
  · rw [hsound'.getLinesRawContent, htext', htext, htext₀]

open PieceTreeBase in
/-- A `\n` typed between two chunks meets the `\r` in front of it. -/
theorem run_setEOL_typed :
    let chunks : List Str := [ascii "a\r", ascii "b\n"]
    let ops : List Op := [.insert 2 (ascii "\nc"), .getLineContent 2, .delete 3 1]
    ∃ t t', ((create (chunks.map .ofStr) .lf false).bind fun t₀ => t₀.run ops) = some t ∧
      t.getLinesRawContent = some (spliceAll ops chunks.flatten) ∧ t.setEOL .crlf = some t' ∧
      t'.getLinesRawContent = some (ascii "a\r\nb\r\n") ∧ t'.getLineCount = t.getLineCount := by
  intro chunks ops
  have hops : AllInRange ops chunks.flatten :=
    ⟨⟨by decide, by decide, by decide⟩, trivial, ⟨by decide, by decide⟩, trivial⟩
  exact run_setEOL (by decide) (.cons_cons (by decide) (.singleton _)) .lf hops .crlf

end NexgileIde.PieceTree

/-!
## The piece tree refines a plain string

Through every run the content of the tree is the string the same edits make of the chunks. This
holds exactly if no chunk comes behind an empty one, since the pieces are numbered by the
chunks, and an empty chunk gets no buffer.
-/
namespace NexgileIde.PieceTree

open Library RBTree Text

/-- A node is linked in behind all others. -/
theorem rbInsertRight_last {u : Nodes} {es : List (ℕ × Piece)} (h : Holds u es) (hd : Distinct es)
    (i : ℕ) (p : Piece) :
    ∃ u', rbInsertRight u (es.getLast?.map Prod.fst) ⟨i, p, 0, 0⟩ = some u' ∧
      Holds u' (es ++ [(i, p)]) := by
  rcases List.eq_nil_or_concat' es with rfl | ⟨es, ⟨k, q⟩, rfl⟩
  · obtain rfl := h.eq_nil_iff.mpr rfl
    exact rbInsertRight_nil (z := ⟨i, p, 0, 0⟩) none rfl
  · obtain ⟨u', hins, h'⟩ := rbInsertRight_holds (z := ⟨i, p, 0, 0⟩) h hd rfl
    refine ⟨u', ?_, by simpa [TreeNode.entry] using h'⟩
    rw [List.getLast?_concat]
    exact hins

/-- The piece of a chunk points to the buffer with the chunk's own number, counting the empty
chunks, which get no buffer. -/
theorem createLoop_pieces {t : PieceTreeBase} {es : List (ℕ × Piece)} {i : ℕ} (chunks : List Str)
    (h : Holds t.root es) (hd : Distinct es) (hfresh : ∀ e ∈ es, e.1 < t.nextId) :
    ∃ t' news, t.createLoop (es.getLast?.map Prod.fst) i (chunks.map .ofStr) = some t' ∧
      Holds t'.root (es ++ news) ∧
      t'.buffers.length = t.buffers.length + (chunks.filter (· ≠ [])).length ∧
      ∀ front w back, chunks = front ++ w :: back → w ≠ [] →
        ∃ e ∈ news, e.2.bufferIndex = i + front.length + 1 := by
  induction chunks generalizing t es i with
  | nil => exact ⟨t, [], rfl, by simpa using h, by simp, by simp⟩
  | cons chunk chunks ih =>
    rw [List.map_cons, PieceTreeBase.createLoop]
    by_cases hchunk : chunk = []
    · obtain ⟨t', news, hloop, h', hbuffers, hpieces⟩ := ih (i := i + 1) h hd hfresh
      refine ⟨t', news, ?_, h', by simpa [hchunk] using hbuffers, ?_⟩
      · rw [if_neg (by simp [StringBuffer.ofStr, hchunk])]
        exact hloop
      · rintro (_ | ⟨first, front⟩) w back hsplit hw
        · exact absurd ((List.cons.inj hsplit).1.symm.trans hchunk) hw
        · obtain ⟨e, he, hindex⟩ := hpieces front w back (List.cons.inj hsplit).2 hw
          exact ⟨e, he, by rw [hindex, List.length_cons]; omega⟩
    · have hlen := List.length_pos_iff.mpr hchunk
      obtain ⟨p, hp⟩ : ∃ p, p = PieceTreeBase.wholePiece (i + 1) (.ofStr chunk) := ⟨_, rfl⟩
      obtain ⟨root, hins, hroot⟩ := rbInsertRight_last h hd t.nextId p
      obtain ⟨t₁, ht₁⟩ : ∃ t₁ : PieceTreeBase, t₁ = { t with
          root := root, buffers := t.buffers ++ [.ofStr chunk], nextId := t.nextId + 1 } := ⟨_, rfl⟩
      have hholds₁ : Holds t₁.root (es ++ [(t.nextId, p)]) := by
        rw [ht₁]
        exact hroot
      have hd₁ : Distinct (es ++ [(t.nextId, p)]) := by
        rw [Distinct, List.map_append, List.map_cons, List.map_nil, List.nodup_append]
        refine ⟨hd, List.nodup_singleton _, ?_⟩
        intro k hk k' hk' heq
        obtain ⟨e, he, rfl⟩ := List.mem_map.mp hk
        have hlt := hfresh e he
        rw [List.mem_singleton] at hk'
        omega
      have hfresh₁ : ∀ e ∈ es ++ [(t.nextId, p)], e.1 < t₁.nextId := by
        rw [ht₁]
        intro e he
        rcases List.mem_append.mp he with he | he
        · exact Nat.lt_succ_of_lt (hfresh e he)
        · rw [List.mem_singleton.mp he]
          exact Nat.lt_succ_self _
      obtain ⟨t', news, hloop, h', hbuffers, hpieces⟩ := ih (i := i + 1) hholds₁ hd₁ hfresh₁
      refine ⟨t', (t.nextId, p) :: news, ?_, by simpa using h', ?_, ?_⟩
      · rw [if_pos (by simpa [StringBuffer.ofStr] using hlen)]
        rw [List.getLast?_concat, Option.map_some, ht₁] at hloop
        simp only [PieceTreeBase.insertRight, ← hp, hins, Option.bind_eq_bind, Option.bind_some]
        exact hloop
      · rw [hbuffers, ht₁]
        simp [hchunk]
        omega
      · rintro (_ | ⟨first, front⟩) w back hsplit hw
        · exact ⟨(t.nextId, p), List.mem_cons_self, by rw [hp]; rfl⟩
        · obtain ⟨e, he, hindex⟩ := hpieces front w back (List.cons.inj hsplit).2 hw
          exact ⟨e, List.mem_cons_of_mem _ he, by rw [hindex, List.length_cons]; omega⟩

/-- An empty chunk in front of others leaves the last piece without a buffer. -/
theorem exists_last_text {chunks : List Str} (h : ¬ EmptiesLast chunks) :
    ∃ front w back, chunks = front ++ w :: back ∧ w ≠ [] ∧ (∀ v ∈ back, v = []) ∧ [] ∈ front := by
  induction chunks using List.reverseRecOn with
  | nil => exact absurd List.Pairwise.nil h
  | append_singleton chunks chunk ih =>
    rw [EmptiesLast, List.pairwise_append] at h
    by_cases hchunk : chunk = []
    · obtain ⟨front, w, back, rfl, hw, hback, hfront⟩ := ih (by
        intro hlast
        apply h
        refine ⟨hlast, List.pairwise_singleton _ _, ?_⟩
        intro v _ w hw _
        rw [List.mem_singleton.mp hw, hchunk])
      refine ⟨front, w, back ++ [chunk], by simp, hw, ?_, hfront⟩
      intro v hv
      rcases List.mem_append.mp hv with hv | hv
      · exact hback v hv
      · rw [List.mem_singleton.mp hv, hchunk]
    · refine ⟨chunks, chunk, [], rfl, hchunk, by simp, ?_⟩
      by_contra hempty
      apply h
      have hne : ∀ v ∈ chunks, v ≠ [] := by
        rintro v hv rfl
        exact hempty hv
      refine ⟨?_, List.pairwise_singleton _ _, fun v hv _ _ heq => absurd heq (hne v hv)⟩
      exact List.pairwise_of_forall_mem_list fun v hv _ _ heq => absurd heq (hne v hv)

theorem mapM_eq_none {α β : Type} {f : α → Option β} {as : List α} {a : α} (ha : a ∈ as)
    (hf : f a = none) : as.mapM f = none := by
  induction as with
  | nil => cases ha
  | cons b as ih =>
    rw [List.mapM_cons]
    rcases List.mem_cons.mp ha with rfl | ha
    · rw [hf]
      rfl
    · rw [ih ha]
      cases f b <;> rfl

theorem create_getLinesRawContent_none {chunks : List Str} (h : ¬ EmptiesLast chunks)
    (eol : EndOfLine) (eolNormalized : Bool) :
    ∃ t, PieceTreeBase.create (chunks.map .ofStr) eol eolNormalized = some t ∧
      t.getLinesRawContent = none := by
  obtain ⟨t₀, ht₀⟩ : ∃ t₀ : PieceTreeBase, t₀ = {
      root := nil, buffers := [⟨[], [0]⟩], lineCnt := 1, length := 0, eol := eol,
      eolNormalized := eolNormalized, lastChangeBufferPos := ⟨0, 0⟩, searchCache := [],
      lastVisitedLine := ⟨0, []⟩, nextId := 0 } := ⟨_, rfl⟩
  have hholds₀ : Holds t₀.root [] := by
    rw [ht₀]
    exact holds_nil
  obtain ⟨t, news, hloop, hholds, hbuffers, hpieces⟩ :=
    createLoop_pieces (i := 0) chunks hholds₀ List.nodup_nil (by simp)
  obtain ⟨front, w, back, rfl, hw, hback, hfront⟩ := exists_last_text h
  obtain ⟨e, he, hindex⟩ := hpieces front w back rfl hw
  rw [List.nil_append] at hholds
  refine ⟨t.computeBufferMetadata, ?_, ?_⟩
  · rw [PieceTreeBase.create]
    simp only [← ht₀, Option.bind_eq_bind]
    rw [List.getLast?_nil, Option.map_none] at hloop
    rw [hloop]
    rfl
  · have hshort : (front.filter (· ≠ [])).length < front.length := by
      apply List.length_filter_lt_length_iff_exists.mpr
      exact ⟨[], hfront, by simp⟩
    have hback' : back.filter (· ≠ []) = [] := by
      rw [List.filter_eq_nil_iff]
      intro v hv
      simp [hback v hv]
    have hnone : t.buffers[e.2.bufferIndex]? = none := by
      have hone : t₀.buffers.length = 1 := by rw [ht₀]; rfl
      rw [List.getElem?_eq_none_iff, hbuffers, hindex, List.filter_append,
        List.filter_cons_of_pos (by simpa using hw), hback', List.length_append,
        List.length_singleton]
      omega
    rw [← hholds.entries] at he
    obtain ⟨a, ha, rfl⟩ := List.mem_map.mp he
    have hcontent : t.computeBufferMetadata.getPieceContent a.piece = none := by
      have hnone' : t.computeBufferMetadata.buffers[a.piece.bufferIndex]? = none := hnone
      rw [PieceTreeBase.getPieceContent, hnone']
      rfl
    have hmap := mapM_eq_none (f := fun a => t.computeBufferMetadata.getPieceContent a.piece) ha hcontent
    rw [PieceTreeBase.getLinesRawContent]
    rw [show t.computeBufferMetadata.root.toList = t.root.toList from rfl, hmap]
    rfl

open PieceTreeBase in
/-- The tree of the chunks behaves like the plain string through every run. -/
def RefinesString (chunks : List Str) : Prop :=
  ∀ (eol : EndOfLine) (ops : List Op), AllInRange ops chunks.flatten →
    ∃ t, ((create (chunks.map .ofStr) eol false).bind fun t₀ => t₀.run ops) = some t ∧
      t.getLinesRawContent = some (spliceAll ops chunks.flatten) ∧
      t.getLength = (spliceAll ops chunks.flatten).length

theorem refinesString_iff {chunks : List Str} (hunbroken : Unbroken chunks) :
    RefinesString chunks ↔ EmptiesLast chunks := by
  constructor
  · intro h
    by_contra hempties
    obtain ⟨t, hcreate, hnone⟩ := create_getLinesRawContent_none hempties .lf false
    obtain ⟨t', hrun, hcontent, -⟩ := h .lf [] trivial
    rw [hcreate] at hrun
    obtain rfl := Option.some.inj hrun
    rw [hnone] at hcontent
    cases hcontent
  · intro hempties eol ops hops
    obtain ⟨t₀, segs₀, hcreate, h₀, htext₀⟩ := create_chunks hempties hunbroken eol
    rw [← htext₀] at hops ⊢
    obtain ⟨t, segs, hrun, hsound, htext⟩ := run_sound h₀ hops
    refine ⟨t, ?_, ?_, ?_⟩
    · rw [hcreate, Option.bind_some]
      exact hrun
    · rw [hsound.getLinesRawContent, htext]
    · rw [PieceTreeBase.getLength, hsound.length, htext]

/-- No `\n` follows the `\r` at the end of the first chunk. -/
theorem refinesString_iff_two :
    RefinesString [ascii "a\r", ascii "b"] ↔ EmptiesLast [ascii "a\r", ascii "b"] :=
  refinesString_iff (.cons_cons (by decide) (.singleton _))

/-- Behind an empty chunk the piece of `a` points to a buffer that is not there. -/
theorem not_refinesString_empty : ¬ RefinesString [[], ascii "a"] := by
  intro h
  obtain ⟨t, hrun, hcontent, -⟩ := h .lf [] trivial
  have hnone : ((PieceTreeBase.create ([[], ascii "a"].map .ofStr) .lf false).bind
      fun t₀ => t₀.run []).bind PieceTreeBase.getLinesRawContent = none := by decide +kernel
  rw [hrun, Option.bind_some, hcontent] at hnone
  cases hnone

end NexgileIde.PieceTree
