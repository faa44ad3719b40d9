import NexgileIde.PieceTree.PieceTreeLayout

/-!
# New pieces

Inserted text is appended to the change buffer, or to buffers of its own if it is large.
Neither changes what the pieces of the tree stand for, and no `\r\n` is cut in two.
-/
namespace NexgileIde.PieceTree

open Library RBTree Text

/-- A piece with its text. -/
abbrev Part := Piece × Str

def Seg.part (s : Seg) : Part := (s.piece, s.text)

/-- No `\r\n` is cut in two between successive texts. -/
def Unbroken (texts : List Str) : Prop := texts.IsChain fun u v => ¬ Seam u v

/-- Where the parts are not empty, only their texts as a whole matter at a joint. -/
theorem unbroken_append {xs ys : List Str} (hx : ∀ w ∈ xs, w ≠ []) (hy : ∀ w ∈ ys, w ≠ []) :
    Unbroken (xs ++ ys) ↔ Unbroken xs ∧ Unbroken ys ∧ ¬ Seam xs.flatten ys.flatten := by
  unfold Unbroken
  rw [List.isChain_append]
  refine and_congr_right fun _ => and_congr_right fun _ => ?_
  rcases List.eq_nil_or_concat xs with rfl | ⟨xs, x, rfl⟩
  · simp [Seam]
  · cases ys with
    | nil => simp [Seam]
    | cons y ys =>
      have hxne : x ≠ [] := hx x (by simp)
      have hyne : y ≠ [] := hy y (by simp)
      simp [seam_append_left_iff hxne, seam_append_right_iff hyne]

/-- Parts that can become nodes of the tree: at most one piece ends at the end of the change
buffer. -/
structure Linkable (t : PieceTreeBase) (segs : List Seg) (ps : List Part) : Prop where
  fits : ∀ e ∈ ps, Fits t.buffers e.1 e.2
  ends : ps.Pairwise fun e e' =>
    ¬ (AtEnd t.lastChangeBufferPos e.1 ∧ AtEnd t.lastChangeBufferPos e'.1)
  fresh : ∀ e ∈ ps, AtEnd t.lastChangeBufferPos e.1 →
    ∀ m ∈ segs, ¬ AtEnd t.lastChangeBufferPos m.piece

/-- Pieces for a text that is inserted. -/
structure NewParts (t : PieceTreeBase) (segs : List Seg) (ps : List Part) (value : Str) : Prop
    extends Linkable t segs ps where
  text : (ps.map Prod.snd).flatten = value
  nonempty : ∀ e ∈ ps, e.2 ≠ []
  unbroken : Unbroken (ps.map Prod.snd)

/-! ### Large texts -/

theorem isHighSurrogate_ne {chr : CodeUnit} (h : PieceTreeBase.isHighSurrogate chr = true) :
    chr ≠ LineFeed := by
  rintro rfl
  revert h
  decide

/-- A large text is not cut inside a `\r\n`. -/
theorem not_seam_cutLarge (text : Str) :
    ¬ Seam (text.take (PieceTreeBase.cutLarge text)) (text.drop (PieceTreeBase.cutLarge text)) := by
  rintro ⟨hlast, hhead⟩
  have hpos := PieceTreeBase.cutLarge_pos text
  rw [List.head?_drop] at hhead
  have hlt := (List.getElem?_eq_some_iff.mp hhead).1
  rw [List.getLast?_eq_getElem?, List.length_take, List.getElem?_take_of_lt (by omega),
    Nat.min_eq_left (by omega)] at hlast
  unfold PieceTreeBase.cutLarge at hlast hhead
  split_ifs at hlast hhead with hany
  · rw [hhead] at hany
    simp only [Option.any_some, Bool.or_eq_true, decide_eq_true_eq] at hany
    rcases hany with hany | hany
    · exact lineFeed_ne_carriageReturn hany
    · exact isHighSurrogate_ne hany rfl
  · rw [hlast] at hany
    simp at hany

theorem splitLarge_spec {text : Str} (h : text ≠ []) :
    (PieceTreeBase.splitLarge text).flatten = text ∧
      (∀ w ∈ PieceTreeBase.splitLarge text, w ≠ []) ∧
      Unbroken (PieceTreeBase.splitLarge text) := by
  induction text using PieceTreeBase.splitLarge.induct with
  | case1 text hlarge ih =>
    have hpos := PieceTreeBase.cutLarge_pos text
    have hle := PieceTreeBase.cutLarge_le text
    have htake : text.take (PieceTreeBase.cutLarge text) ≠ [] := by
      rw [← List.length_pos_iff, List.length_take]
      omega
    have hdrop : text.drop (PieceTreeBase.cutLarge text) ≠ [] := by
      rw [← List.length_pos_iff, List.length_drop]
      omega
    obtain ⟨hflat, hne, hunbroken⟩ := ih hdrop
    rw [PieceTreeBase.splitLarge, if_pos hlarge]
    refine ⟨?_, ?_, ?_⟩
    · rw [List.flatten_cons, hflat, List.take_append_drop]
    · intro w hw
      rcases List.mem_cons.mp hw with rfl | hw
      · exact htake
      · exact hne w hw
    · rw [← List.singleton_append, unbroken_append (by simpa using htake) hne, hflat]
      exact ⟨.singleton _, hunbroken, by simpa using not_seam_cutLarge text⟩
  | case2 text hsmall =>
    rw [PieceTreeBase.splitLarge, if_neg hsmall]
    exact ⟨by simp, by simpa using h, .singleton _⟩

/-- Every text gets a buffer of its own; the buffers before stay. -/
theorem pushBuffers_spec (t : PieceTreeBase) (texts : List Str) :
    ∃ ps : List Part, t.pushBuffers texts =
        ({ t with buffers := t.buffers ++ texts.map StringBuffer.ofStr }, ps.map Prod.fst) ∧
      ps.map Prod.snd = texts ∧
      ∀ e ∈ ps, t.buffers.length ≤ e.1.bufferIndex ∧
        Fits (t.buffers ++ texts.map StringBuffer.ofStr) e.1 e.2 := by
  induction texts generalizing t with
  | nil => exact ⟨[], by simp [PieceTreeBase.pushBuffers], rfl, by simp⟩
  | cons text texts ih =>
    obtain ⟨ps, heq, htexts, hps⟩ := ih { t with buffers := t.buffers ++ [.ofStr text] }
    have hbuffers : t.buffers ++ [StringBuffer.ofStr text] ++ texts.map StringBuffer.ofStr =
        t.buffers ++ (text :: texts).map StringBuffer.ofStr := by simp
    simp only [hbuffers] at heq hps
    refine ⟨(PieceTreeBase.wholePiece t.buffers.length (.ofStr text), text) :: ps, ?_, ?_, ?_⟩
    · simp only [PieceTreeBase.pushBuffers, heq, List.map_cons]
    · rw [List.map_cons, htexts]
    · intro e he
      rcases List.mem_cons.mp he with rfl | he
      · have hget : (t.buffers ++ (text :: texts).map StringBuffer.ofStr)[t.buffers.length]? =
            some (.ofStr text) := by simp
        have hwhole := slice_wholePiece hget
        exact ⟨le_rfl, ⟨_, _, hwhole.1⟩, fun _ => hwhole.2⟩
      · obtain ⟨hindex, hfits⟩ := hps e he
        rw [List.length_append] at hindex
        exact ⟨by omega, hfits⟩

/-! ### The change buffer -/

/-- Pieces stay when text is appended to the change buffer, unless they end in the `\r` of
a `\r\n` that appears there. They no longer end at its end. -/
theorem Fits.extend {buffers : List StringBuffer} {p : Piece} {w str x : Str}
    (h : Fits buffers p w) (hbuf : buffers[0]? = some (.ofStr str)) (hx : x ≠ [])
    (hcase : ¬ AtEnd (cursorAt str str.length) p ∨ ¬ Seam str x) :
    Fits (buffers.set 0 (.ofStr (str ++ x))) p w ∧
      ¬ AtEnd (cursorAt (str ++ x) (str ++ x).length) p := by
  obtain ⟨u, v, hslice⟩ := h.slice
  by_cases hindex : p.bufferIndex = 0
  · have hstr : str = u ++ (w ++ v) := by
      have hget := hslice.buffer
      rw [hindex, hbuf] at hget
      exact congrArg StringBuffer.buffer (Option.some.inj hget)
    have hcond : v ≠ [] ∨ ¬ Seam (u ++ w) x := by
      by_cases hv : v = []
      · subst hv
        rw [List.append_nil] at hstr
        right
        rcases hcase with hcase | hcase
        · refine absurd ⟨hindex, ?_⟩ hcase
          rw [hslice.stop, List.append_nil, ← hstr, ← List.length_append, ← hstr]
        · rwa [← hstr]
      · exact .inl hv
    have hget : (buffers.set 0 (.ofStr (str ++ x)))[p.bufferIndex]? =
        some (.ofStr (u ++ (w ++ v) ++ x)) := by
      have hlt := (List.getElem?_eq_some_iff.mp hbuf).1
      rw [hindex, List.getElem?_set_self hlt, hstr]
    have hnew := hslice.extend hget hcond
    refine ⟨⟨⟨u, _, hnew⟩, h.lineFeedCnt⟩, ?_⟩
    rintro ⟨-, hstop⟩
    have hwhole : u ++ (w ++ (v ++ x)) = str ++ x := by simp [hstr]
    rw [hnew.stop, hwhole] at hstop
    have hoffset := cursorAt_inj hstop
    have hpos := List.length_pos_iff.mpr hx
    rw [hstr] at hoffset
    simp only [List.length_append] at hoffset
    omega
  · refine ⟨⟨⟨u, v, hslice.of_getElem? ?_⟩, h.lineFeedCnt⟩, fun hend => hindex hend.1⟩
    rw [List.getElem?_set_ne (Ne.symm hindex)]

/-- The tree after text has been appended to the change buffer. -/
theorem Layout.extend {t : PieceTreeBase} {segs : List Seg} {str x : Str} (h : Layout t segs)
    (hbuf : t.buffers[0]? = some (.ofStr str)) (hx : x ≠ []) (hseam : ¬ Seam str x) :
    Layout { t with
        buffers := t.buffers.set 0 (.ofStr (str ++ x))
        lastChangeBufferPos := cursorAt (str ++ x) (str ++ x).length } segs ∧
      ∀ m ∈ segs, ¬ AtEnd (cursorAt (str ++ x) (str ++ x).length) m.piece := by
  have hall : ∀ m ∈ segs, Fits (t.buffers.set 0 (.ofStr (str ++ x))) m.piece m.text ∧
      ¬ AtEnd (cursorAt (str ++ x) (str ++ x).length) m.piece := fun m hm =>
    (h.fits m hm).extend hbuf hx (.inr hseam)
  have hlt := (List.getElem?_eq_some_iff.mp hbuf).1
  refine ⟨⟨h.holds, h.distinct, h.fresh, fun m hm => (hall m hm).1,
    ⟨str ++ x, List.getElem?_set_self hlt, rfl⟩, ?_⟩, fun m hm => (hall m hm).2⟩
  exact List.pairwise_of_forall_mem_list fun m hm m' _ hboth => (hall m hm).2 hboth.1

theorem createLineStartsFast_extend {str x : Str} (h : ¬ Seam str x) :
    createLineStartsFast (str ++ x) = createLineStartsFast str ++
      (createLineStartsFast x).tail.map (· + str.length) := by
  have hlen := length_createLineStartsFast str
  rw [createLineStartsFast_append, seam, if_neg h, Nat.sub_zero, ← hlen, List.take_length]

@[simp] theorem startsWithLF_iff {str : Str} :
    startsWithLF str = true ↔ str.head? = some LineFeed := by
  simp [startsWithLF, charCodeAt, List.head?_eq_getElem?]

@[simp] theorem endsWithCR_iff {str : Str} :
    endsWithCR str = true ↔ str.getLast? = some CarriageReturn := by
  unfold endsWithCR charCodeAt
  cases str with
  | nil => simp
  | cons chr str =>
    simp only [List.length_cons, decide_eq_true_eq, List.getLast?_eq_getElem?]
    rw [if_neg (by omega), show ((str.length + 1 : ℕ) - 1 : Int).toNat = str.length + 1 - 1 by omega]

/-- The condition for the filler. -/
theorem atBreak_iff {str text : Str} :
    (lineStartAt (createLineStartsFast str) ((createLineStartsFast str).length - 1) = str.length ∧
      str.length ≠ 0 ∧ startsWithLF text ∧ endsWithCR str) ↔ Seam str text := by
  rw [startsWithLF_iff, endsWithCR_iff]
  constructor
  · rintro ⟨-, -, hlf, hcr⟩
    exact ⟨hcr, hlf⟩
  · rintro ⟨hcr, hlf⟩
    have hlen := length_createLineStartsFast str
    have hlast : ((createLineStartsFast str).length : Int) - 1 = countBreaks str := by omega
    refine ⟨?_, ?_, hlf, hcr⟩
    · rw [hlast, lineStartAt_createLineStartsFast, lineStart_last hcr]
    · rintro hzero
      rw [List.length_eq_zero_iff.mp hzero] at hcr
      cases hcr

theorem createLineStartsFast_filler (text : Str) :
    (createLineStartsFast ([95] ++ text)).tail = (createLineStartsFast text).tail.map (· + 1) := by
  rw [createLineStartsFast_extend (by simp [Seam, CarriageReturn])]
  rfl

theorem cursorAt_filler (str text : Str) :
    cursorAt (str ++ ([95] ++ text)) (str ++ [95]).length =
      ⟨(cursorAt str str.length).line, (cursorAt str str.length).column + 1⟩ := by
  have hseam : ¬ Seam str ([95] ++ text) := by simp [Seam, LineFeed]
  have hplace := cursorAt_append (u := str) (v := [95] ++ text) (.inr ⟨rfl, hseam⟩)
  have hright := lineAt_append_right str ([95] ++ text) 1
  have hfiller := lineAt_cut [95] text
  have hnone : countBreaks [95] = 0 := by decide
  rw [List.length_singleton, hnone] at hfiller
  have hline : lineAt (str ++ ([95] ++ text)) (str.length + 1) =
      lineAt (str ++ ([95] ++ text)) str.length := by omega
  rw [← hplace, cursorAt, cursorAt, List.length_append, List.length_singleton, hline,
    BufferCursor.mk.injEq]
  exact ⟨rfl, by push_cast; omega⟩

theorem Fits.append {buffers more : List StringBuffer} {p : Piece} {w : Str}
    (h : Fits buffers p w) : Fits (buffers ++ more) p w := by
  obtain ⟨u, v, hslice⟩ := h.slice
  exact ⟨⟨u, v, hslice.of_getElem? (List.getElem?_append_left hslice.bufferIndex_lt)⟩,
    h.lineFeedCnt⟩

/-- The part of the change buffer behind what was there and a filler. -/
theorem slice_change {buffers : List StringBuffer} {str filler value : Str}
    (h : buffers[0]? = some (.ofStr (str ++ (filler ++ value)))) (p : Piece)
    (hindex : p.bufferIndex = 0)
    (hstart : p.start = cursorAt (str ++ (filler ++ value)) (str ++ filler).length)
    (hstop : p.stop = cursorAt (str ++ (filler ++ value)) (str ++ (filler ++ value)).length)
    (hlength : p.length = value.length) : Slice buffers p (str ++ filler) value [] := by
  have hstr : str ++ filler ++ (value ++ []) = str ++ (filler ++ value) := by simp
  constructor
  · rw [hindex, h, hstr]
  · rw [hstart, hstr]
  · rw [hstop, hstr, ← List.length_append, List.append_assoc]
  · exact hlength

/-- The buffers have grown for the parts `ps`: pieces made before stay, and they do not end
where one of the parts ends. -/
structure Grown (t t' : PieceTreeBase) (ps : List Part) : Prop extends Kept t t' where
  root : t'.root = t.root
  sameId : t'.nextId = t.nextId
  fits : ∀ q w, Fits t.buffers q w → Fits t'.buffers q w
  ends : ∀ q w, Fits t.buffers q w → AtEnd t'.lastChangeBufferPos q →
    t'.lastChangeBufferPos = t.lastChangeBufferPos ∧ ∀ e ∈ ps, ¬ AtEnd t'.lastChangeBufferPos e.1

/-- Pieces are made for a text; the tree and what its pieces stand for stay. -/
theorem Layout.createNewPieces {t : PieceTreeBase} {segs : List Seg} {value : Str}
    (h : Layout t segs) (hv : value ≠ []) :
    ∃ t' ps, t.createNewPieces value = some (t', ps.map Prod.fst) ∧ Grown t t' ps ∧
      Layout t' segs ∧ NewParts t' segs ps value ∧
      (value.length ≤ AverageBufferSize → ∃ p, ps = [(p, value)]) := by
  obtain ⟨str, hbuf, hpos⟩ := h.changeBuffer
  have hlt := (List.getElem?_eq_some_iff.mp hbuf).1
  unfold PieceTreeBase.createNewPieces
  by_cases hlarge : value.length > AverageBufferSize
  · obtain ⟨ps, heq, htexts, hps⟩ := pushBuffers_spec t (PieceTreeBase.splitLarge value)
    obtain ⟨hflat, hne, hunbroken⟩ := splitLarge_spec hv
    have hend : ∀ e ∈ ps, ∀ pos, ¬ AtEnd pos e.1 := by
      intro e he pos hend
      have := (hps e he).1
      rw [hend.1] at this
      omega
    rw [if_pos hlarge, heq]
    refine ⟨_, ps, rfl, ⟨⟨rfl, rfl, rfl, rfl, le_rfl⟩, rfl, rfl, fun _ _ hq => hq.append,
      fun _ _ _ _ => ⟨rfl, fun e he => hend e he _⟩⟩, ?_, ?_, fun hsmall => absurd hsmall (by omega)⟩
    · refine ⟨h.holds, h.distinct, h.fresh, fun m hm => (h.fits m hm).append, ⟨str, ?_, hpos⟩, h.ends⟩
      rw [List.getElem?_append_left hlt, hbuf]
    · refine ⟨⟨fun e he => (hps e he).2, ?_, fun e he hend' => absurd hend' (hend e he _)⟩,
        by rw [htexts, hflat], ?_, by rwa [htexts]⟩
      · exact List.pairwise_of_forall_mem_list fun e he _ _ hboth => hend e he _ hboth.1
      · intro e he
        exact hne e.2 (by rw [← htexts]; exact List.mem_map_of_mem he)
  · rw [if_neg hlarge]
    obtain ⟨filler, hfiller⟩ : ∃ filler : Str, filler = if Seam str value then [95] else [] :=
      ⟨_, rfl⟩
    have hseam : ¬ Seam str (filler ++ value) := by
      rw [hfiller]
      split_ifs with hs
      · simp [Seam, LineFeed]
      · exact hs
    have hstarts : createLineStartsFast str ++
        ((createLineStartsFast value).drop 1).map (· + (str.length + filler.length)) =
        createLineStartsFast (str ++ (filler ++ value)) := by
      rw [createLineStartsFast_extend hseam, List.drop_one]
      rw [hfiller]
      split_ifs with hs
      · rw [createLineStartsFast_filler, List.map_map]
        simp [Function.comp_def, Nat.add_comm, Nat.add_left_comm]
      · simp
    have hstart : (if Seam str value then
        (⟨t.lastChangeBufferPos.line, t.lastChangeBufferPos.column + 1⟩ : BufferCursor)
        else t.lastChangeBufferPos) =
        cursorAt (str ++ (filler ++ value)) (str ++ filler).length := by
      rw [hpos, hfiller]
      split_ifs with hs
      · rw [cursorAt_filler]
      · rw [List.append_nil, List.nil_append, cursorAt_append (.inr ⟨rfl, hs⟩)]
    have hne : filler ++ value ≠ [] := fun hnil => hv (List.append_eq_nil_iff.mp hnil).2
    obtain ⟨hlayout, hends⟩ := h.extend hbuf hne hseam
    have hset : (t.buffers.set 0 (.ofStr (str ++ (filler ++ value))))[0]? =
        some (.ofStr (str ++ (filler ++ value))) := List.getElem?_set_self hlt
    have hstop := cursorAt_length (str ++ (filler ++ value))
    simp only [hbuf, StringBuffer.ofStr, Option.bind_eq_bind, Option.bind_some, atBreak_iff,
      ← hfiller, hstart, hstarts]
    rw [← hstop]
    obtain ⟨p, hp⟩ : ∃ p : Piece, p = ⟨0,
        cursorAt (str ++ (filler ++ value)) (str ++ filler).length,
        cursorAt (str ++ (filler ++ value)) (str ++ (filler ++ value)).length,
        countBreaks value,
        (str ++ (filler ++ value)).length - (str.length + filler.length : ℕ)⟩ := ⟨_, rfl⟩
    have hslice : Slice (t.buffers.set 0 (.ofStr (str ++ (filler ++ value)))) p (str ++ filler)
        value [] := by
      subst hp
      exact slice_change hset _ rfl rfl rfl (by
        simp only [List.length_append]
        omega)
    have hcnt := PieceTreeBase.getLineFeedCnt_piece
      (t := { t with buffers := t.buffers.set 0 (.ofStr (str ++ (filler ++ value))) }) hslice hv
    rw [hp] at hcnt
    refine ⟨{ t with
        buffers := t.buffers.set 0 (.ofStr (str ++ (filler ++ value)))
        lastChangeBufferPos := cursorAt (str ++ (filler ++ value)) (str ++ (filler ++ value)).length },
      [(p, value)], ?_, ⟨⟨rfl, rfl, rfl, rfl, le_rfl⟩, rfl, rfl,
        fun q w hq => (hq.extend hbuf hne (.inr hseam)).1,
        fun q w hq hend => absurd hend (hq.extend hbuf hne (.inr hseam)).2⟩, hlayout, ?_,
      fun _ => ⟨p, rfl⟩⟩
    · subst hp
      dsimp only [StringBuffer.ofStr] at hcnt
      rw [hcnt]
      rfl
    · refine ⟨⟨?_, List.pairwise_singleton _ _, fun _ _ _ => hends⟩, by simp, by simpa using hv,
        .singleton _⟩
      intro e he
      obtain rfl := List.mem_singleton.mp he
      exact ⟨⟨_, _, hslice⟩, fun _ => by rw [hp]⟩

/-! ### Linking new pieces -/

theorem Linkable.tail {t t' : PieceTreeBase} {segs segs' : List Seg} {e : Part} {ps : List Part}
    (h : Linkable t segs (e :: ps)) (hr : Reshaped t t')
    (hsub : ∀ m ∈ segs', m ∈ segs ∨ m.piece = e.1) : Linkable t' segs' ps := by
  have hends := List.pairwise_cons.mp h.ends
  refine ⟨?_, ?_, ?_⟩
  · rw [hr.buffers]
    exact fun e' he' => h.fits e' (List.mem_cons_of_mem e he')
  · rw [hr.lastChangeBufferPos]
    exact hends.2
  · rw [hr.lastChangeBufferPos]
    intro e' he' hend m hm
    rcases hsub m hm with hm | hpiece
    · exact h.fresh e' (List.mem_cons_of_mem e he') hend m hm
    · rw [hpiece]
      exact fun hm => hends.1 e' he' ⟨hm, hend⟩

theorem Linkable.reverse {t : PieceTreeBase} {segs : List Seg} {ps : List Part}
    (h : Linkable t segs ps) : Linkable t segs ps.reverse := by
  refine ⟨fun e he => h.fits e (List.mem_reverse.mp he), ?_, fun e he =>
    h.fresh e (List.mem_reverse.mp he)⟩
  rw [List.pairwise_reverse]
  exact h.ends.imp fun hne hboth => hne ⟨hboth.2, hboth.1⟩

theorem Layout.insertAllRight {t : PieceTreeBase} {A B : List Seg} {s : Seg} {ps : List Part}
    (h : Layout t (A ++ s :: B)) (hps : Linkable t (A ++ s :: B) ps) :
    ∃ t' news, t.insertAllRight s.id (ps.map Prod.fst) = some t' ∧ Reshaped t t' ∧
      Layout t' (A ++ s :: (news ++ B)) ∧ news.map Seg.part = ps := by
  induction ps generalizing t A s with
  | nil => exact ⟨t, [], rfl, .refl t, h, rfl⟩
  | cons e ps ih =>
    obtain ⟨q, w⟩ := e
    obtain ⟨t₁, hins, hr₁, h₁⟩ := h.insertRight (hps.fits (q, w) List.mem_cons_self)
      (hps.fresh (q, w) List.mem_cons_self)
    have hnext : Layout t₁ ((A ++ [s]) ++ ⟨t.nextId, q, w⟩ :: B) := by simpa using h₁
    obtain ⟨t₂, news, hall, hr₂, h₂, hnews⟩ := ih hnext (hps.tail hr₁ fun m hm => by
      simp only [List.mem_append, List.mem_cons, List.mem_nil_iff, or_false] at hm ⊢
      rcases hm with (hm | rfl) | rfl | hm
      · exact .inl (.inl hm)
      · exact .inl (.inr (.inl rfl))
      · exact .inr rfl
      · exact .inl (.inr (.inr hm)))
    refine ⟨t₂, ⟨t.nextId, q, w⟩ :: news, ?_, hr₁.trans hr₂, by simpa using h₂, ?_⟩
    · simp only [List.map_cons, PieceTreeBase.insertAllRight, hins, Option.bind_eq_bind,
        Option.bind_some]
      exact hall
    · rw [List.map_cons, hnews]
      rfl

theorem Layout.insertAllLeft {t : PieceTreeBase} {A B : List Seg} {s : Seg} {ps : List Part}
    (h : Layout t (A ++ s :: B)) (hps : Linkable t (A ++ s :: B) ps) :
    ∃ t' news first rest, t.insertAllLeft s.id (ps.map Prod.fst) = some (t', first.id) ∧
      Reshaped t t' ∧ Layout t' (A ++ (news ++ s :: B)) ∧ news.map Seg.part = ps.reverse ∧
      news ++ [s] = first :: rest := by
  induction ps generalizing t B s with
  | nil => exact ⟨t, [], s, [], rfl, .refl t, h, rfl, rfl⟩
  | cons e ps ih =>
    obtain ⟨q, w⟩ := e
    obtain ⟨t₁, hins, hr₁, h₁⟩ := h.insertLeft (hps.fits (q, w) List.mem_cons_self)
      (hps.fresh (q, w) List.mem_cons_self)
    obtain ⟨t₂, news, first, rest, hall, hr₂, h₂, hnews, hfirst⟩ := ih h₁ (hps.tail hr₁ fun m hm => by
      simp only [List.mem_append, List.mem_cons] at hm ⊢
      rcases hm with hm | rfl | hm
      · exact .inl (.inl hm)
      · exact .inr rfl
      · exact .inl (.inr hm))
    refine ⟨t₂, news ++ [⟨t.nextId, q, w⟩], first, rest ++ [s], ?_, hr₁.trans hr₂, by simpa using h₂,
      ?_, by rw [hfirst, List.cons_append]⟩
    · simp only [List.map_cons, PieceTreeBase.insertAllLeft, hins, Option.bind_eq_bind,
        Option.bind_some]
      exact hall
    · rw [List.map_append, hnews, List.reverse_cons]
      rfl

end NexgileIde.PieceTree
