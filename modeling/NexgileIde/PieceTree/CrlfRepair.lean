import NexgileIde.PieceTree.NewPieces

/-!
# Repairing `\r\n`

Where an edit would leave a `\r` at the end of a piece and a `\n` at the start of the next,
both are taken off and a new piece `\r\n` is put between.
-/
namespace NexgileIde.PieceTree

open Library RBTree Text

/-- No piece is empty. -/
def Whole (segs : List Seg) : Prop := ∀ m ∈ segs, m.text ≠ []

/-- No `\r\n` is cut in two by the pieces. -/
def Chain (segs : List Seg) : Prop := Unbroken (segs.map Seg.text)

@[simp] theorem whole_nil : Whole [] := by simp [Whole]
@[simp] theorem whole_cons {s : Seg} {segs : List Seg} :
    Whole (s :: segs) ↔ s.text ≠ [] ∧ Whole segs := by simp [Whole]
@[simp] theorem whole_append {A B : List Seg} : Whole (A ++ B) ↔ Whole A ∧ Whole B := by
  simp only [Whole, List.mem_append]
  constructor
  · exact fun h => ⟨fun m hm => h m (.inl hm), fun m hm => h m (.inr hm)⟩
  · exact fun h m hm => hm.elim (h.1 m) (h.2 m)

@[simp] theorem chain_nil : Chain [] := .nil
@[simp] theorem chain_singleton (s : Seg) : Chain [s] := .singleton _

theorem textOf_eq (segs : List Seg) : textOf segs = (segs.map Seg.text).flatten := by
  rw [textOf, List.flatMap_def]

theorem chain_append {A B : List Seg} (hA : Whole A) (hB : Whole B) :
    Chain (A ++ B) ↔ Chain A ∧ Chain B ∧ ¬ Seam (textOf A) (textOf B) := by
  rw [Chain, List.map_append, unbroken_append, textOf_eq, textOf_eq]
  · rfl
  · simpa [Whole] using hA
  · simpa [Whole] using hB

theorem chain_cons {s : Seg} {B : List Seg} (hs : s.text ≠ []) (hB : Whole B) :
    Chain (s :: B) ↔ Chain B ∧ ¬ Seam s.text (textOf B) := by
  rw [← List.singleton_append, chain_append (by simpa using hs) hB]
  simp

/-- What is left of a node: nothing if its piece is empty. -/
def Seg.keep (s : Seg) : List Seg := if s.text = [] then [] else [s]

@[simp] theorem textOf_keep (s : Seg) : textOf s.keep = s.text := by
  unfold Seg.keep
  split_ifs with h
  · simp [h]
  · simp

@[simp] theorem whole_keep (s : Seg) : Whole s.keep := by
  unfold Seg.keep
  split_ifs with h <;> simp [h]

@[simp] theorem chain_keep (s : Seg) : Chain s.keep := by
  unfold Seg.keep
  split_ifs <;> simp

namespace Layout

variable {t : PieceTreeBase} {A B segs : List Seg} {s s' : Seg} {w : Str}

theorem fits_seg (h : Layout t (A ++ s :: B)) : Fits t.buffers s.piece s.text :=
  h.fits s (by simp)

/-- A node is removed if its piece is empty. -/
theorem deleteIfEmpty (h : Layout t (A ++ s :: B)) :
    ∃ t', t.deleteNodes (if s.piece.length = 0 then [s.id] else []) = some t' ∧ Reshaped t t' ∧
      t'.nextId = t.nextId ∧ Layout t' (A ++ (s.keep ++ B)) := by
  have hlength := h.fits_seg.length
  by_cases hempty : s.text = []
  · obtain ⟨t', hdel, hr, hid, h'⟩ := deleteNodes (M := [s]) h
    have hzero : s.piece.length = 0 := by simp [hlength, hempty]
    refine ⟨t', ?_, hr, hid, ?_⟩
    · rw [if_pos hzero]
      exact hdel
    · rw [Seg.keep, if_pos hempty]
      exact h'
  · have hpos := List.length_pos_iff.mpr hempty
    refine ⟨t, ?_, .refl t, rfl, ?_⟩
    · rw [if_neg (by omega)]
      rfl
    · rw [Seg.keep, if_neg hempty]
      exact h

theorem pieceStartsWithLF (h : Layout t (A ++ s :: B)) (hs : s.text ≠ []) :
    t.pieceStartsWithLF s.piece = some (decide (s.text.head? = some LineFeed)) := by
  obtain ⟨u, v, hslice⟩ := h.fits_seg.slice
  exact PieceTreeBase.pieceStartsWithLF_eq hslice (h.fits_seg.lineFeedCnt hs) hs

theorem pieceEndsWithCR (h : Layout t (A ++ s :: B)) (hs : s.text ≠ []) :
    t.pieceEndsWithCR s.piece = some (decide (s.text.getLast? = some CarriageReturn)) := by
  obtain ⟨u, v, hslice⟩ := h.fits_seg.slice
  exact PieceTreeBase.pieceEndsWithCR_eq hslice (h.fits_seg.lineFeedCnt hs) hs

theorem startWithLF (h : Layout t (A ++ s :: B)) (hs : s.text ≠ []) :
    t.startWithLF (some s.id) = some (decide (s.text.head? = some LineFeed)) := by
  simp only [PieceTreeBase.startWithLF, h.pieceOf, Option.bind_eq_bind, Option.bind_some,
    h.pieceStartsWithLF hs]

theorem endWithCR (h : Layout t (A ++ s :: B)) (hs : s.text ≠ []) :
    t.endWithCR (some s.id) = some (decide (s.text.getLast? = some CarriageReturn)) := by
  simp only [PieceTreeBase.endWithCR, h.pieceOf, Option.bind_eq_bind, Option.bind_some,
    h.pieceEndsWithCR hs]

/-- The first `\n` is taken off a node. -/
theorem takeLF (h : Layout t (A ++ s :: B)) (hs : s.text = LineFeed :: w) :
    ∃ q t', t.withoutLF s.piece = some q ∧ t.replacePiece s.id q (-1) (-1) = some t' ∧
      q.length = w.length ∧ Reshaped t t' ∧ t'.nextId = t.nextId ∧
      Layout t' (A ++ ⟨s.id, q, w⟩ :: B) := by
  obtain ⟨u, v, hslice⟩ := h.fits_seg.slice
  have hcnt := h.fits_seg.lineFeedCnt (by rw [hs]; simp)
  rw [hs] at hslice hcnt
  rw [countBreaks_lineFeed] at hcnt
  obtain ⟨q, hq, hqslice, hqcnt, hindex, hstop⟩ := PieceTreeBase.withoutLF_eq hslice
  have hlength := hslice.length
  have hqlength := hqslice.length
  rw [List.length_cons] at hlength
  obtain ⟨t', hrep, hr, hid, h'⟩ := h.replacePiece (w := w) (d := -1) (e := -1)
    ⟨⟨_, _, hqslice⟩, fun _ => hqcnt⟩ (fun hend => ⟨hindex ▸ hend.1, hstop ▸ hend.2⟩)
    (by omega) (by omega)
  exact ⟨q, t', hq, hrep, hqlength, hr, hid, h'⟩

/-- A piece with something behind it in its buffer does not end at the end of the change
buffer. -/
theorem not_atEnd {p : Piece} {u v : Str} (h : Layout t segs) (hp : Slice t.buffers p u w v)
    (hv : v ≠ []) : ¬ AtEnd t.lastChangeBufferPos p := by
  rintro ⟨hindex, hstop⟩
  obtain ⟨str, hbuf, hpos⟩ := h.changeBuffer
  have hget := hp.buffer
  rw [hindex, hbuf] at hget
  have hstr : str = u ++ (w ++ v) := congrArg StringBuffer.buffer (Option.some.inj hget)
  have hlen := List.length_pos_iff.mpr hv
  rw [hpos, hp.stop, ← hstr] at hstop
  have hoffset := cursorAt_inj hstop
  rw [hstr] at hoffset
  simp only [List.length_append] at hoffset
  omega

/-- The last `\r` is taken off a node. -/
theorem takeCR (h : Layout t (A ++ s :: B)) (hs : s.text = w ++ [CarriageReturn]) :
    ∃ b q t', t.buffers[s.piece.bufferIndex]? = some b ∧
      q = ⟨s.piece.bufferIndex, s.piece.start,
        if s.piece.stop.column = 0 then
          ⟨s.piece.stop.line - 1, lineStartAt b.lineStarts s.piece.stop.line -
            lineStartAt b.lineStarts (s.piece.stop.line - 1) - 1⟩
        else ⟨s.piece.stop.line, s.piece.stop.column - 1⟩,
        s.piece.lineFeedCnt - 1, s.piece.length - 1⟩ ∧
      t.replacePiece s.id q (-1) (-1) = some t' ∧ q.length = w.length ∧ Reshaped t t' ∧
      t'.nextId = t.nextId ∧ Layout t' (A ++ ⟨s.id, q, w⟩ :: B) := by
  obtain ⟨u, v, hslice⟩ := h.fits_seg.slice
  have hcnt := h.fits_seg.lineFeedCnt (by rw [hs]; simp)
  rw [hs] at hslice hcnt
  rw [countBreaks_concat_cr] at hcnt
  have hlength := hslice.length
  have hpred := cursorAt_pred (u ++ (w ++ [CarriageReturn] ++ v)) (u.length + w.length)
  have hleft := hslice.takeLeft (s.piece.lineFeedCnt - 1)
  have hstop : s.piece.stop =
      cursorAt (u ++ (w ++ [CarriageReturn] ++ v)) (u.length + w.length + 1) := by
    rw [hslice.stop, List.length_append, List.length_singleton, Nat.add_assoc]
  rw [List.length_append, List.length_singleton, Nat.cast_add, Nat.cast_one] at hlength
  rw [← hpred, ← hstop, show (w.length : Int) = s.piece.length - 1 by omega] at hleft
  have hend := h.not_atEnd hleft (by simp)
  obtain ⟨t', hrep, hr, hid, h'⟩ := h.replacePiece (w := w) (d := -1) (e := -1)
    ⟨⟨_, _, hleft⟩, fun _ => by dsimp only; omega⟩ (fun hq => absurd hq hend)
    (by dsimp only; omega) (by dsimp only; omega)
  exact ⟨_, _, t', hslice.buffer, rfl, hrep, by dsimp only; omega, hr, hid, h'⟩

/-- `\r` and `\n` at the joint of two pieces become a piece of their own. -/
theorem fixCRLF {w' : Str} (h : Layout t (A ++ s :: s' :: B)) (hs : s.text = w ++ [CarriageReturn])
    (hs' : s'.text = LineFeed :: w') :
    ∃ t' q q' p, t.fixCRLF s.id s'.id = some t' ∧ Kept t t' ∧
      Layout t' (A ++ ((⟨s.id, q, w⟩ : Seg).keep ++
        (⟨t.nextId, p, [CarriageReturn, LineFeed]⟩ :: ((⟨s'.id, q', w'⟩ : Seg).keep ++ B)))) := by
  obtain ⟨b, q, t₁, hbuf, hq, hrep₁, hlen₁, hr₁, hid₁, h₁⟩ := h.takeCR hs
  have h₁' : Layout t₁ ((A ++ [⟨s.id, q, w⟩]) ++ s' :: B) := by simpa using h₁
  obtain ⟨q', t₂, hlf, hrep₂, hlen₂, hr₂, hid₂, h₂⟩ := h₁'.takeLF hs'
  have hne : [CarriageReturn, LineFeed] ≠ [] := by simp
  obtain ⟨t₃, ps, hnew, hgrown, h₃, hps, hsmall⟩ := h₂.createNewPieces hne
  obtain ⟨p, rfl⟩ := hsmall (by decide)
  have h₃' : Layout t₃ (A ++ ⟨s.id, q, w⟩ :: ⟨s'.id, q', w'⟩ :: B) := by simpa using h₃
  obtain ⟨t₄, hins, hr₄, h₄⟩ := h₃'.insertRight (hps.fits _ List.mem_cons_self)
    (by simpa using hps.fresh _ List.mem_cons_self)
  obtain ⟨t₅, hdel₅, hr₅, hid₅, h₅⟩ := h₄.deleteIfEmpty
  have h₅' : Layout t₅ ((A ++ ((⟨s.id, q, w⟩ : Seg).keep ++
      [⟨t₃.nextId, p, [CarriageReturn, LineFeed]⟩])) ++ ⟨s'.id, q', w'⟩ :: B) := by simpa using h₅
  obtain ⟨t₆, hdel₆, hr₆, hid₆, h₆⟩ := h₅'.deleteIfEmpty
  have hqlen : s.piece.length - 1 = q.length := by rw [hq]
  refine ⟨t₆, q, q', p, ?_, ?_, ?_⟩
  · unfold PieceTreeBase.fixCRLF
    simp only [h.pieceOf, hbuf, ← hq, hrep₁, h₁'.pieceOf, hlf, hrep₂, hnew, hins, List.map_cons,
      List.map_nil, List.head?_cons, PieceTreeBase.deleteNodes, List.foldlM_append,
      Option.bind_eq_bind, Option.bind_some]
    rw [PieceTreeBase.deleteNodes] at hdel₅ hdel₆
    dsimp only at hdel₅ hdel₆
    rw [hqlen, hdel₅, Option.bind_some, hdel₆]
  · exact hr₁.toKept.trans (hr₂.toKept.trans (hgrown.toKept.trans (hr₄.toKept.trans
      (hr₅.toKept.trans hr₆.toKept))))
  · rw [hgrown.sameId, hid₂, hid₁] at h₆
    simpa using h₆

end Layout
/-- The nodes `A` and the node `s` behind them have become `F`; the nodes behind stay. -/
structure Repaired (t t' : PieceTreeBase) (A : List Seg) (s : Seg) (B F : List Seg) : Prop where
  kept : Kept t t'
  layout : Layout t' (F ++ B)
  text : textOf F = textOf A ++ s.text
  whole : Whole F
  chain : t.shouldCheckCRLF = true → Chain A → Chain F
  ids : ∀ m ∈ F, (∃ m' ∈ A ++ [s], m'.id = m.id) ∨ t.nextId ≤ m.id
  front : ∀ A' r, A = A' ++ [r] → ∃ rest, F = A' ++ rest ∧ ∀ m ∈ rest.tail, m.id ≠ r.id

theorem repaired_self {t : PieceTreeBase} {A B : List Seg} {s : Seg} (h : Layout t (A ++ s :: B))
    (hA : Whole A) (hs : s.text ≠ [])
    (hseam : t.shouldCheckCRLF = true → ¬ Seam (textOf A) s.text) :
    Repaired t t A s B (A ++ [s]) := by
  refine ⟨.refl t, by simpa using h, by simp, by simp [hA, hs], ?_, fun m hm => .inl ⟨m, hm, rfl⟩, ?_⟩
  · intro hcheck hchain
    rw [chain_append hA (by simpa using hs)]
    exact ⟨hchain, chain_singleton s, by simpa using hseam hcheck⟩
  · rintro A' r rfl
    refine ⟨[r, s], by simp, ?_⟩
    intro m hm
    have hm : m = s := by simpa using hm
    have h' : Layout t (A' ++ r :: s :: B) := by simpa using h
    exact hm ▸ h'.not_mem s (by simp)

theorem repaired_fix {t : PieceTreeBase} {A B : List Seg} {r s : Seg}
    (h : Layout t (A ++ r :: s :: B)) (hA : Whole A) (hr : r.text.getLast? = some CarriageReturn)
    (hs : s.text.head? = some LineFeed) :
    ∃ t' F, t.fixCRLF r.id s.id = some t' ∧ Repaired t t' (A ++ [r]) s B F := by
  obtain ⟨w, hw⟩ := List.getLast?_eq_some_iff.mp hr
  obtain ⟨w', hw'⟩ := List.head?_eq_some_iff.mp hs
  obtain ⟨t', q, q', p, hfix, hkept, h'⟩ := h.fixCRLF hw hw'
  obtain ⟨left, hleft⟩ : ∃ left : Seg, left = ⟨r.id, q, w⟩ := ⟨_, rfl⟩
  obtain ⟨mid, hmid⟩ : ∃ mid : Seg, mid = ⟨t.nextId, p, [CarriageReturn, LineFeed]⟩ := ⟨_, rfl⟩
  obtain ⟨right, hright⟩ : ∃ right : Seg, right = ⟨s.id, q', w'⟩ := ⟨_, rfl⟩
  rw [← hleft, ← hmid, ← hright] at h'
  have hmidtext : mid.text = [CarriageReturn, LineFeed] := by rw [hmid]
  have hmidwhole : Whole (mid :: right.keep) := by simp [hmidtext]
  have hkeepid : ∀ x y : Seg, x ∈ y.keep → x = y := by
    intro x y hx
    unfold Seg.keep at hx
    split_ifs at hx
    · cases hx
    · exact List.mem_singleton.mp hx
  refine ⟨t', A ++ (left.keep ++ mid :: right.keep), hfix, hkept, by simpa using h', ?_, ?_, ?_, ?_, ?_⟩
  · simp [hleft, hright, hmidtext, hw, hw']
  · simp [hA, hmidtext]
  · intro hcheck hchain
    rw [chain_append hA (by rw [whole_append]; exact ⟨whole_keep left, hmidwhole⟩),
      chain_append (whole_keep left) hmidwhole, chain_cons (by simp [hmidtext]) (whole_keep right)]
    have hrwhole : Whole [r] := by simp [hw]
    obtain ⟨hchainA, -, hseam⟩ := (chain_append hA hrwhole).mp hchain
    refine ⟨hchainA, ⟨chain_keep left, ⟨chain_keep right, ?_⟩, ?_⟩, ?_⟩
    · simp [hmidtext, Seam, LineFeed, CarriageReturn]
    · simp [hmidtext, Seam, LineFeed, CarriageReturn]
    · rintro ⟨hlast, hhead⟩
      refine hseam ⟨hlast, ?_⟩
      cases w with
      | nil => simp [hleft, hmidtext, CarriageReturn, LineFeed] at hhead
      | cons chr w => simpa [hleft, hw] using hhead
  · intro m hm
    simp only [List.mem_append, List.mem_cons] at hm
    rcases hm with hm | hm | rfl | hm
    · exact .inl ⟨m, by simp [hm], rfl⟩
    · exact .inl ⟨r, by simp, by rw [hkeepid m left hm, hleft]⟩
    · exact .inr (by rw [hmid])
    · exact .inl ⟨s, by simp, by rw [hkeepid m right hm, hright]⟩
  · intro A' r' heq
    obtain ⟨rfl, hr'⟩ := List.append_inj' heq rfl
    obtain rfl := List.singleton_inj.mp hr'
    refine ⟨left.keep ++ mid :: right.keep, rfl, ?_⟩
    have hfresh : r.id < t.nextId := h.fresh r (by simp)
    have hne : s.id ≠ r.id := h.not_mem s (by simp)
    have hsub : ∀ m ∈ (left.keep ++ mid :: right.keep).tail, m = mid ∨ m = right := by
      intro m hm
      unfold Seg.keep at hm
      split_ifs at hm <;> simp at hm <;> tauto
    intro m hm
    rcases hsub m hm with rfl | rfl
    · rw [hmid]
      dsimp only
      omega
    · rw [hright]
      exact hne

/-- Both checks of a joint do the same. -/
theorem validateCRLF_spec {t : PieceTreeBase} {A B : List Seg} {s : Seg}
    (h : Layout t (A ++ s :: B)) (hA : Whole A) (hs : s.text ≠ []) :
    ∃ t' F, t.validateCRLFWithPrevNode (some s.id) = some t' ∧
      t.validateCRLFWithNextNode (A.getLast?.map Seg.id) = some t' ∧ Repaired t t' A s B F := by
  have hstart := h.startWithLF hs
  have hprev := h.prev
  unfold PieceTreeBase.validateCRLFWithPrevNode PieceTreeBase.validateCRLFWithNextNode
  rcases List.eq_nil_or_concat' A with rfl | ⟨A, r, rfl⟩
  · refine ⟨t, [s], ?_, ?_, repaired_self h hA hs fun _ => by simp [Seam]⟩
    · simp only [hstart, hprev, PieceTreeBase.endWithCR, List.getLast?_nil, Option.map_none,
        Option.bind_eq_bind, Option.bind_some]
      split_ifs <;> simp_all
    · simp [PieceTreeBase.endWithCR]
  · rw [whole_append, whole_cons] at hA
    have h' : Layout t (A ++ r :: s :: B) := by simpa using h
    have hend := h'.endWithCR hA.2.1
    have hnext := h'.next
    rw [List.getLast?_concat, Option.map_some] at hprev ⊢
    by_cases hjoint : t.shouldCheckCRLF = true ∧ s.text.head? = some LineFeed ∧
        r.text.getLast? = some CarriageReturn
    · obtain ⟨hcheck, hlf, hcr⟩ := hjoint
      obtain ⟨t', F, hfix, hrepaired⟩ := repaired_fix h' hA.1 hcr hlf
      refine ⟨t', F, ?_, ?_, hrepaired⟩
      · simp [hcheck, hstart, hlf, hprev, hend, hcr, hfix]
      · simp [hcheck, hstart, hlf, hnext, hend, hcr, hfix]
    · refine ⟨t, A ++ [r] ++ [s], ?_, ?_, repaired_self h (by simpa using hA) hs ?_⟩
      · simp only [hstart, hprev, hend, Option.bind_eq_bind, Option.bind_some]
        split_ifs <;> simp_all
      · simp only [hstart, hnext, hend, List.head?_cons, Option.map_some, Option.bind_eq_bind,
          Option.bind_some]
        split_ifs <;> simp_all
      · rintro hcheck ⟨hlast, hhead⟩
        rw [textOf_append, textOf_cons, textOf_nil, List.append_nil,
          List.getLast?_append_of_ne_nil _ hA.2.1] at hlast
        exact hjoint ⟨hcheck, hhead, hlast⟩

/-- The `\n` that follows a node is taken into the inserted text. -/
theorem adjustCarriageReturnFromNext_spec {t : PieceTreeBase} {A B : List Seg} {s : Seg}
    (h : Layout t (A ++ s :: B)) (hB : Whole B) (value : Str) :
    ∃ t' moved B', t.adjustCarriageReturnFromNext value s.id = some (t', moved) ∧ Reshaped t t' ∧
      t'.nextId = t.nextId ∧ Layout t' (A ++ s :: B') ∧ Whole B' ∧
      textOf B = (if moved then [LineFeed] else []) ++ textOf B' ∧
      (Chain B → Chain B') ∧
      (t.shouldCheckCRLF = true → moved = false → ¬ Seam value (textOf B')) := by
  unfold PieceTreeBase.adjustCarriageReturnFromNext
  have hnext := h.next
  by_cases hcase : t.shouldCheckCRLF = true ∧ value.getLast? = some CarriageReturn ∧
      (textOf B).head? = some LineFeed
  · obtain ⟨hcheck, hcr, hlf⟩ := hcase
    cases B with
    | nil => cases hlf
    | cons r B =>
      obtain ⟨hr, hBwhole⟩ := whole_cons.mp hB
      rw [textOf_cons, List.head?_append_of_ne_nil _ hr] at hlf
      obtain ⟨w, hw⟩ := List.head?_eq_some_iff.mp hlf
      have h' : Layout t ((A ++ [s]) ++ r :: B) := by simpa using h
      have hstart := h'.startWithLF hr
      have hlength := h'.fits_seg.length
      rw [List.head?_cons, Option.map_some] at hnext
      have hcrtest : endsWithCR value = true := endsWithCR_iff.mpr hcr
      cases w with
      | nil =>
        obtain ⟨t', hdel, hreshaped, hid, hlayout⟩ := h'.deleteNode
        have hone : r.piece.length = 1 := by simp [hlength, hw]
        refine ⟨t', true, B, ?_, hreshaped, hid, by simpa using hlayout, hBwhole, by simp [hw],
          fun hchain => ((chain_cons hr hBwhole).mp hchain).1, fun _ hmoved => by cases hmoved⟩
        simp [hcheck, hcrtest, hnext, hstart, hlf, h'.pieceOf, hone, hdel]
      | cons chr w =>
        obtain ⟨q, t', hq, hrep, hqlen, hreshaped, hid, hlayout⟩ := h'.takeLF hw
        have hone : r.piece.length ≠ 1 := by
          simp only [hlength, hw, List.length_cons]
          omega
        refine ⟨t', true, ⟨r.id, q, chr :: w⟩ :: B, ?_, hreshaped, hid, by simpa using hlayout,
          by simp [hBwhole], by simp [hw], ?_, fun _ hmoved => by cases hmoved⟩
        · simp [hcheck, hcrtest, hnext, hstart, hlf, h'.pieceOf, hone, hq, hrep]
        · intro hchain
          obtain ⟨hchainB, hseam⟩ := (chain_cons hr hBwhole).mp hchain
          rw [chain_cons (by simp) hBwhole]
          refine ⟨hchainB, fun hs => hseam ?_⟩
          rw [hw, ← List.singleton_append, seam_append_left_iff (by simp)]
          exact hs
  · refine ⟨t, false, B, ?_, .refl t, rfl, h, hB, by simp, id, fun hcheck _ hseam =>
      hcase ⟨hcheck, hseam.1, hseam.2⟩⟩
    by_cases htest : (t.shouldCheckCRLF && endsWithCR value) = true
    · rw [if_pos htest]
      simp only [hnext, Option.bind_eq_bind, Option.bind_some]
      rw [Bool.and_eq_true, endsWithCR_iff] at htest
      cases B with
      | nil => simp [PieceTreeBase.startWithLF]
      | cons r B =>
        obtain ⟨hr, hBwhole⟩ := whole_cons.mp hB
        have h' : Layout t ((A ++ [s]) ++ r :: B) := by simpa using h
        have hstart := h'.startWithLF hr
        have hlf : r.text.head? ≠ some LineFeed := by
          intro hlf
          refine hcase ⟨htest.1, htest.2, ?_⟩
          rwa [textOf_cons, List.head?_append_of_ne_nil _ hr]
        simp [hstart, hlf]
    · rw [if_neg htest]
      rfl

/-- The tree looks out for `\r\n`, or there is no `\r` to look out for. -/
def Guarded (t : PieceTreeBase) (str : Str) : Prop :=
  t.shouldCheckCRLF = true ∨ CarriageReturn ∉ str

theorem Guarded.mono {t t' : PieceTreeBase} {str str' : Str} (h : Guarded t str)
    (hkept : t'.shouldCheckCRLF = t.shouldCheckCRLF) (hsub : str' ⊆ str) : Guarded t' str' := by
  rw [Guarded, hkept]
  exact h.imp_right fun hmem hmem' => hmem (hsub hmem')

/-- The tests for `\r\n` come out as if they were always made. -/
theorem Guarded.and {t : PieceTreeBase} {str : Str} (h : Guarded t str) {b : Bool}
    (hb : b = true → CarriageReturn ∈ str) : (t.shouldCheckCRLF && b) = b := by
  rcases h with hcheck | hmem
  · rw [hcheck, Bool.true_and]
  · cases b with
    | false => exact Bool.and_false _
    | true => exact absurd (hb rfl) hmem

/-- The text to insert in front of the nodes behind `s`, once `\r` and `\n` are joined. -/
theorem adjusted_text {t : PieceTreeBase} {A B : List Seg} {s : Seg} {value : Str}
    (h : Layout t (A ++ s :: B)) (hB : Whole B) (hguard : Guarded t value) (hv : value ≠ []) :
    ∃ t' moved x B', t.adjustCarriageReturnFromNext value s.id = some (t', moved) ∧
      (if moved then value ++ [LineFeed] else value) = x ∧ x ≠ [] ∧ Reshaped t t' ∧
      Layout t' (A ++ s :: B') ∧ Whole B' ∧ x ++ textOf B' = value ++ textOf B ∧
      (Chain B → Chain B') ∧ ¬ Seam x (textOf B') := by
  obtain ⟨t', moved, B', hadjust, hr, -, h', hB', htext, hchain, hseam⟩ :=
    adjustCarriageReturnFromNext_spec h hB value
  refine ⟨t', moved, _, B', hadjust, rfl, ?_, hr, h', hB', ?_, hchain, ?_⟩
  · split_ifs <;> simp [hv]
  · rw [htext]
    cases moved <;> simp
  · cases moved with
    | false => exact hguard.elim (fun hcheck => hseam hcheck rfl) (not_seam_of_noCarriageReturn · _)
    | true => simp [Seam]

/-- The nodes made of new parts. -/
theorem NewParts.news {t : PieceTreeBase} {segs news : List Seg} {ps : List Part} {x : Str}
    (h : NewParts t segs ps x) (hnews : news.map Seg.part = ps) :
    Whole news ∧ Chain news ∧ textOf news = x := by
  have htexts : ps.map Prod.snd = news.map Seg.text := by
    rw [← hnews, List.map_map]
    rfl
  refine ⟨?_, ?_, ?_⟩
  · intro m hm
    exact h.nonempty m.part (by
      rw [← hnews]
      exact List.mem_map_of_mem hm)
  · rw [Chain, ← htexts]
    exact h.unbroken
  · rw [textOf_eq, ← htexts]
    exact h.text

/-- Behind a repaired joint the nodes stay as they were. -/
theorem Repaired.chain_behind {t t' : PieceTreeBase} {A B C F : List Seg} {s : Seg}
    (h : Repaired t t' A s B F) (hs : s.text ≠ []) (hC : Whole C)
    (hcheck : t.shouldCheckCRLF = true) (hcA : Chain A) (hcs : Chain (s :: C)) :
    Chain (F ++ C) := by
  obtain ⟨hcC, hseam⟩ := (chain_cons hs hC).mp hcs
  rw [chain_append h.whole hC, h.text, seam_append_left_iff hs]
  exact ⟨h.chain hcheck hcA, hcC, hseam⟩

end NexgileIde.PieceTree
