import NexgileIde.ViewLayout.LineProjection

/-!
# Positions normalised around injected texts

A position inside injected texts is moved to a border of them: with an affinity to one side over
all texts that touch, without one to a cursor stop on the left. A border of two touching texts is
found as the end of the first one, whose right stop decides there, so that the left stop of the
second one is passed over by a position on the border, but not by one that comes from its right.
-/
namespace NexgileIde.ViewLayout.Projection

def hasRightCursorStop : Option InjectedTextCursorStops → Bool
  | none => true
  | some cursorStop => cursorStop == .Right || cursorStop == .Both

def hasLeftCursorStop : Option InjectedTextCursorStops → Bool
  | none => true
  | some cursorStop => cursorStop == .Left || cursorStop == .Both

namespace Injection

def hasRightStop (t : Injection) : Bool := hasRightCursorStop t.options.cursorStops

def hasLeftStop (t : Injection) : Bool := hasLeftCursorStop t.options.cursorStops

end Injection

structure TextAtOffset where
  injectedTextIndex : ℕ
  offsetInInputWithInjections : ℕ
  length : ℕ
deriving Repr, DecidableEq

/-- The loop of `getInjectedTextAtOffset` from a text on -/
def textAtLoop (offset index totalInjectedTextLengthBefore : ℕ) :
    List Injection → Option TextAtOffset
  | [] => none
  | t :: ts =>
    let start := t.offset + totalInjectedTextLengthBefore
    let stop := t.offset + totalInjectedTextLengthBefore + t.length
    if start > offset then none
    else if offset ≤ stop then some ⟨index, start, t.length⟩
    else textAtLoop offset (index + 1) (totalInjectedTextLengthBefore + t.length) ts

/-- The loop to the left without an affinity, over the texts before, the last one first -/
def leftStopLoop (injectionOffset result : ℕ) : List Injection → ℕ
  | [] => result
  | t :: ts =>
    if t.offset = injectionOffset then
      if t.hasRightStop then result
      else if t.hasLeftStop then result - t.length
      else leftStopLoop injectionOffset (result - t.length) ts
    else result

/-- The loop over the texts behind that touch each other -/
def rightEndLoop (injectionOffset result : ℕ) : List Injection → ℕ
  | [] => result
  | t :: ts =>
    if t.offset = injectionOffset then rightEndLoop t.offset (result + t.length) ts else result

/-- The loop over the texts before that touch each other, the last one first -/
def leftEndLoop (injectionOffset result : ℕ) : List Injection → ℕ
  | [] => result
  | t :: ts =>
    if t.offset = injectionOffset then leftEndLoop t.offset (result - t.length) ts else result

/-- `normalizeOffsetInInputWithInjectionsAroundInjections`, with the texts of the line -/
def normalizeOffset (ts : List Injection) (offset : ℕ) (affinity : PositionAffinity) : ℕ :=
  match textAtLoop offset 0 0 ts with
  | none => offset
  | some found =>
    let before := (ts.take found.injectedTextIndex).reverse
    let behind := ts.drop (found.injectedTextIndex + 1)
    match ts[found.injectedTextIndex]? with
    | none => offset
    | some t =>
      match affinity with
      | .None =>
        if offset = found.offsetInInputWithInjections + found.length ∧ t.hasRightStop then
          found.offsetInInputWithInjections + found.length
        else if t.hasLeftStop then found.offsetInInputWithInjections
        else leftStopLoop t.offset found.offsetInInputWithInjections before
      | .Right | .RightOfInjectedText =>
        rightEndLoop t.offset (found.offsetInInputWithInjections + found.length) behind
      | .Left | .LeftOfInjectedText =>
        leftEndLoop t.offset found.offsetInInputWithInjections before

namespace ModelLineProjectionData

variable (d : ModelLineProjectionData)

/-- The rules at the ends of output lines -/
def normalizeAtLineEnds (p : OutputPosition) (affinity : PositionAffinity) : OutputPosition :=
  if affinity = .Left then
    if p.outputLineIndex > 0 ∧ p.outputOffset = d.getMinOutputOffset p.outputLineIndex then
      ⟨p.outputLineIndex - 1, d.getMaxOutputOffset (p.outputLineIndex - 1)⟩
    else p
  else if affinity = .Right then
    if p.outputLineIndex < d.getOutputLineCount - 1 ∧
        p.outputOffset = d.getMaxOutputOffset p.outputLineIndex then
      ⟨p.outputLineIndex + 1, d.getMinOutputOffset (p.outputLineIndex + 1)⟩
    else p
  else p

def normalizeOutputPosition (p : OutputPosition) (affinity : PositionAffinity) :
    OutputPosition :=
  match d.injections with
  | none => d.normalizeAtLineEnds p affinity
  | some ts =>
    let offset := d.outputPositionToOffsetInInputWithInjections p
    let normalizedOffset := normalizeOffset ts offset affinity
    if normalizedOffset ≠ offset then
      -- injected text caused a change
      d.offsetInInputWithInjectionsToOutputPosition normalizedOffset affinity
    else d.normalizeAtLineEnds p affinity

end ModelLineProjectionData

/-! ## The text at an offset -/

open ModelLineProjectionData (totalLength)

/-- The first text that has an offset inside or at an end. -/
structure At (ts : List Injection) (x : ℕ) (before : List Injection) (t : Injection)
    (behind : List Injection) : Prop where
  split : ts = before ++ t :: behind
  start_le : t.offset + totalLength before ≤ x
  le_end : x ≤ t.offset + totalLength before + t.length
  passed : ∀ b ∈ before, b.offset + totalLength before < x

/-- What the injected texts of a line meet. -/
structure InOrder (ts : List Injection) : Prop where
  sorted : ts.Pairwise fun a b => a.offset ≤ b.offset
  not_empty : ∀ t ∈ ts, 0 < t.length

theorem totalLength_cons (t : Injection) (ts : List Injection) :
    totalLength (t :: ts) = t.length + totalLength ts := List.sum_cons

theorem totalLength_append (ts ts' : List Injection) :
    totalLength (ts ++ ts') = totalLength ts + totalLength ts' := by
  unfold totalLength
  rw [List.map_append, List.sum_append]

theorem totalLength_reverse (ts : List Injection) : totalLength ts.reverse = totalLength ts := by
  unfold totalLength
  rw [List.map_reverse, List.sum_reverse]

section Texts

variable {ts before behind : List Injection} {t : Injection} {x : ℕ}

theorem InOrder.tail (h : InOrder (t :: ts)) : InOrder ts where
  sorted := (List.pairwise_cons.1 h.sorted).2
  not_empty s hs := h.not_empty s (List.mem_cons_of_mem t hs)

/-- What the order says of a text and those before and behind it. -/
theorem InOrder.around (h : InOrder (before ++ t :: behind)) :
    (∀ b ∈ before, b.offset ≤ t.offset) ∧ (∀ b ∈ behind, t.offset ≤ b.offset) ∧ 0 < t.length := by
  obtain ⟨-, hbehind, hbefore⟩ := List.pairwise_append.1 h.sorted
  exact ⟨fun b hb => hbefore b hb t List.mem_cons_self, (List.pairwise_cons.1 hbehind).1,
    h.not_empty t (by simp)⟩

theorem textAtLoop_eq_some (h : InOrder ts) {index total : ℕ} {found : TextAtOffset}
    (hfound : textAtLoop x index total ts = some found) :
    ∃ before t behind, ts = before ++ t :: behind ∧
      found = ⟨index + before.length, t.offset + (total + totalLength before), t.length⟩ ∧
      t.offset + (total + totalLength before) ≤ x ∧
      x ≤ t.offset + (total + totalLength before) + t.length ∧
      ∀ b ∈ before, b.offset + (total + totalLength before) < x := by
  induction ts generalizing index total with
  | nil => cases hfound
  | cons t ts ih =>
    unfold textAtLoop at hfound
    dsimp only at hfound
    split_ifs at hfound with hstart hend
    · exact ⟨[], t, ts, rfl, (Option.some.inj hfound).symm, not_lt.1 hstart, hend,
        fun b hb => absurd hb List.not_mem_nil⟩
    · obtain ⟨before, u, behind, rfl, rfl, hle, hle', hpassed⟩ := ih h.tail hfound
      refine ⟨t :: before, u, behind, rfl, ?_, ?_, ?_, ?_⟩
      · rw [totalLength_cons, List.length_cons, Nat.add_assoc total, Nat.add_right_comm,
          Nat.add_assoc index]
      · rw [totalLength_cons, ← Nat.add_assoc total]
        exact hle
      · rw [totalLength_cons, ← Nat.add_assoc total]
        exact hle'
      · intro b hb
        rw [totalLength_cons, ← Nat.add_assoc total]
        rcases List.mem_cons.1 hb with rfl | hb
        · cases before with
          | nil =>
            unfold totalLength
            rw [List.map_nil, List.sum_nil]
            omega
          | cons c before =>
            have hc := hpassed c List.mem_cons_self
            have hle := (List.pairwise_cons.1 h.sorted).1 c (by simp)
            omega
        · exact hpassed b hb

theorem textAtLoop_of_at (h : InOrder (before ++ t :: behind)) (index total : ℕ)
    (hstart : t.offset + (total + totalLength before) ≤ x)
    (hend : x ≤ t.offset + (total + totalLength before) + t.length)
    (hpassed : ∀ b ∈ before, b.offset + (total + totalLength before) < x) :
    textAtLoop x index total (before ++ t :: behind) =
      some ⟨index + before.length, t.offset + (total + totalLength before), t.length⟩ := by
  induction before generalizing index total with
  | nil =>
    unfold totalLength at *
    rw [List.map_nil, List.sum_nil] at *
    rw [List.nil_append, textAtLoop, if_neg (by omega), if_pos (by omega)]
    rfl
  | cons b before ih =>
    have hb := hpassed b List.mem_cons_self
    rw [totalLength_cons, ← Nat.add_assoc total] at hstart hend hb
    rw [List.cons_append, textAtLoop, if_neg (by omega), if_neg (by omega)]
    have hrest := ih h.tail (index + 1) (total + b.length) hstart hend fun c hc => by
      have hc' := hpassed c (List.mem_cons_of_mem b hc)
      rwa [totalLength_cons, ← Nat.add_assoc total] at hc'
    rw [hrest, totalLength_cons, List.length_cons, Nat.add_assoc total, Nat.add_right_comm,
      Nat.add_assoc index]

theorem At.textAt (h : InOrder ts) (hat : At ts x before t behind) :
    textAtLoop x 0 0 ts =
      some ⟨before.length, t.offset + totalLength before, t.length⟩ := by
  obtain ⟨rfl, hstart, hend, hpassed⟩ := hat
  have hloop := @textAtLoop_of_at before behind t x h 0 0
  simp only [Nat.zero_add] at hloop
  exact hloop hstart hend hpassed

/-- An offset on no text, or on one. -/
theorem exists_at (h : InOrder ts) (x : ℕ) :
    textAtLoop x 0 0 ts = none ∨ ∃ before t behind, At ts x before t behind := by
  cases hfound : textAtLoop x 0 0 ts with
  | none => exact .inl rfl
  | some found =>
    obtain ⟨before, t, behind, hsplit, -, hstart, hend, hpassed⟩ := textAtLoop_eq_some h hfound
    simp only [Nat.zero_add] at hstart hend hpassed
    exact .inr ⟨before, t, behind, hsplit, hstart, hend, hpassed⟩

/-- The offsets of a text are those of its place on the line. -/
theorem removeInjections_of_within (h : InOrder (before ++ t :: behind))
    (hstart : t.offset + totalLength before ≤ x)
    (hend : x ≤ t.offset + totalLength before + t.length) :
    removeInjections x (before ++ t :: behind) = t.offset := by
  induction before generalizing x with
  | nil =>
    unfold totalLength at *
    rw [List.map_nil, List.sum_nil] at *
    obtain ⟨-, hbehind, -⟩ := h.around
    have hplace := removeInjections_of_le hbehind
    rw [List.nil_append, removeInjections]
    split_ifs with hlt hin
    · exact hplace
    · rwa [show x - t.length = t.offset by omega]
    · omega
  | cons b before ih =>
    have hle := h.around.1 b List.mem_cons_self
    have hpos := h.not_empty b List.mem_cons_self
    rw [totalLength_cons] at hstart hend
    rw [List.cons_append, removeInjections, if_pos (by omega), if_neg (by omega)]
    exact ih h.tail (by omega) (by omega)

/-- The normalised offset of an offset on a text. -/
theorem At.normalizeOffset_eq (h : InOrder ts) (hat : At ts x before t behind)
    (affinity : PositionAffinity) : normalizeOffset ts x affinity =
      match affinity with
      | .None =>
        if x = t.offset + totalLength before + t.length ∧ t.hasRightStop then x
        else if t.hasLeftStop then t.offset + totalLength before
        else leftStopLoop t.offset (t.offset + totalLength before) before.reverse
      | .Right | .RightOfInjectedText =>
        rightEndLoop t.offset (t.offset + totalLength before + t.length) behind
      | .Left | .LeftOfInjectedText =>
        leftEndLoop t.offset (t.offset + totalLength before) before.reverse := by
  unfold normalizeOffset
  rw [hat.textAt h]
  obtain ⟨rfl, -, -, -⟩ := hat
  dsimp only
  have hbehind : (before ++ t :: behind).drop (before.length + 1) = behind := by simp
  rw [List.getElem?_append_right le_rfl, Nat.sub_self, List.getElem?_cons_zero, List.take_left,
    hbehind]
  cases affinity with
  | None =>
    dsimp only
    split_ifs with hend
    · exact hend.1.symm
    · rfl
    · rfl
  | _ => rfl

end Texts

/-! ## Texts that touch each other -/

/-- Going left over texts that touch, a left stop is met at a border with another one that touches
and has no right stop, before any other stop; `stop` says whether there is a left stop at the
border reached. -/
def missesStop (injectionOffset : ℕ) (stop : Bool) : List Injection → Bool
  | [] => false
  | t :: ts =>
    t.offset = injectionOffset && !t.hasRightStop &&
      (stop || missesStop injectionOffset t.hasLeftStop ts)

/-- An offset an affinity moves to: on the place of the text, and inside the line. -/
structure MovesTo (ts : List Injection) (offset y : ℕ) : Prop where
  same : removeInjections y ts = offset
  le_end : y ≤ offset + totalLength ts

section Walks

variable {before behind l : List Injection} {t : Injection} {affinity : PositionAffinity}

theorem movesTo_end (h : InOrder (before ++ t :: behind)) :
    MovesTo (before ++ t :: behind) t.offset (t.offset + totalLength before + t.length) where
  same := removeInjections_of_within h (by omega) le_rfl
  le_end := by
    rw [totalLength_append, totalLength_cons]
    omega

theorem movesTo_start (h : InOrder (before ++ t :: behind)) :
    MovesTo (before ++ t :: behind) t.offset (t.offset + totalLength before) where
  same := removeInjections_of_within h le_rfl (Nat.le_add_right _ _)
  le_end := by
    rw [totalLength_append]
    omega

theorem at_end (h : InOrder (before ++ t :: behind)) :
    At (before ++ t :: behind) (t.offset + totalLength before + t.length) before t behind := by
  obtain ⟨hbefore, -, hpos⟩ := h.around
  refine ⟨rfl, Nat.le_add_right _ _, le_rfl, fun b hb => ?_⟩
  have hle := hbefore b hb
  omega

/-- The start of a text is found at it if no text touches it from the left. -/
theorem at_start (h : InOrder (l.reverse ++ t :: behind))
    (hfree : ∀ b ∈ l.head?, b.offset ≠ t.offset) :
    At (l.reverse ++ t :: behind) (t.offset + totalLength l.reverse) l.reverse t behind := by
  obtain ⟨hbefore, -, -⟩ := h.around
  refine ⟨rfl, le_rfl, Nat.le_add_right _ _, fun b hb => Nat.add_lt_add_right ?_ _⟩
  cases l with
  | nil => exact absurd hb (by simp)
  | cons c l =>
    have hc : c.offset < t.offset :=
      lt_of_le_of_ne (hbefore c (by simp)) (hfree c rfl)
    rw [List.reverse_cons, List.append_assoc] at h
    rcases List.mem_cons.1 (List.mem_reverse.1 hb) with rfl | hb
    · exact hc
    · exact (h.around.1 b (List.mem_reverse.2 hb)).trans_lt hc

theorem rightEndLoop_moves (hright : affinity = .Right ∨ affinity = .RightOfInjectedText)
    (h : InOrder (before ++ t :: behind)) :
    MovesTo (before ++ t :: behind) t.offset
        (rightEndLoop t.offset (t.offset + totalLength before + t.length) behind) ∧
      normalizeOffset (before ++ t :: behind)
          (rightEndLoop t.offset (t.offset + totalLength before + t.length) behind) affinity =
        rightEndLoop t.offset (t.offset + totalLength before + t.length) behind := by
  have hstay : rightEndLoop t.offset (t.offset + totalLength before + t.length) behind =
      t.offset + totalLength before + t.length →
    normalizeOffset (before ++ t :: behind) (t.offset + totalLength before + t.length) affinity =
      t.offset + totalLength before + t.length := by
    intro hloop
    rw [(at_end h).normalizeOffset_eq h]
    rcases hright with rfl | rfl <;> exact hloop
  induction behind generalizing before t with
  | nil => exact ⟨movesTo_end h, hstay rfl⟩
  | cons b behind ih =>
    by_cases htouch : b.offset = t.offset
    · have hsplit : before ++ t :: b :: behind = (before ++ [t]) ++ b :: behind := by simp
      have hresult : t.offset + totalLength before + t.length + b.length =
          b.offset + totalLength (before ++ [t]) + b.length := by
        rw [totalLength_append, totalLength_cons, htouch]
        unfold totalLength
        rw [List.map_nil, List.sum_nil]
        omega
      rw [rightEndLoop, if_pos htouch, hresult, ← htouch, hsplit]
      rw [hsplit] at h
      refine ih h fun hloop => ?_
      rw [(at_end h).normalizeOffset_eq h]
      rcases hright with rfl | rfl <;> exact hloop
    · have hloop : rightEndLoop t.offset (t.offset + totalLength before + t.length)
          (b :: behind) = t.offset + totalLength before + t.length := by
        rw [rightEndLoop, if_neg htouch]
      rw [hloop]
      exact ⟨movesTo_end h, hstay hloop⟩

/-- The start of a text is the end of the one that touches it from the left. -/
theorem touching_start {b : Injection} {bs : List Injection} (htouch : b.offset = t.offset) :
    (b :: bs).reverse ++ t :: behind = bs.reverse ++ b :: (t :: behind) ∧
      t.offset + totalLength (b :: bs).reverse = b.offset + totalLength bs.reverse + b.length ∧
      t.offset + totalLength (b :: bs).reverse - b.length = b.offset + totalLength bs.reverse := by
  rw [totalLength_reverse, totalLength_reverse, totalLength_cons, htouch]
  refine ⟨by simp, by omega, by omega⟩

theorem leftEndLoop_moves (hleft : affinity = .Left ∨ affinity = .LeftOfInjectedText)
    (h : InOrder (l.reverse ++ t :: behind)) :
    MovesTo (l.reverse ++ t :: behind) t.offset
        (leftEndLoop t.offset (t.offset + totalLength l.reverse) l) ∧
      normalizeOffset (l.reverse ++ t :: behind)
          (leftEndLoop t.offset (t.offset + totalLength l.reverse) l) affinity =
        leftEndLoop t.offset (t.offset + totalLength l.reverse) l := by
  induction l generalizing t behind with
  | nil =>
    refine ⟨movesTo_start h, ?_⟩
    have hat := at_start h fun b hb => absurd hb (by simp)
    rw [leftEndLoop, hat.normalizeOffset_eq h]
    rcases hleft with rfl | rfl <;> rfl
  | cons b bs ih =>
    by_cases htouch : b.offset = t.offset
    · obtain ⟨hsplit, -, hresult⟩ := @touching_start behind t b bs htouch
      rw [leftEndLoop, if_pos htouch, hresult, ← htouch, hsplit]
      rw [hsplit] at h
      exact ih h
    · have hloop : leftEndLoop t.offset (t.offset + totalLength (b :: bs).reverse) (b :: bs) =
          t.offset + totalLength (b :: bs).reverse := by
        rw [leftEndLoop, if_neg htouch]
      have hat := at_start h fun c hc => by
        rw [← Option.some.inj hc]
        exact htouch
      rw [hloop]
      refine ⟨movesTo_start h, ?_⟩
      rw [hat.normalizeOffset_eq h, List.reverse_reverse]
      rcases hleft with rfl | rfl <;> exact hloop

theorem leftStopLoop_le (offset result : ℕ) (l : List Injection) :
    leftStopLoop offset result l ≤ result := by
  induction l generalizing result with
  | nil => exact le_rfl
  | cons b bs ih =>
    unfold leftStopLoop
    split_ifs
    · exact le_rfl
    · exact Nat.sub_le _ _
    · exact (ih _).trans (Nat.sub_le _ _)
    · exact le_rfl

/-- Where an offset on a text goes without an affinity, unless it stays at the end. -/
def leftStop (t : Injection) (l : List Injection) : ℕ :=
  if t.hasLeftStop then t.offset + totalLength l.reverse
  else leftStopLoop t.offset (t.offset + totalLength l.reverse) l

theorem leftStop_le (t : Injection) (l : List Injection) :
    leftStop t l ≤ t.offset + totalLength l.reverse := by
  unfold leftStop
  split_ifs
  · exact le_rfl
  · exact leftStopLoop_le _ _ _

/-- At its start a text is not at its end. -/
theorem normalize_start (h : InOrder (l.reverse ++ t :: behind))
    (hfree : ∀ b ∈ l.head?, b.offset ≠ t.offset) :
    normalizeOffset (l.reverse ++ t :: behind) (t.offset + totalLength l.reverse) .None =
      leftStop t l := by
  have hpos := h.around.2.2
  rw [(at_start h hfree).normalizeOffset_eq h, List.reverse_reverse]
  dsimp only
  rw [if_neg (by omega)]
  rfl

theorem normalize_end (h : InOrder (l.reverse ++ t :: behind)) :
    normalizeOffset (l.reverse ++ t :: behind) (t.offset + totalLength l.reverse + t.length)
        .None =
      if t.hasRightStop then t.offset + totalLength l.reverse + t.length else leftStop t l := by
  rw [(at_end h).normalizeOffset_eq h, List.reverse_reverse]
  dsimp only
  by_cases hright : t.hasRightStop
  · rw [if_pos ⟨rfl, hright⟩, if_pos hright]
  · rw [if_neg fun hend => hright hend.2, if_neg hright]
    rfl

/-- The stop on the left is kept unless it is the left stop at a border with a text that touches
and has no right stop. -/
theorem leftStop_moves (h : InOrder (l.reverse ++ t :: behind)) :
    MovesTo (l.reverse ++ t :: behind) t.offset (leftStop t l) ∧
      (normalizeOffset (l.reverse ++ t :: behind) (leftStop t l) .None = leftStop t l ↔
        missesStop t.offset t.hasLeftStop l = false) := by
  induction l generalizing t behind with
  | nil =>
    have hstop : leftStop t [] = t.offset + totalLength [].reverse := by
      unfold leftStop leftStopLoop
      split_ifs <;> rfl
    have hstart := normalize_start h fun b hb => absurd hb (by simp)
    rw [hstop] at hstart ⊢
    exact ⟨movesTo_start h, iff_of_true hstart rfl⟩
  | cons b bs ih =>
    by_cases htouch : b.offset = t.offset
    · obtain ⟨hsplit, hborder, hresult⟩ := @touching_start behind t b bs htouch
      have hmoves := movesTo_start h
      have hb : InOrder (bs.reverse ++ b :: (t :: behind)) := hsplit ▸ h
      have hend := normalize_end hb
      rw [← hborder, ← hsplit] at hend
      cases hright : b.hasRightStop with
      | true =>
        have hstop : leftStop t (b :: bs) = t.offset + totalLength (b :: bs).reverse := by
          unfold leftStop
          rw [leftStopLoop, if_pos htouch, if_pos hright]
          split_ifs <;> rfl
        rw [hstop, missesStop, hright]
        rw [hright, if_pos rfl] at hend
        exact ⟨hmoves, iff_of_true hend (by simp)⟩
      | false =>
        rw [hright, if_neg Bool.false_ne_true] at hend
        cases hleft : t.hasLeftStop with
        | true =>
          have hstop : leftStop t (b :: bs) = t.offset + totalLength (b :: bs).reverse := by
            unfold leftStop
            rw [if_pos hleft]
          have hlt := leftStop_le b bs
          have hpos := hb.around.2.2
          rw [hstop]
          refine ⟨hmoves, iff_of_false ?_ ?_⟩
          · rw [hend]
            omega
          · simp [missesStop, htouch, hright]
        | false =>
          have hstop : leftStop t (b :: bs) = leftStop b bs := by
            unfold leftStop
            rw [hleft, if_neg Bool.false_ne_true, leftStopLoop, if_pos htouch, hright,
              if_neg Bool.false_ne_true, hresult, ← htouch]
          have hmisses : missesStop t.offset false (b :: bs) =
              missesStop b.offset b.hasLeftStop bs := by
            simp [missesStop, htouch, hright]
          rw [hstop, hmisses, hsplit, ← htouch]
          exact ih hb
    · have hfree : ∀ c ∈ (b :: bs).head?, c.offset ≠ t.offset := by
        intro c hc
        rw [← Option.some.inj hc]
        exact htouch
      have hstop : leftStop t (b :: bs) = t.offset + totalLength (b :: bs).reverse := by
        unfold leftStop
        rw [leftStopLoop, if_neg htouch]
        split_ifs <;> rfl
      have hstart := normalize_start h hfree
      rw [hstop] at hstart ⊢
      refine ⟨movesTo_start h, iff_of_true hstart ?_⟩
      simp [missesStop, htouch]

end Walks

/-! ## Normalised offsets -/

/-- Without an affinity an offset on an injected text, unless it stays at the end of it, goes left
to a left stop that a touching text without a right stop covers. -/
def StopMissed (ts : List Injection) (offset : ℕ) : Prop :=
  ∃ found t, textAtLoop offset 0 0 ts = some found ∧ ts[found.injectedTextIndex]? = some t ∧
    ¬ (offset = found.offsetInInputWithInjections + found.length ∧ t.hasRightStop) ∧
    missesStop t.offset t.hasLeftStop (ts.take found.injectedTextIndex).reverse

section Normalized

variable {ts before behind : List Injection} {t : Injection} {n x : ℕ}

theorem At.stopMissed_iff (h : InOrder ts) (hat : At ts x before t behind) :
    StopMissed ts x ↔ ¬ (x = t.offset + totalLength before + t.length ∧ t.hasRightStop) ∧
      missesStop t.offset t.hasLeftStop before.reverse := by
  have hget : ts[before.length]? = some t := by
    rw [hat.split, List.getElem?_append_right le_rfl, Nat.sub_self, List.getElem?_cons_zero]
  have htake : ts.take before.length = before := by
    rw [hat.split, List.take_left]
  constructor
  · rintro ⟨found, u, hfound, hu, hend, hmisses⟩
    obtain rfl := Option.some.inj ((hat.textAt h).symm.trans hfound)
    obtain rfl := Option.some.inj (hget.symm.trans hu)
    dsimp only at hmisses
    rw [htake] at hmisses
    exact ⟨hend, hmisses⟩
  · rintro ⟨hend, hmisses⟩
    refine ⟨_, t, hat.textAt h, hget, hend, ?_⟩
    dsimp only
    rwa [htake]

/-- A normalised offset has the same offset on the line, and is normalised unless a stop is
missed. -/
theorem normalizeOffset_spec (h : InOrder ts) (hinside : ∀ t ∈ ts, t.offset ≤ n)
    (hx : x ≤ n + totalLength ts) (affinity : PositionAffinity) :
    removeInjections (normalizeOffset ts x affinity) ts = removeInjections x ts ∧
      normalizeOffset ts x affinity ≤ n + totalLength ts ∧
      (normalizeOffset ts (normalizeOffset ts x affinity) affinity =
          normalizeOffset ts x affinity ↔
        (affinity = .None → ¬ StopMissed ts x)) := by
  rcases exists_at h x with hnone | ⟨before, t, behind, hat⟩
  · have hsame : normalizeOffset ts x affinity = x := by
      unfold normalizeOffset
      rw [hnone]
    rw [hsame]
    refine ⟨rfl, hx, iff_of_true hsame ?_⟩
    rintro - ⟨found, -, hfound, -⟩
    cases hnone.symm.trans hfound
  · have hmissed := hat.stopMissed_iff h
    have hvalue := hat.normalizeOffset_eq h affinity
    have hplace := hinside t (by rw [hat.split]; simp)
    have hx' : removeInjections x ts = t.offset := by
      rw [hat.split]
      exact removeInjections_of_within (hat.split ▸ h) hat.start_le hat.le_end
    have hmoves : ∀ y, MovesTo ts t.offset y →
        removeInjections y ts = removeInjections x ts ∧ y ≤ n + totalLength ts := by
      intro y hy
      exact ⟨hy.same.trans hx'.symm, hy.le_end.trans (Nat.add_le_add_right hplace _)⟩
    have hrev : ts = before.reverse.reverse ++ t :: behind := by
      rw [List.reverse_reverse]
      exact hat.split
    have horder := h
    rw [hrev] at horder
    have hlength : totalLength before.reverse.reverse = totalLength before := by
      rw [List.reverse_reverse]
    have hleft := fun hleft => @leftEndLoop_moves behind before.reverse t affinity hleft horder
    have hright := fun hright =>
      @rightEndLoop_moves before behind t affinity hright (hat.split ▸ h)
    cases affinity with
    | None =>
      dsimp only at hvalue
      by_cases hend : x = t.offset + totalLength before + t.length ∧ t.hasRightStop
      · rw [if_pos hend] at hvalue
        rw [hvalue]
        refine ⟨rfl, hx, iff_of_true hvalue fun _ => ?_⟩
        rw [hmissed]
        exact fun hmiss => hmiss.1 hend
      · have hstop : normalizeOffset ts x .None = leftStop t before.reverse := by
          rw [hvalue, if_neg hend, leftStop, hlength]
        obtain ⟨hmove, hiff⟩ := leftStop_moves horder
        rw [← hrev] at hmove hiff
        rw [hstop, hiff, hmissed]
        obtain ⟨hsame, hle⟩ := hmoves _ hmove
        refine ⟨hsame, hle, ?_⟩
        rw [forall_prop_of_true rfl, and_iff_right hend, Bool.not_eq_true]
    | Left | LeftOfInjectedText =>
      dsimp only at hvalue
      rw [← hlength] at hvalue
      obtain ⟨hmove, hstay⟩ := hleft (by simp)
      rw [← hrev] at hmove hstay
      obtain ⟨hsame, hle⟩ := hmoves _ hmove
      rw [hvalue]
      exact ⟨hsame, hle, iff_of_true hstay (by simp)⟩
    | Right | RightOfInjectedText =>
      dsimp only at hvalue
      obtain ⟨hmove, hstay⟩ := hright (by simp)
      rw [← hat.split] at hmove hstay
      obtain ⟨hsame, hle⟩ := hmoves _ hmove
      rw [hvalue]
      exact ⟨hsame, hle, iff_of_true hstay (by simp)⟩

end Normalized

/-! ## Normalised positions -/

namespace ModelLineProjectionData

variable {d : ModelLineProjectionData} {n x : ℕ} {affinity : PositionAffinity} {p : OutputPosition}

theorem WellFormed.inOrder (h : d.WellFormed n) : InOrder d.texts := ⟨h.sorted, h.not_empty⟩

theorem normalizeOutputPosition_eq (p : OutputPosition) (affinity : PositionAffinity) :
    d.normalizeOutputPosition p affinity =
      if normalizeOffset d.texts (d.outputPositionToOffsetInInputWithInjections p) affinity ≠
          d.outputPositionToOffsetInInputWithInjections p then
        d.offsetInInputWithInjectionsToOutputPosition (normalizeOffset d.texts
          (d.outputPositionToOffsetInInputWithInjections p) affinity) affinity
      else d.normalizeAtLineEnds p affinity := by
  unfold normalizeOutputPosition texts
  cases d.injections with
  | none => exact (if_neg (not_not.2 rfl)).symm
  | some ts => rfl

/-- A move from one line to the next keeps the offset, and is made once. -/
theorem normalizeAtLineEnds_spec (h : d.WellFormed n) (hp : d.IsOutput p)
    (affinity : PositionAffinity) :
    d.IsOutput (d.normalizeAtLineEnds p affinity) ∧
      d.outputPositionToOffsetInInputWithInjections (d.normalizeAtLineEnds p affinity) =
        d.outputPositionToOffsetInInputWithInjections p ∧
      d.normalizeAtLineEnds (d.normalizeAtLineEnds p affinity) affinity =
        d.normalizeAtLineEnds p affinity := by
  obtain ⟨line, offset⟩ := p
  have hline := hp.line_lt
  dsimp only at hline
  by_cases hleft : affinity = .Left
  · by_cases hmin : line > 0 ∧ offset = d.getMinOutputOffset line
    · have hmove : d.normalizeAtLineEnds ⟨line, offset⟩ affinity =
          ⟨line - 1, d.getMaxOutputOffset (line - 1)⟩ := by
        unfold normalizeAtLineEnds
        rw [if_pos hleft, if_pos hmin]
      obtain ⟨k, rfl⟩ := Nat.exists_eq_succ_of_ne_zero hmin.1.ne'
      rw [Nat.succ_sub_one] at hmove
      have hstart := h.startOffset_le (show k < d.getOutputLineCount by omega)
      have hmax := maxOutputOffset_eq (d := d) k
      rw [hmove]
      refine ⟨⟨Nat.lt_of_succ_lt hline, ?_, le_rfl⟩, ?_, ?_⟩
      · rw [hmax]
        exact Nat.le_add_left _ _
      · rw [outputPositionToOffset_eq, outputPositionToOffset_eq, hmax, hmin.2]
        dsimp only
        rw [startOffset_succ]
        omega
      · unfold normalizeAtLineEnds
        rw [if_pos hleft, if_neg]
        rintro ⟨hpos, heq⟩
        have hlt : d.startOffset k < d.endOffset k := h.startOffset_lt hpos (by omega)
        dsimp only at heq
        omega
    · have hstay : d.normalizeAtLineEnds ⟨line, offset⟩ affinity = ⟨line, offset⟩ := by
        unfold normalizeAtLineEnds
        rw [if_pos hleft, if_neg hmin]
      rw [hstay]
      exact ⟨hp, rfl, hstay⟩
  · by_cases hmax : affinity = .Right ∧
        (line < d.getOutputLineCount - 1 ∧ offset = d.getMaxOutputOffset line)
    · obtain ⟨hright, hlast, heq⟩ := hmax
      have hmove : d.normalizeAtLineEnds ⟨line, offset⟩ affinity =
          ⟨line + 1, d.getMinOutputOffset (line + 1)⟩ := by
        unfold normalizeAtLineEnds
        rw [if_neg hleft, if_pos hright, if_pos ⟨hlast, heq⟩]
      have hnext : line + 1 < d.getOutputLineCount := by omega
      have hlt : d.startOffset (line + 1) < d.endOffset (line + 1) :=
        h.startOffset_lt (Nat.succ_pos line) hnext
      have hstart := h.startOffset_le hline
      rw [hmove]
      refine ⟨⟨hnext, le_rfl, ?_⟩, ?_, ?_⟩
      · rw [maxOutputOffset_eq]
        exact Nat.le_add_left _ _
      · rw [outputPositionToOffset_eq, outputPositionToOffset_eq, heq, maxOutputOffset_eq]
        dsimp only
        rw [startOffset_succ]
        omega
      · unfold normalizeAtLineEnds
        rw [if_neg hleft, if_pos hright, if_neg]
        rintro ⟨-, hend⟩
        rw [maxOutputOffset_eq] at hend
        dsimp only at hend
        omega
    · have hstay : d.normalizeAtLineEnds ⟨line, offset⟩ affinity = ⟨line, offset⟩ := by
        unfold normalizeAtLineEnds
        rw [if_neg hleft]
        split_ifs with hright hend
        · exact absurd ⟨hright, hend⟩ hmax
        · rfl
        · rfl
      rw [hstay]
      exact ⟨hp, rfl, hstay⟩

/-- The position found for an offset is on the line its affinity prefers. -/
theorem Found.normalizeAtLineEnds {m : ℕ} (h : d.Found x affinity m) :
    d.normalizeAtLineEnds ⟨m, x - d.startOffset m + d.getMinOutputOffset m⟩ affinity =
      ⟨m, x - d.startOffset m + d.getMinOutputOffset m⟩ := by
  have hstart := h.start_le
  have hend := h.le_end
  unfold ModelLineProjectionData.normalizeAtLineEnds
  split_ifs with hleft hmin hright hmax
  · have hline := h.left hleft
    dsimp only at hmin
    omega
  · rfl
  · have hline := h.right hleft
    rw [maxOutputOffset_eq] at hmax
    dsimp only at hmax
    omega
  · rfl
  · rfl

end ModelLineProjectionData

/-- A normalised position is on an output line and has the same offset on the line; normalised
again it stays the same exactly unless it has no affinity and misses a cursor stop. -/
theorem normalizeOutputPosition_iff (d : ModelLineProjectionData) (n : ℕ) (h : d.WellFormed n)
    (p : OutputPosition) (hp : d.IsOutput p) (affinity : PositionAffinity) :
    (d.IsOutput (d.normalizeOutputPosition p affinity) ∧
      d.translateToInputOffset (d.normalizeOutputPosition p affinity) =
        d.translateToInputOffset p ∧
      d.normalizeOutputPosition (d.normalizeOutputPosition p affinity) affinity =
        d.normalizeOutputPosition p affinity) ↔
    (affinity = .None →
      ¬ StopMissed d.texts (d.outputPositionToOffsetInInputWithInjections p)) := by
  have hx := (hp.offset_bounds h).2.trans (h.endOffset_le hp.line_lt)
  obtain ⟨hsame, hle, hstable⟩ := normalizeOffset_spec h.inOrder h.inside hx affinity
  rw [← hstable]
  rw [ModelLineProjectionData.translateToInputOffset_eq,
    ModelLineProjectionData.translateToInputOffset_eq p]
  by_cases hmoved : normalizeOffset d.texts (d.outputPositionToOffsetInInputWithInjections p)
      affinity = d.outputPositionToOffsetInInputWithInjections p
  · obtain ⟨hout, hoffset, hagain⟩ :=
      ModelLineProjectionData.normalizeAtLineEnds_spec h hp affinity
    have hstay : ∀ q, d.outputPositionToOffsetInInputWithInjections q =
        d.outputPositionToOffsetInInputWithInjections p →
        d.normalizeOutputPosition q affinity = d.normalizeAtLineEnds q affinity := by
      intro q hq
      rw [ModelLineProjectionData.normalizeOutputPosition_eq, hq]
      exact if_neg (not_not.2 hmoved)
    rw [hstay p rfl, hstay _ hoffset, hoffset, hmoved]
    exact iff_of_true ⟨hout, rfl, hagain⟩ hmoved
  · obtain ⟨m, hfound, hposition⟩ :=
      ModelLineProjectionData.offsetInInput_found h hle affinity
    have hq : d.normalizeOutputPosition p affinity = ⟨m, normalizeOffset d.texts
        (d.outputPositionToOffsetInInputWithInjections p) affinity - d.startOffset m +
          d.getMinOutputOffset m⟩ := by
      rw [ModelLineProjectionData.normalizeOutputPosition_eq, ← hposition]
      exact if_pos hmoved
    have hoffset := hfound.outputPositionToOffset
    rw [← hq] at hoffset
    rw [hoffset]
    constructor
    · rintro ⟨-, -, hagain⟩
      by_contra hunstable
      -- the offset moves on, and with it the position
      obtain ⟨-, hle', -⟩ := normalizeOffset_spec h.inOrder h.inside hle affinity
      obtain ⟨m', hfound', hposition'⟩ :=
        ModelLineProjectionData.offsetInInput_found h hle' affinity
      have hnext : d.normalizeOutputPosition (d.normalizeOutputPosition p affinity) affinity =
          d.offsetInInputWithInjectionsToOutputPosition (normalizeOffset d.texts
            (normalizeOffset d.texts (d.outputPositionToOffsetInInputWithInjections p) affinity)
              affinity) affinity := by
        rw [ModelLineProjectionData.normalizeOutputPosition_eq, hoffset]
        exact if_pos hunstable
      have hoffset' := hfound'.outputPositionToOffset
      rw [← hposition', ← hnext, hagain, hoffset] at hoffset'
      exact hunstable hoffset'.symm
    · intro hstable
      refine ⟨hq ▸ hfound.isOutput, hsame, ?_⟩
      rw [ModelLineProjectionData.normalizeOutputPosition_eq _ affinity, hoffset,
        if_neg (not_not.2 hstable), hq]
      exact hfound.normalizeAtLineEnds

/-- Inside `yz` a position goes left to the end of `x`. -/
theorem normalizeOutputPosition_ab :
    dataAb.IsOutput (dataAb.normalizeOutputPosition ⟨0, 3⟩ .None) ∧
      dataAb.translateToInputOffset (dataAb.normalizeOutputPosition ⟨0, 3⟩ .None) =
        dataAb.translateToInputOffset ⟨0, 3⟩ ∧
      dataAb.normalizeOutputPosition (dataAb.normalizeOutputPosition ⟨0, 3⟩ .None) .None =
        dataAb.normalizeOutputPosition ⟨0, 3⟩ .None := by
  refine (normalizeOutputPosition_iff dataAb 2 wellFormed_dataAb ⟨0, 3⟩
    ⟨by decide, by decide, by decide⟩ .None).2 ?_
  rintro - ⟨found, t, hfound, ht, -, hmisses⟩
  obtain rfl := Option.some.inj hfound
  obtain rfl := Option.some.inj ht
  revert hmisses
  decide

/-- Two texts of length one with left stops only, on an empty line. -/
def dataLeftStops : ModelLineProjectionData :=
  ⟨some [⟨0, ⟨[120], some .Left⟩⟩, ⟨0, ⟨[121], some .Left⟩⟩], [2], 0⟩

/-- From behind both texts a position goes to the left stop of the second one, and from there to
that of the first one. -/
theorem normalizeOutputPosition_twice_wrong :
    ¬ ∀ (d : ModelLineProjectionData) (n : ℕ), d.WellFormed n → ∀ p, d.IsOutput p →
      ∀ affinity, d.normalizeOutputPosition (d.normalizeOutputPosition p affinity) affinity =
        d.normalizeOutputPosition p affinity := by
  intro h
  have hwellFormed : dataLeftStops.WellFormed 0 := by
    refine ⟨?_, ?_, ?_, ?_, by decide⟩ <;>
      simp [dataLeftStops, ModelLineProjectionData.texts, Injection.length]
  have hagain := h dataLeftStops 0 hwellFormed ⟨0, 2⟩ ⟨by decide, by decide, by decide⟩ .None
  revert hagain
  decide

end NexgileIde.ViewLayout.Projection
