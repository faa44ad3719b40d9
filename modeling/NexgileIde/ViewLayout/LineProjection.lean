import NexgileIde.Text.CodeUnits

/-!
# Wrapped lines with injected texts

A model line with texts injected at some of its offsets is broken into output lines. All but the
first of them are indented. An offset of the line is translated to a position on an output line by
a binary search over the breaks, and back by a loop over the injected texts.
-/
namespace NexgileIde.ViewLayout.Projection

open Text (Str)

inductive PositionAffinity
  | Left
  | Right
  | None
  | LeftOfInjectedText
  | RightOfInjectedText
deriving Repr, DecidableEq

inductive InjectedTextCursorStops
  | Both
  | Right
  | Left
  | None
deriving Repr, DecidableEq

structure InjectedTextOptions where
  content : Str
  cursorStops : Option InjectedTextCursorStops

/-- An entry of `injectionOffsets` with the one of `injectionOptions`, which has as many. -/
structure Injection where
  offset : ℕ
  options : InjectedTextOptions

def Injection.length (t : Injection) : ℕ := t.options.content.length

structure OutputPosition where
  outputLineIndex : ℕ
  outputOffset : ℕ
deriving Repr, DecidableEq

/-- The break offsets count the injected texts; the last one is the length of the line with them. -/
structure ModelLineProjectionData where
  injections : Option (List Injection)
  breakOffsets : List ℕ
  wrappedTextIndentLength : ℕ

/-! ## Offsets with and without injected texts -/

/-- The loop of `translateToInputOffset` over the injected texts -/
def removeInjections (offsetInInput : ℕ) : List Injection → ℕ
  | [] => offsetInInput
  | t :: ts =>
    if offsetInInput > t.offset then
      if offsetInInput < t.offset + t.length then removeInjections t.offset ts
      else removeInjections (offsetInInput - t.length) ts
    else offsetInInput

/-- The loop of `translateToOutputPosition`, which starts with `inputOffset` -/
def addInjections (inputOffset : ℕ) (affinity : PositionAffinity) (offset : ℕ) :
    List Injection → ℕ
  | [] => offset
  | t :: ts =>
    if inputOffset < t.offset then offset
    else if affinity ≠ .Right ∧ inputOffset = t.offset then offset
    else addInjections inputOffset affinity (offset + t.length) ts

namespace ModelLineProjectionData

variable (d : ModelLineProjectionData)

def getOutputLineCount : ℕ := d.breakOffsets.length

def getMinOutputOffset (outputLineIndex : ℕ) : ℕ :=
  if outputLineIndex > 0 then d.wrappedTextIndentLength else 0

/-- Where a line starts, injected texts counted: `breakOffsets[outputLineIndex - 1]`, or 0 -/
def startOffset (outputLineIndex : ℕ) : ℕ :=
  if outputLineIndex > 0 then d.breakOffsets[outputLineIndex - 1]?.getD 0 else 0

/-- `breakOffsets[outputLineIndex]` -/
def endOffset (outputLineIndex : ℕ) : ℕ := d.breakOffsets[outputLineIndex]?.getD 0

def getLineLength (outputLineIndex : ℕ) : ℕ :=
  let lineLength := d.endOffset outputLineIndex - d.startOffset outputLineIndex
  if outputLineIndex > 0 then lineLength + d.wrappedTextIndentLength else lineLength

def getMaxOutputOffset (outputLineIndex : ℕ) : ℕ := d.getLineLength outputLineIndex

def outputPositionToOffsetInInputWithInjections (p : OutputPosition) : ℕ :=
  let outputOffset :=
    if p.outputLineIndex > 0 then p.outputOffset - d.wrappedTextIndentLength else p.outputOffset
  d.startOffset p.outputLineIndex + outputOffset

def translateToInputOffset (p : OutputPosition) : ℕ :=
  let offsetInInputWithInjection := d.outputPositionToOffsetInInputWithInjections p
  match d.injections with
  | none => offsetInInputWithInjection
  | some ts => removeInjections offsetInInputWithInjection ts

/-- The loop that looks for the line of an offset, with `high + 1` for `high`. One turn takes one
unit of fuel. -/
def lineLoop (offset : ℕ) (affinity : PositionAffinity) : ℕ → ℕ → ℕ → ℕ → ℕ
  | 0, _, _, mid => mid
  | fuel + 1, low, high, mid =>
    if low < high then
      let mid := low + (high - 1 - low) / 2
      let midStop := d.endOffset mid
      let midStart := d.startOffset mid
      if affinity = .Left then
        if offset ≤ midStart then lineLoop offset affinity fuel low mid mid
        else if offset > midStop then lineLoop offset affinity fuel (mid + 1) high mid
        else mid
      else
        if offset < midStart then lineLoop offset affinity fuel low mid mid
        else if offset ≥ midStop then lineLoop offset affinity fuel (mid + 1) high mid
        else mid
    else mid

def offsetInInputWithInjectionsToOutputPosition (offset : ℕ) (affinity : PositionAffinity) :
    OutputPosition :=
  let mid := d.lineLoop offset affinity d.breakOffsets.length 0 d.breakOffsets.length 0
  let outputOffset := offset - d.startOffset mid
  ⟨mid, if mid > 0 then outputOffset + d.wrappedTextIndentLength else outputOffset⟩

def translateToOutputPosition (inputOffset : ℕ) (affinity : PositionAffinity) : OutputPosition :=
  d.offsetInInputWithInjectionsToOutputPosition
    (match d.injections with
    | none => inputOffset
    | some ts => addInjections inputOffset affinity inputOffset ts) affinity

/-- The injected texts, of which there are none for `null`. -/
def texts : List Injection := d.injections.getD []

def totalLength (ts : List Injection) : ℕ := (ts.map (·.length)).sum

/-- What the data of a line of length `n` meets. -/
structure WellFormed (n : ℕ) : Prop where
  sorted : d.texts.Pairwise fun a b => a.offset ≤ b.offset
  inside : ∀ t ∈ d.texts, t.offset ≤ n
  not_empty : ∀ t ∈ d.texts, 0 < t.length
  increasing : d.breakOffsets.Pairwise (· < ·)
  ends : d.breakOffsets.getLast? = some (n + totalLength d.texts)

/-- A position on an output line. -/
structure IsOutput (p : OutputPosition) : Prop where
  line_lt : p.outputLineIndex < d.getOutputLineCount
  min_le : d.getMinOutputOffset p.outputLineIndex ≤ p.outputOffset
  le_max : p.outputOffset ≤ d.getMaxOutputOffset p.outputLineIndex

end ModelLineProjectionData

/-- The order of positions on lines. -/
def OutputPosition.IsBeforeOrEqual (p q : OutputPosition) : Prop :=
  p.outputLineIndex < q.outputLineIndex ∨
    p.outputLineIndex = q.outputLineIndex ∧ p.outputOffset ≤ q.outputOffset

/-! ## Injected texts -/

section Injections

variable {ts : List Injection} {x y : ℕ}

theorem addInjections_ge (inputOffset : ℕ) (affinity : PositionAffinity) (offset : ℕ) :
    offset ≤ addInjections inputOffset affinity offset ts ∧
      addInjections inputOffset affinity offset ts ≤
        offset + ModelLineProjectionData.totalLength ts := by
  induction ts generalizing offset with
  | nil => exact ⟨le_rfl, Nat.le_add_right _ _⟩
  | cons t ts ih =>
    have htotal : ModelLineProjectionData.totalLength (t :: ts) =
        t.length + ModelLineProjectionData.totalLength ts := List.sum_cons
    unfold addInjections
    split_ifs
    · exact ⟨le_rfl, Nat.le_add_right _ _⟩
    · exact ⟨le_rfl, Nat.le_add_right _ _⟩
    · obtain ⟨hge, hle⟩ := ih (offset + t.length)
      exact ⟨by omega, by omega⟩

theorem addInjections_add (inputOffset : ℕ) (affinity : PositionAffinity) (offset k : ℕ) :
    addInjections inputOffset affinity (offset + k) ts =
      addInjections inputOffset affinity offset ts + k := by
  induction ts generalizing offset with
  | nil => rfl
  | cons t ts ih =>
    unfold addInjections
    split_ifs
    · rfl
    · rfl
    · rw [← ih, Nat.add_right_comm]

theorem removeInjections_add (hlength : ∀ t ∈ ts, 0 < t.length) (inputOffset : ℕ)
    (affinity : PositionAffinity) :
    removeInjections (addInjections inputOffset affinity inputOffset ts) ts = inputOffset := by
  induction ts with
  | nil => rfl
  | cons t ts ih =>
    have hpos := hlength t List.mem_cons_self
    have hrest := ih fun t ht => hlength t (List.mem_cons_of_mem _ ht)
    unfold addInjections
    split_ifs with hlt hat
    · unfold removeInjections
      rw [if_neg (by omega)]
    · unfold removeInjections
      rw [if_neg (by omega)]
    · have hge := (@addInjections_ge ts inputOffset affinity inputOffset).1
      rw [addInjections_add]
      unfold removeInjections
      rw [if_pos (by omega), if_neg (by omega), Nat.add_sub_cancel]
      exact hrest

/-- An offset in front of all texts, or at the first of them, is one of the line. -/
theorem removeInjections_of_le (h : ∀ t ∈ ts, x ≤ t.offset) : removeInjections x ts = x := by
  cases ts with
  | nil => rfl
  | cons t ts =>
    unfold removeInjections
    exact if_neg (not_lt.2 (h t List.mem_cons_self))

theorem removeInjections_mono (hsorted : ts.Pairwise fun a b => a.offset ≤ b.offset)
    (hxy : x ≤ y) : removeInjections x ts ≤ removeInjections y ts := by
  induction ts generalizing x y with
  | nil => exact hxy
  | cons t ts ih =>
    obtain ⟨hfirst, hrest⟩ := List.pairwise_cons.1 hsorted
    have hat := @removeInjections_of_le ts t.offset hfirst
    unfold removeInjections
    split_ifs with hx hxin hy hyin hy hyin hy hyin
    · exact le_rfl
    · exact ih hrest (by omega)
    · omega
    · omega
    · exact ih hrest (by omega)
    · omega
    · rw [hat]
      omega
    · have := @ih t.offset (y - t.length) hrest (by omega)
      omega
    · exact hxy

end Injections

/-! ## Lines of offsets -/

namespace ModelLineProjectionData

variable {d : ModelLineProjectionData} {n x : ℕ} {affinity : PositionAffinity}

theorem startOffset_succ (m : ℕ) : d.startOffset (m + 1) = d.endOffset m := by
  unfold startOffset endOffset
  rw [if_pos (Nat.succ_pos m), Nat.add_sub_cancel]

theorem WellFormed.count_pos (h : d.WellFormed n) : 0 < d.getOutputLineCount := by
  have hne : d.breakOffsets ≠ [] := by
    intro hnil
    have hends := h.ends
    rw [hnil] at hends
    cases hends
  exact List.length_pos_of_ne_nil hne

theorem WellFormed.endOffset_last (h : d.WellFormed n) :
    d.endOffset (d.getOutputLineCount - 1) = n + totalLength d.texts := by
  unfold endOffset getOutputLineCount
  rw [← List.getLast?_eq_getElem?, h.ends, Option.getD_some]

theorem WellFormed.endOffset_lt (h : d.WellFormed n) {m m' : ℕ} (hlt : m < m')
    (hcount : m' < d.getOutputLineCount) : d.endOffset m < d.endOffset m' := by
  unfold endOffset
  rw [List.getElem?_eq_getElem (hlt.trans hcount), List.getElem?_eq_getElem hcount]
  exact List.pairwise_iff_getElem.1 h.increasing m m' (hlt.trans hcount) hcount hlt

/-- A line that is not the first is not empty. -/
theorem WellFormed.startOffset_lt (h : d.WellFormed n) {m : ℕ} (hpos : 0 < m)
    (hcount : m < d.getOutputLineCount) : d.startOffset m < d.endOffset m := by
  obtain ⟨k, rfl⟩ := Nat.exists_eq_succ_of_ne_zero hpos.ne'
  rw [startOffset_succ]
  exact h.endOffset_lt (Nat.lt_succ_self k) hcount

theorem WellFormed.startOffset_le (h : d.WellFormed n) {m : ℕ}
    (hcount : m < d.getOutputLineCount) : d.startOffset m ≤ d.endOffset m := by
  rcases Nat.eq_zero_or_pos m with rfl | hpos
  · exact Nat.zero_le _
  · exact (h.startOffset_lt hpos hcount).le

theorem WellFormed.endOffset_le (h : d.WellFormed n) {m : ℕ}
    (hcount : m < d.getOutputLineCount) : d.endOffset m ≤ n + totalLength d.texts := by
  rw [← h.endOffset_last]
  rcases Nat.lt_or_ge m (d.getOutputLineCount - 1) with hlt | hge
  · exact (h.endOffset_lt hlt (by omega)).le
  · exact le_of_eq (congrArg d.endOffset (by omega))

/-- The line of an offset; of two lines that meet at it, the one the affinity prefers. -/
structure Found (d : ModelLineProjectionData) (x : ℕ) (affinity : PositionAffinity) (m : ℕ) :
    Prop where
  line_lt : m < d.getOutputLineCount
  start_le : d.startOffset m ≤ x
  le_end : x ≤ d.endOffset m
  left : affinity = .Left → m = 0 ∨ d.startOffset m < x
  right : affinity ≠ .Left → m = d.getOutputLineCount - 1 ∨ x < d.endOffset m

/-- The line of the offset is not before `low` and before `high`. -/
structure Within (d : ModelLineProjectionData) (x : ℕ) (affinity : PositionAffinity)
    (low high : ℕ) : Prop where
  low_le : low ≤ high
  high_le : high ≤ d.getOutputLineCount
  behind : low = 0 ∨ if affinity = .Left then d.startOffset low < x else d.startOffset low ≤ x
  before : high = d.getOutputLineCount ∨
    if affinity = .Left then x ≤ d.startOffset high else x < d.startOffset high

theorem lineLoop_found (h : d.WellFormed n) (hx : x ≤ n + totalLength d.texts) :
    ∀ (fuel : ℕ) {low high mid : ℕ}, d.Within x affinity low high → high - low ≤ fuel →
      (low = high → d.Found x affinity mid) →
      d.Found x affinity (d.lineLoop x affinity fuel low high mid) := by
  intro fuel
  induction fuel with
  | zero =>
    intro low high mid hwithin hfuel hfound
    have hle := hwithin.low_le
    exact hfound (by omega)
  | succ fuel ih =>
    intro low high mid hwithin hfuel hfound
    obtain ⟨hle, hhigh, hbehind, hbefore⟩ := hwithin
    unfold lineLoop
    by_cases hlt : low < high
    · rw [if_pos hlt]
      dsimp only
      generalize hmid : low + (high - 1 - low) / 2 = m
      have hm : low ≤ m ∧ m < high := by omega
      have hcount : m < d.getOutputLineCount := by omega
      have hstart := startOffset_succ (d := d) m
      -- at the last line the end is that of all lines
      have hlast : m + 1 = high → high = d.getOutputLineCount →
          d.endOffset m = n + totalLength d.texts := by
        intro hnext hall
        rw [← h.endOffset_last]
        exact congrArg d.endOffset (by omega)
      by_cases hleft : affinity = .Left
      · simp only [if_pos hleft] at hbehind hbefore ⊢
        split_ifs with hfront hback
        · refine ih ⟨hm.1, by omega, ?_, .inr ?_⟩ (by omega) ?_
          · rwa [if_pos hleft]
          · rwa [if_pos hleft]
          · rintro rfl
            rcases hbehind with rfl | hbehind
            · exact ⟨hcount, Nat.zero_le _, hfront.trans (h.startOffset_le hcount),
                fun _ => .inl rfl, fun hne => absurd hleft hne⟩
            · omega
        · refine ih ⟨by omega, hhigh, .inr ?_, ?_⟩ (by omega) ?_
          · rwa [if_pos hleft, hstart]
          · rwa [if_pos hleft]
          · intro hnext
            rcases hbefore with hall | hbefore
            · have := hlast hnext hall
              omega
            · rw [← hnext, hstart] at hbefore
              omega
        · exact ⟨hcount, by omega, by omega, fun _ => .inr (by omega), fun hne => absurd hleft hne⟩
      · simp only [if_neg hleft] at hbehind hbefore ⊢
        split_ifs with hfront hback
        · refine ih ⟨hm.1, by omega, ?_, .inr ?_⟩ (by omega) ?_
          · rwa [if_neg hleft]
          · rwa [if_neg hleft]
          · rintro rfl
            rcases hbehind with rfl | hbehind
            · exact absurd hfront (Nat.not_lt_zero x)
            · omega
        · refine ih ⟨by omega, hhigh, .inr ?_, ?_⟩ (by omega) ?_
          · rwa [if_neg hleft, hstart]
          · rwa [if_neg hleft]
          · intro hnext
            rcases hbefore with hall | hbefore
            · have hend := hlast hnext hall
              exact ⟨hcount, (h.startOffset_le hcount).trans hback, by omega,
                fun heq => absurd heq hleft, fun _ => .inl (by omega)⟩
            · rw [← hnext, hstart] at hbefore
              omega
        · exact ⟨hcount, by omega, by omega, fun heq => absurd heq hleft, fun _ => .inr (by omega)⟩
    · rw [if_neg hlt]
      exact hfound (by omega)

theorem add_minOutputOffset (m k : ℕ) :
    (if m > 0 then k + d.wrappedTextIndentLength else k) = k + d.getMinOutputOffset m := by
  unfold getMinOutputOffset
  split_ifs <;> rfl

/-- The position of an offset is on its line. -/
theorem offsetInInput_found (h : d.WellFormed n) (hx : x ≤ n + totalLength d.texts)
    (affinity : PositionAffinity) :
    ∃ m, d.Found x affinity m ∧ d.offsetInInputWithInjectionsToOutputPosition x affinity =
      ⟨m, x - d.startOffset m + d.getMinOutputOffset m⟩ := by
  have hpos := h.count_pos
  have hwithin : d.Within x affinity 0 d.getOutputLineCount :=
    ⟨Nat.zero_le _, le_rfl, .inl rfl, .inl rfl⟩
  have hfound := @lineLoop_found d n x affinity h hx d.breakOffsets.length 0
    d.getOutputLineCount 0 hwithin (Nat.sub_le _ _) fun heq => absurd heq hpos.ne
  exact ⟨_, hfound, congrArg (OutputPosition.mk _) (add_minOutputOffset _ _)⟩

theorem maxOutputOffset_eq (m : ℕ) : d.getMaxOutputOffset m =
    d.endOffset m - d.startOffset m + d.getMinOutputOffset m := by
  exact add_minOutputOffset m _

theorem outputPositionToOffset_eq (p : OutputPosition) :
    d.outputPositionToOffsetInInputWithInjections p = d.startOffset p.outputLineIndex +
      (p.outputOffset - d.getMinOutputOffset p.outputLineIndex) := by
  unfold outputPositionToOffsetInInputWithInjections getMinOutputOffset
  dsimp only
  split_ifs <;> rfl

theorem Found.isOutput {m : ℕ} (h : d.Found x affinity m) :
    d.IsOutput ⟨m, x - d.startOffset m + d.getMinOutputOffset m⟩ := by
  have hstart := h.start_le
  have hend := h.le_end
  refine ⟨h.line_lt, Nat.le_add_left _ _, ?_⟩
  rw [maxOutputOffset_eq]
  dsimp only
  omega

theorem Found.outputPositionToOffset {m : ℕ} (h : d.Found x affinity m) :
    d.outputPositionToOffsetInInputWithInjections
      ⟨m, x - d.startOffset m + d.getMinOutputOffset m⟩ = x := by
  have hstart := h.start_le
  rw [outputPositionToOffset_eq]
  dsimp only
  omega

theorem IsOutput.offset_bounds (h : d.WellFormed n) {p : OutputPosition} (hp : d.IsOutput p) :
    d.startOffset p.outputLineIndex ≤ d.outputPositionToOffsetInInputWithInjections p ∧
      d.outputPositionToOffsetInInputWithInjections p ≤ d.endOffset p.outputLineIndex := by
  have hmin := hp.min_le
  have hmax := hp.le_max
  have hstart := h.startOffset_le hp.line_lt
  rw [maxOutputOffset_eq] at hmax
  rw [outputPositionToOffset_eq]
  exact ⟨by omega, by omega⟩

theorem translateToInputOffset_eq (p : OutputPosition) : d.translateToInputOffset p =
    removeInjections (d.outputPositionToOffsetInInputWithInjections p) d.texts := by
  unfold translateToInputOffset texts
  cases d.injections <;> rfl

theorem translateToOutputPosition_eq (o : ℕ) (affinity : PositionAffinity) :
    d.translateToOutputPosition o affinity = d.offsetInInputWithInjectionsToOutputPosition
      (addInjections o affinity o d.texts) affinity := by
  unfold translateToOutputPosition texts
  cases d.injections <;> rfl

theorem endOffset_le_startOffset (h : d.WellFormed n) {m m' : ℕ} (hlt : m < m')
    (hcount : m' < d.getOutputLineCount) : d.endOffset m ≤ d.startOffset m' := by
  obtain ⟨k, rfl⟩ := Nat.exists_eq_add_of_lt hlt
  rw [show m + k + 1 = (m + k) + 1 from rfl, startOffset_succ]
  rcases Nat.eq_zero_or_pos k with rfl | hpos
  · exact le_rfl
  · exact (h.endOffset_lt (by omega) (by omega)).le

/-- Positions in order have offsets in order. -/
theorem outputPositionToOffset_mono (h : d.WellFormed n) {p q : OutputPosition}
    (hp : d.IsOutput p) (hq : d.IsOutput q) (hpq : p.IsBeforeOrEqual q) :
    d.outputPositionToOffsetInInputWithInjections p ≤
      d.outputPositionToOffsetInInputWithInjections q := by
  rcases hpq with hline | ⟨hline, hoffset⟩
  · exact (hp.offset_bounds h).2.trans ((endOffset_le_startOffset h hline hq.line_lt).trans
      (hq.offset_bounds h).1)
  · rw [outputPositionToOffset_eq, outputPositionToOffset_eq, hline]
    omega

end ModelLineProjectionData

/-- Every offset of a line is translated to a position on an output line and back to itself, and
positions in order are translated to offsets in order. -/
theorem translate_roundTrip (d : ModelLineProjectionData) (n : ℕ) (h : d.WellFormed n) :
    (∀ o ≤ n, ∀ affinity, d.IsOutput (d.translateToOutputPosition o affinity) ∧
      d.translateToInputOffset (d.translateToOutputPosition o affinity) = o) ∧
    ∀ p q, d.IsOutput p → d.IsOutput q → p.IsBeforeOrEqual q →
      d.translateToInputOffset p ≤ d.translateToInputOffset q := by
  constructor
  · intro o ho affinity
    have hle := (@addInjections_ge d.texts o affinity o).2
    obtain ⟨m, hfound, hposition⟩ := ModelLineProjectionData.offsetInInput_found h
      (hle.trans (Nat.add_le_add_right ho _)) affinity
    rw [ModelLineProjectionData.translateToOutputPosition_eq, hposition]
    refine ⟨hfound.isOutput, ?_⟩
    rw [ModelLineProjectionData.translateToInputOffset_eq, hfound.outputPositionToOffset]
    exact removeInjections_add h.not_empty o affinity
  · intro p q hp hq hpq
    rw [ModelLineProjectionData.translateToInputOffset_eq,
      ModelLineProjectionData.translateToInputOffset_eq]
    exact removeInjections_mono h.sorted
      (ModelLineProjectionData.outputPositionToOffset_mono h hp hq hpq)

/-- `ab` with `x` and `yz` injected behind `a`, broken inside `yz`. -/
def dataAb : ModelLineProjectionData :=
  ⟨some [⟨1, ⟨[120], none⟩⟩, ⟨1, ⟨[121, 122], none⟩⟩], [3, 5], 2⟩

theorem wellFormed_dataAb : dataAb.WellFormed 2 where
  sorted := by
    simp [dataAb, ModelLineProjectionData.texts]
  inside := by
    simp [dataAb, ModelLineProjectionData.texts]
  not_empty := by
    simp [dataAb, ModelLineProjectionData.texts, Injection.length]
  increasing := by
    simp [dataAb]
  ends := by
    decide

theorem translate_roundTrip_ab :
    (∀ o ≤ 2, ∀ affinity, dataAb.IsOutput (dataAb.translateToOutputPosition o affinity) ∧
      dataAb.translateToInputOffset (dataAb.translateToOutputPosition o affinity) = o) ∧
    ∀ p q, dataAb.IsOutput p → dataAb.IsOutput q → p.IsBeforeOrEqual q →
      dataAb.translateToInputOffset p ≤ dataAb.translateToInputOffset q :=
  translate_roundTrip dataAb 2 wellFormed_dataAb

end NexgileIde.ViewLayout.Projection
