import NexgileIde.BracketPairs.Length

/-!
# Edits of a text as lengths

A text is cut into stretches, each of text that stays and text that is replaced
behind it. The lengths up to the borders of the stretches are what a list of
`TextEditInfo`s says of sorted edits that do not overlap.
-/
namespace NexgileIde.BracketPairs

open Text TextLength

structure TextEditInfo where
  startOffset : Length
  endOffset : Length
  newLength : Length
  deriving DecidableEq, Repr

/-- The length of a text, each line break of which is one line feed. -/
def lengthOf (text : Str) : ℤ := encode (extent text)

/-- No line of the text, nor the number of its lines, reaches `2 ^ 26`. -/
def TextInRange (text : Str) : Prop := InRange (text.map ofUnit)

/-- A text has no more lines and columns than characters. -/
theorem extent_le_length (text : Str) :
    (extent text).lineCount ≤ text.length ∧ (extent text).columnCount ≤ text.length := by
  induction text with
  | nil => simp [zero_def]
  | cons c text ih =>
    rw [extent_cons, lineCount_add, columnCount_add]
    unfold ofUnit
    constructor <;> split_ifs <;> simp <;> omega

theorem textInRange_of_length {text : Str} (h : (text.length : ℤ) < factor) : TextInRange text where
  columns front hfront := by
    obtain ⟨n, rfl⟩ : ∃ n, front = (text.take n).map ofUnit :=
      ⟨front.length, by rw [List.map_take]; exact List.prefix_iff_eq_take.mp hfront⟩
    have hle := (extent_le_length (text.take n)).2
    have htake : (text.take n).length ≤ text.length := List.length_take_le' n text
    change ((extent (text.take n)).columnCount : ℤ) < factor
    omega
  lines := by
    have hle := (extent_le_length text).1
    change ((extent text).lineCount : ℤ) < factor
    omega

section Lengths

variable {u v : Str}

theorem TextInRange.left (h : TextInRange (u ++ v)) : TextInRange u := by
  unfold TextInRange at h
  rw [List.map_append] at h
  exact h.left

theorem TextInRange.right (h : TextInRange (u ++ v)) : TextInRange v := by
  unfold TextInRange at h
  rw [List.map_append] at h
  exact h.right

theorem TextInRange.of_prefix (h : TextInRange v) (huv : u <+: v) : TextInRange u := by
  obtain ⟨back, rfl⟩ := huv
  exact h.left

theorem TextInRange.narrow (h : TextInRange u) : Narrow (extent u) := InRange.narrow h

theorem TextInRange.lengthAdd (h : TextInRange (u ++ v)) :
    lengthAdd (lengthOf u) (lengthOf v) = lengthOf (u ++ v) := by
  unfold lengthOf
  rw [extent_append]
  exact lengthAdd_encode h.left.narrow h.right.narrow

theorem TextInRange.lengthDiffNonNegative (h : TextInRange (u ++ v)) :
    lengthDiffNonNegative (lengthOf u) (lengthOf (u ++ v)) = lengthOf v := by
  have hboth := h.narrow
  unfold lengthOf
  rw [extent_append] at hboth ⊢
  exact lengthDiffNonNegative_encode h.left.narrow hboth

@[simp] theorem lengthOf_nil : lengthOf [] = 0 := by simp [lengthOf]

theorem encode_eq_zero_iff {t : TextLength} : encode t = 0 ↔ t = 0 := by
  constructor
  · intro h
    rw [encode_def, factor_eq] at h
    have hline : t.lineCount = 0 := by omega
    have hcolumn : t.columnCount = 0 := by omega
    exact TextLength.ext hline hcolumn
  · rintro rfl
    exact encode_zero

@[simp] theorem lengthOf_eq_zero_iff : lengthOf u = 0 ↔ u = [] := by
  rw [lengthOf, encode_eq_zero_iff, extent_eq_zero_iff]

/-- More text is not shorter. -/
theorem TextInRange.lengthOf_le (h : TextInRange (u ++ v)) : lengthOf u ≤ lengthOf (u ++ v) := by
  have hboth := h.narrow
  unfold lengthOf
  rw [extent_append] at hboth ⊢
  rw [encode_le_iff h.left.narrow hboth, lineCount_add, add_def]
  split_ifs with hline <;> simp <;> omega

theorem TextInRange.lengthOf_lt (h : TextInRange (u ++ v)) (hv : v ≠ []) :
    lengthOf u < lengthOf (u ++ v) := by
  refine lt_of_le_of_ne h.lengthOf_le ?_
  intro heq
  have hdiff := h.lengthDiffNonNegative
  rw [← heq, lengthDiffNonNegative_of_le le_rfl] at hdiff
  exact hv (lengthOf_eq_zero_iff.mp hdiff.symm)

end Lengths

theorem lengthOf_replicate {c : CodeUnit} (hc : c ≠ LineFeed) (n : ℕ) :
    lengthOf (List.replicate n c) = n := by
  have hline : LineFeed ∉ List.replicate n c := by
    intro hmem
    exact hc (List.eq_of_mem_replicate hmem).symm
  rw [lengthOf, extent_of_noLineFeed hline, encode_def]
  simp

theorem textInRange_replicate (c : CodeUnit) {n : ℕ} (hn : (n : ℤ) < factor) :
    TextInRange (List.replicate n c) := by
  apply textInRange_of_length
  rwa [List.length_replicate]

/-- Text that stays, and text behind it that is replaced. -/
structure Stretch where
  gap : Str
  removed : Str
  inserted : Str
  deriving DecidableEq

/-- The text in front of the edits. -/
def textBefore (stretches : List Stretch) : Str :=
  stretches.flatMap fun stretch => stretch.gap ++ stretch.removed

/-- The text behind the edits. -/
def textAfter (stretches : List Stretch) : Str :=
  stretches.flatMap fun stretch => stretch.gap ++ stretch.inserted

/-- The edit of a stretch behind this text. -/
def editInfo (front : Str) (stretch : Stretch) : TextEditInfo where
  startOffset := lengthOf (front ++ stretch.gap)
  endOffset := lengthOf (front ++ stretch.gap ++ stretch.removed)
  newLength := lengthOf stretch.inserted

/-- The edits of stretches behind this text. -/
def editInfos (front : Str) : List Stretch → List TextEditInfo
  | [] => []
  | stretch :: stretches =>
    editInfo front stretch :: editInfos (front ++ stretch.gap ++ stretch.removed) stretches

/-- The edits are those of some stretches of the first text, which they turn into the second. -/
def Describes (edits : List TextEditInfo) (before after : Str) : Prop :=
  ∃ stretches tail, before = textBefore stretches ++ tail ∧ after = textAfter stretches ++ tail ∧
    edits = editInfos [] stretches

@[simp] theorem textBefore_nil : textBefore [] = [] := rfl

@[simp] theorem textAfter_nil : textAfter [] = [] := rfl

@[simp] theorem textBefore_cons (stretch : Stretch) (stretches : List Stretch) :
    textBefore (stretch :: stretches) =
      stretch.gap ++ stretch.removed ++ textBefore stretches := rfl

@[simp] theorem textAfter_cons (stretch : Stretch) (stretches : List Stretch) :
    textAfter (stretch :: stretches) =
      stretch.gap ++ stretch.inserted ++ textAfter stretches := rfl

@[simp] theorem textBefore_append (stretches others : List Stretch) :
    textBefore (stretches ++ others) = textBefore stretches ++ textBefore others :=
  List.flatMap_append

@[simp] theorem textAfter_append (stretches others : List Stretch) :
    textAfter (stretches ++ others) = textAfter stretches ++ textAfter others :=
  List.flatMap_append

theorem editInfos_append (front : Str) (stretches others : List Stretch) :
    editInfos front (stretches ++ others) =
      editInfos front stretches ++ editInfos (front ++ textBefore stretches) others := by
  induction stretches generalizing front with
  | nil => simp [editInfos]
  | cons stretch stretches ih => simp [editInfos, ih]

@[simp] theorem length_editInfos (front : Str) (stretches : List Stretch) :
    (editInfos front stretches).length = stretches.length := by
  induction stretches generalizing front with
  | nil => rfl
  | cons stretch stretches ih => simp [editInfos, ih]

end NexgileIde.BracketPairs
