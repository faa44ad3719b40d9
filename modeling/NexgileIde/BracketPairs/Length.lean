import NexgileIde.Text.TextLength

/-!
# Lengths of bracket pair trees

A `Length` is a number that holds a line count above 26 bits of column count.
`toLength` says what it encodes as long as no column count, of a length or of a
sum, reaches `2 ^ 26`; in that range the arithmetic is the one of `TextLength`.
-/
namespace NexgileIde.BracketPairs

open Text TextLength

/-- `Length`: a number without allocation. -/
abbrev Length := ℤ

def lengthZero : Length := 0

def lengthIsZero (length : Length) : Bool := decide (length = 0)

def factor : ℤ := 2 ^ 26

def toLength (lineCount columnCount : ℤ) : Length := lineCount * factor + columnCount

/-- `TextLength` as `lengthToObj` fills it, where a count may be negative. -/
structure LengthObj where
  lineCount : ℤ
  columnCount : ℤ
  deriving DecidableEq, Repr

def lengthToObj (length : Length) : LengthObj :=
  let lineCount := length / factor
  ⟨lineCount, length - lineCount * factor⟩

def lengthAdd (l1 l2 : Length) : Length :=
  let r := l1 + l2
  if l2 ≥ factor then r - l1.tmod factor else r

def sumLengths (items : List α) (lengthFn : α → Length) : Length :=
  items.foldl (fun a b => lengthAdd a (lengthFn b)) lengthZero

def lengthEquals (length1 length2 : Length) : Bool := decide (length1 = length2)

def lengthDiffNonNegative (l1 l2 : Length) : Length :=
  if l2 - l1 ≤ 0 then lengthZero
  else
    let lineCount1 := l1 / factor
    let lineCount2 := l2 / factor
    let colCount2 := l2 - lineCount2 * factor
    if lineCount1 = lineCount2 then
      let colCount1 := l1 - lineCount1 * factor
      toLength 0 (colCount2 - colCount1)
    else toLength (lineCount2 - lineCount1) colCount2

def lengthLessThanEqual (length1 length2 : Length) : Bool := decide (length1 ≤ length2)

theorem factor_eq : factor = 67108864 := rfl

theorem factor_pos : 0 < factor := by decide

/-- The number that holds the counts of a text length. -/
def encode (t : TextLength) : ℤ := toLength t.lineCount t.columnCount

theorem encode_def (t : TextLength) :
    encode t = t.lineCount * factor + t.columnCount := rfl

@[simp] theorem encode_zero : encode 0 = 0 := by
  simp [encode_def, zero_def]

/-- The column count fits below the line count. -/
def Narrow (t : TextLength) : Prop := (t.columnCount : ℤ) < factor

theorem encode_div {t : TextLength} (h : Narrow t) : encode t / factor = t.lineCount := by
  rw [encode_def, Int.add_comm, Int.add_mul_ediv_right _ _ factor_pos.ne',
    Int.ediv_eq_zero_of_lt (by positivity) h, zero_add]

theorem encode_tmod {t : TextLength} (h : Narrow t) :
    (encode t).tmod factor = t.columnCount := by
  have hpos : 0 ≤ encode t := by
    have := factor_pos
    rw [encode_def]
    positivity
  rw [Int.tmod_eq_emod_of_nonneg hpos, encode_def, Int.add_comm, Int.add_mul_emod_self_right,
    Int.emod_eq_of_lt (by positivity) h]

theorem lengthToObj_encode {t : TextLength} (h : Narrow t) :
    lengthToObj (encode t) = ⟨t.lineCount, t.columnCount⟩ := by
  unfold lengthToObj
  rw [encode_div h]
  simp [encode_def]

theorem factor_le_encode_iff {t : TextLength} (h : Narrow t) :
    factor ≤ encode t ↔ t.lineCount ≠ 0 := by
  rw [Narrow, factor_eq] at h
  rw [encode_def, factor_eq]
  omega

/-- Numbers compare as the text lengths they hold: by lines, then by columns. -/
theorem encode_le_iff {s t : TextLength} (hs : Narrow s) (ht : Narrow t) :
    encode s ≤ encode t ↔
      s.lineCount < t.lineCount ∨ s.lineCount = t.lineCount ∧ s.columnCount ≤ t.columnCount := by
  rw [Narrow, factor_eq] at hs ht
  rw [encode_def, encode_def, factor_eq]
  omega

/-- The sum is right when the columns in front of a line break and those added to a line fit. -/
theorem lengthAdd_encode {s t : TextLength} (hs : Narrow s) (ht : Narrow t) :
    lengthAdd (encode s) (encode t) = encode (s + t) := by
  unfold lengthAdd
  simp only [ge_iff_le, factor_le_encode_iff ht, encode_tmod hs]
  by_cases h : t.lineCount = 0
  · simp [h, encode_def, add_def]
    ring
  · simp [h, encode_def, add_def]
    ring

/-- What is behind a prefix. -/
theorem lengthDiffNonNegative_encode {s t : TextLength} (hs : Narrow s) (hst : Narrow (s + t)) :
    lengthDiffNonNegative (encode s) (encode (s + t)) = encode t := by
  have hle : encode (s + t) - encode s ≤ 0 ↔ t.lineCount = 0 ∧ t.columnCount = 0 := by
    rw [sub_nonpos, encode_le_iff hst hs, lineCount_add, add_def]
    split_ifs with h
    · simp [h]
    · omega
  unfold lengthDiffNonNegative
  simp only [encode_div hs, encode_div hst, hle, lineCount_add]
  split_ifs with hzero hline
  · have : t = 0 := TextLength.ext hzero.1 hzero.2
    simp [this, lengthZero]
  · have hline : t.lineCount = 0 := by simpa using hline
    simp [encode_def, add_def, toLength, hline]
  · have hline : t.lineCount ≠ 0 := by rintro h; simp [h] at hline
    simp [encode_def, add_def, toLength, hline]

/-- Nothing is behind the whole. -/
theorem lengthDiffNonNegative_of_le {l1 l2 : Length} (h : l2 ≤ l1) :
    lengthDiffNonNegative l1 l2 = 0 := by
  unfold lengthDiffNonNegative
  rw [if_pos (sub_nonpos.mpr h)]
  rfl

theorem columnCount_add (s t : TextLength) :
    (s + t).columnCount = (if t.lineCount = 0 then s.columnCount else 0) + t.columnCount := by
  rw [add_def]
  split_ifs <;> simp

theorem columnCount_le_add (s t : TextLength) : t.columnCount ≤ (s + t).columnCount := by
  rw [columnCount_add]
  exact Nat.le_add_left _ _

theorem Narrow.right {s t : TextLength} (h : Narrow (s + t)) : Narrow t := by
  have hle := columnCount_le_add s t
  unfold Narrow at h ⊢
  omega

/-- Consecutive pieces of a text with less than `2 ^ 26` lines and columns in each line. -/
structure InRange (pieces : List TextLength) : Prop where
  columns : ∀ front, front <+: pieces → Narrow front.sum
  lines : (pieces.sum.lineCount : ℤ) < factor

namespace InRange

variable {s t : List TextLength}

theorem narrow (h : InRange s) : Narrow s.sum := h.columns s List.prefix_rfl

theorem left (h : InRange (s ++ t)) : InRange s where
  columns front hfront := h.columns front (hfront.trans (List.prefix_append s t))
  lines := by
    have hlines := h.lines
    rw [List.sum_append, lineCount_add] at hlines
    omega

theorem right (h : InRange (s ++ t)) : InRange t where
  columns front hfront := by
    have hwhole := h.columns (s ++ front) ((List.prefix_append_right_inj s).mpr hfront)
    rw [List.sum_append] at hwhole
    exact hwhole.right
  lines := by
    have hlines := h.lines
    rw [List.sum_append, lineCount_add] at hlines
    omega

theorem lengthAdd (h : InRange (s ++ t)) :
    lengthAdd (encode s.sum) (encode t.sum) = encode (s ++ t).sum := by
  rw [lengthAdd_encode h.left.narrow h.right.narrow, List.sum_append]

end InRange

@[simp] theorem lengthAdd_zero_left (length : Length) : lengthAdd 0 length = length := by
  simp [lengthAdd]

theorem sumLengths_append (items others : List α) (lengthFn : α → Length) :
    sumLengths (items ++ others) lengthFn =
      others.foldl (fun a b => lengthAdd a (lengthFn b)) (sumLengths items lengthFn) :=
  List.foldl_append

theorem sumLengths_concat (items : List α) (item : α) (lengthFn : α → Length) :
    sumLengths (items ++ [item]) lengthFn = lengthAdd (sumLengths items lengthFn) (lengthFn item) := by
  simp [sumLengths_append]

/-- The sum over the pieces holds the length of the whole. -/
theorem sumLengths_encode {pieces : List TextLength} (h : InRange pieces) :
    sumLengths pieces encode = encode pieces.sum := by
  induction pieces using List.reverseRecOn with
  | nil => simp [sumLengths, lengthZero]
  | append_singleton pieces piece ih =>
    have hadd := h.lengthAdd
    rw [List.sum_singleton] at hadd
    rw [sumLengths_concat, ih h.left, hadd]

end NexgileIde.BracketPairs
