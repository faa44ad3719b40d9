import NexgileIde.Text.Utf16

/-!
# Positions and lengths of text

A position is a line and a column, both from one; columns count UTF-16 code units. The
length of a text, in lines and columns, moves the position in front of the text to the one
behind it, and the lengths of two parts add up.
-/
namespace NexgileIde.Text

structure Position where
  lineNumber : ℤ
  column : ℤ
  deriving DecidableEq, Repr

namespace Position

def isBefore (a b : Position) : Bool :=
  if a.lineNumber < b.lineNumber then true
  else if b.lineNumber < a.lineNumber then false
  else a.column < b.column

def isBeforeOrEqual (a b : Position) : Bool :=
  if a.lineNumber < b.lineNumber then true
  else if b.lineNumber < a.lineNumber then false
  else a.column ≤ b.column

theorem isBefore_iff {a b : Position} : a.isBefore b ↔
    a.lineNumber < b.lineNumber ∨ a.lineNumber = b.lineNumber ∧ a.column < b.column := by
  unfold isBefore
  split_ifs <;> simp <;> omega

theorem isBeforeOrEqual_iff {a b : Position} : a.isBeforeOrEqual b ↔
    a.lineNumber < b.lineNumber ∨ a.lineNumber = b.lineNumber ∧ a.column ≤ b.column := by
  unfold isBeforeOrEqual
  split_ifs <;> simp <;> omega

theorem isBeforeOrEqual_eq_not (a b : Position) : a.isBeforeOrEqual b = !b.isBefore a := by
  rw [Bool.eq_iff_iff, Bool.not_eq_true', ← Bool.not_eq_true, isBeforeOrEqual_iff, isBefore_iff]
  omega

end Position

/-- A range of a text; the position it starts at is not behind the one it ends at. -/
structure Range where
  startLineNumber : ℤ
  startColumn : ℤ
  endLineNumber : ℤ
  endColumn : ℤ
  start_le_end : startLineNumber < endLineNumber ∨
    startLineNumber = endLineNumber ∧ startColumn ≤ endColumn
  deriving DecidableEq, Repr

namespace Range

/-- The constructor swaps the two positions when the second is before the first. -/
def new (startLineNumber startColumn endLineNumber endColumn : ℤ) : Range :=
  if h : startLineNumber > endLineNumber ∨
      startLineNumber = endLineNumber ∧ startColumn > endColumn then
    ⟨endLineNumber, endColumn, startLineNumber, startColumn, by omega⟩
  else ⟨startLineNumber, startColumn, endLineNumber, endColumn, by omega⟩

def fromPositions (first second : Position) : Range :=
  new first.lineNumber first.column second.lineNumber second.column

def getStartPosition (r : Range) : Position := ⟨r.startLineNumber, r.startColumn⟩

def getEndPosition (r : Range) : Position := ⟨r.endLineNumber, r.endColumn⟩

def isEmpty (r : Range) : Bool :=
  r.startLineNumber = r.endLineNumber && r.startColumn = r.endColumn

theorem start_isBeforeOrEqual (r : Range) :
    r.getStartPosition.isBeforeOrEqual r.getEndPosition :=
  Position.isBeforeOrEqual_iff.mpr r.start_le_end

theorem new_of_le {a b : Position} (h : a.isBeforeOrEqual b) :
    (new a.lineNumber a.column b.lineNumber b.column).getStartPosition = a ∧
      (new a.lineNumber a.column b.lineNumber b.column).getEndPosition = b := by
  have hnot : ¬ (a.lineNumber > b.lineNumber ∨
      a.lineNumber = b.lineNumber ∧ a.column > b.column) := by
    rw [Position.isBeforeOrEqual_iff] at h
    omega
  unfold new
  rw [dif_neg hnot]
  exact ⟨rfl, rfl⟩

theorem fromPositions_start {a b : Position} (h : a.isBeforeOrEqual b) :
    (fromPositions a b).getStartPosition = a := (new_of_le h).1

theorem fromPositions_end {a b : Position} (h : a.isBeforeOrEqual b) :
    (fromPositions a b).getEndPosition = b := (new_of_le h).2

/-- A reunion of the two ranges. -/
def plusRange (a b : Range) : Range :=
  let (startLineNumber, startColumn) :=
    if b.startLineNumber < a.startLineNumber then (b.startLineNumber, b.startColumn)
    else if b.startLineNumber = a.startLineNumber then
      (b.startLineNumber, min b.startColumn a.startColumn)
    else (a.startLineNumber, a.startColumn)
  let (endLineNumber, endColumn) :=
    if b.endLineNumber > a.endLineNumber then (b.endLineNumber, b.endColumn)
    else if b.endLineNumber = a.endLineNumber then
      (b.endLineNumber, max b.endColumn a.endColumn)
    else (a.endLineNumber, a.endColumn)
  new startLineNumber startColumn endLineNumber endColumn

theorem new_eq {startLineNumber startColumn endLineNumber endColumn : ℤ}
    (h : startLineNumber < endLineNumber ∨
      startLineNumber = endLineNumber ∧ startColumn ≤ endColumn) :
    new startLineNumber startColumn endLineNumber endColumn =
      ⟨startLineNumber, startColumn, endLineNumber, endColumn, h⟩ := by
  unfold new
  rw [dif_neg (by omega)]

/-- The first range starts no later than the second one. -/
def StartsBy (a b : Range) : Prop :=
  a.startLineNumber < b.startLineNumber ∨
    a.startLineNumber = b.startLineNumber ∧ a.startColumn ≤ b.startColumn

/-- The first range ends no later than the second one. -/
def EndsBy (a b : Range) : Prop :=
  a.endLineNumber < b.endLineNumber ∨
    a.endLineNumber = b.endLineNumber ∧ a.endColumn ≤ b.endColumn

theorem StartsBy.trans {a b c : Range} (h : a.StartsBy b) (h' : b.StartsBy c) : a.StartsBy c := by
  unfold StartsBy at *
  omega

/-- The reunion takes in both ranges. -/
theorem plusRange_covers (a b : Range) :
    ((plusRange a b).StartsBy a ∧ (plusRange a b).StartsBy b) ∧
      a.EndsBy (plusRange a b) ∧ b.EndsBy (plusRange a b) := by
  have ha := a.start_le_end
  have hb := b.start_le_end
  unfold plusRange StartsBy EndsBy
  split_ifs <;> dsimp only <;> rw [new_eq (by omega)] <;> dsimp only <;> omega

theorem isEmpty_iff (r : Range) : r.isEmpty ↔ r.getStartPosition = r.getEndPosition := by
  simp [isEmpty, getStartPosition, getEndPosition]

end Range

/-- A non-negative length of text in terms of line and column count. -/
@[ext] structure TextLength where
  lineCount : ℕ
  columnCount : ℕ
  deriving DecidableEq, Repr

namespace TextLength

def add (a other : TextLength) : TextLength :=
  if other.lineCount = 0 then ⟨a.lineCount, a.columnCount + other.columnCount⟩
  else ⟨a.lineCount + other.lineCount, other.columnCount⟩

instance : AddMonoid TextLength where
  add := add
  zero := ⟨0, 0⟩
  add_assoc a b c := by
    change add (add a b) c = add a (add b c)
    unfold add
    ext <;> split_ifs <;> simp_all <;> omega
  zero_add a := by
    change add ⟨0, 0⟩ a = a
    unfold add
    ext <;> split_ifs <;> simp_all
  add_zero a := by
    change add a ⟨0, 0⟩ = a
    simp [add]
  nsmul n a := Nat.rec ⟨0, 0⟩ (fun _ b => add b a) n
  nsmul_zero _ := rfl
  nsmul_succ _ _ := rfl

theorem zero_def : (0 : TextLength) = ⟨0, 0⟩ := rfl

theorem add_def (a b : TextLength) : a + b =
    if b.lineCount = 0 then ⟨a.lineCount, a.columnCount + b.columnCount⟩
    else ⟨a.lineCount + b.lineCount, b.columnCount⟩ := rfl

theorem lineCount_add (a b : TextLength) : (a + b).lineCount = a.lineCount + b.lineCount := by
  rw [add_def]
  split_ifs <;> simp_all

def addToPosition (len : TextLength) (position : Position) : Position :=
  if len.lineCount = 0 then ⟨position.lineNumber, position.column + len.columnCount⟩
  else ⟨position.lineNumber + len.lineCount, len.columnCount + 1⟩

def createRange (len : TextLength) (startPosition : Position) : Range :=
  if len.lineCount = 0 then
    .new startPosition.lineNumber startPosition.column startPosition.lineNumber
      (startPosition.column + len.columnCount)
  else
    .new startPosition.lineNumber startPosition.column
      (startPosition.lineNumber + len.lineCount) (len.columnCount + 1)

theorem addToPosition_add (a b : TextLength) (p : Position) :
    (a + b).addToPosition p = b.addToPosition (a.addToPosition p) := by
  simp only [addToPosition, add_def]
  split_ifs <;> simp_all <;> omega

theorem addToPosition_lineNumber (len : TextLength) (p : Position) :
    (len.addToPosition p).lineNumber = p.lineNumber + len.lineCount := by
  unfold addToPosition
  split_ifs <;> simp_all

theorem isBefore_addToPosition {len : TextLength} (h : len ≠ 0) (p : Position) :
    p.isBefore (len.addToPosition p) := by
  rw [Position.isBefore_iff]
  unfold addToPosition
  split_ifs with hline
  · have hcolumn : len.columnCount ≠ 0 := fun hcolumn => h (TextLength.ext hline hcolumn)
    right
    simp
    omega
  · left
    simp
    omega

theorem isBeforeOrEqual_addToPosition (len : TextLength) (p : Position) :
    p.isBeforeOrEqual (len.addToPosition p) := by
  rw [Position.isBeforeOrEqual_iff]
  unfold addToPosition
  split_ifs <;> simp
  omega

theorem createRange_eq (len : TextLength) (p : Position) :
    len.createRange p = .fromPositions p (len.addToPosition p) := by
  unfold createRange addToPosition Range.fromPositions
  split_ifs <;> rfl

theorem createRange_start (len : TextLength) (p : Position) :
    (len.createRange p).getStartPosition = p := by
  rw [createRange_eq, Range.fromPositions_start (isBeforeOrEqual_addToPosition len p)]

theorem createRange_end (len : TextLength) (p : Position) :
    (len.createRange p).getEndPosition = len.addToPosition p := by
  rw [createRange_eq, Range.fromPositions_end (isBeforeOrEqual_addToPosition len p)]

/-- The loop of `ofText`, which takes the text by code points: a pair of surrogates is one. -/
def ofTextLoop (line column : ℕ) : Str → TextLength
  | [] => ⟨line, column⟩
  | [c] => if c = LineFeed then ⟨line + 1, 0⟩ else ⟨line, column + 1⟩
  | c :: d :: rest =>
    if c = LineFeed then ofTextLoop (line + 1) 0 (d :: rest)
    else if isLead c && isTrail d then ofTextLoop line (column + 1) rest
    else ofTextLoop line (column + 1) (d :: rest)

def ofText (text : Str) : TextLength := ofTextLoop 0 0 text

/-- The length of one code unit. -/
def ofUnit (c : CodeUnit) : TextLength := if c = LineFeed then ⟨1, 0⟩ else ⟨0, 1⟩

end TextLength

open TextLength

/-- The length of a text with columns that count code units, as those of positions do. -/
def extent (text : Str) : TextLength := (text.map ofUnit).sum

@[simp] theorem extent_nil : extent [] = 0 := rfl

theorem extent_cons (c : CodeUnit) (text : Str) :
    extent (c :: text) = ofUnit c + extent text := by simp [extent]

theorem extent_cons_lineFeed (text : Str) :
    extent (LineFeed :: text) = ⟨(extent text).lineCount + 1, (extent text).columnCount⟩ := by
  rw [extent_cons, add_def, ofUnit, if_pos rfl]
  ext <;> split_ifs <;> simp_all
  omega

theorem extent_cons_of_ne {c : CodeUnit} (hc : c ≠ LineFeed) (text : Str) :
    extent (c :: text) = ⟨(extent text).lineCount,
      if (extent text).lineCount = 0 then (extent text).columnCount + 1
      else (extent text).columnCount⟩ := by
  rw [extent_cons, add_def, ofUnit, if_neg hc]
  ext <;> split_ifs <;> simp_all
  omega

theorem extent_append (u v : Str) : extent (u ++ v) = extent u + extent v := by
  simp [extent]

theorem extent_eq_zero_iff {text : Str} : extent text = 0 ↔ text = [] := by
  constructor
  · intro h
    cases text with
    | nil => rfl
    | cons c text =>
      exfalso
      rw [extent_cons, add_def, zero_def, ofUnit] at h
      split_ifs at h <;> simp_all
  · rintro rfl
    rfl

/-- A text without line feeds adds its length to the column. -/
theorem extent_of_noLineFeed {text : Str} (h : LineFeed ∉ text) : extent text = ⟨0, text.length⟩ := by
  induction text with
  | nil => rfl
  | cons c text ih =>
    rw [List.mem_cons, not_or] at h
    obtain ⟨hc, htext⟩ := h
    rw [extent_cons, ih htext, add_def, ofUnit, if_neg (Ne.symm hc)]
    simp
    omega

theorem extent_lineCount_eq_zero {text : Str} : (extent text).lineCount = 0 ↔ LineFeed ∉ text := by
  constructor
  · intro h
    induction text with
    | nil => simp
    | cons c text ih =>
      rw [extent_cons, lineCount_add] at h
      have hc : c ≠ LineFeed := by
        rintro rfl
        simp [ofUnit] at h
      rw [List.mem_cons, not_or]
      exact ⟨Ne.symm hc, ih (by omega)⟩
  · intro h
    rw [extent_of_noLineFeed h]

/-- The number of surrogate pairs in the last line of a text, `found` of them before it. -/
def lastLinePairsFrom (found : ℕ) : Str → ℕ
  | [] => found
  | [c] => if c = LineFeed then 0 else found
  | c :: d :: rest =>
    if c = LineFeed then lastLinePairsFrom 0 (d :: rest)
    else if isLead c && isTrail d then lastLinePairsFrom (found + 1) rest
    else lastLinePairsFrom found (d :: rest)

def lastLinePairs (text : Str) : ℕ := lastLinePairsFrom 0 text

theorem add_ofUnit_lineFeed (len : TextLength) : len + ofUnit LineFeed = ⟨len.lineCount + 1, 0⟩ := by
  simp [ofUnit, add_def]

theorem add_ofUnit {c : CodeUnit} (hc : c ≠ LineFeed) (len : TextLength) :
    len + ofUnit c = ⟨len.lineCount, len.columnCount + 1⟩ := by
  simp [ofUnit, hc, add_def]

/-- In its last line, the loop is behind by the pairs it has passed. -/
theorem ofTextLoop_eq (line column found : ℕ) (text : Str) :
    (ofTextLoop line column text).lineCount =
        ((⟨line, column + found⟩ : TextLength) + extent text).lineCount ∧
      (ofTextLoop line column text).columnCount + lastLinePairsFrom found text =
        ((⟨line, column + found⟩ : TextLength) + extent text).columnCount := by
  induction line, column, text using ofTextLoop.induct generalizing found with
  | case1 line column => simp [ofTextLoop, lastLinePairsFrom]
  | case2 line column =>
    simp [ofTextLoop, lastLinePairsFrom, extent_cons, add_ofUnit_lineFeed]
  | case3 line column c hc =>
    simp only [ofTextLoop, lastLinePairsFrom, if_neg hc, extent_cons, extent_nil, add_zero,
      add_ofUnit hc]
    refine ⟨trivial, ?_⟩
    omega
  | case4 line column d rest ih =>
    have hih := ih 0
    rw [extent_cons, ← add_assoc, add_ofUnit_lineFeed]
    simpa only [ofTextLoop, lastLinePairsFrom, if_pos] using hih
  | case5 line column c d rest hc hpair ih =>
    have hd : d ≠ LineFeed := by
      rintro rfl
      simp [show isTrail LineFeed = false by decide] at hpair
    have hih := ih (found + 1)
    have hcolumn : column + 1 + (found + 1) = column + found + 1 + 1 := by omega
    rw [hcolumn] at hih
    rw [extent_cons, extent_cons, ← add_assoc, ← add_assoc, add_ofUnit hc, add_ofUnit hd]
    simpa only [ofTextLoop, lastLinePairsFrom, if_neg hc, if_pos hpair] using hih
  | case6 line column c d rest hc hpair ih =>
    have hih := ih found
    have hcolumn : column + 1 + found = column + found + 1 := by omega
    rw [hcolumn] at hih
    rw [extent_cons, ← add_assoc, add_ofUnit hc]
    simpa only [ofTextLoop, lastLinePairsFrom, if_neg hc, if_neg hpair] using hih

theorem ofText_lineCount (text : Str) : (ofText text).lineCount = (extent text).lineCount := by
  have h := (ofTextLoop_eq 0 0 0 text).1
  rwa [show (⟨0, 0 + 0⟩ : TextLength) = 0 from rfl, zero_add] at h

/-- `ofText` counts a surrogate pair of the last line as one column. -/
theorem ofText_columnCount (text : Str) :
    (ofText text).columnCount + lastLinePairs text = (extent text).columnCount := by
  have h := (ofTextLoop_eq 0 0 0 text).2
  rwa [show (⟨0, 0 + 0⟩ : TextLength) = 0 from rfl, zero_add] at h

theorem ofText_eq {text : Str} (h : lastLinePairs text = 0) : ofText text = extent text := by
  have hcolumn := ofText_columnCount text
  exact TextLength.ext (ofText_lineCount text) (by omega)

end NexgileIde.Text
