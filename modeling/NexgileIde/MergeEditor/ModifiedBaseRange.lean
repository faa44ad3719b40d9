import NexgileIde.MergeEditor.LineRangeMapping
import NexgileIde.Text.LineBreaks

/-!
# Modified base ranges and line edits

A modified base range holds what both inputs did to a range of the base. The edit for a
state of the range replaces whole lines; for the editor it becomes a range of positions,
which at the end of a document has to borrow the line break before it.
-/

namespace NexgileIde.MergeEditor

open Text

def MAX_SAFE_INTEGER : ℤ := 2 ^ 53 - 1

/-- The lines of a text model: one at least, without line breaks, and as long as strings can
be. -/
structure TextModel where
  lines : List Str
  lines_ne_nil : lines ≠ []
  no_break : ∀ l ∈ lines, ∀ c ∈ l, c ≠ CarriageReturn ∧ c ≠ LineFeed
  short : ∀ l ∈ lines, (l.length : ℤ) < MAX_SAFE_INTEGER

namespace TextModel

def getLineCount (model : TextModel) : ℤ := model.lines.length

/-- An illegal line number throws. -/
def getLineContent (model : TextModel) (lineNumber : ℤ) : Option Str :=
  if lineNumber < 1 then none else model.lines[(lineNumber - 1).toNat]?

end TextModel

def LineRange.getLines (r : LineRange) (model : TextModel) : Option (List Str) :=
  (List.range r.length.toNat).mapM fun (i : ℕ) => model.getLineContent (r.startLineNumber + i)

/-- Represents an edit, expressed in whole lines. -/
structure LineRangeEdit where
  range : LineRange
  newLines : List Str
  deriving DecidableEq, Repr

/-- A line range mapping with its text models. -/
structure DetailedLineRangeMapping extends LineRangeMapping where
  inputTextModel : TextModel
  outputTextModel : TextModel

namespace DetailedLineRangeMapping

def join (m other : DetailedLineRangeMapping) : DetailedLineRangeMapping :=
  { m with toLineRangeMapping := m.toLineRangeMapping.join other.toLineRangeMapping }

/-- The static `join` of several mappings -/
def joinAll : List DetailedLineRangeMapping → Option DetailedLineRangeMapping
  | [] => none
  | m :: mappings => some (mappings.foldl join m)

def getLineEdit (m : DetailedLineRangeMapping) : Option LineRangeEdit :=
  (m.outputRange.getLines m.outputTextModel).map fun newLines => ⟨m.inputRange, newLines⟩

end DetailedLineRangeMapping

/-- `equals(one, other, itemEquals)` of two arrays, where comparing two items may throw -/
def arrayEquals {α : Type} (itemEquals : α → α → Option Bool) (one other : List α) :
    Option Bool :=
  if one.length ≠ other.length then some false
  else (one.zip other).foldlM (fun equal p => if equal then itemEquals p.1 p.2 else some false) true

inductive InputNumber
  | one
  | two
  deriving DecidableEq, Repr

inductive ModifiedBaseRangeState
  | base
  | input1
  | input2
  | both (firstInput : InputNumber) (smartCombination : Bool)
  | unrecognized
  deriving DecidableEq, Repr

namespace ModifiedBaseRangeState

def includesInput1 : ModifiedBaseRangeState → Bool
  | input1 | both _ _ => true
  | _ => false

def includesInput2 : ModifiedBaseRangeState → Bool
  | input2 | both _ _ => true
  | _ => false

/-- `base.withInputValue(inputNumber, true, false)` -/
def baseWithInput : InputNumber → ModifiedBaseRangeState
  | .one => input1
  | .two => input2

end ModifiedBaseRangeState

structure ModifiedBaseRange where
  baseRange : LineRange
  baseTextModel : TextModel
  input1Range : LineRange
  input1TextModel : TextModel
  input1Diffs : List DetailedLineRangeMapping
  input2Range : LineRange
  input2TextModel : TextModel
  input2Diffs : List DetailedLineRangeMapping
  input1CombinedDiff : Option DetailedLineRangeMapping
  input2CombinedDiff : Option DetailedLineRangeMapping
  isEqualChange : Bool

namespace ModifiedBaseRange

def equalEdits (m other : DetailedLineRangeMapping) : Option Bool := do
  let edit ← m.getLineEdit
  let otherEdit ← other.getLineEdit
  some (edit = otherEdit)

/-- The constructor, for an alignment -/
def new (a : MappingAlignment DetailedLineRangeMapping)
    (baseTextModel input1TextModel input2TextModel : TextModel) : Option ModifiedBaseRange :=
  (arrayEquals equalEdits a.output1LineMappings a.output2LineMappings).bind fun isEqualChange =>
    if a.output1LineMappings.isEmpty && a.output2LineMappings.isEmpty then none
    else some
      { baseRange := a.inputRange
        baseTextModel := baseTextModel
        input1Range := a.output1Range
        input1TextModel := input1TextModel
        input1Diffs := a.output1LineMappings
        input2Range := a.output2Range
        input2TextModel := input2TextModel
        input2Diffs := a.output2LineMappings
        input1CombinedDiff := DetailedLineRangeMapping.joinAll a.output1LineMappings
        input2CombinedDiff := DetailedLineRangeMapping.joinAll a.output2LineMappings
        isEqualChange := isEqualChange }

def fromDiffs (diffs1 diffs2 : List DetailedLineRangeMapping)
    (baseTextModel input1TextModel input2TextModel : TextModel) :
    Option (List ModifiedBaseRange) := do
  let alignments ← MappingAlignment.compute
    DetailedLineRangeMapping.toLineRangeMapping diffs1 diffs2
  alignments.mapM fun a => new a baseTextModel input1TextModel input2TextModel

/-- The differences that a state takes. -/
def includedDiffs (r : ModifiedBaseRange) (state : ModifiedBaseRangeState) :
    List (DetailedLineRangeMapping × InputNumber) :=
  (if state.includesInput1 then (r.input1CombinedDiff.map fun d => (d, .one)).toList else []) ++
    if state.includesInput2 then (r.input2CombinedDiff.map fun d => (d, .two)).toList else []

/-- `combineInputs` is the smart or dumb combination for the first input; only a state with
both inputs comes to it. -/
def getEditForBase
    (combineInputs : ModifiedBaseRange → Bool → InputNumber → Option (Option LineRangeEdit))
    (r : ModifiedBaseRange) (state : ModifiedBaseRangeState) :
    Option (Option LineRangeEdit × ModifiedBaseRangeState) :=
  match r.includedDiffs state with
  | [] => some (none, .base)
  | [(diff, inputNumber)] => do
    let edit ← diff.getLineEdit
    some (some edit, .baseWithInput inputNumber)
  | (diff1, _) :: (diff2, _) :: _ =>
    match state with
    | .both firstInput smartCombination => do
      match ← combineInputs r smartCombination firstInput with
      | some edit => some (some edit, state)
      | none =>
        let otherInput := if firstInput = .one then InputNumber.two else .one
        let edit ← (if otherInput = .one then diff1 else diff2).getLineEdit
        some (some edit, .baseWithInput otherInput)
    | _ => none

end ModifiedBaseRange

structure Position where
  lineNumber : ℤ
  column : ℤ
  deriving DecidableEq, Repr

def Position.isBeforeOrEqual (a b : Position) : Bool :=
  a.lineNumber < b.lineNumber || a.lineNumber = b.lineNumber && a.column ≤ b.column

structure Range where
  startPosition : Position
  endPosition : Position
  deriving DecidableEq, Repr

/-- The constructor puts the earlier position first. -/
def Range.new (startLineNumber startColumn endLineNumber endColumn : ℤ) : Range :=
  if startLineNumber > endLineNumber ∨
      startLineNumber = endLineNumber ∧ startColumn > endColumn then
    ⟨⟨endLineNumber, endColumn⟩, ⟨startLineNumber, startColumn⟩⟩
  else ⟨⟨startLineNumber, startColumn⟩, ⟨endLineNumber, endColumn⟩⟩

structure SingleEditOperation where
  range : Range
  text : Str
  deriving DecidableEq, Repr

/-- `newLines.join('\n')` -/
def joinLines (lines : List Str) : Str := [LineFeed].intercalate lines

/-- `LineEdits.toEdits`, for one edit -/
def LineRangeEdit.toEdit (modelLineCount : ℤ) (e : LineRangeEdit) : SingleEditOperation :=
  if e.range.endLineNumberExclusive ≤ modelLineCount then
    ⟨.new e.range.startLineNumber 1 e.range.endLineNumberExclusive 1,
      e.newLines.flatMap (· ++ [LineFeed])⟩
  else if e.range.startLineNumber = 1 then
    ⟨.new 1 1 modelLineCount MAX_SAFE_INTEGER, joinLines e.newLines⟩
  else
    ⟨.new (e.range.startLineNumber - 1) MAX_SAFE_INTEGER modelLineCount MAX_SAFE_INTEGER,
      e.newLines.flatMap (LineFeed :: ·)⟩

def LineEdits.toEdits (edits : List LineRangeEdit) (modelLineCount : ℤ) :
    List SingleEditOperation :=
  edits.map (LineRangeEdit.toEdit modelLineCount)

end NexgileIde.MergeEditor
