import Mathlib

/-!
# Line mappings of the merge editor

Mappings go from line ranges of a base to line ranges of an output. Two mappings with a
common base are aligned by joining the base ranges of both that touch.
-/

namespace NexgileIde.MergeEditor

scoped instance neZeroTwo : NeZero 2 := ⟨two_ne_zero⟩

/-- A range of lines (1-based). -/
@[ext]
structure LineRange where
  startLineNumber : ℤ
  endLineNumberExclusive : ℤ
  start_le_end : startLineNumber ≤ endLineNumberExclusive
  deriving Repr

namespace LineRange

instance : DecidableEq LineRange := fun _ _ => decidable_of_iff _ LineRange.ext_iff.symm

/-- The constructor throws when the length is negative. -/
def fromLength (startLineNumber length : ℤ) : Option LineRange :=
  if h : 0 ≤ length then
    some ⟨startLineNumber, startLineNumber + length, by omega⟩
  else none

def length (r : LineRange) : ℤ := r.endLineNumberExclusive - r.startLineNumber

def isEmpty (r : LineRange) : Bool := r.startLineNumber = r.endLineNumberExclusive

def join (r other : LineRange) : LineRange :=
  ⟨min r.startLineNumber other.startLineNumber,
    max r.endLineNumberExclusive other.endLineNumberExclusive, by
      have := r.start_le_end
      omega⟩

def delta (r : LineRange) (lineDelta : ℤ) : LineRange :=
  ⟨r.startLineNumber + lineDelta, r.endLineNumberExclusive + lineDelta, by
    have := r.start_le_end
    omega⟩

def isBefore (r range : LineRange) : Bool := range.startLineNumber ≥ r.endLineNumberExclusive

def containsRange (r range : LineRange) : Bool :=
  r.startLineNumber ≤ range.startLineNumber ∧
    range.endLineNumberExclusive ≤ r.endLineNumberExclusive

def intersectsOrTouches (r other : LineRange) : Bool :=
  r.startLineNumber ≤ other.endLineNumberExclusive ∧
    other.startLineNumber ≤ r.endLineNumberExclusive

end LineRange

/-- Represents a mapping of an input line range to an output line range. -/
structure LineRangeMapping where
  inputRange : LineRange
  outputRange : LineRange
  deriving DecidableEq, Repr

namespace LineRangeMapping

def extendInputRange (m : LineRangeMapping) (extendedInputRange : LineRange) :
    Option LineRangeMapping :=
  if !extendedInputRange.containsRange m.inputRange then none
  else
    let startDelta := extendedInputRange.startLineNumber - m.inputRange.startLineNumber
    let endDelta :=
      extendedInputRange.endLineNumberExclusive - m.inputRange.endLineNumberExclusive
    (LineRange.fromLength (m.outputRange.startLineNumber + startDelta)
      (m.outputRange.length - startDelta + endDelta)).map fun outputRange =>
        ⟨extendedInputRange, outputRange⟩

def join (m other : LineRangeMapping) : LineRangeMapping :=
  ⟨m.inputRange.join other.inputRange, m.outputRange.join other.outputRange⟩

/-- The static `join` of several mappings -/
def joinAll : List LineRangeMapping → Option LineRangeMapping
  | [] => none
  | m :: mappings => some (mappings.foldl join m)

def resultingDeltaFromOriginalToModified (m : LineRangeMapping) : ℤ :=
  m.outputRange.endLineNumberExclusive - m.inputRange.endLineNumberExclusive

end LineRangeMapping

/-- Aligns two mappings with a common input range. -/
structure MappingAlignment (T : Type) where
  inputRange : LineRange
  output1Range : LineRange
  output1LineMappings : List T
  output2Range : LineRange
  output2LineMappings : List T
  deriving DecidableEq, Repr

namespace MappingAlignment

variable {T : Type} (toMapping : T → LineRangeMapping)

/-- The variables of the loop of `compute`; the arrays have one place for each output. -/
structure State (T : Type) where
  currentDiffs : Fin 2 → List T
  deltaFromBaseToInput : Fin 2 → ℤ
  alignments : List (MappingAlignment T)
  currentInputRange : Option LineRange

def State.init : State T := ⟨fun _ => [], fun _ => 0, [], none⟩

/-- The mapping of one output over the current range. -/
def currentOutput (s : State T) (currentInputRange : LineRange) (source : Fin 2) :
    Option LineRange :=
  let mapping :=
    (LineRangeMapping.joinAll ((s.currentDiffs source).map toMapping)).getD
      ⟨currentInputRange, currentInputRange.delta (s.deltaFromBaseToInput source)⟩
  (mapping.extendInputRange currentInputRange).map LineRangeMapping.outputRange

def pushAndReset (s : State T) (currentInputRange : LineRange) : Option (State T) := do
  let output1Range ← currentOutput toMapping s currentInputRange 0
  let output2Range ← currentOutput toMapping s currentInputRange 1
  some
    { s with
      alignments := s.alignments ++
        [⟨currentInputRange, output1Range, s.currentDiffs 0, output2Range, s.currentDiffs 1⟩]
      currentDiffs := fun _ => [] }

/-- One round of the loop, for a difference and the output it belongs to. -/
def step (s : State T) (d : Fin 2 × T) : Option (State T) := do
  let range := (toMapping d.2).inputRange
  let s ← match s.currentInputRange with
    | some currentInputRange =>
      if currentInputRange.intersectsOrTouches range then some s
      else do
        let s ← pushAndReset toMapping s currentInputRange
        some { s with currentInputRange := none }
    | none => some s
  some
    { s with
      deltaFromBaseToInput := Function.update s.deltaFromBaseToInput d.1
        (toMapping d.2).resultingDeltaFromOriginalToModified
      currentInputRange := some (match s.currentInputRange with
        | some currentInputRange => currentInputRange.join range
        | none => range)
      currentDiffs := Function.update s.currentDiffs d.1 (s.currentDiffs d.1 ++ [d.2]) }

def compareByStartLineNumber (d1 d2 : Fin 2 × T) : Prop :=
  (toMapping d1.2).inputRange.startLineNumber ≤ (toMapping d2.2).inputRange.startLineNumber

instance : DecidableRel (compareByStartLineNumber toMapping) := fun _ _ => Int.decLe _ _

def combinedDiffs (fromInputToOutput1 fromInputToOutput2 : List T) : List (Fin 2 × T) :=
  (fromInputToOutput1.map (fun diff => ((0 : Fin 2), diff)) ++
    fromInputToOutput2.map fun diff => ((1 : Fin 2), diff)).insertionSort
      (compareByStartLineNumber toMapping)

def compute (fromInputToOutput1 fromInputToOutput2 : List T) :
    Option (List (MappingAlignment T)) := do
  let s ← (combinedDiffs toMapping fromInputToOutput1 fromInputToOutput2).foldlM
    (step toMapping) State.init
  match s.currentInputRange with
  | some currentInputRange => do
    let s ← pushAndReset toMapping s currentInputRange
    some s.alignments
  | none => some s.alignments

def outputRange (a : MappingAlignment T) (source : Fin 2) : LineRange :=
  if source = 0 then a.output1Range else a.output2Range

def lineMappings (a : MappingAlignment T) (source : Fin 2) : List T :=
  if source = 0 then a.output1LineMappings else a.output2LineMappings

end MappingAlignment

/-- Represents a total monotonous mapping of line ranges in one document to another document. -/
structure DocumentLineRangeMap where
  lineRangeMappings : List LineRangeMapping
  inputLineCount : ℤ
  deriving DecidableEq, Repr

namespace DocumentLineRangeMap

/-- What the constructor asserts: the space between two input ranges must equal the space
between two output ranges. -/
def Asserted (map : DocumentLineRangeMap) : Prop :=
  map.lineRangeMappings.IsChain fun m1 m2 =>
    m1.inputRange.isBefore m2.inputRange ∧ m1.outputRange.isBefore m2.outputRange ∧
      m2.inputRange.startLineNumber - m1.inputRange.endLineNumberExclusive =
        m2.outputRange.startLineNumber - m1.outputRange.endLineNumberExclusive

def betweenOutputs (inputToOutput1 inputToOutput2 : List LineRangeMapping)
    (inputLineCount : ℤ) : Option DocumentLineRangeMap :=
  (MappingAlignment.compute id inputToOutput1 inputToOutput2).map fun alignments =>
    ⟨alignments.map fun m => ⟨m.output1Range, m.output2Range⟩, inputLineCount⟩

end DocumentLineRangeMap

end NexgileIde.MergeEditor
