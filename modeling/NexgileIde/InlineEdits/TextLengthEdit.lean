import NexgileIde.BracketPairs.CombineTextEditInfos
import NexgileIde.Edits.TextEdit

/-!
# Length edits

A length edit has the ranges of a text edit and the lengths of its texts. Two of them are
composed along mappings of lengths, from the first text to the second one and from there to the
third one. No replacement of the second edit is lost, however short it is.
-/
namespace NexgileIde.InlineEdits

open Text Edits BracketPairs

/-- The range between two lengths -/
def lengthsToRange (lengthStart lengthEnd : Length) : Range :=
  let lineCount := lengthStart / factor
  let colCount := lengthStart - lineCount * factor
  let lineCount2 := lengthEnd / factor
  let colCount2 := lengthEnd - lineCount2 * factor
  .new (lineCount + 1) (colCount + 1) (lineCount2 + 1) (colCount2 + 1)

theorem pushEdit_ne_nil (result : List TextEditInfo) (startOffset endOffset newLength : Length) :
    pushEdit result startOffset endOffset newLength ≠ [] := by
  unfold pushEdit
  split
  · split_ifs <;> simp
  · simp

theorem foldl_copyItem_ne_nil (mappings : List LengthMapping) {s : CombineState}
    (h : s.result ≠ []) : (mappings.foldl copyItem s).result ≠ [] := by
  induction mappings generalizing s with
  | nil => exact h
  | cons s1 mappings ih =>
    apply ih
    unfold copyItem
    simp only
    split_ifs
    · exact pushEdit_ne_nil _ _ _ _
    · exact h

/-- A modified part of the second edits stands in the result, and what stands there stays. -/
theorem combineItem_ne_nil {s : CombineState} {s1ToS2 : S1ToS2}
    (h : s.result ≠ [] ∨ ∃ lengthBefore lengthAfter,
      s1ToS2 = .copyOrEdit ⟨true, lengthBefore, lengthAfter⟩) :
    (combineItem s s1ToS2).result ≠ [] := by
  unfold combineItem
  simp only
  split
  · exact pushEdit_ne_nil _ _ _ _
  · rename_i hkeep
    apply foldl_copyItem_ne_nil
    rcases h with h | ⟨lengthBefore, lengthAfter, rfl⟩
    · exact h
    · exact absurd rfl (hkeep lengthBefore lengthAfter)

theorem foldl_combineItem_ne_nil (items : List S1ToS2) {s : CombineState}
    (h : s.result ≠ [] ∨ ∃ lengthBefore lengthAfter,
      .copyOrEdit ⟨true, lengthBefore, lengthAfter⟩ ∈ items) :
    (items.foldl combineItem s).result ≠ [] := by
  induction items generalizing s with
  | nil => simpa using h
  | cons item items ih =>
    apply ih
    rcases h with h | ⟨lengthBefore, lengthAfter, hmem⟩
    · exact .inl (combineItem_ne_nil (.inl h))
    · rcases List.mem_cons.1 hmem with rfl | hmem
      · exact .inl (combineItem_ne_nil (.inr ⟨lengthBefore, lengthAfter, rfl⟩))
      · exact .inr ⟨lengthBefore, lengthAfter, hmem⟩

/-- Combined edits are as little empty as the single ones. -/
theorem combineTextEditInfos_ne_nil {first second : List TextEditInfo} (h : first ≠ []) :
    combineTextEditInfos first second ≠ [] := by
  unfold combineTextEditInfos
  rw [if_neg (by simpa using h)]
  split_ifs with hsecond
  · exact h
  · obtain ⟨info, rest, rfl⟩ := List.exists_cons_of_ne_nil (by simpa using hsecond)
    apply foldl_combineItem_ne_nil
    refine .inr ⟨lengthDiffNonNegative info.startOffset info.endOffset, info.newLength, ?_⟩
    unfold toLengthMapping toLengthMappingFrom
    simp

structure SingleTextEditLength where
  range : Range
  newLength : TextLength
deriving DecidableEq, Repr

structure TextLengthEdit where
  edits : List SingleTextEditLength
deriving DecidableEq, Repr

namespace TextLengthEdit

def empty : TextLengthEdit := ⟨[]⟩

def fromTextEdit (textEdit : TextEdit) : TextLengthEdit :=
  ⟨textEdit.replacements.map fun e => ⟨e.range, TextLength.ofText e.text⟩⟩

def fromTextEditInfo (info : List TextEditInfo) : TextLengthEdit :=
  ⟨info.map fun e => 
    let newLen := lengthToObj e.newLength
    ⟨lengthsToRange e.startOffset e.endOffset, ⟨newLen.lineCount.toNat, newLen.columnCount.toNat⟩⟩⟩

def toTextEditInfo (e : TextLengthEdit) : List TextEditInfo :=
  e.edits.map fun e => ⟨toLength (e.range.startLineNumber - 1) (e.range.startColumn - 1),
    toLength (e.range.endLineNumber - 1) (e.range.endColumn - 1),
    toLength e.newLength.lineCount e.newLength.columnCount⟩

def compose (e other : TextLengthEdit) : TextLengthEdit :=
  fromTextEditInfo (combineTextEditInfos e.toTextEditInfo other.toTextEditInfo)

/-- The range of the edit, or none if the edit is empty. -/
def getRange (e : TextLengthEdit) : Option Range := do
  let first ← e.edits.head?
  let last ← e.edits.getLast?
  return .fromPositions first.range.getStartPosition last.range.getEndPosition

theorem compose_ne_nil {e : TextLengthEdit} (h : e.edits ≠ []) (other : TextLengthEdit) :
    (e.compose other).edits ≠ [] := by
  have hinfo : e.toTextEditInfo ≠ [] := by simpa [toTextEditInfo] using h
  simpa [compose, fromTextEditInfo] using combineTextEditInfos_ne_nil hinfo

theorem exists_getRange {e : TextLengthEdit} (h : e.edits ≠ []) : ∃ r, e.getRange = some r := by
  unfold getRange
  rw [List.head?_eq_some_head h, List.getLast?_eq_some_getLast h]
  exact ⟨_, rfl⟩

end TextLengthEdit
end NexgileIde.InlineEdits
