import NexgileIde.Library.Runs
import NexgileIde.Edits.LineEditText
import NexgileIde.MergeEditor.AcceptInput

/-!
# The working copy of streamed edits

A reply is streamed line by line into a document. The working copy keeps the lines, and every
call emits a text edit for the editor, whose positions are zero based. An edit borrows a line
break behind its lines, or relies on the editor to clamp a position to the document.
-/
namespace NexgileIde.Edits.Streaming

open Text (Str LineFeed CarriageReturn splitLines)
open MergeEditor (joinLines)
open Library (AtEachStep Throughout atEachStep_nil atEachStep_cons)

/-! ## Text edits and the editor -/

structure Position where
  line : ℕ
  character : ℕ
deriving Repr, DecidableEq

def Position.isBefore (a b : Position) : Bool :=
  a.line < b.line || (a.line == b.line && a.character < b.character)

structure Range where
  start : Position
  stop : Position
deriving Repr, DecidableEq

/-- The constructor puts the positions in order. -/
def Range.new (startLine startCharacter endLine endCharacter : ℕ) : Range :=
  let start : Position := ⟨startLine, startCharacter⟩
  let stop : Position := ⟨endLine, endCharacter⟩
  if start.isBefore stop then ⟨start, stop⟩ else ⟨stop, start⟩

structure TextEdit where
  range : Range
  newText : Str
deriving Repr, DecidableEq

def MAX_SAFE_INTEGER : ℕ := 2 ^ 53 - 1

def MAX_SAFE_SMALL_INTEGER : ℕ := 1 <<< 30

/-- `_validatePosition` -/
def validatePosition (lines : List Str) (position : Position) : Position :=
  if lines.length = 0 then ⟨0, 0⟩
  else if lines.length ≤ position.line then
    ⟨lines.length - 1, (lines[lines.length - 1]?.getD []).length⟩
  else
    let maxCharacter := (lines[position.line]?.getD []).length
    if maxCharacter < position.character then ⟨position.line, maxCharacter⟩ else position

/-- `_offsetAt`, with the prefix sum of the lengths of the lines and their line feeds -/
def offsetAt (lines : List Str) (position : Position) : ℕ :=
  let position := validatePosition lines position
  ((lines.take position.line).map fun line => line.length + 1).sum + position.character

/-- What the editor does with a text edit. -/
def applyTextEdit (text : Str) (edit : TextEdit) : Str :=
  let lines := splitLines text
  text.take (offsetAt lines edit.range.start) ++ edit.newText ++
    text.drop (offsetAt lines edit.range.stop)

def applyTextEdits (text : Str) (edits : List TextEdit) : Str := edits.foldl applyTextEdit text

/-! ## The working copy -/

def NoBreak (line : Str) : Prop := LineFeed ∉ line ∧ CarriageReturn ∉ line

instance (line : Str) : Decidable (NoBreak line) := inferInstanceAs (Decidable (_ ∧ _))

/-- A line of the reply, with the indentation of the document; of its fields only this one is
written. -/
structure ReplyLine where
  adjustedContent : Str
  no_break : NoBreak adjustedContent

inductive SentInCodeBlock
  | None
  | Above
  | Range
  | Below
  | Other
deriving Repr, DecidableEq

structure DocumentLine where
  content : Str
  no_break : NoBreak content
  sentInCodeBlock : SentInCodeBlock

def DocumentLine.new (line : ReplyLine) : DocumentLine :=
  ⟨line.adjustedContent, line.no_break, .None⟩

def DocumentLine.markSent (line : DocumentLine) (sentInCodeBlock : SentInCodeBlock) :
    DocumentLine :=
  { line with sentInCodeBlock := sentInCodeBlock }

structure SentLine where
  lineIndex : ℕ
  sentInCodeBlock : SentInCodeBlock

structure StreamingWorkingCopyDocument where
  lines : List DocumentLine
  firstSentLineIndex : ℕ
  didNoopEdits : Bool
  didEdits : Bool
  didReplaceEdits : Bool
  additionalImports : List Str
  outputStream : List TextEdit

theorem noBreak_of_mem_splitLines {text line : Str} (h : line ∈ splitLines text) :
    NoBreak line := by
  induction text generalizing line with
  | nil =>
    rw [splitLines, List.mem_singleton] at h
    rw [h]
    decide
  | cons c text ih =>
    rw [Text.splitLines_cons] at h
    split_ifs at h with hend hreturn
    · rcases List.mem_cons.1 h with rfl | h
      · decide
      · exact ih h
    · exact ih h
    · have hfeed : LineFeed ≠ c := by
        rintro rfl
        exact hend (Text.isLineEnd_lineFeed text)
      obtain ⟨first, rest, hlines⟩ := List.exists_cons_of_ne_nil (splitLines_ne_nil text)
      rw [hlines, List.modifyHead_cons] at h
      rw [hlines] at ih
      rcases List.mem_cons.1 h with rfl | h
      · have hfirst := ih List.mem_cons_self
        exact ⟨fun hmem => (List.mem_cons.1 hmem).elim hfeed hfirst.1,
          fun hmem => (List.mem_cons.1 hmem).elim (fun h => hreturn h.symm) hfirst.2⟩
      · exact ih (List.mem_cons_of_mem first h)

/-- The lines of the source, none of them sent yet. -/
def originalLines (sourceCode : Str) : List DocumentLine :=
  (splitLines sourceCode).attach.map fun line =>
    ⟨line.1, noBreak_of_mem_splitLines line.2, .None⟩

namespace StreamingWorkingCopyDocument

/-- The constructor; a sent line that is none of the document throws. -/
def new (sourceCode : Str) (sentLines : List SentLine) (selectionStartLineIndex : ℕ) :
    Option StreamingWorkingCopyDocument := do
  let (lines, firstSentLineIndex) ← sentLines.foldlM (fun (lines, firstSentLineIndex) sentLine =>
    if sentLine.lineIndex < lines.length then
      some (lines.modify sentLine.lineIndex (·.markSent sentLine.sentInCodeBlock),
        min firstSentLineIndex sentLine.lineIndex)
    else none) (originalLines sourceCode, MAX_SAFE_INTEGER)
  return ⟨lines, min firstSentLineIndex selectionStartLineIndex, false, false, false, [], []⟩

variable (doc : StreamingWorkingCopyDocument)

def getText : Str := joinLines (doc.lines.map (·.content))

def getLineCount : ℕ := doc.lines.length

def getLine (index : ℕ) : Option DocumentLine := doc.lines[index]?

/-- `this.lines.splice(start, deleteCount, ...items)` -/
def splice (start deleteCount : ℕ) (items : List DocumentLine) : List DocumentLine :=
  doc.lines.take start ++ items ++ doc.lines.drop (start + deleteCount)

/-- The document and the index behind the line; an index of no line throws. -/
def replaceLine (index : ℕ) (line : ReplyLine) (isPreserving : Bool) :
    Option (StreamingWorkingCopyDocument × ℕ) := do
  let existing ← doc.lines[index]?
  if existing.content = line.adjustedContent then
    return ({ doc with didNoopEdits := true }, index + 1)
  return ({ doc with
    lines := doc.lines.set index (.new line)
    outputStream := doc.outputStream ++
      [⟨.new index 0 index MAX_SAFE_SMALL_INTEGER, line.adjustedContent⟩]
    didEdits := true
    didReplaceEdits := doc.didReplaceEdits || !isPreserving }, index + 1)

def replaceLines (fromIndex toIndex : ℕ) (line : ReplyLine) :
    Option (StreamingWorkingCopyDocument × ℕ) :=
  if fromIndex > toIndex then none
  else if fromIndex = toIndex then doc.replaceLine fromIndex line false
  else some ({ doc with
    lines := doc.splice fromIndex (toIndex - fromIndex + 1) [.new line]
    outputStream := doc.outputStream ++
      [⟨.new fromIndex 0 toIndex MAX_SAFE_SMALL_INTEGER, line.adjustedContent⟩]
    didEdits := true
    didReplaceEdits := true }, fromIndex + 1)

/-- The position of the edit is behind the last line the editor has. -/
def appendLineAtEndOfDocument (line : ReplyLine) : StreamingWorkingCopyDocument × ℕ :=
  let lines := doc.lines ++ [.new line]
  ({ doc with
    lines
    outputStream := doc.outputStream ++ [⟨.new (lines.length - 1) MAX_SAFE_SMALL_INTEGER
      (lines.length - 1) MAX_SAFE_SMALL_INTEGER, LineFeed :: line.adjustedContent⟩]
    didEdits := true }, lines.length)

def insertLineAfter (index : ℕ) (line : ReplyLine) : StreamingWorkingCopyDocument × ℕ :=
  ({ doc with
    lines := doc.splice (index + 1) 0 [.new line]
    outputStream := doc.outputStream ++ [⟨.new index MAX_SAFE_SMALL_INTEGER
      index MAX_SAFE_SMALL_INTEGER, LineFeed :: line.adjustedContent⟩]
    didEdits := true }, index + 2)

def insertLineBefore (index : ℕ) (line : ReplyLine) : StreamingWorkingCopyDocument × ℕ :=
  if index = doc.lines.length then
    -- there is no line to insert in front of
    doc.insertLineAfter (index - 1) line
  else
    ({ doc with
      lines := doc.splice index 0 [.new line]
      outputStream := doc.outputStream ++
        [⟨.new index 0 index 0, line.adjustedContent ++ [LineFeed]⟩]
      didEdits := true }, index + 1)

/-- The edit ends at the beginning of the line behind, also where there is none. -/
def deleteLines (fromIndex toIndex : ℕ) : StreamingWorkingCopyDocument × ℕ :=
  ({ doc with
    lines := doc.splice fromIndex (toIndex + 1 - fromIndex) []
    outputStream := doc.outputStream ++ [⟨.new fromIndex 0 (toIndex + 1) 0, []⟩]
    didEdits := true
    didReplaceEdits := true }, fromIndex + 1)

end StreamingWorkingCopyDocument

inductive Call
  | replaceLine (index : ℕ) (line : ReplyLine) (isPreserving : Bool)
  | replaceLines (fromIndex toIndex : ℕ) (line : ReplyLine)
  | appendLineAtEndOfDocument (line : ReplyLine)
  | insertLineAfter (index : ℕ) (line : ReplyLine)
  | insertLineBefore (index : ℕ) (line : ReplyLine)
  | deleteLines (fromIndex toIndex : ℕ)

open StreamingWorkingCopyDocument

/-- A call that throws leaves the document as it is. -/
def Call.perform (doc : StreamingWorkingCopyDocument) : Call → StreamingWorkingCopyDocument
  | replaceLine index line isPreserving =>
    ((doc.replaceLine index line isPreserving).map Prod.fst).getD doc
  | replaceLines fromIndex toIndex line =>
    ((doc.replaceLines fromIndex toIndex line).map Prod.fst).getD doc
  | appendLineAtEndOfDocument line => (doc.appendLineAtEndOfDocument line).1
  | insertLineAfter index line => (doc.insertLineAfter index line).1
  | insertLineBefore index line => (doc.insertLineBefore index line).1
  | deleteLines fromIndex toIndex => (doc.deleteLines fromIndex toIndex).1

/-! ## Text edits on lines -/

variable {ls : List Str} {i j : ℕ}

theorem textBefore_succ (hi : i < ls.length) :
    textBefore ls (i + 1) = textBefore ls i ++ ls[i] ++ [LineFeed] := by
  rw [textBefore, List.take_succ_eq_append_getElem hi, List.flatMap_append, List.flatMap_singleton,
    ← List.append_assoc, textBefore]

theorem textBehind_pred (hi : i < ls.length) :
    textBehind ls i = LineFeed :: (ls[i] ++ textBehind ls (i + 1)) := by
  rw [textBehind, List.drop_eq_getElem_cons hi, List.flatMap_cons, List.cons_append, textBehind]

theorem joinLines_cut (hi : i < ls.length) :
    joinLines ls = textBefore ls i ++ ls[i] ++ textBehind ls (i + 1) := by
  rw [← textBefore_append hi, List.drop_eq_getElem_cons hi, joinLines_cons, List.append_assoc,
    textBehind]

theorem length_textBefore (ls : List Str) (i : ℕ) :
    (textBefore ls i).length = ((ls.take i).map fun line => line.length + 1).sum := by
  rw [textBefore, List.length_flatMap]
  simp

/-- Lines of which some are replaced by one. -/
theorem joinLines_replaced (ls : List Str) (i j : ℕ) (line : Str) :
    joinLines (ls.take i ++ line :: ls.drop j) = textBefore ls i ++ line ++ textBehind ls j := by
  rw [joinLines_append_left _ (List.cons_ne_nil _ _), joinLines_cons, ← List.append_assoc,
    textBefore, textBehind]

/-- A position on a line. -/
def Resolves (ls : List Str) (position : Position) (i k : ℕ) : Prop :=
  ∃ hi : i < ls.length, k ≤ ls[i].length ∧ validatePosition ls position = ⟨i, k⟩

theorem resolves_lineStart (hi : i < ls.length) : Resolves ls ⟨i, 0⟩ i 0 := by
  refine ⟨hi, Nat.zero_le _, ?_⟩
  unfold validatePosition
  rw [if_neg (by omega), if_neg (by dsimp only; omega)]
  exact if_neg (Nat.not_lt_zero _)

theorem resolves_lineEnd (hi : i < ls.length) :
    Resolves ls ⟨i, MAX_SAFE_SMALL_INTEGER⟩ i (min ls[i].length MAX_SAFE_SMALL_INTEGER) := by
  refine ⟨hi, min_le_left _ _, ?_⟩
  unfold validatePosition
  rw [if_neg (by omega), if_neg (by dsimp only; omega)]
  dsimp only
  rw [List.getElem?_eq_getElem hi, Option.getD_some]
  split_ifs with h
  · rw [min_eq_left h.le]
  · rw [min_eq_right (not_lt.1 h)]

theorem resolves_behind (hne : ls ≠ []) {position : Position}
    (hline : ls.length ≤ position.line) :
    Resolves ls position (ls.length - 1) ((ls[ls.length - 1]?.getD []).length) := by
  have hpos := List.length_pos_of_ne_nil hne
  refine ⟨by omega, ?_, ?_⟩
  · rw [List.getElem?_eq_getElem (by omega), Option.getD_some]
  · unfold validatePosition
    rw [if_neg (by omega), if_pos hline]

theorem Resolves.take {position : Position} {k : ℕ} (h : Resolves ls position i k) :
    ∃ hi : i < ls.length, (joinLines ls).take (offsetAt ls position) =
      textBefore ls i ++ ls[i].take k := by
  obtain ⟨hi, hk, hposition⟩ := h
  refine ⟨hi, ?_⟩
  unfold offsetAt
  rw [hposition, joinLines_cut hi]
  dsimp only
  rw [← length_textBefore, List.append_assoc, List.take_length_add_append,
    List.take_append_of_le_length hk]

theorem Resolves.drop {position : Position} {k : ℕ} (h : Resolves ls position i k) :
    ∃ hi : i < ls.length, (joinLines ls).drop (offsetAt ls position) =
      ls[i].drop k ++ textBehind ls (i + 1) := by
  obtain ⟨hi, hk, hposition⟩ := h
  refine ⟨hi, ?_⟩
  unfold offsetAt
  rw [hposition, joinLines_cut hi]
  dsimp only
  rw [← length_textBefore, List.append_assoc, List.drop_length_add_append,
    List.drop_append_of_le_length hk]

/-- The lines of a document have no line breaks, so that the editor has the same lines. -/
theorem splitLines_text (hne : ls ≠ []) (hplain : Plain ls) : splitLines (joinLines ls) = ls := by
  refine MergeEditor.splitLines_joinLines hne fun line hline c hc => ⟨?_, ?_⟩
  · rintro rfl
    exact (hplain line hline).2 hc
  · rintro rfl
    exact (hplain line hline).1 hc

theorem applyTextEdit_joinLines (hne : ls ≠ []) (hplain : Plain ls) {edit : TextEdit} {k m : ℕ}
    (hstart : Resolves ls edit.range.start i k) (hstop : Resolves ls edit.range.stop j m) :
    ∃ (hi : i < ls.length) (hj : j < ls.length), applyTextEdit (joinLines ls) edit =
      textBefore ls i ++ ls[i].take k ++ edit.newText ++
        (ls[j].drop m ++ textBehind ls (j + 1)) := by
  obtain ⟨hi, htake⟩ := hstart.take
  obtain ⟨hj, hdrop⟩ := hstop.drop
  refine ⟨hi, hj, ?_⟩
  unfold applyTextEdit
  dsimp only
  rw [splitLines_text hne hplain, htake, hdrop]

theorem Range.new_of_le {l c l' c' : ℕ} (h : l < l' ∨ l = l' ∧ c ≤ c') :
    Range.new l c l' c' = ⟨⟨l, c⟩, ⟨l', c'⟩⟩ := by
  unfold Range.new Position.isBefore
  dsimp only
  split_ifs with hbefore
  · rfl
  · simp only [Bool.or_eq_true, decide_eq_true_eq, Bool.and_eq_true, beq_iff_eq, not_or,
      not_and, not_lt] at hbefore
    have hline : l = l' := by omega
    have hcharacter : c = c' := by omega
    rw [hline, hcharacter]

theorem Range.new_swap {l c l' c' : ℕ} (h : l' < l) :
    Range.new l c l' c' = ⟨⟨l', c'⟩, ⟨l, c⟩⟩ := by
  unfold Range.new Position.isBefore
  refine if_neg ?_
  simp only [Bool.or_eq_true, decide_eq_true_eq, Bool.and_eq_true, beq_iff_eq, not_or, not_and]
  omega

theorem drop_min_eq_nil {line : Str} {n : ℕ} : line.drop (min line.length n) = [] ↔
    line.length ≤ n := by
  rw [List.drop_eq_nil_iff]
  omega

section Emitted

variable (hne : ls ≠ []) (hplain : Plain ls)
include hne hplain

/-- Whole lines are replaced unless the last one is longer than the end of the range. -/
theorem applyTextEdit_replaced (hij : i ≤ j) (hj : j < ls.length) (line : Str) :
    applyTextEdit (joinLines ls) ⟨.new i 0 j MAX_SAFE_SMALL_INTEGER, line⟩ =
        joinLines (ls.take i ++ line :: ls.drop (j + 1)) ↔
      ls[j].length ≤ MAX_SAFE_SMALL_INTEGER := by
  rw [Range.new_of_le (by omega)]
  obtain ⟨hi, _, happly⟩ := @applyTextEdit_joinLines ls i j hne hplain
    ⟨⟨⟨i, 0⟩, ⟨j, MAX_SAFE_SMALL_INTEGER⟩⟩, line⟩ _ _ (resolves_lineStart (by omega))
    (resolves_lineEnd hj)
  rw [happly, joinLines_replaced, List.take_zero, List.append_nil, List.append_cancel_left_eq,
    List.append_left_eq_self, drop_min_eq_nil]

theorem applyTextEdit_insertedAfter (hi : i < ls.length) (line : Str) :
    applyTextEdit (joinLines ls) ⟨.new i MAX_SAFE_SMALL_INTEGER i MAX_SAFE_SMALL_INTEGER,
        LineFeed :: line⟩ = joinLines (ls.take (i + 1) ++ line :: ls.drop (i + 1)) ↔
      ls[i].length ≤ MAX_SAFE_SMALL_INTEGER := by
  rw [Range.new_of_le (by omega)]
  obtain ⟨_, _, happly⟩ := @applyTextEdit_joinLines ls i i hne hplain
    ⟨⟨⟨i, MAX_SAFE_SMALL_INTEGER⟩, ⟨i, MAX_SAFE_SMALL_INTEGER⟩⟩, LineFeed :: line⟩ _ _
    (resolves_lineEnd hi) (resolves_lineEnd hi)
  rw [happly, joinLines_replaced, textBefore_succ hi]
  constructor
  · intro h
    by_contra hlong
    have hfeed : (LineFeed :: line ++ (ls[i].drop (min ls[i].length MAX_SAFE_SMALL_INTEGER) ++
        textBehind ls (i + 1))) = ls[i].drop (min ls[i].length MAX_SAFE_SMALL_INTEGER) ++
          ([LineFeed] ++ line ++ textBehind ls (i + 1)) := by
      rw [List.append_assoc, List.append_assoc, List.append_assoc, List.append_assoc,
        List.append_assoc, List.append_cancel_left_eq] at h
      conv_rhs at h => rw [← List.take_append_drop (min ls[i].length MAX_SAFE_SMALL_INTEGER) ls[i]]
      rw [List.append_assoc, List.append_cancel_left_eq] at h
      simpa using h
    -- the line would go on with a line feed
    obtain ⟨c, rest, hrest⟩ := List.exists_cons_of_ne_nil
      (fun hnil => hlong (drop_min_eq_nil.1 hnil))
    rw [hrest, List.cons_append, List.cons_append] at hfeed
    have hmem : c ∈ ls[i] := List.mem_of_mem_drop (hrest ▸ List.mem_cons_self)
    rw [← (List.cons.inj hfeed).1] at hmem
    exact (hplain _ (List.getElem_mem hi)).1 hmem
  · intro hshort
    rw [min_eq_left hshort, List.take_length, List.drop_length]
    simp

theorem applyTextEdit_insertedBefore (hi : i < ls.length) (line : Str) :
    applyTextEdit (joinLines ls) ⟨.new i 0 i 0, line ++ [LineFeed]⟩ =
      joinLines (ls.take i ++ line :: ls.drop i) := by
  rw [Range.new_of_le (by omega)]
  obtain ⟨_, _, happly⟩ := @applyTextEdit_joinLines ls i i hne hplain
    ⟨⟨⟨i, 0⟩, ⟨i, 0⟩⟩, line ++ [LineFeed]⟩ _ _ (resolves_lineStart hi) (resolves_lineStart hi)
  rw [happly, joinLines_replaced, textBehind_pred hi]
  simp

theorem applyTextEdit_appended (line : Str) :
    applyTextEdit (joinLines ls) ⟨.new ls.length MAX_SAFE_SMALL_INTEGER ls.length
        MAX_SAFE_SMALL_INTEGER, LineFeed :: line⟩ = joinLines (ls ++ [line]) := by
  rw [Range.new_of_le (by omega)]
  obtain ⟨hi, _, happly⟩ := @applyTextEdit_joinLines ls _ _ hne hplain
    ⟨⟨⟨ls.length, MAX_SAFE_SMALL_INTEGER⟩, ⟨ls.length, MAX_SAFE_SMALL_INTEGER⟩⟩,
      LineFeed :: line⟩ _ _ (resolves_behind hne le_rfl) (resolves_behind hne le_rfl)
  have hlast : textBehind ls (ls.length - 1 + 1) = [] := by
    rw [textBehind, List.drop_of_length_le (by omega)]
    rfl
  rw [happly, hlast, List.getElem?_eq_getElem hi, Option.getD_some, List.take_length,
    List.drop_length, joinLines_append_right hne, joinLines_cut hi, hlast]
  simp

/-- Lines are deleted unless the last one is among them or the indices are the wrong way round. -/
theorem applyTextEdit_deleted (hi : i < ls.length) (hj : j < ls.length)
    (hleft : ¬ (i = 0 ∧ j + 1 = ls.length)) :
    applyTextEdit (joinLines ls) ⟨.new i 0 (j + 1) 0, []⟩ =
        joinLines (ls.take i ++ ls.drop (i + (j + 1 - i))) ↔
      i ≤ j + 1 ∧ j + 1 < ls.length := by
  rcases lt_or_ge (j + 1) i with hji | hij
  · rw [Range.new_swap hji]
    obtain ⟨_, _, happly⟩ := @applyTextEdit_joinLines ls (j + 1) i hne hplain
      ⟨⟨⟨j + 1, 0⟩, ⟨i, 0⟩⟩, []⟩ _ _ (resolves_lineStart (by omega)) (resolves_lineStart hi)
    refine iff_of_false ?_ (by omega)
    have hkept : ls.take i ++ ls.drop (i + (j + 1 - i)) = ls := by
      rw [Nat.sub_eq_zero_of_le hji.le, Nat.add_zero, List.take_append_drop]
    rw [happly, hkept, joinLines_cut hi]
    intro h
    have hlength := congrArg List.length h
    have hbefore : (textBefore ls (j + 1)).length < (textBefore ls i).length := by
      rw [← textBefore_extract hji.le, List.length_append]
      have hextract := extract_ne_nil hji hi.le
      obtain ⟨line, rest, hcons⟩ := List.exists_cons_of_ne_nil hextract
      rw [hcons, List.flatMap_cons]
      simp
    simp only [List.take_zero, List.drop_zero, List.append_nil, List.length_append] at hlength
    omega
  · rw [Range.new_of_le (by omega), Nat.add_sub_cancel' hij]
    rcases Nat.lt_or_ge (j + 1) ls.length with hlt | hge
    · obtain ⟨_, _, happly⟩ := @applyTextEdit_joinLines ls i (j + 1) hne hplain
        ⟨⟨⟨i, 0⟩, ⟨j + 1, 0⟩⟩, []⟩ _ _ (resolves_lineStart hi) (resolves_lineStart hlt)
      refine iff_of_true ?_ ⟨hij, hlt⟩
      rw [happly, joinLines_append_left _ (drop_ne_nil hlt), List.drop_eq_getElem_cons hlt,
        joinLines_cons, textBefore, textBehind]
      simp
    · have hlast : ls.length ≤ (⟨j + 1, 0⟩ : Position).line := hge
      obtain ⟨_, hend, happly⟩ := @applyTextEdit_joinLines ls i _ hne hplain
        ⟨⟨⟨i, 0⟩, ⟨j + 1, 0⟩⟩, []⟩ _ _ (resolves_lineStart hi) (resolves_behind hne hlast)
      refine iff_of_false ?_ (by omega)
      have hnone : textBehind ls (ls.length - 1 + 1) = [] := by
        rw [textBehind, List.drop_of_length_le (by omega)]
        rfl
      rw [happly, hnone, List.getElem?_eq_getElem hend, Option.getD_some, List.drop_length,
        List.drop_of_length_le hge, ← textUpTo_lineFeed (by omega) hi.le, List.append_nil, textUpTo]
      simp

end Emitted

/-! ## Runs of calls -/

def StreamingWorkingCopyDocument.contents (doc : StreamingWorkingCopyDocument) : List Str :=
  doc.lines.map (·.content)

/-- The emitted text edits make the text of the working copy from the source. -/
def Mirrors (source : Str) (doc : StreamingWorkingCopyDocument) : Prop :=
  applyTextEdits source doc.outputStream = doc.getText

/-- The indices of a call are inside the lines, and a line is left. -/
def Call.Inside (doc : StreamingWorkingCopyDocument) (call : Call) : Prop :=
  (call.perform doc).lines ≠ [] ∧
    match call with
    | replaceLine index _ _ => index < doc.getLineCount
    | replaceLines fromIndex toIndex _ => fromIndex < doc.getLineCount ∧ toIndex < doc.getLineCount
    | appendLineAtEndOfDocument _ => True
    | insertLineAfter index _ => index < doc.getLineCount
    | insertLineBefore index _ => index ≤ doc.getLineCount
    | deleteLines fromIndex toIndex => fromIndex < doc.getLineCount ∧ toIndex < doc.getLineCount

/-- The range of an edit reaches the end of the line. -/
def StreamingWorkingCopyDocument.Reaches (doc : StreamingWorkingCopyDocument) (index : ℕ) : Prop :=
  ∀ line ∈ doc.getLine index, line.content.length ≤ MAX_SAFE_SMALL_INTEGER

/-- The emitted edit does what is done to the lines: a deletion keeps a line behind it, and no
line is longer than the end of a range. -/
def Call.Accurate (doc : StreamingWorkingCopyDocument) : Call → Prop
  | replaceLine index line _ =>
    (∃ existing ∈ doc.getLine index, existing.content = line.adjustedContent) ∨ doc.Reaches index
  | replaceLines fromIndex toIndex line =>
    toIndex < fromIndex ∨ doc.Reaches toIndex ∨
      fromIndex = toIndex ∧ ∃ existing ∈ doc.getLine fromIndex,
        existing.content = line.adjustedContent
  | appendLineAtEndOfDocument _ => True
  | insertLineAfter index _ => doc.Reaches index
  | insertLineBefore index _ => index = doc.getLineCount → doc.Reaches (index - 1)
  | deleteLines fromIndex toIndex => fromIndex ≤ toIndex + 1 ∧ toIndex + 1 < doc.getLineCount

section Perform

variable {doc doc' : StreamingWorkingCopyDocument} {source : Str}

theorem plain_contents (doc : StreamingWorkingCopyDocument) : Plain doc.contents := by
  intro line hline
  obtain ⟨documentLine, -, rfl⟩ := List.mem_map.1 hline
  exact documentLine.no_break

theorem length_contents (doc : StreamingWorkingCopyDocument) :
    doc.contents.length = doc.lines.length := List.length_map _

theorem contents_splice (doc : StreamingWorkingCopyDocument) (start deleteCount : ℕ)
    (items : List DocumentLine) :
    (doc.splice start deleteCount items).map (·.content) = doc.contents.take start ++
      items.map (·.content) ++ doc.contents.drop (start + deleteCount) := by
  unfold splice contents
  rw [List.map_append, List.map_append, List.map_take, List.map_drop]

theorem reaches_iff {index : ℕ} (h : index < doc.contents.length) :
    doc.Reaches index ↔ doc.contents[index].length ≤ MAX_SAFE_SMALL_INTEGER := by
  unfold StreamingWorkingCopyDocument.Reaches getLine
  have hline : index < doc.lines.length := length_contents doc ▸ h
  rw [List.getElem?_eq_getElem hline]
  simp only [Option.mem_def, Option.some.injEq, forall_eq', contents, List.getElem_map]

/-- One more text edit is emitted. -/
theorem mirrors_emitted {edit : TextEdit} (h : Mirrors source doc)
    (hout : doc'.outputStream = doc.outputStream ++ [edit]) :
    Mirrors source doc' ↔
      applyTextEdit (joinLines doc.contents) edit = joinLines doc'.contents := by
  unfold Mirrors applyTextEdits at *
  rw [hout, List.foldl_append, h]
  rfl

theorem mirrors_replaceLine (h : Mirrors source doc) (hne : doc.lines ≠ []) {index : ℕ}
    (hindex : index < doc.lines.length) (line : ReplyLine) (isPreserving : Bool) :
    Mirrors source (((doc.replaceLine index line isPreserving).map Prod.fst).getD doc) ↔
      (∃ existing ∈ doc.getLine index, existing.content = line.adjustedContent) ∨
        doc.Reaches index := by
  have hcontents : index < doc.contents.length := by rwa [length_contents]
  rw [reaches_iff hcontents]
  unfold StreamingWorkingCopyDocument.replaceLine getLine
  rw [List.getElem?_eq_getElem hindex, Option.bind_eq_bind, Option.bind_some]
  split_ifs with hsame
  · refine iff_of_true h (.inl ?_)
    exact ⟨_, rfl, hsame⟩
  · rw [or_iff_right (by
      rintro ⟨existing, hexisting, heq⟩
      exact hsame (Option.some.inj hexisting ▸ heq))]
    refine (mirrors_emitted h rfl).trans ?_
    have hset : (doc.lines.set index (.new line)).map (·.content) =
        doc.contents.take index ++ line.adjustedContent :: doc.contents.drop (index + 1) := by
      rw [List.set_eq_take_append_cons_drop, if_pos hindex, List.map_append, List.map_cons,
        List.map_take, List.map_drop]
      rfl
    have happly := applyTextEdit_replaced (by simpa [contents] using hne) (plain_contents doc)
      le_rfl hcontents line.adjustedContent
    rw [← happly, ← hset]
    rfl

theorem mirrors_insertLineAfter (h : Mirrors source doc) (hne : doc.lines ≠ []) {index : ℕ}
    (hindex : index < doc.lines.length) (line : ReplyLine) :
    Mirrors source (doc.insertLineAfter index line).1 ↔ doc.Reaches index := by
  have hcontents : index < doc.contents.length := by rwa [length_contents]
  rw [reaches_iff hcontents]
  refine (mirrors_emitted h rfl).trans ?_
  have happly := applyTextEdit_insertedAfter (by simpa [contents] using hne) (plain_contents doc)
    hcontents line.adjustedContent
  have hsplice := contents_splice doc (index + 1) 0 [.new line]
  rw [List.append_assoc] at hsplice
  rw [← happly]
  exact Eq.congr_right (congrArg joinLines hsplice)

theorem mirrors_replaceLines (h : Mirrors source doc) (hne : doc.lines ≠ [])
    {fromIndex toIndex : ℕ} (hto : toIndex < doc.lines.length) (line : ReplyLine) :
    Mirrors source (((doc.replaceLines fromIndex toIndex line).map Prod.fst).getD doc) ↔
      toIndex < fromIndex ∨ doc.Reaches toIndex ∨
        fromIndex = toIndex ∧ ∃ existing ∈ doc.getLine fromIndex,
          existing.content = line.adjustedContent := by
  unfold StreamingWorkingCopyDocument.replaceLines
  rcases lt_trichotomy fromIndex toIndex with hlt | heq | hgt
  · have hcontents : toIndex < doc.contents.length := by rwa [length_contents]
    rw [if_neg (by omega), if_neg (by omega), or_iff_right (by omega), or_iff_left (by omega),
      reaches_iff hcontents]
    refine (mirrors_emitted h rfl).trans ?_
    have happly := applyTextEdit_replaced (by simpa [contents] using hne) (plain_contents doc)
      hlt.le hcontents line.adjustedContent
    have hsplice := contents_splice doc fromIndex (toIndex - fromIndex + 1) [.new line]
    have hend : fromIndex + (toIndex - fromIndex + 1) = toIndex + 1 := by omega
    rw [List.append_assoc, hend] at hsplice
    rw [← happly]
    exact Eq.congr_right (congrArg joinLines hsplice)
  · subst heq
    rw [if_neg (by omega), if_pos rfl, or_iff_right (by omega), or_comm, and_iff_right rfl]
    exact mirrors_replaceLine h hne hto line false
  · rw [if_pos hgt]
    exact iff_of_true h (.inl hgt)

theorem mirrors_appendLineAtEndOfDocument (h : Mirrors source doc) (hne : doc.lines ≠ [])
    (line : ReplyLine) : Mirrors source (doc.appendLineAtEndOfDocument line).1 := by
  refine (mirrors_emitted h rfl).2 ?_
  have happly := applyTextEdit_appended (by simpa [contents] using hne) (plain_contents doc)
    line.adjustedContent
  rw [length_contents] at happly
  simpa [appendLineAtEndOfDocument, contents, DocumentLine.new] using happly

theorem mirrors_insertLineBefore (h : Mirrors source doc) (hne : doc.lines ≠ []) {index : ℕ}
    (hindex : index ≤ doc.lines.length) (line : ReplyLine) :
    Mirrors source (doc.insertLineBefore index line).1 ↔
      (index = doc.lines.length → doc.Reaches (index - 1)) := by
  have hpos := List.length_pos_of_ne_nil hne
  unfold StreamingWorkingCopyDocument.insertLineBefore
  split_ifs with hend
  · rw [mirrors_insertLineAfter h hne (by omega), forall_prop_of_true hend]
  · refine iff_of_true ((mirrors_emitted h rfl).2 ?_) fun heq => absurd heq hend
    have hcontents : index < doc.contents.length := by
      rw [length_contents]
      exact lt_of_le_of_ne hindex hend
    rw [applyTextEdit_insertedBefore (by simpa [contents] using hne) (plain_contents doc)
      hcontents line.adjustedContent]
    have hsplice := contents_splice doc index 0 [.new line]
    rw [List.append_assoc] at hsplice
    exact (congrArg joinLines hsplice).symm

theorem mirrors_deleteLines (h : Mirrors source doc) (hne : doc.lines ≠ [])
    {fromIndex toIndex : ℕ} (hfrom : fromIndex < doc.lines.length)
    (hto : toIndex < doc.lines.length) (hleft : (doc.deleteLines fromIndex toIndex).1.lines ≠ []) :
    Mirrors source (doc.deleteLines fromIndex toIndex).1 ↔
      fromIndex ≤ toIndex + 1 ∧ toIndex + 1 < doc.lines.length := by
  refine (mirrors_emitted h rfl).trans ?_
  rw [← length_contents] at hfrom hto
  have hsome : ¬ (fromIndex = 0 ∧ toIndex + 1 = doc.contents.length) := by
    rintro ⟨rfl, hall⟩
    apply hleft
    rw [length_contents] at hall
    unfold deleteLines splice
    simp [hall]
  have hsplice := contents_splice doc fromIndex (toIndex + 1 - fromIndex) []
  rw [List.map_nil, List.append_nil] at hsplice
  rw [← length_contents, ← applyTextEdit_deleted (by simpa [contents] using hne)
    (plain_contents doc) hfrom hto hsome]
  exact Eq.congr_right (congrArg joinLines hsplice)

/-- One call keeps the editor and the working copy the same exactly when its edit is accurate. -/
theorem mirrors_perform_iff (h : Mirrors source doc) (hne : doc.lines ≠ []) {call : Call}
    (hinside : call.Inside doc) : Mirrors source (call.perform doc) ↔ call.Accurate doc := by
  obtain ⟨hleft, hinside⟩ := hinside
  cases call with
  | replaceLine index line isPreserving => exact mirrors_replaceLine h hne hinside line isPreserving
  | replaceLines fromIndex toIndex line => exact mirrors_replaceLines h hne hinside.2 line
  | appendLineAtEndOfDocument line =>
    exact iff_of_true (mirrors_appendLineAtEndOfDocument h hne line) trivial
  | insertLineAfter index line => exact mirrors_insertLineAfter h hne hinside line
  | insertLineBefore index line => exact mirrors_insertLineBefore h hne hinside line
  | deleteLines fromIndex toIndex => exact mirrors_deleteLines h hne hinside.1 hinside.2 hleft

theorem new_state {sentLines : List SentLine} {start : ℕ}
    (hnew : StreamingWorkingCopyDocument.new source sentLines start = some doc) :
    doc.contents = splitLines source ∧ doc.outputStream = [] := by
  have hmark : ∀ (lines marked : List DocumentLine) (first first' : ℕ),
      sentLines.foldlM (fun (lines, firstSentLineIndex) sentLine =>
        if sentLine.lineIndex < lines.length then
          some (lines.modify sentLine.lineIndex (·.markSent sentLine.sentInCodeBlock),
            min firstSentLineIndex sentLine.lineIndex)
        else none) (lines, first) = some (marked, first') →
      marked.map (·.content) = lines.map (·.content) := by
    clear hnew
    induction sentLines with
    | nil =>
      intro lines marked first first' h
      rw [(Prod.mk.inj (Option.some.inj h)).1]
    | cons sentLine sentLines ih =>
      intro lines marked first first' h
      rw [List.foldlM_cons] at h
      obtain ⟨⟨next, firstNext⟩, hnext, hrest⟩ := Option.bind_eq_some_iff.1 h
      dsimp only at hnext
      split_ifs at hnext
      obtain ⟨rfl, -⟩ := Prod.mk.inj (Option.some.inj hnext)
      rw [ih _ _ _ _ hrest]
      refine List.ext_getElem (by simp) fun k hk hk' => ?_
      simp only [List.getElem_map, List.getElem_modify]
      split_ifs <;> rfl
  unfold StreamingWorkingCopyDocument.new at hnew
  obtain ⟨⟨marked, first⟩, hmarked, hdoc⟩ := Option.bind_eq_some_iff.1 hnew
  obtain rfl := Option.some.inj hdoc
  refine ⟨(hmark _ _ _ _ hmarked).trans ?_, rfl⟩
  unfold originalLines
  rw [List.map_map]
  exact List.attach_map_subtype_val _

theorem mirrors_new (hLF : CarriageReturn ∉ source) {sentLines : List SentLine} {start : ℕ}
    (hnew : StreamingWorkingCopyDocument.new source sentLines start = some doc) :
    Mirrors source doc := by
  obtain ⟨hcontents, hout⟩ := new_state hnew
  unfold Mirrors
  rw [hout, getText, ← contents, hcontents, joinLines_splitLines hLF]
  rfl

end Perform

/-- In a run from the source on, the editor has the text of the working copy after every call
exactly when every call's edit is accurate. -/
theorem streamingEdits_mirror_iff (source : Str) (hLF : CarriageReturn ∉ source)
    (sentLines : List SentLine) (selectionStartLineIndex : ℕ)
    (doc : StreamingWorkingCopyDocument)
    (hnew : StreamingWorkingCopyDocument.new source sentLines selectionStartLineIndex = some doc)
    (calls : List Call) (hinside : AtEachStep Call.perform Call.Inside doc calls) :
    Throughout Call.perform (Mirrors source) doc calls ↔
      AtEachStep Call.perform Call.Accurate doc calls := by
  have hne : doc.lines ≠ [] := by
    intro hnil
    have hcontents := (new_state hnew).1
    rw [contents, hnil, List.map_nil] at hcontents
    exact splitLines_ne_nil source hcontents.symm
  refine @Library.throughout_iff _ _ Call.perform (fun doc => doc.lines ≠ []) (Mirrors source)
    Call.Inside Call.Accurate ?_ ?_ doc hne (mirrors_new hLF hnew) calls hinside
  · intro doc call hne h hcall
    exact mirrors_perform_iff h hne hcall
  · intro doc call _ _ hcall _
    exact hcall.1

/-- `a` over `b`, and `c` -/
def sourceAb : Str := [97, LineFeed, 98]
def lineC : ReplyLine := ⟨[99], by decide⟩

/-- The working copy of two lines. -/
def documentAb : StreamingWorkingCopyDocument :=
  ⟨[⟨[97], by decide, .None⟩, ⟨[98], by decide, .None⟩], 0, false, false, false, [], []⟩

/-- The first line is deleted, the other one replaced. -/
theorem streamingEdits_mirror_ab :
    Throughout Call.perform (Mirrors sourceAb) documentAb
      [.deleteLines 0 0, .replaceLine 0 lineC false] := by
  have hnew : StreamingWorkingCopyDocument.new sourceAb [] 0 = some documentAb := rfl
  refine (streamingEdits_mirror_iff sourceAb (by decide) [] 0 documentAb hnew _ ?_).2 ?_
  · refine atEachStep_cons.2 ⟨⟨by simp [Call.perform, deleteLines, splice, documentAb], ?_⟩,
      atEachStep_cons.2 ⟨⟨?_, by decide⟩, atEachStep_nil _ _⟩⟩
    · exact ⟨by decide, by decide⟩
    · intro hnil
      cases hnil
  · refine atEachStep_cons.2 ⟨⟨by decide, by decide⟩,
      atEachStep_cons.2 ⟨.inr ?_, atEachStep_nil _ _⟩⟩
    intro line hline
    obtain rfl := Option.some.inj hline
    decide

/-- A deletion of the last lines leaves the line break in front of them in the editor. -/
theorem deleteLines_at_end_wrong :
    ∃ source sentLines start doc calls, CarriageReturn ∉ source ∧
      StreamingWorkingCopyDocument.new source sentLines start = some doc ∧
      AtEachStep Call.perform Call.Inside doc calls ∧
      ¬ Mirrors source (calls.foldl Call.perform doc) := by
  refine ⟨sourceAb, [], 0, documentAb, [.deleteLines 1 1], by decide, rfl, ?_, ?_⟩
  · refine atEachStep_cons.2 ⟨⟨?_, by decide, by decide⟩, atEachStep_nil _ _⟩
    intro hnil
    cases hnil
  · unfold Mirrors
    decide +kernel

end NexgileIde.Edits.Streaming
