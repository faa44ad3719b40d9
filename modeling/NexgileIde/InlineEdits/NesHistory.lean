import NexgileIde.Edits.LineEditOfStringEdit
import NexgileIde.Edits.SequentialReplacements
import NexgileIde.Edits.StringEditRebase
import NexgileIde.InlineEdits.TextLengthEdit

/-!
# The history of next edit suggestions

A document keeps its last edits one after the other, over a base text. An edit that touches the
one before is composed with it. When the recent edits are asked for, the edits that are old, large
or too many are applied to the base, and what is left leads from there to the current text.
-/
namespace NexgileIde.Edits

open Library
open Text (Str)

/-- `e.inverse(original)` -/
def StringEdit.inverse (e : StringEdit) (original : Str) : Except BugIndicatingError StringEdit :=
  e.inverseOnSlice (Text.substring original)

/-- The loop of `getNewRanges`. -/
def newRangesFrom (offset : ℤ) : List StringReplacement → List OffsetRange
  | [] => []
  | e :: rest =>
    ⟨e.replaceRange.start + offset, e.replaceRange.start + offset + e.newText.length, by omega⟩ ::
      newRangesFrom (offset + (e.newText.length - e.replaceRange.length)) rest

def StringEdit.getNewRanges (e : StringEdit) : List OffsetRange := newRangesFrom 0 e.replacements

theorem createNew_of_sorted {rs : List StringReplacement} (h : SortedFrom (-1) rs) :
    ∃ e : StringEdit, BaseEdit.createNew rs = .ok e := by
  refine ⟨⟨rs, checkSorted_eq_ok.2 h⟩, ?_⟩
  unfold BaseEdit.createNew
  split
  · rfl
  · rename_i hcheck
    rw [checkSorted_eq_ok.2 h] at hcheck
    cases hcheck

theorem inverseOnSliceLoop_ok (getOriginalSlice : ℤ → ℤ → Str) (k offset : ℤ)
    (edits : List StringReplacement) (h : SortedFrom k edits) :
    ∃ inverse, inverseOnSliceLoop getOriginalSlice offset edits = .ok inverse ∧
      SortedFrom (k + offset) inverse := by
  induction edits generalizing k offset with
  | nil => exact ⟨[], rfl, trivial⟩
  | cons e edits ih =>
    obtain ⟨hstart, hrest⟩ := h
    simp only [replaceRange_eq] at hstart hrest
    obtain ⟨inverse, hinverse, hsorted⟩ := ih e.replaceRange.endExclusive
      (offset + (e.newText.length - e.replaceRange.length)) hrest
    have hrange := OffsetRange.create_of_le (show e.replaceRange.start + offset ≤
      e.replaceRange.start + offset + e.newText.length by omega)
    refine ⟨⟨⟨e.replaceRange.start + offset, e.replaceRange.start + offset + e.newText.length,
      by omega⟩, getOriginalSlice e.replaceRange.start e.replaceRange.endExclusive⟩ :: inverse,
      ?_, ?_, ?_⟩
    · unfold inverseOnSliceLoop OffsetRange.ofStartAndLength
      rw [bind_of_ok hrange, bind_of_ok hinverse]
      rfl
    · simp only [replaceRange_eq]
      omega
    · convert hsorted using 1
      simp only [replaceRange_eq, OffsetRange.length]
      ring

/-- An edit can be inverted on every text. -/
theorem StringEdit.inverse_ok (e : StringEdit) (original : Str) :
    ∃ inverse, e.inverse original = .ok inverse := by
  obtain ⟨edits, hloop, hsorted⟩ := inverseOnSliceLoop_ok (Text.substring original) (-1) 0
    e.replacements (checkSorted_eq_ok.1 e.sorted)
  rw [add_zero] at hsorted
  unfold StringEdit.inverse StringEdit.inverseOnSlice
  rw [bind_of_ok hloop]
  exact createNew_of_sorted hsorted

/-- Edits in a row can be swapped or cannot, but the check never fails. -/
theorem StringEdit.trySwap_ok {e1 e2 : StringEdit} {s : Str} (h1 : e1.Within s.length)
    (h2 : e2.Within (e1.apply s).length) :
    ∃ r, StringEdit.trySwap e1 e2 = .ok r ∧ ∀ f1 f2, r = some (f1, f2) → f1.Within s.length := by
  obtain ⟨inverse, hinverse, -, hwithin, hlength⟩ := StringEdit.inverseOnSlice_spec h1
  unfold StringEdit.trySwap
  rw [bind_of_ok hinverse]
  cases hloop : tryRebaseLoop true 0 e2.replacements inverse.replacements with
  | none =>
    have hnone : e2.tryRebase inverse = .ok none := by
      simp only [StringEdit.tryRebase, StringEdit.tryRebaseWith, hloop]
    rw [bind_of_ok hnone]
    exact ⟨none, rfl, by simp⟩
  | some out =>
    obtain ⟨f1, hf1, -, hf1within⟩ := tryRebaseWith_eq h2 hwithin hloop
    have hf1s := hf1within (e1.apply s) rfl
    rw [hlength _ rfl] at hf1s
    rw [bind_of_ok (show e2.tryRebase inverse = .ok (some f1) from hf1)]
    cases hloop' : tryRebaseLoop true 0 e1.replacements f1.replacements with
    | none =>
      have hnone : e1.tryRebase f1 = .ok none := by
        simp only [StringEdit.tryRebase, StringEdit.tryRebaseWith, hloop']
      simp only [bind_of_ok hnone]
      exact ⟨none, rfl, by simp⟩
    | some out' =>
      obtain ⟨f2, hf2, -, -⟩ := tryRebaseWith_eq h1 hf1s hloop'
      simp only [bind_of_ok (show e1.tryRebase f1 = .ok (some f2) from hf2)]
      refine ⟨some (f1, f2), rfl, ?_⟩
      rintro g1 g2 hg
      cases hg
      exact hf1s

end NexgileIde.Edits

namespace NexgileIde.InlineEdits.NesHistory

open Edits Library
open Text (Str)

/-- What the history may throw. -/
inductive HistoryError
  | edit (error : BugIndicatingError)
  | lineEdit (error : TextEditError)
  /-- `Unexpected type, expected '...'` -/
  | unexpectedType (type : String)

instance : MonadLift (Except TextEditError) (Except HistoryError) :=
  ⟨fun x => x.mapError .lineEdit⟩

/-- One of the edits of a document -/
structure Entry where
  edit : StringEdit
  textLengthEdit : TextLengthEdit
  instant : ℤ

structure DocumentHistory where
  docId : String
  languageId : String
  base : Str
  lastEdits : List StringEdit
  lastSelection : Option OffsetRange
  /-- The edit of `lastEdit`, which is rooted at `base`. -/
  lastEdit : StringEdit

structure DocumentState where
  docId : String
  languageId : String
  baseValue : Str
  currentValue : Str
  edits : List Entry
  isUserDocument : Bool
  selection : Option OffsetRange

def MAX_EDITED_LINES_PER_EDIT : ℤ := 10

def MAX_EDITED_CHARS_PER_EDIT : ℤ := 5000

def doesTouch (range : OffsetRange) (sortedRanges : List OffsetRange) : Bool :=
  sortedRanges.any fun r => range.start = r.endExclusive || range.endExclusive = r.start

def editExtends (edit previousEdit : StringEdit) : Bool :=
  let newRanges := previousEdit.getNewRanges
  edit.replacements.all fun e => doesTouch e.replaceRange newRanges

def editInsertSize (edit : StringEdit) : ℤ :=
  (edit.replacements.map fun e => (e.newText.length : ℤ)).sum

def changedLines (e : Entry) : ℤ :=
  (e.textLengthEdit.edits.map fun e =>
    (e.range.endLineNumber - e.range.startLineNumber) + (e.newLength.lineCount : ℤ)).sum

def replacedCharacterCount (edit : StringEdit) : ℤ :=
  (edit.replacements.map fun e => e.replaceRange.length).sum

/-- The variables of the loop of `_applyStaleEdits` -/
structure StaleState where
  lastValue : Str
  recentEdit : StringEdit
  recentTextLengthEdit : TextLengthEdit
  editCount : ℕ
  mostRecentEdit : StringEdit

/-- The most recent edit carried over `e`, none if `e` would hide its effect. -/
def carryMostRecent (isLast : Bool) (e : Entry) (mostRecentEdit : StringEdit) :
    Except BugIndicatingError (Option StringEdit) :=
  if isLast then return some e.edit
  else do
    match ← StringEdit.trySwap e.edit mostRecentEdit with
    | some (e1, _) => return some e1
    | none =>
      if changedLines e ≥ 2 then return none
      else return some (← e.edit.compose mostRecentEdit)

/-- One turn of the loop; none is its `break`. -/
def takeEdit (maxEditCount now : ℤ) (isLast : Bool) (s : StaleState) (e : Entry) :
    Except HistoryError (Option StaleState) :=
  if now - e.instant > 10 * 60 * 1000 then return none
  else
    let potentialNewTextLengthEdit := e.textLengthEdit.compose s.recentTextLengthEdit
    match potentialNewTextLengthEdit.getRange with
    | none => .error (.unexpectedType "we only compose non-empty Edits")
    | some potentialNewRange =>
      if potentialNewRange.endLineNumber - potentialNewRange.startLineNumber > 100 then return none
      else if changedLines e > MAX_EDITED_LINES_PER_EDIT then return none
      else if editInsertSize e.edit > MAX_EDITED_CHARS_PER_EDIT then return none
      else if replacedCharacterCount e.edit > MAX_EDITED_CHARS_PER_EDIT then return none
      else do
        match ← carryMostRecent isLast e s.mostRecentEdit with
        | none => return none
        | some mostRecentEdit =>
          let inverseE ← e.edit.inverse s.lastValue
          let lastValue := inverseE.apply s.lastValue
          let potentialRecentEdit ← e.edit.compose s.recentEdit
          let potentialLineEdit ← LineEdit.fromStringEdit potentialRecentEdit lastValue
          let rootedLineEdit ← potentialLineEdit.removeCommonSuffixPrefixLines lastValue
          let editLineCount := rootedLineEdit.replacements.length
          if (editLineCount : ℤ) > maxEditCount then return none
          else return some ⟨lastValue, potentialRecentEdit, potentialNewTextLengthEdit,
            editLineCount, mostRecentEdit⟩

/-- The loop of `_applyStaleEdits`, over the edits from the last one on: the edits it does not
take, and the edit count. -/
def staleLoop (maxEditCount : ℤ) (now : ℕ → ℤ) (lastIndex : ℕ) :
    StaleState → List Entry → Except HistoryError (List Entry × ℕ)
  | s, [] => return ([], s.editCount)
  | s, e :: older => do
    let i := older.length
    match ← takeEdit maxEditCount (now i) (i = lastIndex) s e with
    | none => return (e :: older, s.editCount)
    | some s => staleLoop maxEditCount now lastIndex s older

/-- `Edits.compose` -/
def composeInOrder (edits : List StringEdit) : Except BugIndicatingError StringEdit :=
  edits.foldlM BaseEdit.compose StringEdit.empty

def textAfter (base : Str) (edits : List Entry) : Str :=
  edits.foldl (fun text e => e.edit.apply text) base

namespace DocumentState

def handleSelection (s : DocumentState) (selection : Option OffsetRange) : DocumentState :=
  { s with isUserDocument := selection.isSome || s.isUserDocument, selection }

def new (docId : String) (initialValue : Str) (languageId : String)
    (selection : Option OffsetRange) : DocumentState :=
  handleSelection ⟨docId, languageId, initialValue, initialValue, [], false, none⟩ selection

def handleEdit (s : DocumentState) (edit : StringEdit) (isInCooldown : Bool) (now : ℤ) :
    Except HistoryError DocumentState :=
  if edit.isEmpty then return s
  else
    let s := { s with currentValue := edit.apply s.currentValue }
    let textEdit := TextEdit.fromStringEdit edit s.currentValue
    let textLengthEdit := TextLengthEdit.fromTextEdit textEdit
    if isInCooldown then return { s with baseValue := s.currentValue, edits := [] }
    else
      match s.edits.getLast? with
      | some lastEdit =>
        if editInsertSize lastEdit.edit < 200 && editExtends edit lastEdit.edit then do
          let composed ← lastEdit.edit.compose edit
          if composed.isEmpty then return { s with edits := s.edits.dropLast }
          else return { s with edits := s.edits.dropLast ++
            [⟨composed, lastEdit.textLengthEdit.compose textLengthEdit, now⟩] }
        else return { s with edits := s.edits ++ [⟨edit, textLengthEdit, now⟩] }
      | none => return { s with edits := s.edits ++ [⟨edit, textLengthEdit, now⟩] }

def applyAllEdits (s : DocumentState) : DocumentState :=
  { s with baseValue := s.currentValue, edits := [] }

/-- `_applyStaleEdits` -/
def applyStaleEdits (s : DocumentState) (maxEditCount : ℤ) (now : ℕ → ℤ) :
    Except HistoryError (DocumentState × ℕ) := do
  let (stale, editCount) ← staleLoop maxEditCount now (s.edits.length - 1)
    ⟨s.currentValue, StringEdit.empty, TextLengthEdit.empty, 0, StringEdit.empty⟩ s.edits.reverse
  -- the edits that are not taken are applied in their order
  return ({ s with
    baseValue := textAfter s.baseValue stale.reverse
    edits := s.edits.drop stale.length }, editCount)

def getRecentEdit (s : DocumentState) (maxEditCount : ℤ) (now : ℕ → ℤ) :
    Except HistoryError (Option (DocumentHistory × ℕ) × DocumentState) :=
  if !s.isUserDocument then return (none, s)
  else do
    let (s, editCount) ← s.applyStaleEdits maxEditCount now
    let edits := s.edits.map (·.edit)
    let lastEdit ← composeInOrder edits
    return (some (⟨s.docId, s.languageId, s.baseValue, edits, s.selection, lastEdit⟩, editCount), s)

end DocumentState

/-- The calls on a document; `now` is the time, at each turn of the loop for `getRecentEdit`. -/
inductive Call
  | handleSelection (selection : Option OffsetRange)
  | handleEdit (edit : StringEdit) (isInCooldown : Bool) (now : ℤ)
  | applyAllEdits
  | getRecentEdit (maxEditCount : ℤ) (now : ℕ → ℤ)

namespace Call

def run (s : DocumentState) : Call → Except HistoryError DocumentState
  | handleSelection selection => return s.handleSelection selection
  | handleEdit edit isInCooldown now => s.handleEdit edit isInCooldown now
  | applyAllEdits => return s.applyAllEdits
  | getRecentEdit maxEditCount now => do
    let (_, s) ← s.getRecentEdit maxEditCount now
    return s

/-- The text of the document after a call. -/
def textAfter (text : Str) : Call → Str
  | handleEdit edit _ _ => edit.apply text
  | _ => text

/-- An edit lies within the text. -/
def Valid (text : Str) : Call → Prop
  | handleEdit edit _ _ => edit.Within text.length
  | _ => True

/-- Every edit lies within the text that the calls before lead to. -/
def AllValid : Str → List Call → Prop
  | _, [] => True
  | text, call :: calls => call.Valid text ∧ AllValid (call.textAfter text) calls

end Call

/-! ## The invariant -/

/-- The edits can be applied one after the other, and the length edit of none is empty. -/
def Sound : Str → List Entry → Prop
  | _, [] => True
  | base, e :: edits => e.edit.Within base.length ∧ e.textLengthEdit.edits ≠ [] ∧
      Sound (e.edit.apply base) edits

/-- The edits lead from the base to the current text. -/
structure Holds (s : DocumentState) (text : Str) : Prop where
  current_eq : s.currentValue = text
  sound : Sound s.baseValue s.edits
  leads : textAfter s.baseValue s.edits = text

theorem textAfter_append (base : Str) (front rest : List Entry) :
    textAfter base (front ++ rest) = textAfter (textAfter base front) rest := List.foldl_append

theorem sound_append {base : Str} {front rest : List Entry} :
    Sound base (front ++ rest) ↔ Sound base front ∧ Sound (textAfter base front) rest := by
  induction front generalizing base with
  | nil => simp [Sound, textAfter]
  | cons e front ih =>
    simp only [List.cons_append, Sound, ih, and_assoc]
    rfl

theorem apply_of_isEmpty {edit : StringEdit} (h : edit.isEmpty) (text : Str) :
    edit.apply text = text := by
  have hnil : edit.replacements = [] := List.isEmpty_iff.mp h
  unfold StringEdit.apply
  rw [hnil]
  exact List.drop_zero

theorem within_empty (n : ℕ) : StringEdit.empty.Within n := fun _ hr => absurd hr List.not_mem_nil

theorem holds_new (docId : String) (initialValue : Str) (languageId : String)
    (selection : Option OffsetRange) :
    Holds (DocumentState.new docId initialValue languageId selection) initialValue where
  current_eq := rfl
  sound := trivial
  leads := rfl

namespace Holds

variable {s : DocumentState} {text : Str}

theorem handleSelection (h : Holds s text) (selection : Option OffsetRange) :
    Holds (s.handleSelection selection) text where
  current_eq := h.current_eq
  sound := h.sound
  leads := h.leads

theorem applyAllEdits (h : Holds s text) : Holds s.applyAllEdits text where
  current_eq := h.current_eq
  sound := trivial
  leads := h.current_eq

/-- With an edit behind the others. -/
theorem push (h : Holds s text) {e : Entry} (hwithin : e.edit.Within text.length)
    (hlength : e.textLengthEdit.edits ≠ []) :
    Holds { s with currentValue := e.edit.apply text, edits := s.edits ++ [e] }
      (e.edit.apply text) where
  current_eq := rfl
  sound := by
    rw [sound_append, h.leads]
    exact ⟨h.sound, hwithin, hlength, trivial⟩
  leads := by
    rw [textAfter_append, h.leads]
    rfl

theorem handleEdit (h : Holds s text) {edit : StringEdit} (hwithin : edit.Within text.length)
    (isInCooldown : Bool) (now : ℤ) :
    ∃ s', s.handleEdit edit isInCooldown now = .ok s' ∧ Holds s' (edit.apply text) := by
  unfold DocumentState.handleEdit
  by_cases hempty : edit.isEmpty
  · rw [if_pos hempty, apply_of_isEmpty hempty]
    exact ⟨s, rfl, h⟩
  rw [if_neg hempty]
  simp only [h.current_eq]
  by_cases hcool : isInCooldown
  · rw [if_pos hcool]
    exact ⟨_, rfl, rfl, trivial, rfl⟩
  rw [if_neg hcool]
  have hlength : (TextLengthEdit.fromTextEdit
      (TextEdit.fromStringEdit edit (edit.apply text))).edits ≠ [] := by
    have hne : edit.replacements ≠ [] := by
      intro hnil
      exact hempty (List.isEmpty_iff.mpr hnil)
    simpa [TextLengthEdit.fromTextEdit, TextEdit.fromStringEdit] using hne
  generalize TextLengthEdit.fromTextEdit (TextEdit.fromStringEdit edit (edit.apply text)) =
    textLengthEdit at hlength
  have hpush := @push s text h ⟨edit, textLengthEdit, now⟩ hwithin hlength
  cases hlast : s.edits.getLast? with
  | none => exact ⟨_, rfl, hpush⟩
  | some lastEdit =>
    simp only
    by_cases hextends :
        (decide (editInsertSize lastEdit.edit < 200) && editExtends edit lastEdit.edit) = true
    · rw [if_pos hextends]
      obtain ⟨front, hfront⟩ := List.getLast?_eq_some_iff.mp hlast
      have hsound := h.sound
      have hleads := h.leads
      rw [hfront, sound_append] at hsound
      rw [hfront, textAfter_append] at hleads
      obtain ⟨hfrontSound, hlastWithin, hlastLength, -⟩ := hsound
      change lastEdit.edit.apply (textAfter s.baseValue front) = text at hleads
      rw [← hleads] at hwithin
      obtain ⟨composed, hcomposed, hcomposedWithin, happly, -⟩ := StringEdit.compose_spec
        (textAfter s.baseValue front) lastEdit.edit edit hlastWithin hwithin
      rw [hleads] at happly
      rw [hcomposed, hfront, List.dropLast_concat]
      by_cases hcancel : composed.isEmpty
      · rw [apply_of_isEmpty hcancel] at happly
        refine ⟨{ s with currentValue := edit.apply text, edits := front }, ?_, rfl, hfrontSound,
          happly⟩
        change (if composed.isEmpty = true then _ else _) = _
        rw [if_pos hcancel]
        rfl
      · refine ⟨{ s with currentValue := edit.apply text, edits := front ++
          [⟨composed, lastEdit.textLengthEdit.compose textLengthEdit, now⟩] }, ?_, rfl, ?_, ?_⟩
        · change (if composed.isEmpty = true then _ else _) = _
          rw [if_neg hcancel]
          rfl
        · rw [sound_append]
          exact ⟨hfrontSound, hcomposedWithin,
            TextLengthEdit.compose_ne_nil hlastLength textLengthEdit, trivial⟩
        · rw [textAfter_append]
          exact happly
    · rw [if_neg hextends]
      exact ⟨_, rfl, hpush⟩

end Holds

/-! ## The loop over the edits -/

/-- The edits the loop has put together can be applied to the text it has come back to. -/
structure StaleState.Fits (s : StaleState) (text : Str) : Prop where
  recentEdit : s.recentEdit.Within text.length
  mostRecentEdit : s.mostRecentEdit.Within text.length

theorem carryMostRecent_ok {e : Entry} {mostRecentEdit : StringEdit} {text : Str} (isLast : Bool)
    (he : e.edit.Within text.length)
    (hrecent : mostRecentEdit.Within (e.edit.apply text).length) :
    ∃ r, carryMostRecent isLast e mostRecentEdit = .ok r ∧
      ∀ edit, r = some edit → edit.Within text.length := by
  unfold carryMostRecent
  by_cases hlast : isLast
  · rw [if_pos hlast]
    exact ⟨some e.edit, rfl, fun edit hedit => Option.some.inj hedit ▸ he⟩
  rw [if_neg hlast]
  obtain ⟨swapped, hswap, hwithin⟩ := StringEdit.trySwap_ok he hrecent
  rw [bind_of_ok hswap]
  cases swapped with
  | some f =>
    refine ⟨some f.1, rfl, ?_⟩
    rintro edit hedit
    cases hedit
    exact hwithin f.1 f.2 rfl
  | none =>
    by_cases hlarge : changedLines e ≥ 2
    · simp only [if_pos hlarge]
      exact ⟨none, rfl, by simp⟩
    · simp only [if_neg hlarge]
      obtain ⟨composed, hcomposed, hcomposedWithin, -⟩ :=
        StringEdit.compose_spec text e.edit mostRecentEdit he hrecent
      refine ⟨some composed, ?_, ?_⟩
      · rw [bind_of_ok hcomposed]
        rfl
      · rintro edit hedit
        cases hedit
        exact hcomposedWithin

/-- A turn of the loop does not fail, and goes back over the edit. -/
theorem takeEdit_ok {s : StaleState} {e : Entry} {text : Str} (maxEditCount now : ℤ)
    (isLast : Bool) (he : e.edit.Within text.length) (hlength : e.textLengthEdit.edits ≠ [])
    (hs : s.Fits (e.edit.apply text)) :
    ∃ r, takeEdit maxEditCount now isLast s e = .ok r ∧ ∀ s', r = some s' → s'.Fits text := by
  obtain ⟨range, hrange⟩ := TextLengthEdit.exists_getRange
    (TextLengthEdit.compose_ne_nil hlength s.recentTextLengthEdit)
  have hbreak : ∀ s' : StaleState, none = some s' → s'.Fits text := by simp
  unfold takeEdit
  simp only [hrange]
  split_ifs
  any_goals exact ⟨none, rfl, hbreak⟩
  obtain ⟨carried, hcarried, hcarriedWithin⟩ := carryMostRecent_ok isLast he hs.mostRecentEdit
  rw [hcarried]
  cases carried with
  | none => exact ⟨none, rfl, hbreak⟩
  | some mostRecentEdit =>
    obtain ⟨inverseE, hinverse⟩ := e.edit.inverse_ok s.lastValue
    obtain ⟨composed, hcomposed, hcomposedWithin, -⟩ :=
      StringEdit.compose_spec text e.edit s.recentEdit he hs.recentEdit
    obtain ⟨lineEdit, hlineEdit, hsorted⟩ :=
      LineEdit.fromStringEdit_ok composed (inverseE.apply s.lastValue)
    obtain ⟨trimmed, htrimmed⟩ := LineEdit.removeCommonSuffixPrefixLines_ok hsorted
      (inverseE.apply s.lastValue)
    simp only [liftM, monadLift, MonadLift.monadLift, Except.mapError, bind, Except.bind, hinverse,
      hcomposed, hlineEdit, htrimmed]
    split_ifs
    · exact ⟨none, rfl, hbreak⟩
    · refine ⟨some _, rfl, ?_⟩
      rintro s' hs'
      cases hs'
      exact ⟨hcomposedWithin, hcarriedWithin _ rfl⟩

/-- The loop does not fail and leaves edits from the front on. -/
theorem staleLoop_ok {base : Str} (maxEditCount : ℤ) (now : ℕ → ℤ) (lastIndex : ℕ)
    (newestFirst : List Entry) {s : StaleState} (hsound : Sound base newestFirst.reverse)
    (hs : s.Fits (textAfter base newestFirst.reverse)) :
    ∃ stale editCount, staleLoop maxEditCount now lastIndex s newestFirst =
      .ok (stale, editCount) ∧ stale <:+ newestFirst := by
  induction newestFirst generalizing s with
  | nil => exact ⟨[], s.editCount, rfl, List.nil_suffix⟩
  | cons e older ih =>
    rw [List.reverse_cons, sound_append] at hsound
    rw [List.reverse_cons, textAfter_append] at hs
    obtain ⟨holder, he, hlength, -⟩ := hsound
    obtain ⟨r, hr, hfits⟩ := takeEdit_ok maxEditCount (now older.length)
      (older.length = lastIndex) he hlength hs
    unfold staleLoop
    rw [bind_of_ok hr]
    cases r with
    | none => exact ⟨e :: older, s.editCount, rfl, List.suffix_rfl⟩
    | some s' =>
      obtain ⟨stale, editCount, hloop, hsuffix⟩ := ih holder (hfits s' rfl)
      exact ⟨stale, editCount, hloop, hsuffix.trans (List.suffix_cons e older)⟩

theorem foldlM_compose_ok {base : Str} {edits : List Entry} {front : StringEdit}
    (hfront : front.Within base.length) (hsound : Sound (front.apply base) edits) :
    ∃ composed, (edits.map (·.edit)).foldlM BaseEdit.compose front = .ok composed := by
  induction edits generalizing front with
  | nil => exact ⟨front, rfl⟩
  | cons e edits ih =>
    obtain ⟨he, -, hrest⟩ := hsound
    obtain ⟨composed, hcomposed, hwithin, happly, -⟩ :=
      StringEdit.compose_spec base front e.edit hfront he
    rw [← happly] at hrest
    rw [List.map_cons, List.foldlM_cons, bind_of_ok hcomposed]
    exact ih hwithin hrest

theorem composeInOrder_ok {base : Str} {edits : List Entry} (hsound : Sound base edits) :
    ∃ composed, composeInOrder (edits.map (·.edit)) = .ok composed := by
  refine @foldlM_compose_ok base edits StringEdit.empty (within_empty _) ?_
  rwa [apply_of_isEmpty rfl]

namespace Holds

variable {s : DocumentState} {text : Str}

theorem applyStaleEdits (h : Holds s text) (maxEditCount : ℤ) (now : ℕ → ℤ) :
    ∃ s' editCount, s.applyStaleEdits maxEditCount now = .ok (s', editCount) ∧ Holds s' text ∧
      s'.isUserDocument = s.isUserDocument := by
  obtain ⟨stale, editCount, hloop, newest, hnewest⟩ := @staleLoop_ok s.baseValue maxEditCount now
    (s.edits.length - 1) s.edits.reverse
    ⟨s.currentValue, StringEdit.empty, TextLengthEdit.empty, 0, StringEdit.empty⟩
    (by rw [List.reverse_reverse]; exact h.sound) ⟨within_empty _, within_empty _⟩
  have hedits : s.edits = stale.reverse ++ newest.reverse := by
    rw [← List.reverse_append, hnewest, List.reverse_reverse]
  have hdrop : s.edits.drop stale.length = newest.reverse := by
    rw [hedits, List.drop_left' (List.length_reverse ..)]
  have hsound := h.sound
  have hleads := h.leads
  rw [hedits, sound_append] at hsound
  rw [hedits, textAfter_append] at hleads
  refine ⟨{ s with
    baseValue := textAfter s.baseValue stale.reverse
    edits := s.edits.drop stale.length }, editCount, ?_, ⟨h.current_eq, ?_, ?_⟩, rfl⟩
  · unfold DocumentState.applyStaleEdits
    rw [bind_of_ok hloop]
    rfl
  · rw [hdrop]
    exact hsound.2
  · rw [hdrop]
    exact hleads

theorem getRecentEdit (h : Holds s text) (maxEditCount : ℤ) (now : ℕ → ℤ) :
    ∃ result s', s.getRecentEdit maxEditCount now = .ok (result, s') ∧ Holds s' text ∧
      (s.isUserDocument → ∃ history editCount, result = some (history, editCount) ∧
        history.lastEdits.foldl (fun text edit => edit.apply text) history.base = text) := by
  unfold DocumentState.getRecentEdit
  by_cases huser : s.isUserDocument
  · obtain ⟨s', editCount, hstale, hholds, -⟩ := h.applyStaleEdits maxEditCount now
    obtain ⟨lastEdit, hcompose⟩ := composeInOrder_ok hholds.sound
    rw [huser, bind_of_ok hstale]
    simp only [Bool.not_true, Bool.false_eq_true, if_false, hcompose]
    refine ⟨_, s', rfl, hholds, fun _ => ⟨_, editCount, rfl, ?_⟩⟩
    have hleads := hholds.leads
    unfold textAfter at hleads
    rwa [List.foldl_map]
  · rw [Bool.not_eq_true] at huser
    rw [huser]
    exact ⟨none, s, rfl, h, by simp⟩

theorem run (h : Holds s text) {call : Call} (hvalid : call.Valid text) :
    ∃ s', call.run s = .ok s' ∧ Holds s' (call.textAfter text) := by
  cases call with
  | handleSelection selection => exact ⟨_, rfl, h.handleSelection selection⟩
  | handleEdit edit isInCooldown now => exact h.handleEdit hvalid isInCooldown now
  | applyAllEdits => exact ⟨_, rfl, h.applyAllEdits⟩
  | getRecentEdit maxEditCount now =>
    obtain ⟨result, s', hresult, hholds, -⟩ := h.getRecentEdit maxEditCount now
    refine ⟨s', ?_, hholds⟩
    simp only [Call.run, bind_of_ok hresult]
    rfl

theorem foldlM_run {calls : List Call} (h : Holds s text) (hvalid : Call.AllValid text calls) :
    ∃ s', calls.foldlM Call.run s = .ok s' ∧
      Holds s' (calls.foldl (fun text call => call.textAfter text) text) := by
  induction calls generalizing s text with
  | nil => exact ⟨s, rfl, h⟩
  | cons call calls ih =>
    obtain ⟨s', hrun, hholds⟩ := h.run hvalid.1
    rw [List.foldlM_cons, bind_of_ok hrun]
    exact ih hholds hvalid.2

end Holds

/-- After any calls, `getRecentEdit` does not throw, and the edits it returns for a user document
lead from the base it returns to the current text. -/
theorem getRecentEdit_leads_to_current (docId : String) (initialValue : Str) (languageId : String)
    (selection : Option OffsetRange) (calls : List Call)
    (hvalid : Call.AllValid initialValue calls) :
    ∃ s, calls.foldlM Call.run (DocumentState.new docId initialValue languageId selection) = .ok s ∧
      s.currentValue = calls.foldl (fun text call => call.textAfter text) initialValue ∧
      ∀ (maxEditCount : ℤ) (now : ℕ → ℤ), ∃ result s',
        s.getRecentEdit maxEditCount now = .ok (result, s') ∧
        (s.isUserDocument → ∃ history editCount, result = some (history, editCount) ∧
          history.lastEdits.foldl (fun text edit => edit.apply text) history.base =
            s.currentValue) := by
  obtain ⟨s, hrun, hholds⟩ :=
    (holds_new docId initialValue languageId selection).foldlM_run hvalid
  refine ⟨s, hrun, hholds.current_eq, ?_⟩
  intro maxEditCount now
  obtain ⟨result, s', hresult, -, hleads⟩ := hholds.getRecentEdit maxEditCount now
  rw [hholds.current_eq]
  exact ⟨result, s', hresult, hleads⟩

/-- On `a`, `b` is inserted at the end and deleted again. -/
theorem getRecentEdit_leads_to_current_ab :
    ∃ s, [Call.handleEdit ⟨[⟨⟨1, 1, by decide⟩, [98]⟩], rfl⟩ false 0,
        Call.getRecentEdit 5 (fun _ => 1),
        Call.handleEdit ⟨[⟨⟨1, 2, by decide⟩, []⟩], rfl⟩ false 2].foldlM Call.run
          (DocumentState.new "a.txt" [97] "plaintext" (some ⟨0, 0, by decide⟩)) = .ok s ∧
      s.currentValue = [Call.handleEdit ⟨[⟨⟨1, 1, by decide⟩, [98]⟩], rfl⟩ false 0,
        Call.getRecentEdit 5 (fun _ => 1),
        Call.handleEdit ⟨[⟨⟨1, 2, by decide⟩, []⟩], rfl⟩ false 2].foldl
          (fun text call => call.textAfter text) [97] ∧
      ∀ (maxEditCount : ℤ) (now : ℕ → ℤ), ∃ result s',
        s.getRecentEdit maxEditCount now = .ok (result, s') ∧
        (s.isUserDocument → ∃ history editCount, result = some (history, editCount) ∧
          history.lastEdits.foldl (fun text edit => edit.apply text) history.base =
            s.currentValue) := by
  refine getRecentEdit_leads_to_current "a.txt" [97] "plaintext" (some ⟨0, 0, by decide⟩) _ ?_
  refine ⟨?_, trivial, ?_, trivial⟩
  · change StringEdit.Within _ _
    decide
  · change StringEdit.Within _ _
    decide

end NexgileIde.InlineEdits.NesHistory
