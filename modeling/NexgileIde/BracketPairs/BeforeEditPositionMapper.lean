import NexgileIde.BracketPairs.TextEditInfo

/-!
# Positions before the edits

The mapper walks over sorted edits while it is asked about growing offsets of
the new text. It keeps how far lines have moved, and how far columns have moved
on the old line that the last passed edit ended in.
-/
namespace NexgileIde.BracketPairs

open Text TextLength

structure TextEditInfoCache where
  endOffsetBeforeObj : LengthObj
  endOffsetAfterObj : LengthObj
  offsetObj : LengthObj
  deriving DecidableEq, Repr

/-- `TextEditInfoCache.from` -/
def TextEditInfoCache.ofEdit (edit : TextEditInfo) : TextEditInfoCache where
  endOffsetBeforeObj := lengthToObj edit.endOffset
  endOffsetAfterObj := lengthToObj (lengthAdd edit.startOffset edit.newLength)
  offsetObj := lengthToObj edit.startOffset

structure BeforeEditPositionMapper where
  nextEditIdx : ℕ
  deltaOldToNewLineCount : ℤ
  deltaOldToNewColumnCount : ℤ
  deltaLineIdxInOld : ℤ
  edits : List TextEditInfoCache
  deriving DecidableEq, Repr

namespace BeforeEditPositionMapper

def new (edits : List TextEditInfo) : BeforeEditPositionMapper :=
  ⟨0, 0, 0, -1, edits.map TextEditInfoCache.ofEdit⟩

def translateOldToCur (mapper : BeforeEditPositionMapper) (oldOffsetObj : LengthObj) : Length :=
  if oldOffsetObj.lineCount = mapper.deltaLineIdxInOld then
    toLength (oldOffsetObj.lineCount + mapper.deltaOldToNewLineCount)
      (oldOffsetObj.columnCount + mapper.deltaOldToNewColumnCount)
  else
    toLength (oldOffsetObj.lineCount + mapper.deltaOldToNewLineCount) oldOffsetObj.columnCount

def translateCurToOld (mapper : BeforeEditPositionMapper) (newOffset : Length) : Length :=
  let offsetObj := lengthToObj newOffset
  if offsetObj.lineCount - mapper.deltaOldToNewLineCount = mapper.deltaLineIdxInOld then
    toLength (offsetObj.lineCount - mapper.deltaOldToNewLineCount)
      (offsetObj.columnCount - mapper.deltaOldToNewColumnCount)
  else
    toLength (offsetObj.lineCount - mapper.deltaOldToNewLineCount) offsetObj.columnCount

/-- The branch of the loop of `adjustNextEdit` that is after the edit. -/
def skipEdit (mapper : BeforeEditPositionMapper) (nextEdit : TextEditInfoCache) :
    BeforeEditPositionMapper :=
  let nextEditEndOffsetInCurObj :=
    lengthToObj (mapper.translateOldToCur nextEdit.endOffsetAfterObj)
  let nextEditEndOffsetBeforeInCurObj :=
    lengthToObj (mapper.translateOldToCur nextEdit.endOffsetBeforeObj)
  let lineDelta := nextEditEndOffsetInCurObj.lineCount - nextEditEndOffsetBeforeInCurObj.lineCount
  let previousColumnDelta :=
    if mapper.deltaLineIdxInOld = nextEdit.endOffsetBeforeObj.lineCount then
      mapper.deltaOldToNewColumnCount
    else 0
  let columnDelta :=
    nextEditEndOffsetInCurObj.columnCount - nextEditEndOffsetBeforeInCurObj.columnCount
  { mapper with
    nextEditIdx := mapper.nextEditIdx + 1
    deltaOldToNewLineCount := mapper.deltaOldToNewLineCount + lineDelta
    deltaOldToNewColumnCount := previousColumnDelta + columnDelta
    deltaLineIdxInOld := nextEdit.endOffsetBeforeObj.lineCount }

def adjustNextEdit (mapper : BeforeEditPositionMapper) (offset : Length) :
    BeforeEditPositionMapper :=
  match _h : mapper.edits[mapper.nextEditIdx]? with
  | none => mapper
  | some nextEdit =>
    let nextEditEndOffsetInCur := mapper.translateOldToCur nextEdit.endOffsetAfterObj
    if lengthLessThanEqual nextEditEndOffsetInCur offset then
      (mapper.skipEdit nextEdit).adjustNextEdit offset
    else mapper
termination_by mapper.edits.length - mapper.nextEditIdx
decreasing_by
  obtain ⟨hlt, -⟩ := List.getElem?_eq_some_iff.mp _h
  simp only [skipEdit]
  omega

def getOffsetBeforeChange (mapper : BeforeEditPositionMapper) (offset : Length) :
    BeforeEditPositionMapper × Length :=
  let mapper := mapper.adjustNextEdit offset
  (mapper, mapper.translateCurToOld offset)

/-- `none` when there is no edit anymore. -/
def getDistanceToNextChange (mapper : BeforeEditPositionMapper) (offset : Length) :
    BeforeEditPositionMapper × Option Length :=
  let mapper := mapper.adjustNextEdit offset
  let nextChangeOffset := mapper.edits[mapper.nextEditIdx]?.map fun nextEdit =>
    mapper.translateOldToCur nextEdit.offsetObj
  (mapper, nextChangeOffset.map fun nextChangeOffset =>
    lengthDiffNonNegative offset nextChangeOffset)

/-- A question to a mapper. -/
inductive Query
  | offsetBeforeChange (offset : Length)
  | distanceToNextChange (offset : Length)

def Query.offset : Query → Length
  | offsetBeforeChange offset => offset
  | distanceToNextChange offset => offset

/-- The mapper after a question. -/
def ask (mapper : BeforeEditPositionMapper) : Query → BeforeEditPositionMapper
  | .offsetBeforeChange offset => (mapper.getOffsetBeforeChange offset).1
  | .distanceToNextChange offset => (mapper.getDistanceToNextChange offset).1

theorem ask_eq (mapper : BeforeEditPositionMapper) (query : Query) :
    mapper.ask query = mapper.adjustNextEdit query.offset := by
  cases query <;> rfl

theorem adjustNextEdit_none {mapper : BeforeEditPositionMapper}
    (h : mapper.edits[mapper.nextEditIdx]? = none) (offset : Length) :
    mapper.adjustNextEdit offset = mapper := by
  rw [adjustNextEdit]
  split
  · rfl
  · rename_i hsome
    rw [h] at hsome
    cases hsome

theorem adjustNextEdit_some {mapper : BeforeEditPositionMapper} {nextEdit : TextEditInfoCache}
    (h : mapper.edits[mapper.nextEditIdx]? = some nextEdit) (offset : Length) :
    mapper.adjustNextEdit offset =
      if mapper.translateOldToCur nextEdit.endOffsetAfterObj ≤ offset then
        (mapper.skipEdit nextEdit).adjustNextEdit offset
      else mapper := by
  rw [adjustNextEdit]
  split
  · rename_i hnone
    rw [h] at hnone
    cases hnone
  · rename_i edit hsome
    rw [h] at hsome
    cases hsome
    simp [lengthLessThanEqual]

end BeforeEditPositionMapper

end NexgileIde.BracketPairs

/-!
## Questions about growing offsets

The state of a mapper is that of the edits it has passed: lines have moved by the
difference of the texts in front, columns only on the line where the last passed
edit ends. Each passed edit keeps that, and so does every question.
-/
namespace NexgileIde.BracketPairs

open Text TextLength BeforeEditPositionMapper

/-- The counts of a text length as an object. -/
def objOf (t : TextLength) : LengthObj := ⟨t.lineCount, t.columnCount⟩

theorem lengthToObj_lengthOf {text : Str} (h : TextInRange text) :
    lengthToObj (lengthOf text) = objOf (extent text) := lengthToObj_encode h.narrow

/-- The lengths that are added up keep within their bits: those of the two texts, of the text in
front of the end of an edit with only the edits before it made, and with only that edit made. -/
structure EditsInRange (stretches : List Stretch) (tail : Str) : Prop where
  before : TextInRange (textBefore stretches ++ tail)
  after : TextInRange (textAfter stretches ++ tail)
  unmade : ∀ done stretch rest, stretches = done ++ stretch :: rest →
    TextInRange (textAfter done ++ stretch.gap ++ stretch.removed)
  alone : ∀ done stretch rest, stretches = done ++ stretch :: rest →
    TextInRange (textBefore done ++ stretch.gap ++ stretch.inserted)

/-- The mapper has passed the edits of these stretches. -/
structure HasPassed (stretches : List Stretch) (mapper : BeforeEditPositionMapper)
    (done : List Stretch) : Prop where
  edits : mapper.edits = (editInfos [] stretches).map TextEditInfoCache.ofEdit
  nextEditIdx : mapper.nextEditIdx = done.length
  lineDelta : mapper.deltaOldToNewLineCount =
    (extent (textAfter done)).lineCount - (extent (textBefore done)).lineCount
  columnDelta : done = [] ∧ mapper.deltaLineIdxInOld = -1 ∨
    mapper.deltaLineIdxInOld = (extent (textBefore done)).lineCount ∧
      mapper.deltaOldToNewColumnCount =
        (extent (textAfter done)).columnCount - (extent (textBefore done)).columnCount

theorem hasPassed_new (stretches : List Stretch) :
    HasPassed stretches (new (editInfos [] stretches)) [] where
  edits := rfl
  nextEditIdx := rfl
  lineDelta := by simp [new]
  columnDelta := Or.inl ⟨rfl, rfl⟩

namespace HasPassed

variable {stretches done rest : List Stretch} {mapper : BeforeEditPositionMapper}
  {stretch : Stretch} {tail : Str}

/-- Text behind the passed edits moves along with their end. -/
theorem translateOldToCur (h : HasPassed stretches mapper done) (text : Str) :
    mapper.translateOldToCur (objOf (extent (textBefore done ++ text))) =
      lengthOf (textAfter done ++ text) := by
  have hline := h.lineDelta
  change _ = toLength _ _
  rw [extent_append, extent_append, lineCount_add, columnCount_add]
  unfold BeforeEditPositionMapper.translateOldToCur objOf
  simp only [lineCount_add, columnCount_add]
  rcases h.columnDelta with ⟨rfl, hnone⟩ | ⟨hold, hcolumn⟩
  · rw [if_neg (by omega)]
    simp only [textBefore_nil, textAfter_nil] at hline ⊢
    congr 1
    omega
  · by_cases hsame : (extent text).lineCount = 0
    · rw [if_pos (by omega)]
      simp only [hsame, if_true]
      congr 1 <;> omega
    · rw [if_neg (by omega)]
      simp only [hsame, if_false]
      congr 1
      omega

/-- And back. -/
theorem translateCurToOld (h : HasPassed stretches mapper done) {text : Str}
    (hrange : TextInRange (textAfter done ++ text)) :
    mapper.translateCurToOld (lengthOf (textAfter done ++ text)) =
      lengthOf (textBefore done ++ text) := by
  have hline := h.lineDelta
  unfold BeforeEditPositionMapper.translateCurToOld
  rw [lengthToObj_lengthOf hrange]
  change _ = toLength _ _
  rw [extent_append, extent_append, lineCount_add, columnCount_add]
  unfold objOf
  simp only [lineCount_add, columnCount_add]
  rcases h.columnDelta with ⟨rfl, hnone⟩ | ⟨hold, hcolumn⟩
  · have hzero : (extent (textAfter [])).lineCount = 0 := rfl
    have hzero' : (extent (textBefore [])).lineCount = 0 := rfl
    rw [if_neg (by omega)]
    congr 1
    omega
  · by_cases hsame : (extent text).lineCount = 0
    · rw [if_pos (by omega)]
      simp only [hsame, if_true]
      congr 1 <;> omega
    · rw [if_neg (by omega)]
      simp only [hsame, if_false]
      congr 1
      omega

theorem nextEdit (h : HasPassed (done ++ stretch :: rest) mapper done) :
    mapper.edits[mapper.nextEditIdx]? =
      some (TextEditInfoCache.ofEdit (editInfo (textBefore done) stretch)) := by
  rw [h.edits, h.nextEditIdx, editInfos_append]
  simp [editInfos]

theorem no_nextEdit (h : HasPassed done mapper done) :
    mapper.edits[mapper.nextEditIdx]? = none := by
  rw [h.edits, h.nextEditIdx]
  simp

/-- The end of the next edit in the text with the passed edits made. -/
theorem translate_endOffsetAfterObj (h : HasPassed (done ++ stretch :: rest) mapper done)
    (hrange : EditsInRange (done ++ stretch :: rest) tail) :
    mapper.translateOldToCur
        (TextEditInfoCache.ofEdit (editInfo (textBefore done) stretch)).endOffsetAfterObj =
      lengthOf (textAfter done ++ (stretch.gap ++ stretch.inserted)) := by
  have halone := hrange.alone done stretch rest rfl
  have hobj : (TextEditInfoCache.ofEdit (editInfo (textBefore done) stretch)).endOffsetAfterObj =
      objOf (extent (textBefore done ++ (stretch.gap ++ stretch.inserted))) := by
    simp only [TextEditInfoCache.ofEdit, editInfo]
    rw [halone.lengthAdd, lengthToObj_lengthOf halone, List.append_assoc]
  rw [hobj, h.translateOldToCur]

/-- Passing the next edit. -/
theorem skipEdit (h : HasPassed (done ++ stretch :: rest) mapper done)
    (hrange : EditsInRange (done ++ stretch :: rest) tail) :
    HasPassed (done ++ stretch :: rest)
      (mapper.skipEdit (TextEditInfoCache.ofEdit (editInfo (textBefore done) stretch)))
      (done ++ [stretch]) := by
  have hold : TextInRange (textBefore done ++ (stretch.gap ++ stretch.removed)) :=
    hrange.before.of_prefix ⟨textBefore rest ++ tail, by simp⟩
  have hnew : TextInRange (textAfter done ++ (stretch.gap ++ stretch.inserted)) :=
    hrange.after.of_prefix ⟨textAfter rest ++ tail, by simp⟩
  have hunmade : TextInRange (textAfter done ++ (stretch.gap ++ stretch.removed)) := by
    rw [← List.append_assoc]
    exact hrange.unmade done stretch rest rfl
  have hbefore : (TextEditInfoCache.ofEdit (editInfo (textBefore done) stretch)).endOffsetBeforeObj =
      objOf (extent (textBefore done ++ (stretch.gap ++ stretch.removed))) := by
    simp only [TextEditInfoCache.ofEdit, editInfo, List.append_assoc]
    exact lengthToObj_lengthOf hold
  have hline := h.lineDelta
  have hbefores : textBefore (done ++ [stretch]) =
      textBefore done ++ (stretch.gap ++ stretch.removed) := by simp
  have hafters : textAfter (done ++ [stretch]) =
      textAfter done ++ (stretch.gap ++ stretch.inserted) := by simp
  unfold BeforeEditPositionMapper.skipEdit
  rw [h.translate_endOffsetAfterObj hrange, lengthToObj_lengthOf hnew, hbefore,
    h.translateOldToCur, lengthToObj_lengthOf hunmade]
  generalize hremoved : stretch.gap ++ stretch.removed = removed at *
  constructor
  · exact h.edits
  · simp [h.nextEditIdx]
  · simp only [hbefores, hafters, objOf, extent_append, lineCount_add] at hline ⊢
    push_cast
    omega
  · right
    refine ⟨by rw [hbefores]; rfl, ?_⟩
    rw [hbefores, hafters]
    generalize textAfter done ++ (stretch.gap ++ stretch.inserted) = newEnd
    simp only [objOf, extent_append, lineCount_add, columnCount_add]
    push_cast
    rcases h.columnDelta with ⟨rfl, hnone⟩ | ⟨hline, hcolumn⟩
    · have hzero : (extent (textAfter [])).columnCount = 0 := rfl
      have hzero' : (extent (textBefore [])).columnCount = 0 := rfl
      rw [if_neg (by omega)]
      split_ifs <;> omega
    · split_ifs <;> omega

/-- The mapper stops in front of the first edit that ends behind the offset. -/
theorem adjustNextEdit (hrange : EditsInRange (done ++ rest) tail)
    (h : HasPassed (done ++ rest) mapper done) (offset : Length) :
    ∃ passed left, rest = passed ++ left ∧
      HasPassed (done ++ rest) (mapper.adjustNextEdit offset) (done ++ passed) ∧
      (passed ≠ [] → lengthOf (textAfter (done ++ passed)) ≤ offset) ∧
      ∀ next ∈ left.head?,
        offset < lengthOf (textAfter (done ++ passed) ++ (next.gap ++ next.inserted)) := by
  induction rest generalizing done mapper with
  | nil =>
    rw [List.append_nil] at h ⊢
    refine ⟨[], [], rfl, ?_, by simp, by simp⟩
    rw [List.append_nil, adjustNextEdit_none h.no_nextEdit]
    exact h
  | cons stretch rest ih =>
    rw [adjustNextEdit_some h.nextEdit, h.translate_endOffsetAfterObj hrange]
    split_ifs with hle
    · have hskip := h.skipEdit hrange
      have hassoc : done ++ stretch :: rest = done ++ [stretch] ++ rest := by simp
      rw [hassoc] at hskip hrange ⊢
      obtain ⟨passed, left, rfl, hpassed, hend, hnext⟩ := ih hrange hskip
      refine ⟨stretch :: passed, left, rfl, ?_, ?_, ?_⟩
      · rw [← List.append_assoc] at hpassed
        simpa using hpassed
      · intro _
        cases passed with
        | nil => simpa using hle
        | cons next passed => simpa using hend (by simp)
      · simpa using hnext
    · refine ⟨[], stretch :: rest, rfl, by simpa using h, by simp, ?_⟩
      rintro next hnext
      cases hnext
      simpa using hle

theorem offsetObj (h : HasPassed (done ++ stretch :: rest) mapper done)
    (hrange : EditsInRange (done ++ stretch :: rest) tail) :
    mapper.translateOldToCur
        (TextEditInfoCache.ofEdit (editInfo (textBefore done) stretch)).offsetObj =
      lengthOf (textAfter done ++ stretch.gap) := by
  have hold : TextInRange (textBefore done ++ stretch.gap) :=
    hrange.before.of_prefix ⟨stretch.removed ++ textBefore rest ++ tail, by simp⟩
  have hobj : (TextEditInfoCache.ofEdit (editInfo (textBefore done) stretch)).offsetObj =
      objOf (extent (textBefore done ++ stretch.gap)) := lengthToObj_lengthOf hold
  rw [hobj, h.translateOldToCur]

end HasPassed

/-- The edits of `done` end at or in front of the offset, the next one behind it. -/
def Separates (offset : Length) (done rest : List Stretch) : Prop :=
  (done ≠ [] → lengthOf (textAfter done) ≤ offset) ∧
    ∀ next ∈ rest.head?, offset < lengthOf (textAfter done ++ (next.gap ++ next.inserted))

/-- No edit behind the place ends in front of the offset. -/
theorem Separates.not_le {offset : Length} {done rest more : List Stretch} {next : Stretch}
    (h : Separates offset done rest) (hnext : next ∈ rest.head?)
    (hrange : TextInRange (textAfter (done ++ next :: more))) :
    ¬ lengthOf (textAfter (done ++ next :: more)) ≤ offset := by
  intro hle
  have hlt := h.2 next hnext
  have hwhole : textAfter (done ++ next :: more) =
      textAfter done ++ (next.gap ++ next.inserted) ++ textAfter more := by simp
  rw [hwhole] at hrange hle
  exact absurd (hrange.lengthOf_le.trans hle) (not_le_of_gt hlt)

/-- There is one such place among the edits. -/
theorem Separates.unique {offset : Length} {done rest passed left : List Stretch}
    (hrange : TextInRange (textAfter (done ++ rest))) (hsame : done ++ rest = passed ++ left)
    (h : Separates offset done rest) (h' : Separates offset passed left) : done = passed := by
  rcases List.append_eq_append_iff.mp hsame with ⟨more, rfl, rfl⟩ | ⟨more, rfl, rfl⟩
  · cases more with
    | nil => simp
    | cons next more =>
      have hin := hrange.of_prefix (u := textAfter (done ++ next :: more)) ⟨textAfter left, by simp⟩
      exact absurd (h'.1 (by simp)) (h.not_le (by simp) hin)
  · cases more with
    | nil => simp
    | cons next more =>
      have hin := hrange.of_prefix (u := textAfter (passed ++ next :: more)) ⟨textAfter rest, by simp⟩
      exact absurd (h.1 (by simp)) (h'.not_le (by simp) hin)

/-- The mapper after questions is in front of the first edit that ends behind all of them. -/
theorem hasPassed_ask {stretches : List Stretch} {tail : Str} (hrange : EditsInRange stretches tail)
    (queries : List Query) :
    ∃ done rest, stretches = done ++ rest ∧
      HasPassed stretches (queries.foldl ask (new (editInfos [] stretches))) done ∧
      (done ≠ [] → ∃ query ∈ queries, lengthOf (textAfter done) ≤ query.offset) := by
  induction queries using List.reverseRecOn with
  | nil => exact ⟨[], stretches, rfl, hasPassed_new stretches, by simp⟩
  | append_singleton queries query ih =>
    obtain ⟨done, rest, rfl, hpassed, hend⟩ := ih
    obtain ⟨passed, left, rfl, hadjusted, hpassedend, -⟩ :=
      hpassed.adjustNextEdit hrange query.offset
    refine ⟨done ++ passed, left, by simp, ?_, ?_⟩
    · rw [List.foldl_concat, ask_eq]
      exact hadjusted
    · intro hne
      cases passed with
      | nil =>
        rw [List.append_nil] at hne ⊢
        obtain ⟨earlier, hearlier, hle⟩ := hend hne
        exact ⟨earlier, by simp [hearlier], hle⟩
      | cons next passed => exact ⟨query, by simp, hpassedend (by simp)⟩

/-- Behind questions about smaller offsets, the mapper adjusts to the place of an offset. -/
theorem hasPassed_adjustNextEdit {done rest : List Stretch} {tail : Str} {offset : Length}
    (hrange : EditsInRange (done ++ rest) tail) (queries : List Query)
    (hqueries : ∀ query ∈ queries, query.offset ≤ offset) (hplace : Separates offset done rest) :
    HasPassed (done ++ rest)
      ((queries.foldl ask (new (editInfos [] (done ++ rest)))).adjustNextEdit offset) done := by
  obtain ⟨asked, rest', hsplit, hpassed, hend⟩ := hasPassed_ask hrange queries
  rw [hsplit] at hpassed hrange ⊢
  obtain ⟨passed, left, rfl, hadjusted, hpassedend, hnext⟩ := hpassed.adjustNextEdit hrange offset
  have hplace' : Separates offset (asked ++ passed) left := by
    refine ⟨?_, hnext⟩
    intro hne
    cases passed with
    | nil =>
      rw [List.append_nil] at hne ⊢
      obtain ⟨query, hquery, hle⟩ := hend hne
      exact hle.trans (hqueries query hquery)
    | cons next passed => exact hpassedend (by simp)
  have hsame : done ++ rest = asked ++ passed ++ left := by rw [hsplit, List.append_assoc]
  have hafter : TextInRange (textAfter (done ++ rest)) := by
    rw [hsplit]
    exact hrange.after.left
  rw [hplace.unique hafter hsame hplace']
  exact hadjusted

/-- What stays behind the passed edits, up to the next edit. -/
def gapBehind (tail : Str) : List Stretch → Str
  | [] => tail
  | stretch :: _ => stretch.gap

/-- An offset that is not inside inserted text: the edits of `done` end there or in front of it,
`front` is what stays behind them, and `behind` what stays up to the next edit, which does not end
there too. -/
structure Stays (stretches : List Stretch) (tail : Str) (done rest : List Stretch)
    (front behind : Str) : Prop where
  split : stretches = done ++ rest
  gap : gapBehind tail rest = front ++ behind
  next : ∀ stretch ∈ rest.head?, behind = [] → stretch.inserted ≠ []

/-- An offset inside an edit, in front of the end of its inserted text. -/
structure Inside (stretches done rest : List Stretch) (stretch : Stretch) (front behind : Str) :
    Prop where
  split : stretches = done ++ stretch :: rest
  inserted : stretch.inserted = front ++ behind
  behind : behind ≠ []

theorem Stays.inRange {stretches done rest : List Stretch} {tail front behind : Str}
    (h : Stays stretches tail done rest front behind) (hrange : EditsInRange stretches tail) :
    TextInRange (textAfter done ++ front ++ behind) := by
  obtain ⟨rfl, hgap, -⟩ := h
  rw [List.append_assoc, ← hgap]
  refine hrange.after.of_prefix ?_
  cases rest with
  | nil => simp [gapBehind]
  | cons stretch rest => exact ⟨stretch.inserted ++ textAfter rest ++ tail, by simp [gapBehind]⟩

theorem Stays.separates {stretches done rest : List Stretch} {tail front behind : Str}
    (h : Stays stretches tail done rest front behind) (hrange : EditsInRange stretches tail) :
    Separates (lengthOf (textAfter done ++ front)) done rest := by
  have hin := h.inRange hrange
  obtain ⟨rfl, hgap, hnext⟩ := h
  refine ⟨fun _ => hin.left.lengthOf_le, ?_⟩
  intro stretch hstretch
  obtain ⟨rest, rfl⟩ : ∃ others, rest = stretch :: others := by
    cases rest with
    | nil => simp at hstretch
    | cons first others => exact ⟨others, by simpa using hstretch⟩
  have hwhole : TextInRange (textAfter done ++ front ++ (behind ++ stretch.inserted)) := by
    refine hrange.after.of_prefix ⟨textAfter rest ++ tail, ?_⟩
    simp [show stretch.gap = front ++ behind from hgap]
  have hne : behind ++ stretch.inserted ≠ [] := by
    intro hnil
    rw [List.append_eq_nil_iff] at hnil
    exact hnext stretch hstretch hnil.1 hnil.2
  have hlt := hwhole.lengthOf_lt hne
  simpa [show stretch.gap = front ++ behind from hgap] using hlt

theorem Inside.inRange {stretches done rest : List Stretch} {stretch : Stretch}
    {tail front behind : Str} (h : Inside stretches done rest stretch front behind)
    (hrange : EditsInRange stretches tail) :
    TextInRange (textAfter done ++ stretch.gap ++ front ++ behind) := by
  obtain ⟨rfl, hinserted, -⟩ := h
  exact hrange.after.of_prefix ⟨textAfter rest ++ tail, by simp [hinserted]⟩

theorem Inside.separates {stretches done rest : List Stretch} {stretch : Stretch}
    {tail front behind : Str} (h : Inside stretches done rest stretch front behind)
    (hrange : EditsInRange stretches tail) :
    Separates (lengthOf (textAfter done ++ stretch.gap ++ front)) done (stretch :: rest) := by
  have hin := h.inRange hrange
  obtain ⟨rfl, hinserted, hne⟩ := h
  constructor
  · intro _
    have hfront := hin.left
    rw [List.append_assoc] at hfront ⊢
    exact hfront.lengthOf_le
  · intro next hnext
    cases hnext
    have hlt := hin.lengthOf_lt hne
    simpa [hinserted] using hlt

/-- In text that stays, the offset in front of the edits and the distance to the next edit. -/
theorem Stays.answers {stretches done rest : List Stretch} {tail front behind : Str}
    (h : Stays stretches tail done rest front behind) (hrange : EditsInRange stretches tail)
    (queries : List Query)
    (hqueries : ∀ query ∈ queries, query.offset ≤ lengthOf (textAfter done ++ front)) :
    let mapper := queries.foldl ask (new (editInfos [] stretches))
    (mapper.getOffsetBeforeChange (lengthOf (textAfter done ++ front))).2 =
        lengthOf (textBefore done ++ front) ∧
      (mapper.getDistanceToNextChange (lengthOf (textAfter done ++ front))).2 =
        rest.head?.map fun _ => lengthOf behind := by
  intro mapper
  have hin := h.inRange hrange
  have hplace := h.separates hrange
  obtain ⟨rfl, hgap, -⟩ := h
  have hpassed := hasPassed_adjustNextEdit hrange queries hqueries hplace
  refine ⟨hpassed.translateCurToOld hin.left, ?_⟩
  unfold getDistanceToNextChange
  dsimp only
  cases rest with
  | nil =>
    rw [List.append_nil] at hpassed
    have hnone := hpassed.no_nextEdit
    simp only [mapper, List.append_nil] at hnone ⊢
    simp [hnone]
  | cons stretch rest =>
    rw [hpassed.nextEdit, Option.map_some, hpassed.offsetObj hrange,
      show stretch.gap = front ++ behind from hgap, ← List.append_assoc, Option.map_some,
      hin.lengthDiffNonNegative]
    rfl

/-- Inside an edit the distance is zero. -/
theorem Inside.answer {stretches done rest : List Stretch} {stretch : Stretch}
    {tail front behind : Str} (h : Inside stretches done rest stretch front behind)
    (hrange : EditsInRange stretches tail) (queries : List Query)
    (hqueries : ∀ query ∈ queries,
      query.offset ≤ lengthOf (textAfter done ++ stretch.gap ++ front)) :
    let mapper := queries.foldl ask (new (editInfos [] stretches))
    (mapper.getDistanceToNextChange (lengthOf (textAfter done ++ stretch.gap ++ front))).2 =
      some 0 := by
  intro mapper
  have hin := h.inRange hrange
  have hplace := h.separates hrange
  obtain ⟨rfl, -, -⟩ := h
  have hpassed := hasPassed_adjustNextEdit hrange queries hqueries hplace
  unfold getDistanceToNextChange
  dsimp only
  rw [hpassed.nextEdit, Option.map_some, hpassed.offsetObj hrange, Option.map_some,
    lengthDiffNonNegative_of_le hin.left.lengthOf_le]

/-- Every offset of the new text is in text that stays or inside an edit. -/
theorem stays_or_inside (stretches : List Stretch) (tail newFront : Str)
    (h : newFront <+: textAfter stretches ++ tail) :
    (∃ done rest front behind, Stays stretches tail done rest front behind ∧
      newFront = textAfter done ++ front) ∨
    ∃ done rest stretch front behind, Inside stretches done rest stretch front behind ∧
      newFront = textAfter done ++ stretch.gap ++ front := by
  induction stretches generalizing newFront with
  | nil =>
    obtain ⟨behind, hbehind⟩ := h
    exact Or.inl ⟨[], [], newFront, behind, ⟨rfl, hbehind.symm, by simp⟩, rfl⟩
  | cons stretch stretches ih =>
    -- behind the inserted text the offset is one of the other stretches
    have hbehind : ∀ more, more <+: textAfter stretches ++ tail →
        newFront = stretch.gap ++ stretch.inserted ++ more →
        (∃ done rest front behind, Stays (stretch :: stretches) tail done rest front behind ∧
          newFront = textAfter done ++ front) ∨
        ∃ done rest other front behind,
          Inside (stretch :: stretches) done rest other front behind ∧
          newFront = textAfter done ++ other.gap ++ front := by
      rintro more hmore rfl
      rcases ih more hmore with ⟨done, rest, front, behind, ⟨rfl, hgap, hnext⟩, rfl⟩ |
        ⟨done, rest, other, front, behind, ⟨rfl, hinserted, hne⟩, rfl⟩
      · exact Or.inl ⟨stretch :: done, rest, front, behind, ⟨rfl, hgap, hnext⟩, by simp⟩
      · exact Or.inr ⟨stretch :: done, rest, other, front, behind, ⟨rfl, hinserted, hne⟩, by simp⟩
    obtain ⟨back, hback⟩ := h
    rw [textAfter_cons, List.append_assoc, List.append_assoc] at hback
    rcases List.append_eq_append_iff.mp hback with ⟨behind, hgap, -⟩ | ⟨front, rfl, hfront⟩
    · by_cases hnext : behind = [] → stretch.inserted ≠ []
      · exact Or.inl ⟨[], stretch :: stretches, newFront, behind,
          ⟨rfl, hgap, by simpa using hnext⟩, rfl⟩
      · push Not at hnext
        obtain ⟨rfl, hnil⟩ := hnext
        exact hbehind [] (by simp) (by simp [hgap, hnil])
    · rcases List.append_eq_append_iff.mp hfront.symm with ⟨behind, hinserted, -⟩ | ⟨more, rfl, hmore⟩
      · by_cases hne : behind = []
        · exact hbehind [] (by simp) (by simp [hinserted, hne])
        · exact Or.inr ⟨[], stretches, stretch, front, behind, ⟨rfl, hinserted, hne⟩, rfl⟩
      · exact hbehind more ⟨back, hmore.symm⟩ (by simp)

/-- Behind questions about smaller offsets, an offset of the new text that is in text that stays is
mapped to that of the same character, with the distance to the next edit if there is one, and
inside an edit the distance is zero. There are no other offsets. -/
theorem mapper_answers {stretches : List Stretch} {tail : Str}
    (hrange : EditsInRange stretches tail) (queries : List Query) (newFront : Str)
    (hfront : newFront <+: textAfter stretches ++ tail)
    (hqueries : ∀ query ∈ queries, query.offset ≤ lengthOf newFront) :
    let mapper := queries.foldl ask (new (editInfos [] stretches))
    (∀ done rest front behind, Stays stretches tail done rest front behind →
      newFront = textAfter done ++ front →
      (mapper.getOffsetBeforeChange (lengthOf newFront)).2 = lengthOf (textBefore done ++ front) ∧
      (mapper.getDistanceToNextChange (lengthOf newFront)).2 =
        rest.head?.map fun _ => lengthOf behind) ∧
    (∀ done rest stretch front behind, Inside stretches done rest stretch front behind →
      newFront = textAfter done ++ stretch.gap ++ front →
      (mapper.getDistanceToNextChange (lengthOf newFront)).2 = some 0) ∧
    ((∃ done rest front behind, Stays stretches tail done rest front behind ∧
      newFront = textAfter done ++ front) ∨
    ∃ done rest stretch front behind, Inside stretches done rest stretch front behind ∧
      newFront = textAfter done ++ stretch.gap ++ front) := by
  intro mapper
  refine ⟨?_, ?_, stays_or_inside stretches tail newFront hfront⟩
  · rintro done rest front behind hstays rfl
    exact hstays.answers hrange queries hqueries
  · rintro done rest stretch front behind hinside rfl
    exact hinside.answer hrange queries hqueries

/-- The text `abc` with `b` replaced by two characters on two lines, asked about its end. -/
theorem mapper_answers_replaced :
    let stretches : List Stretch := [⟨ascii "a", ascii "b", ascii "x" ++ LineFeed :: ascii "y"⟩]
    let mapper := new (editInfos [] stretches)
    (mapper.getOffsetBeforeChange (lengthOf (textAfter stretches ++ ascii "c"))).2 =
        lengthOf (textBefore stretches ++ ascii "c") ∧
      (mapper.getDistanceToNextChange (lengthOf (textAfter stretches ++ ascii "c"))).2 = none := by
  intro stretches mapper
  have hrange : EditsInRange stretches (ascii "c") := by
    have hshort : ∀ {text : Str}, text.length < 9 → TextInRange text := by
      intro text hlen
      apply textInRange_of_length
      rw [factor_eq]
      omega
    refine ⟨hshort (by decide), hshort (by decide), ?_, ?_⟩
    all_goals
      intro done stretch rest hsplit
      cases done with
      | nil =>
        simp only [stretches, List.nil_append, List.cons.injEq] at hsplit
        obtain ⟨rfl, -⟩ := hsplit
        exact hshort (by decide)
      | cons first done => simp [stretches] at hsplit
  exact (mapper_answers hrange [] _ List.prefix_rfl (by simp)).1 stretches [] (ascii "c") []
    ⟨by simp, by simp [gapBehind], by simp⟩ rfl

/-- A line of columns that is removed behind inserted columns. -/
def longLineEdits (inserted removed : ℕ) : List Stretch :=
  [⟨[], [], List.replicate inserted 120⟩, ⟨[], List.replicate removed 97, []⟩]

theorem textBefore_longLineEdits (inserted removed : ℕ) :
    textBefore (longLineEdits inserted removed) = List.replicate removed 97 := by
  simp [longLineEdits]

theorem textAfter_longLineEdits (inserted removed : ℕ) :
    textAfter (longLineEdits inserted removed) = List.replicate inserted 120 := by
  simp [longLineEdits]

theorem editInfos_longLineEdits (inserted removed : ℕ) :
    editInfos [] (longLineEdits inserted removed) =
      [⟨0, 0, inserted⟩, ⟨0, removed, 0⟩] := by
  have hinserted := lengthOf_replicate (c := 120) (by decide) inserted
  have hremoved := lengthOf_replicate (c := 97) (by decide) removed
  simp [longLineEdits, editInfos, editInfo, hinserted, hremoved]

/-- The lengths of the edits and the lines of both texts keep within 26 bits, but not the line
with only the first edit made: the end of the new text is not mapped to that of the old one. -/
theorem mapper_longLine :
    let stretches := longLineEdits (2 ^ 25) (2 ^ 26 - 1)
    let mapper := new (editInfos [] stretches)
    TextInRange (textBefore stretches) ∧ TextInRange (textAfter stretches) ∧
      editInfos [] stretches = [⟨0, 0, 2 ^ 25⟩, ⟨0, 2 ^ 26 - 1, 0⟩] ∧
      Stays stretches [] stretches [] [] [] ∧
      (mapper.getOffsetBeforeChange (lengthOf (textAfter stretches))).2 = toLength 1 (2 ^ 25) ∧
      (mapper.getOffsetBeforeChange (lengthOf (textAfter stretches))).2 ≠
        lengthOf (textBefore stretches) := by
  intro stretches mapper
  have hmapper : mapper = ⟨0, 0, 0, -1, [⟨⟨0, 0⟩, ⟨0, 2 ^ 25⟩, ⟨0, 0⟩⟩,
      ⟨⟨0, 2 ^ 26 - 1⟩, ⟨0, 0⟩, ⟨0, 0⟩⟩]⟩ := by
    simp only [mapper, stretches, editInfos_longLineEdits]
    rfl
  have hoffset : lengthOf (textAfter stretches) = 2 ^ 25 := by
    simp only [stretches]
    rw [textAfter_longLineEdits, lengthOf_replicate (by decide)]
    rfl
  have hanswer : (mapper.getOffsetBeforeChange (lengthOf (textAfter stretches))).2 =
      toLength 1 (2 ^ 25) := by
    rw [hoffset, hmapper]
    unfold getOffsetBeforeChange
    rw [adjustNextEdit_some rfl, if_pos (by decide), adjustNextEdit_some rfl,
      if_pos (by decide), adjustNextEdit_none rfl]
    decide
  have hend : lengthOf (textBefore stretches) = toLength 0 (2 ^ 26 - 1) := by
    simp only [stretches]
    rw [textBefore_longLineEdits, lengthOf_replicate (by decide)]
    rfl
  refine ⟨?_, ?_, editInfos_longLineEdits _ _,
    ⟨(List.append_nil _).symm, rfl, fun _ h => nomatch h⟩, hanswer, ?_⟩
  · simp only [stretches]
    rw [textBefore_longLineEdits]
    exact textInRange_replicate 97 (by decide)
  · simp only [stretches]
    rw [textAfter_longLineEdits]
    exact textInRange_replicate 120 (by decide)
  · rw [hanswer, hend]
    decide

end NexgileIde.BracketPairs
