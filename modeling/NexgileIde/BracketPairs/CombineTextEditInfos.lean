import NexgileIde.BracketPairs.TextEditInfo

/-!
# Composition of edit infos

The edits from `s0` to `s1` and those from `s1` to `s2` become queues of lengths
that are modified or not. What the second queue asks for of `s1` is taken from
the first one, whose items are split where they are longer.
-/
namespace NexgileIde.BracketPairs

open Text TextLength

structure LengthMapping where
  /-- If false, length before and length after equal. -/
  modified : Bool
  lengthBefore : Length
  lengthAfter : Length
  deriving DecidableEq, Repr

def LengthMapping.splitAt (mapping : LengthMapping) (lengthAfter : Length) :
    LengthMapping × Option LengthMapping :=
  let remainingLengthAfter := lengthDiffNonNegative lengthAfter mapping.lengthAfter
  if lengthEquals remainingLengthAfter lengthZero then (mapping, none)
  else if mapping.modified then
    (⟨mapping.modified, mapping.lengthBefore, lengthAfter⟩,
      some ⟨mapping.modified, lengthZero, remainingLengthAfter⟩)
  else
    (⟨mapping.modified, lengthAfter, lengthAfter⟩,
      some ⟨mapping.modified, remainingLengthAfter, remainingLengthAfter⟩)

/-- The loop of `toLengthMapping`. -/
def toLengthMappingFrom (lastOffset : Length) : List TextEditInfo → List LengthMapping
  | [] => []
  | textEditInfo :: textEditInfos =>
    let spaceLength := lengthDiffNonNegative lastOffset textEditInfo.startOffset
    let space := if lengthIsZero spaceLength then [] else [⟨false, spaceLength, spaceLength⟩]
    let lengthBefore := lengthDiffNonNegative textEditInfo.startOffset textEditInfo.endOffset
    space ++ ⟨true, lengthBefore, textEditInfo.newLength⟩ ::
      toLengthMappingFrom textEditInfo.endOffset textEditInfos

def toLengthMapping (textEditInfos : List TextEditInfo) : List LengthMapping :=
  toLengthMappingFrom lengthZero textEditInfos

/-- Where a remainder is left, the first part has the length asked for. -/
theorem LengthMapping.splitAt_some {mapping item remaining : LengthMapping} {lengthAfter : Length}
    (h : mapping.splitAt lengthAfter = (item, some remaining)) : item.lengthAfter = lengthAfter := by
  unfold splitAt at h
  dsimp only at h
  split_ifs at h <;> cases h <;> rfl

/-- The loop of `nextS0ToS1MapWithS1LengthOf` for a length: what is taken, then the item and the
queue that are left. -/
def takeLength (s1Length : Length) (curItem : Option LengthMapping)
    (s0ToS1Map : List LengthMapping) :
    List LengthMapping × Option LengthMapping × List LengthMapping :=
  if _hzero : lengthIsZero s1Length then ([], curItem, s0ToS1Map)
  else
    match curItem with
    | none => ([⟨false, s1Length, s1Length⟩], none, s0ToS1Map)
    | some curItem =>
      match _hsplit : curItem.splitAt s1Length with
      | (item, some remainingItem) =>
        let rest := takeLength (lengthDiffNonNegative item.lengthAfter s1Length)
          (some remainingItem) s0ToS1Map
        (item :: rest.1, rest.2)
      | (item, none) =>
        let rest := takeLength (lengthDiffNonNegative item.lengthAfter s1Length)
          s0ToS1Map.head? s0ToS1Map.tail
        (item :: rest.1, rest.2)
termination_by (s0ToS1Map.length + curItem.toList.length, if lengthIsZero s1Length then 0 else 1)
decreasing_by
  · rw [LengthMapping.splitAt_some _hsplit, lengthDiffNonNegative_of_le le_rfl]
    apply Prod.Lex.right
    rw [if_pos (by decide), if_neg _hzero]
    exact Nat.one_pos
  · apply Prod.Lex.left
    cases s0ToS1Map <;> simp

/-- `nextS0ToS1MapWithS1LengthOf`, with `none` for the length "infinity". -/
def nextS0ToS1MapWithS1LengthOf (s1Length : Option Length) (curItem : Option LengthMapping)
    (s0ToS1Map : List LengthMapping) :
    List LengthMapping × Option LengthMapping × List LengthMapping :=
  match s1Length with
  | none => (curItem.toList ++ s0ToS1Map, curItem, [])
  | some s1Length => takeLength s1Length curItem s0ToS1Map

def pushEdit (result : List TextEditInfo) (startOffset endOffset newLength : Length) :
    List TextEditInfo :=
  match result.getLast? with
  | some lastResult =>
    if lengthEquals lastResult.endOffset startOffset then
      result.dropLast ++
        [⟨lastResult.startOffset, endOffset, lengthAdd lastResult.newLength newLength⟩]
    else result ++ [⟨startOffset, endOffset, newLength⟩]
  | none => result ++ [⟨startOffset, endOffset, newLength⟩]

/-- An item of `s1ToS2Map`; `copyRest` is the last one, without lengths. -/
inductive S1ToS2
  | copyOrEdit (mapping : LengthMapping)
  | copyRest

def S1ToS2.lengthBefore : S1ToS2 → Option Length
  | copyOrEdit mapping => some mapping.lengthBefore
  | copyRest => none

structure CombineState where
  curItem : Option LengthMapping
  s0ToS1Map : List LengthMapping
  result : List TextEditInfo
  s0offset : Length

/-- An item of `s0ToS1Map` that the second edits leave alone. -/
def copyItem (state : CombineState) (s1 : LengthMapping) : CombineState :=
  let s0offset := lengthAdd state.s0offset s1.lengthBefore
  { state with
    s0offset := s0offset
    result :=
      if s1.modified then pushEdit state.result state.s0offset s0offset s1.lengthAfter
      else state.result }

/-- The body of the loop over `s1ToS2Map`. -/
def combineItem (state : CombineState) (s1ToS2 : S1ToS2) : CombineState :=
  let (s0ToS1, curItem, s0ToS1Map) :=
    nextS0ToS1MapWithS1LengthOf s1ToS2.lengthBefore state.curItem state.s0ToS1Map
  let state := { state with curItem := curItem, s0ToS1Map := s0ToS1Map }
  match s1ToS2 with
  | .copyOrEdit ⟨true, _, lengthAfter⟩ =>
    let s0EndOffset := lengthAdd state.s0offset (sumLengths s0ToS1 LengthMapping.lengthBefore)
    { state with
      result := pushEdit state.result state.s0offset s0EndOffset lengthAfter
      s0offset := s0EndOffset }
  | _ => s0ToS1.foldl copyItem state

def combineTextEditInfos (textEditInfoFirst textEditInfoSecond : List TextEditInfo) :
    List TextEditInfo :=
  if textEditInfoFirst.isEmpty then textEditInfoSecond
  else if textEditInfoSecond.isEmpty then textEditInfoFirst
  else
    let s0ToS1Map := toLengthMapping textEditInfoFirst
    let s1ToS2Map := (toLengthMapping textEditInfoSecond).map .copyOrEdit ++ [.copyRest]
    let state : CombineState := ⟨s0ToS1Map.head?, s0ToS1Map.tail, [], lengthZero⟩
    (s1ToS2Map.foldl combineItem state).result

end NexgileIde.BracketPairs

/-!
## The composed edits describe the composed change

The lengths in the queues are those of texts. Taking a length takes the text of
that length, and what has been put out describes the texts passed so far.
-/
namespace NexgileIde.BracketPairs

open Text TextLength

/-- The texts whose lengths an item of a queue has. -/
structure MappedText where
  modified : Bool
  before : Str
  after : Str
  same : modified = false → before = after

namespace MappedText

def toMapping (item : MappedText) : LengthMapping :=
  ⟨item.modified, lengthOf item.before, lengthOf item.after⟩

/-- Text that stays. -/
def kept (text : Str) : MappedText := ⟨false, text, text, fun _ => rfl⟩

def replaced (removed inserted : Str) : MappedText := ⟨true, removed, inserted, nofun⟩

def allBefore (items : List MappedText) : Str := items.flatMap before

def allAfter (items : List MappedText) : Str := items.flatMap after

@[simp] theorem allBefore_nil : allBefore [] = [] := rfl

@[simp] theorem allAfter_nil : allAfter [] = [] := rfl

@[simp] theorem allBefore_cons (item : MappedText) (items : List MappedText) :
    allBefore (item :: items) = item.before ++ allBefore items := rfl

@[simp] theorem allAfter_cons (item : MappedText) (items : List MappedText) :
    allAfter (item :: items) = item.after ++ allAfter items := rfl

@[simp] theorem allBefore_append (items others : List MappedText) :
    allBefore (items ++ others) = allBefore items ++ allBefore others := List.flatMap_append

@[simp] theorem allAfter_append (items others : List MappedText) :
    allAfter (items ++ others) = allAfter items ++ allAfter others := List.flatMap_append

/-- An item whose text is all taken. -/
theorem splitAt_whole {item : MappedText} {back : Str} (h : TextInRange (item.after ++ back)) :
    item.toMapping.splitAt (lengthOf (item.after ++ back)) = (item.toMapping, none) := by
  unfold LengthMapping.splitAt toMapping
  rw [lengthDiffNonNegative_of_le h.lengthOf_le]
  rfl

/-- An item whose text is longer than what is asked for. -/
theorem splitAt_part {item : MappedText} {front back : Str} (hitem : item.after = front ++ back)
    (h : TextInRange item.after) (hback : back ≠ []) :
    ∃ first second : MappedText,
      item.toMapping.splitAt (lengthOf front) = (first.toMapping, some second.toMapping) ∧
      first.after = front ∧ second.after = back ∧ first.before ++ second.before = item.before := by
  rw [hitem] at h
  have hdiff : lengthDiffNonNegative (lengthOf front) (lengthOf item.after) = lengthOf back := by
    rw [hitem]
    exact h.lengthDiffNonNegative
  have hne : ¬ lengthOf back = 0 := by
    rw [lengthOf_eq_zero_iff]
    exact hback
  unfold LengthMapping.splitAt toMapping
  simp only [hdiff, lengthEquals, lengthZero, hne, decide_false, Bool.false_eq_true, if_false]
  cases hmodified : item.modified with
  | true => exact ⟨replaced item.before front, replaced [] back, by simp [replaced], rfl, rfl,
      by simp [replaced]⟩
  | false =>
    exact ⟨kept front, kept back, by simp [kept], rfl, rfl, by
      rw [item.same hmodified, hitem]
      rfl⟩

end MappedText

open MappedText

theorem takeLength_zero (curItem : Option LengthMapping) (s0ToS1Map : List LengthMapping) :
    takeLength 0 curItem s0ToS1Map = ([], curItem, s0ToS1Map) := by
  rw [takeLength.eq_def, dif_pos (show lengthIsZero 0 = true from rfl)]

theorem takeLength_none {s1Length : Length} (h : s1Length ≠ 0) (s0ToS1Map : List LengthMapping) :
    takeLength s1Length none s0ToS1Map =
      ([⟨false, s1Length, s1Length⟩], none, s0ToS1Map) := by
  rw [takeLength]
  simp [lengthIsZero, h]

theorem takeLength_whole {s1Length : Length} (h : s1Length ≠ 0) {curItem item : LengthMapping}
    (hsplit : curItem.splitAt s1Length = (item, none)) (s0ToS1Map : List LengthMapping) :
    takeLength s1Length (some curItem) s0ToS1Map =
      (item :: (takeLength (lengthDiffNonNegative item.lengthAfter s1Length)
        s0ToS1Map.head? s0ToS1Map.tail).1,
      (takeLength (lengthDiffNonNegative item.lengthAfter s1Length)
        s0ToS1Map.head? s0ToS1Map.tail).2) := by
  rw [takeLength, dif_neg (by simpa [lengthIsZero] using h)]
  dsimp only
  split
  · rename_i hsome
    rw [hsplit] at hsome
    cases hsome
  · rename_i hnone
    rw [hsplit] at hnone
    cases hnone
    rfl

theorem takeLength_part {s1Length : Length} (h : s1Length ≠ 0)
    {curItem item remainingItem : LengthMapping}
    (hsplit : curItem.splitAt s1Length = (item, some remainingItem))
    (s0ToS1Map : List LengthMapping) :
    takeLength s1Length (some curItem) s0ToS1Map = ([item], some remainingItem, s0ToS1Map) := by
  rw [takeLength, dif_neg (by simpa [lengthIsZero] using h)]
  dsimp only
  split
  · rename_i hsome
    rw [hsplit] at hsome
    cases hsome
    rw [LengthMapping.splitAt_some hsplit, lengthDiffNonNegative_of_le le_rfl, takeLength_zero]
  · rename_i hnone
    rw [hsplit] at hnone
    cases hnone

/-- Taking the length of a text takes this text from the items, and from the text behind them where
they end before. -/
theorem takeLength_spec (items : List MappedText) {tail : Str} {text rest : Str}
    (h : allAfter items ++ tail = text ++ rest) (hrange : TextInRange (text ++ rest)) :
    ∃ taken left tail', takeLength (lengthOf text) (items.map toMapping).head?
        (items.map toMapping).tail =
          (taken.map toMapping, (left.map toMapping).head?, (left.map toMapping).tail) ∧
      allAfter taken = text ∧ allAfter left ++ tail' = rest ∧
      allBefore taken ++ (allBefore left ++ tail') = allBefore items ++ tail := by
  induction items generalizing text with
  | nil =>
    by_cases hnil : text = []
    · subst hnil
      refine ⟨[], [], tail, ?_, rfl, by simpa using h, rfl⟩
      rw [lengthOf_nil, takeLength_zero]
      rfl
    · refine ⟨[kept text], [], rest, ?_, by simp [kept], by simp, by simpa [kept] using h.symm⟩
      change takeLength (lengthOf text) none [] = _
      rw [takeLength_none (by rwa [ne_eq, lengthOf_eq_zero_iff])]
      rfl
  | cons item items ih =>
    by_cases hnil : text = []
    · subst hnil
      refine ⟨[], item :: items, tail, ?_, rfl, by simpa using h, rfl⟩
      rw [lengthOf_nil, takeLength_zero]
      rfl
    · have hne : lengthOf text ≠ 0 := by rwa [ne_eq, lengthOf_eq_zero_iff]
      -- the item is taken whole when its text is in front of the text asked for
      have hwhole : ∀ back, text = item.after ++ back → allAfter items ++ tail = back ++ rest →
          ∃ taken left tail', takeLength (lengthOf text) ((item :: items).map toMapping).head?
              ((item :: items).map toMapping).tail =
                (taken.map toMapping, (left.map toMapping).head?, (left.map toMapping).tail) ∧
            allAfter taken = text ∧ allAfter left ++ tail' = rest ∧
            allBefore taken ++ (allBefore left ++ tail') = allBefore (item :: items) ++ tail := by
        rintro back rfl hback
        rw [List.append_assoc] at hrange
        obtain ⟨taken, left, tail', htake, hafter, hrest, hbefore⟩ := ih hback hrange.right
        refine ⟨item :: taken, left, tail', ?_, by simp [hafter], hrest, by simp [hbefore]⟩
        have hin : TextInRange (item.after ++ back) := by
          rw [← List.append_assoc] at hrange
          exact hrange.left
        change takeLength (lengthOf (item.after ++ back)) (some item.toMapping)
          (items.map toMapping) = _
        rw [takeLength_whole hne (splitAt_whole hin),
          show item.toMapping.lengthAfter = lengthOf item.after from rfl,
          hin.lengthDiffNonNegative, htake]
        rfl
      rw [allAfter_cons, List.append_assoc] at h
      rcases List.append_eq_append_iff.mp h with ⟨back, htext, hback⟩ | ⟨back, hitem, hrest⟩
      · exact hwhole back htext hback
      · by_cases hback : back = []
        · subst hback
          exact hwhole [] (by simpa using hitem.symm) (by simpa using hrest.symm)
        · have hin : TextInRange item.after := by
            rw [hitem]
            rw [hrest, ← List.append_assoc] at hrange
            exact hrange.left
          obtain ⟨first, second, hsplit, hfirst, hsecond, hboth⟩ := splitAt_part hitem hin hback
          refine ⟨[first], second :: items, tail, ?_, by simp [hfirst], ?_, ?_⟩
          · exact takeLength_part hne hsplit (items.map toMapping)
          · rw [allAfter_cons, hsecond, hrest, List.append_assoc]
          · simp [← hboth]

/-- The texts of the queue that `toLengthMapping` makes of edits. -/
def mappedTexts (stretches : List Stretch) : List MappedText :=
  stretches.flatMap fun stretch =>
    (if stretch.gap = [] then [] else [kept stretch.gap]) ++
      [replaced stretch.removed stretch.inserted]

theorem mappedTexts_cons (stretch : Stretch) (stretches : List Stretch) :
    mappedTexts (stretch :: stretches) =
      (if stretch.gap = [] then [] else [kept stretch.gap]) ++
        replaced stretch.removed stretch.inserted :: mappedTexts stretches := by
  simp [mappedTexts]

theorem allBefore_mappedTexts (stretches : List Stretch) :
    allBefore (mappedTexts stretches) = textBefore stretches := by
  induction stretches with
  | nil => rfl
  | cons stretch stretches ih =>
    rw [mappedTexts_cons, allBefore_append, allBefore_cons, ih]
    split_ifs with hgap <;> simp [hgap, kept, replaced]

theorem allAfter_mappedTexts (stretches : List Stretch) :
    allAfter (mappedTexts stretches) = textAfter stretches := by
  induction stretches with
  | nil => rfl
  | cons stretch stretches ih =>
    rw [mappedTexts_cons, allAfter_append, allAfter_cons, ih]
    split_ifs with hgap <;> simp [hgap, kept, replaced]

theorem toLengthMappingFrom_editInfos {stretches : List Stretch} {front : Str}
    (h : TextInRange (front ++ textBefore stretches)) :
    toLengthMappingFrom (lengthOf front) (editInfos front stretches) =
      (mappedTexts stretches).map toMapping := by
  induction stretches generalizing front with
  | nil => rfl
  | cons stretch stretches ih =>
    have hassoc : front ++ textBefore (stretch :: stretches) =
        front ++ stretch.gap ++ stretch.removed ++ textBefore stretches := by simp
    rw [hassoc] at h
    rw [mappedTexts_cons]
    simp only [editInfos, editInfo, toLengthMappingFrom, h.left.left.lengthDiffNonNegative,
      h.left.lengthDiffNonNegative, ih h, lengthIsZero, lengthOf_eq_zero_iff, List.map_append,
      List.map_cons]
    congr 1
    split_ifs <;> simp_all [kept, toMapping]

theorem toLengthMapping_editInfos {stretches : List Stretch}
    (h : TextInRange (textBefore stretches)) :
    toLengthMapping (editInfos [] stretches) = (mappedTexts stretches).map toMapping := by
  have hfrom := toLengthMappingFrom_editInfos (show TextInRange ([] ++ textBefore stretches) from h)
  rwa [lengthOf_nil] at hfrom

/-- No two edits touch. -/
def Separated (stretches : List Stretch) : Prop := ∀ stretch ∈ stretches.tail, stretch.gap ≠ []

/-- What has been put out describes how the first text became the second. -/
def Outputs (result : List TextEditInfo) (before after : Str) : Prop :=
  ∃ stretches gap, before = textBefore stretches ++ gap ∧ after = textAfter stretches ++ gap ∧
    result = editInfos [] stretches ∧ Separated stretches

theorem outputs_nil : Outputs [] [] [] := ⟨[], [], rfl, rfl, rfl, nofun⟩

theorem Outputs.keep {result : List TextEditInfo} {before after : Str}
    (h : Outputs result before after) (text : Str) :
    Outputs result (before ++ text) (after ++ text) := by
  obtain ⟨stretches, gap, rfl, rfl, hresult, hseparated⟩ := h
  exact ⟨stretches, gap ++ text, by simp, by simp, hresult, hseparated⟩

/-- An edit that is put out extends the last one when it touches it. -/
theorem Outputs.pushEdit {result : List TextEditInfo} {before after removed inserted : Str}
    (h : Outputs result before after) (hbefore : TextInRange (before ++ removed))
    (hafter : TextInRange (after ++ inserted)) :
    Outputs (pushEdit result (lengthOf before) (lengthOf (before ++ removed)) (lengthOf inserted))
      (before ++ removed) (after ++ inserted) := by
  obtain ⟨stretches, gap, rfl, rfl, rfl, hseparated⟩ := h
  unfold BracketPairs.pushEdit
  rcases List.eq_nil_or_concat' stretches with rfl | ⟨earlier, last, rfl⟩
  · exact ⟨[⟨gap, removed, inserted⟩], [], by simp, by simp, by simp [editInfos, editInfo],
      by simp [Separated]⟩
  · have hinfos : editInfos [] (earlier ++ [last]) =
        editInfos [] earlier ++ [editInfo (textBefore earlier) last] := by
      rw [editInfos_append]
      rfl
    have hend : (editInfo (textBefore earlier) last).endOffset =
        lengthOf (textBefore (earlier ++ [last])) := by
      simp [editInfo]
    rw [hinfos, List.getLast?_concat]
    simp only [hend, lengthEquals, decide_eq_true_eq, List.dropLast_concat]
    by_cases hgap : gap = []
    · subst hgap
      rw [if_pos (by simp)]
      refine ⟨earlier ++ [⟨last.gap, last.removed ++ removed, last.inserted ++ inserted⟩], [],
        by simp, by simp, ?_, ?_⟩
      · have hinserted : TextInRange (last.inserted ++ inserted) := by
          rw [textAfter_append, textAfter_cons] at hafter
          simp only [List.append_nil, textAfter_nil, List.append_assoc] at hafter
          exact hafter.right.right
        rw [editInfos_append]
        simp [editInfos, editInfo, hinserted.lengthAdd]
      · cases earlier with
        | nil => simp [Separated]
        | cons first earlier =>
          intro stretch hstretch
          simp only [List.cons_append, List.tail_cons, List.mem_append, List.mem_singleton]
            at hstretch
          rcases hstretch with hearlier | rfl
          · exact hseparated stretch (by simp [hearlier])
          · exact hseparated last (by simp)
    · rw [if_neg (hbefore.left.lengthOf_lt hgap).ne, ← hinfos]
      refine ⟨earlier ++ [last] ++ [⟨gap, removed, inserted⟩], [], by simp, by simp, ?_, ?_⟩
      · rw [editInfos_append [] (earlier ++ [last])]
        simp [editInfos, editInfo]
      · intro stretch hstretch
        rw [List.tail_append_of_ne_nil (by simp)] at hstretch
        rcases List.mem_append.mp hstretch with hearlier | hlast
        · exact hseparated stretch hearlier
        · rw [List.mem_singleton.mp hlast]
          exact hgap

/-- The state of the loop: the texts passed so far, and the items that are left. -/
structure CombinesTo (state : CombineState) (before after : Str) (left : List MappedText) : Prop where
  curItem : state.curItem = (left.map toMapping).head?
  s0ToS1Map : state.s0ToS1Map = (left.map toMapping).tail
  s0offset : state.s0offset = lengthOf before
  result : Outputs state.result before after

/-- Items that the second edits leave alone. -/
theorem foldl_copyItem (items : List MappedText) {state : CombineState} {before after : Str}
    (hoffset : state.s0offset = lengthOf before) (hresult : Outputs state.result before after)
    (hbefore : TextInRange (before ++ allBefore items))
    (hafter : TextInRange (after ++ allAfter items)) :
    let state' := (items.map toMapping).foldl copyItem state
    state'.curItem = state.curItem ∧ state'.s0ToS1Map = state.s0ToS1Map ∧
      state'.s0offset = lengthOf (before ++ allBefore items) ∧
      Outputs state'.result (before ++ allBefore items) (after ++ allAfter items) := by
  induction items generalizing state before after with
  | nil => simpa using ⟨hoffset, hresult⟩
  | cons item items ih =>
    rw [allBefore_cons, ← List.append_assoc] at hbefore
    rw [allAfter_cons, ← List.append_assoc] at hafter
    have hnext : (copyItem state item.toMapping).s0offset = lengthOf (before ++ item.before) := by
      simp only [copyItem, hoffset]
      exact hbefore.left.lengthAdd
    have hput : Outputs (copyItem state item.toMapping).result (before ++ item.before)
        (after ++ item.after) := by
      simp only [copyItem, hoffset, toMapping, hbefore.left.lengthAdd]
      split_ifs with hmodified
      · exact hresult.pushEdit hbefore.left hafter.left
      · rw [← item.same (by simpa using hmodified)]
        exact hresult.keep item.before
    have hrest := ih hnext hput hbefore hafter
    rw [allBefore_cons, allAfter_cons, ← List.append_assoc, ← List.append_assoc]
    exact hrest

theorem sumLengths_lengthBefore {items : List MappedText} (h : TextInRange (allBefore items)) :
    sumLengths (items.map toMapping) LengthMapping.lengthBefore = lengthOf (allBefore items) := by
  induction items using List.reverseRecOn with
  | nil => simp [sumLengths, lengthZero]
  | append_singleton items item ih =>
    rw [allBefore_append] at h ⊢
    rw [List.map_append, List.map_singleton, sumLengths_concat, ih h.left]
    simpa [toMapping] using h.lengthAdd

/-- One item of the second queue. -/
theorem combineItem_spec {state : CombineState} {before after tail rest : Str}
    {left : List MappedText} (h : CombinesTo state before after left) (item : MappedText)
    (hs1 : allAfter left ++ tail = item.before ++ rest)
    (hs0 : TextInRange (before ++ (allBefore left ++ tail)))
    (hs1range : TextInRange (item.before ++ rest)) (hs2 : TextInRange (after ++ item.after)) :
    ∃ taken left' tail', CombinesTo (combineItem state (.copyOrEdit item.toMapping))
        (before ++ taken) (after ++ item.after) left' ∧
      allAfter left' ++ tail' = rest ∧
      before ++ taken ++ (allBefore left' ++ tail') = before ++ (allBefore left ++ tail) := by
  obtain ⟨taken, left', tail', htake, hafter, hrest, hbefore⟩ := takeLength_spec left hs1 hs1range
  rw [← hbefore, ← List.append_assoc] at hs0
  have htaken : TextInRange (before ++ allBefore taken) := hs0.left
  refine ⟨allBefore taken, left', tail', ?_, hrest, by rw [List.append_assoc, hbefore]⟩
  rw [← h.curItem, ← h.s0ToS1Map] at htake
  have hnext : nextS0ToS1MapWithS1LengthOf (S1ToS2.copyOrEdit item.toMapping).lengthBefore
      state.curItem state.s0ToS1Map =
        (taken.map toMapping, (left'.map toMapping).head?, (left'.map toMapping).tail) := htake
  cases hmodified : item.modified with
  | true =>
    have hcombine : combineItem state (.copyOrEdit item.toMapping) =
        ⟨(left'.map toMapping).head?, (left'.map toMapping).tail,
          pushEdit state.result (lengthOf before) (lengthOf (before ++ allBefore taken))
            (lengthOf item.after),
          lengthOf (before ++ allBefore taken)⟩ := by
      unfold combineItem
      rw [hnext]
      simp only [toMapping, hmodified, sumLengths_lengthBefore htaken.right, h.s0offset,
        htaken.lengthAdd]
    rw [hcombine]
    exact ⟨rfl, rfl, rfl, h.result.pushEdit htaken hs2⟩
  | false =>
    have hsame := item.same hmodified
    have hcombine : combineItem state (.copyOrEdit item.toMapping) =
        (taken.map toMapping).foldl copyItem
          { state with
            curItem := (left'.map toMapping).head?
            s0ToS1Map := (left'.map toMapping).tail } := by
      unfold combineItem
      rw [hnext]
      simp only [toMapping, hmodified]
    rw [← hsame, ← hafter] at hs2 ⊢
    rw [hcombine]
    have hoffset' : ({ state with
        curItem := (left'.map toMapping).head?
        s0ToS1Map := (left'.map toMapping).tail } : CombineState).s0offset = _ := h.s0offset
    obtain ⟨hcur, hmap, hoffset, hresult⟩ := foldl_copyItem taken hoffset' h.result htaken hs2
    exact ⟨hcur, hmap, hoffset, hresult⟩

/-- All items of the second queue but the last. -/
theorem foldl_combineItem (items : List MappedText) {state : CombineState}
    {before after tail rest : Str} {left : List MappedText}
    (h : CombinesTo state before after left) (hs1 : allAfter left ++ tail = allBefore items ++ rest)
    (hs0 : TextInRange (before ++ (allBefore left ++ tail)))
    (hs1range : TextInRange (allBefore items ++ rest))
    (hs2 : TextInRange (after ++ (allAfter items ++ rest))) :
    ∃ before' left' tail',
      CombinesTo ((items.map fun item => S1ToS2.copyOrEdit item.toMapping).foldl combineItem state)
        before' (after ++ allAfter items) left' ∧
      allAfter left' ++ tail' = rest ∧
      before' ++ (allBefore left' ++ tail') = before ++ (allBefore left ++ tail) := by
  induction items generalizing state before after tail left with
  | nil => exact ⟨before, left, tail, by simpa using h, by simpa using hs1, rfl⟩
  | cons item items ih =>
    rw [allBefore_cons, List.append_assoc] at hs1 hs1range
    rw [allAfter_cons, List.append_assoc, ← List.append_assoc after] at hs2
    obtain ⟨taken, left', tail', hstep, hrest, hwhole⟩ :=
      combineItem_spec h item hs1 hs0 hs1range hs2.left
    rw [← hwhole] at hs0
    obtain ⟨before', left'', tail'', hloop, hrest', hwhole'⟩ :=
      ih hstep hrest hs0 hs1range.right hs2
    refine ⟨before', left'', tail'', ?_, hrest', hwhole'.trans hwhole⟩
    rw [allAfter_cons, ← List.append_assoc]
    exact hloop

/-- The last item copies what is left of the first queue. -/
theorem combineItem_copyRest {state : CombineState} {before after tail : Str}
    {left : List MappedText} (h : CombinesTo state before after left)
    (hs0 : TextInRange (before ++ (allBefore left ++ tail)))
    (hs2 : TextInRange (after ++ (allAfter left ++ tail))) :
    Outputs (combineItem state .copyRest).result (before ++ allBefore left)
      (after ++ allAfter left) := by
  rw [← List.append_assoc] at hs0 hs2
  have hnext : nextS0ToS1MapWithS1LengthOf S1ToS2.copyRest.lengthBefore state.curItem
      state.s0ToS1Map = (left.map toMapping, state.curItem, []) := by
    rw [h.curItem, h.s0ToS1Map]
    change ((left.map toMapping).head?.toList ++ (left.map toMapping).tail, _, _) = _
    cases left <;> rfl
  have hcombine : combineItem state .copyRest =
      (left.map toMapping).foldl copyItem { state with s0ToS1Map := [] } := by
    unfold combineItem
    rw [hnext]
  rw [hcombine]
  obtain ⟨-, -, -, houtputs⟩ := foldl_copyItem left
    (show ({ state with s0ToS1Map := [] } : CombineState).s0offset = _ from h.s0offset) h.result
    hs0.left hs2.left
  exact houtputs

/-- Edits of separate stretches do not touch: each starts behind the end of the ones before it. -/
theorem lt_startOffset {stretches : List Stretch} {front : Str}
    (hgaps : ∀ stretch ∈ stretches, stretch.gap ≠ [])
    (h : TextInRange (front ++ textBefore stretches)) :
    ∀ edit ∈ editInfos front stretches, lengthOf front < edit.startOffset := by
  induction stretches generalizing front with
  | nil => nofun
  | cons stretch stretches ih =>
    have hassoc : front ++ textBefore (stretch :: stretches) =
        front ++ stretch.gap ++ stretch.removed ++ textBefore stretches := by simp
    rw [hassoc] at h
    have hlt := h.left.left.lengthOf_lt (hgaps stretch (by simp))
    intro edit hedit
    rcases List.mem_cons.mp hedit with rfl | hmore
    · exact hlt
    · have hbehind := ih (fun other hother => hgaps other (by simp [hother])) h edit hmore
      have hle := h.left.lengthOf_le
      exact (hlt.trans_le hle).trans hbehind

theorem le_startOffset {stretches : List Stretch} {front : Str}
    (h : TextInRange (front ++ textBefore stretches)) :
    ∀ edit ∈ editInfos front stretches, lengthOf front ≤ edit.startOffset := by
  induction stretches generalizing front with
  | nil => nofun
  | cons stretch stretches ih =>
    have hassoc : front ++ textBefore (stretch :: stretches) =
        front ++ stretch.gap ++ stretch.removed ++ textBefore stretches := by simp
    rw [hassoc] at h
    have hle := h.left.left.lengthOf_le
    intro edit hedit
    rcases List.mem_cons.mp hedit with rfl | hmore
    · exact hle
    · exact (hle.trans h.left.lengthOf_le).trans (ih h edit hmore)

/-- Sorted edits that do not overlap. -/
def SortedEdits (edits : List TextEditInfo) : Prop :=
  (∀ edit ∈ edits, edit.startOffset ≤ edit.endOffset) ∧
    edits.Pairwise fun edit later => edit.endOffset ≤ later.startOffset

theorem sortedEdits_editInfos {stretches : List Stretch} {front : Str}
    (h : TextInRange (front ++ textBefore stretches)) :
    SortedEdits (editInfos front stretches) := by
  induction stretches generalizing front with
  | nil => exact ⟨nofun, List.Pairwise.nil⟩
  | cons stretch stretches ih =>
    have hassoc : front ++ textBefore (stretch :: stretches) =
        front ++ stretch.gap ++ stretch.removed ++ textBefore stretches := by simp
    rw [hassoc] at h
    obtain ⟨hordered, hsorted⟩ := ih h
    refine ⟨?_, List.pairwise_cons.mpr ⟨le_startOffset h, hsorted⟩⟩
    intro edit hedit
    rcases List.mem_cons.mp hedit with rfl | hmore
    · exact h.left.lengthOf_le
    · exact hordered edit hmore

theorem pairwise_lt_editInfos {stretches : List Stretch} {front : Str}
    (hgaps : Separated stretches) (h : TextInRange (front ++ textBefore stretches)) :
    (editInfos front stretches).Pairwise fun edit later => edit.endOffset < later.startOffset := by
  induction stretches generalizing front with
  | nil => exact List.Pairwise.nil
  | cons stretch stretches ih =>
    have hassoc : front ++ textBefore (stretch :: stretches) =
        front ++ stretch.gap ++ stretch.removed ++ textBefore stretches := by simp
    rw [hassoc] at h
    refine List.pairwise_cons.mpr ⟨lt_startOffset hgaps h, ih ?_ h⟩
    intro other hother
    exact hgaps other (List.mem_of_mem_tail hother)

/-- The loops put out what describes the change from the first text to the last. -/
theorem combine_outputs {stretches1 stretches2 : List Stretch} {tail1 tail2 : Str}
    (hne1 : stretches1 ≠ []) (hne2 : stretches2 ≠ [])
    (hs1 : textAfter stretches1 ++ tail1 = textBefore stretches2 ++ tail2)
    (h0 : TextInRange (textBefore stretches1 ++ tail1))
    (h1 : TextInRange (textBefore stretches2 ++ tail2))
    (h2 : TextInRange (textAfter stretches2 ++ tail2)) :
    ∃ before after tail, textBefore stretches1 ++ tail1 = before ++ tail ∧
      textAfter stretches2 ++ tail2 = after ++ tail ∧
      Outputs (combineTextEditInfos (editInfos [] stretches1) (editInfos [] stretches2))
        before after := by
  have hnil1 : (editInfos [] stretches1).isEmpty = false := by cases stretches1 <;> simp_all [editInfos]
  have hnil2 : (editInfos [] stretches2).isEmpty = false := by cases stretches2 <;> simp_all [editInfos]
  unfold combineTextEditInfos
  rw [hnil1, hnil2, toLengthMapping_editInfos h0.left, toLengthMapping_editInfos h1.left]
  simp only [Bool.false_eq_true, if_false, List.foldl_append, List.map_map, List.foldl_cons,
    List.foldl_nil]
  rw [← allAfter_mappedTexts, ← allBefore_mappedTexts stretches2] at hs1
  rw [← allBefore_mappedTexts] at h0 h1 ⊢
  rw [← allAfter_mappedTexts] at h2 ⊢
  have hstart : CombinesTo ⟨((mappedTexts stretches1).map toMapping).head?,
      ((mappedTexts stretches1).map toMapping).tail, [], lengthZero⟩ [] []
      (mappedTexts stretches1) := ⟨rfl, rfl, lengthOf_nil.symm, outputs_nil⟩
  obtain ⟨before, left, tail, hloop, hrest, hwhole⟩ :=
    foldl_combineItem (mappedTexts stretches2) hstart hs1 h0 h1 h2
  rw [List.nil_append] at hwhole hloop
  rw [← hwhole] at h0
  rw [← hrest] at h2
  have hout := combineItem_copyRest hloop h0 h2
  exact ⟨before ++ allBefore left, _, tail, by simp [← hwhole], by simp [← hrest], hout⟩

/-- Edits from `s0` to `s1` and from `s1` to `s2` are combined to sorted edits from `s0` to `s2`
that do not overlap, and that do not touch when neither list is empty. -/
theorem combineTextEditInfos_describes {first second : List TextEditInfo} {s0 s1 s2 : Str}
    (h0 : TextInRange s0) (h1 : TextInRange s1) (h2 : TextInRange s2)
    (hfirst : Describes first s0 s1) (hsecond : Describes second s1 s2) :
    Describes (combineTextEditInfos first second) s0 s2 ∧
      SortedEdits (combineTextEditInfos first second) ∧
      (first ≠ [] → second ≠ [] → (combineTextEditInfos first second).Pairwise
        fun edit later => edit.endOffset < later.startOffset) := by
  obtain ⟨stretches1, tail1, rfl, rfl, rfl⟩ := hfirst
  obtain ⟨stretches2, tail2, hs1, rfl, rfl⟩ := hsecond
  rcases List.eq_nil_or_concat' stretches1 with rfl | ⟨_, _, hne1⟩
  · rw [show combineTextEditInfos (editInfos [] []) (editInfos [] stretches2) =
      editInfos [] stretches2 from rfl]
    rw [hs1] at h1
    exact ⟨⟨stretches2, tail2, hs1, rfl, rfl⟩, sortedEdits_editInfos h1.left, by simp [editInfos]⟩
  rcases List.eq_nil_or_concat' stretches2 with rfl | ⟨_, _, hne2⟩
  · have hsecond : combineTextEditInfos (editInfos [] stretches1) (editInfos [] []) =
        editInfos [] stretches1 := by
      unfold combineTextEditInfos
      split_ifs with hnil
      · exact (List.isEmpty_iff.mp hnil).symm
      · rfl
      · contradiction
    rw [hsecond]
    exact ⟨⟨stretches1, tail1, rfl, hs1.symm, rfl⟩, sortedEdits_editInfos h0.left,
      by simp [editInfos]⟩
  rw [hs1] at h1
  obtain ⟨before, after, tail, hbefore, hafter, stretches, gap, rfl, rfl, hresult, hseparated⟩ :=
    combine_outputs (by simp [hne1]) (by simp [hne2]) hs1 h0 h1 h2
  rw [hbefore] at h0
  rw [hresult, hbefore, hafter]
  exact ⟨⟨stretches, gap ++ tail, by simp, by simp, rfl⟩, sortedEdits_editInfos h0.left.left,
    fun _ _ => pairwise_lt_editInfos hseparated h0.left.left⟩

/-- `ab` becomes `axb` and then `xyb`: the second edit replaces the first character and keeps the
inserted one. -/
theorem combineTextEditInfos_describes_inserted :
    let first := editInfos [] [⟨ascii "a", [], ascii "x"⟩]
    let second := editInfos [] [⟨[], ascii "a", []⟩, ⟨ascii "x", [], ascii "y"⟩]
    Describes (combineTextEditInfos first second) (ascii "ab") (ascii "xyb") ∧
      SortedEdits (combineTextEditInfos first second) ∧
      (first ≠ [] → second ≠ [] → (combineTextEditInfos first second).Pairwise
        fun edit later => edit.endOffset < later.startOffset) := by
  intro first second
  have hshort : ∀ {text : Str}, text.length < 9 → TextInRange text := by
    intro text hlen
    apply textInRange_of_length
    rw [factor_eq]
    omega
  have haxb : TextInRange (ascii "axb") := hshort (by decide)
  exact combineTextEditInfos_describes (hshort (by decide)) haxb
    (hshort (by decide)) ⟨_, ascii "b", by decide, by decide, rfl⟩
    ⟨_, ascii "b", by decide, by decide, rfl⟩

/-- Both characters of `ab` are replaced one by one. -/
def touchingEdits : List TextEditInfo :=
  editInfos [] [⟨[], ascii "a", ascii "x"⟩, ⟨[], ascii "b", ascii "y"⟩]

/-- One character is inserted at column `2 ^ 26` of a line, or at the start of the next line. -/
def farEdit : List TextEditInfo := [⟨2 ^ 26, 2 ^ 26, 1⟩]

theorem combineTextEditInfos_farEdit :
    combineTextEditInfos farEdit farEdit = [⟨2 ^ 26, 2 ^ 26, 2⟩] := by
  have htake1 : takeLength (2 ^ 26) (some ⟨false, 2 ^ 26, 2 ^ 26⟩) [⟨true, 0, 1⟩] =
      ([⟨false, 2 ^ 26, 2 ^ 26⟩], some ⟨true, 0, 1⟩, []) := by
    rw [takeLength_whole (by decide) (show _ = (⟨false, 2 ^ 26, 2 ^ 26⟩, none) by decide),
      lengthDiffNonNegative_of_le le_rfl, takeLength_zero]
    rfl
  have htake2 : takeLength 0 (some ⟨true, 0, 1⟩) [] = ([], some ⟨true, 0, 1⟩, []) :=
    takeLength_zero _ _
  have hmap : toLengthMapping farEdit = [⟨false, 2 ^ 26, 2 ^ 26⟩, ⟨true, 0, 1⟩] := by decide
  have hitem1 : combineItem ⟨some ⟨false, 2 ^ 26, 2 ^ 26⟩, [⟨true, 0, 1⟩], [], 0⟩
      (.copyOrEdit ⟨false, 2 ^ 26, 2 ^ 26⟩) = ⟨some ⟨true, 0, 1⟩, [], [], 2 ^ 26⟩ := by
    unfold combineItem
    simp only [nextS0ToS1MapWithS1LengthOf, S1ToS2.lengthBefore, htake1]
    rfl
  have hitem2 : combineItem ⟨some ⟨true, 0, 1⟩, [], [], 2 ^ 26⟩ (.copyOrEdit ⟨true, 0, 1⟩) =
      ⟨some ⟨true, 0, 1⟩, [], [⟨2 ^ 26, 2 ^ 26, 1⟩], 2 ^ 26⟩ := by
    unfold combineItem
    simp only [nextS0ToS1MapWithS1LengthOf, S1ToS2.lengthBefore, htake2]
    rfl
  change (combineItem (combineItem (combineItem _ _) _) .copyRest).result = _
  rw [hmap]
  change (combineItem (combineItem (combineItem
    ⟨some ⟨false, 2 ^ 26, 2 ^ 26⟩, [⟨true, 0, 1⟩], [], 0⟩
      (.copyOrEdit ⟨false, 2 ^ 26, 2 ^ 26⟩)) (.copyOrEdit ⟨true, 0, 1⟩)) .copyRest).result = _
  rw [hitem1, hitem2]
  decide

/-- A line of `2 * n` columns and its end, with characters inserted in the middle and behind it. -/
def longText (n : ℕ) (middle behind : Str) : Str :=
  List.replicate n 97 ++ (middle ++ (List.replicate n 97 ++ LineFeed :: behind))

theorem not_describes_longText {n : ℕ} (hn : 0 < n) (offset : Length) :
    ¬ Describes [⟨offset, offset, 2⟩] (longText n [] []) (longText n [120] [121]) := by
  rintro ⟨stretches, tail, hbefore, hafter, hinfos⟩
  obtain ⟨stretch, rfl⟩ : ∃ stretch, stretches = [stretch] := by
    rw [← List.length_eq_one_iff, ← length_editInfos [] stretches, ← hinfos]
    rfl
  have hinserted : lengthOf stretch.inserted = 2 := by
    simp only [editInfos, editInfo, List.cons.injEq, TextEditInfo.mk.injEq] at hinfos
    exact hinfos.1.2.2.symm
  have htwo : stretch.inserted.length = 2 := by
    rw [lengthOf, encode_def, factor_eq] at hinserted
    have hline : (extent stretch.inserted).lineCount = 0 := by omega
    have hcolumn : (extent stretch.inserted).columnCount = 2 := by omega
    rw [extent_of_noLineFeed (extent_lineCount_eq_zero.mp hline)] at hcolumn
    exact hcolumn
  simp only [longText, textBefore_cons, textAfter_cons, textBefore_nil, textAfter_nil,
    List.append_nil, List.nil_append] at hbefore hafter
  have hremoved : stretch.removed = [] := by
    have hlen := congrArg List.length hbefore
    have hlen' := congrArg List.length hafter
    simp only [List.length_append, List.length_replicate, List.length_cons, List.length_nil]
      at hlen hlen'
    exact List.eq_nil_of_length_eq_zero (by omega)
  rw [hremoved, List.append_nil] at hbefore
  rcases List.eq_nil_or_concat' tail with rfl | ⟨front, last, rfl⟩
  · -- the edit is at the end, but the texts differ in the middle
    rw [List.append_nil] at hbefore hafter
    rw [← hbefore, List.append_assoc, List.append_assoc, List.append_cancel_left_eq] at hafter
    obtain ⟨m, rfl⟩ := Nat.exists_eq_succ_of_ne_zero hn.ne'
    rw [List.replicate_succ] at hafter
    simp at hafter
  · -- the edit is in front of the end, where the texts differ
    have hlast := congrArg List.getLast? hbefore
    have hlast' := congrArg List.getLast? hafter
    simp [List.getLast?_append, List.getLast?_cons] at hlast hlast'
    rw [← hlast] at hlast'
    exact absurd hlast' (by decide)

theorem describes_longText_middle (n : ℕ) :
    Describes [⟨n, n, 1⟩] (longText n [] []) (longText n [120] []) := by
  refine ⟨[⟨List.replicate n 97, [], [120]⟩], List.replicate n 97 ++ [LineFeed],
    by simp [longText], by simp [longText], ?_⟩
  have hn := lengthOf_replicate (c := 97) (by decide) n
  have hone : lengthOf [120] = 1 := by decide
  simp [editInfos, editInfo, hn, hone]

theorem describes_longText_behind (n : ℕ) :
    Describes farEdit (longText n [120] []) (longText n [120] [121]) := by
  refine ⟨[⟨longText n [120] [], [], [121]⟩], [], by simp, by simp [longText], ?_⟩
  have hlength : lengthOf (longText n [120] []) = 2 ^ 26 := by
    have hline : LineFeed ∉ List.replicate n 97 ++ 120 :: List.replicate n 97 := by
      simp [LineFeed]
    have hsplit : longText n [120] [] =
        (List.replicate n 97 ++ 120 :: List.replicate n 97) ++ [LineFeed] := by simp [longText]
    have hextent : extent (longText n [120] []) = ⟨1, 0⟩ := by
      rw [hsplit, extent_append, extent_of_noLineFeed hline]
      rfl
    rw [lengthOf, hextent]
    rfl
  have hone : lengthOf [121] = 1 := by decide
  simp [editInfos, editInfo, farEdit, hlength, hone]

/-- Touching edits stay as they are when there is nothing to combine them with. Edits at columns
that no length holds are put out at the same place. -/
theorem combineTextEditInfos_touching_far :
    (Describes [] (ascii "ab") (ascii "ab") ∧ Describes touchingEdits (ascii "ab") (ascii "xy") ∧
      ¬ (combineTextEditInfos [] touchingEdits).Pairwise
        fun edit later => edit.endOffset < later.startOffset) ∧
    (Describes farEdit (longText (2 ^ 26) [] []) (longText (2 ^ 26) [120] []) ∧
      Describes farEdit (longText (2 ^ 26) [120] []) (longText (2 ^ 26) [120] [121]) ∧
      ¬ Describes (combineTextEditInfos farEdit farEdit)
        (longText (2 ^ 26) [] []) (longText (2 ^ 26) [120] [121])) := by
  refine ⟨⟨⟨[], ascii "ab", rfl, rfl, rfl⟩, ⟨_, [], by decide, by decide, rfl⟩, by decide⟩, ?_, ?_, ?_⟩
  · exact describes_longText_middle (2 ^ 26)
  · exact describes_longText_behind (2 ^ 26)
  · rw [combineTextEditInfos_farEdit]
    exact not_describes_longText (by decide) _

end NexgileIde.BracketPairs
