import NexgileIde.Edits.EditCompose

/-!
# Annotated string edits

Replacements carry data about their text, and touching ones only join when their
data does. Texts whose characters carry the data of the replacement that put them
there are texts like any other, so composition keeps this provenance too.
-/
namespace NexgileIde.Edits

open Text Library

/-- `IEditData` -/
class IEditData (D : Type) where
  join : D → D → Option D

structure AnnotatedStringReplacement (D : Type) where
  replaceRange : OffsetRange
  newText : Str
  data : D
  deriving DecidableEq, Repr

namespace AnnotatedStringReplacement

variable {D : Type}

def tryJoinTouching [IEditData D] (r other : AnnotatedStringReplacement D) :
    Except BugIndicatingError (Option (AnnotatedStringReplacement D)) :=
  match IEditData.join r.data other.data with
  | none => .ok none
  | some joined => do
    let range ← r.replaceRange.joinRightTouching other.replaceRange
    return some ⟨range, r.newText ++ other.newText, joined⟩

def slice (r : AnnotatedStringReplacement D) (range rangeInReplacement : OffsetRange) :
    AnnotatedStringReplacement D :=
  ⟨range, rangeInReplacement.substring r.newText, r.data⟩

end AnnotatedStringReplacement

instance (D : Type) [IEditData D] : BaseReplacement (AnnotatedStringReplacement D) where
  replaceRange := AnnotatedStringReplacement.replaceRange
  getNewLength r := r.newText.length
  tryJoinTouching := AnnotatedStringReplacement.tryJoinTouching
  slice := AnnotatedStringReplacement.slice

abbrev AnnotatedStringEdit (D : Type) [IEditData D] := BaseEdit (AnnotatedStringReplacement D)

variable {D : Type}

/-- The loop of `BaseStringEdit.apply`. -/
def annotatedApplyFrom (base : Str) : Int → List (AnnotatedStringReplacement D) → Str
  | pos, [] => substringFrom base pos
  | pos, edit :: rest =>
    substring base pos edit.replaceRange.start ++ edit.newText ++
      annotatedApplyFrom base edit.replaceRange.endExclusive rest

def AnnotatedStringEdit.apply [IEditData D] (e : AnnotatedStringEdit D) (base : Str) : Str :=
  annotatedApplyFrom base 0 e.replacements

/-- A text whose characters carry the data of the replacement that inserted them, and
nothing where they were copied from the base. -/
abbrev MarkedText (D : Type) := List (CodeUnit × Option D)

/-- A base text: nothing has been inserted yet. -/
def unmarked (base : Str) : MarkedText D := base.map fun c => (c, none)

def AnnotatedStringReplacement.markedText (r : AnnotatedStringReplacement D) : MarkedText D :=
  r.newText.map fun c => (c, some r.data)

/-- The text after the edit, with the marks of what it copies and its own marks on what it
inserts. -/
def applyMarkedFrom (base : MarkedText D) : Int → List (AnnotatedStringReplacement D) → MarkedText D
  | pos, [] => substringFrom base pos
  | pos, edit :: rest =>
    substring base pos edit.replaceRange.start ++ edit.markedText ++
      applyMarkedFrom base edit.replaceRange.endExclusive rest

def AnnotatedStringEdit.applyMarked [IEditData D] (e : AnnotatedStringEdit D)
    (base : MarkedText D) : MarkedText D := applyMarkedFrom base 0 e.replacements

/-- The characters of a marked text are those of the text. -/
theorem applyMarkedFrom_fst (base : MarkedText D) (pos : Int)
    (rs : List (AnnotatedStringReplacement D)) :
    (applyMarkedFrom base pos rs).map Prod.fst = annotatedApplyFrom (base.map Prod.fst) pos rs := by
  induction rs generalizing pos with
  | nil => simp [applyMarkedFrom, annotatedApplyFrom, substringFrom, List.map_drop]
  | cons r rs ih =>
    have htext : r.markedText.map Prod.fst = r.newText := by
      simp [AnnotatedStringReplacement.markedText, Function.comp_def]
    simp [applyMarkedFrom, annotatedApplyFrom, ih, substring, htext, List.map_take, List.map_drop]

theorem AnnotatedStringEdit.applyMarked_fst [IEditData D] (e : AnnotatedStringEdit D)
    (base : MarkedText D) : (e.applyMarked base).map Prod.fst = e.apply (base.map Prod.fst) :=
  applyMarkedFrom_fst base 0 e.replacements

theorem unmarked_fst (base : Str) : (unmarked base : MarkedText D).map Prod.fst = base := by
  simp [unmarked, Function.comp_def]

section Joining

variable [IEditData D]

/-- Where joined data is the data of both, annotated replacements put marked texts in the
place of their ranges. -/
@[reducible] def markedReplacement (h : ∀ a b c : D, IEditData.join a b = some c → a = b ∧ c = a) :
    BaseStringReplacement (AnnotatedStringReplacement D) (CodeUnit × Option D) where
  newText := AnnotatedStringReplacement.markedText
  getNewLength_eq r := by
    simp [BaseReplacement.getNewLength, AnnotatedStringReplacement.markedText]
  slice_replaceRange _ _ _ := rfl
  slice_newText r range rangeInReplacement := by
    simp [BaseReplacement.slice, AnnotatedStringReplacement.slice, OffsetRange.substring,
      substring, AnnotatedStringReplacement.markedText, List.map_take, List.map_drop]
  joins l r htouch := by
    have hjoin := OffsetRange.joinRightTouching_of_eq htouch
    simp only [BaseReplacement.replaceRange] at hjoin
    simp only [BaseReplacement.tryJoinTouching, AnnotatedStringReplacement.tryJoinTouching]
    cases hdata : IEditData.join l.data r.data with
    | none => exact .inl rfl
    | some joined =>
      obtain ⟨hsame, rfl⟩ := h _ _ _ hdata
      simp only [hjoin]
      refine .inr ⟨_, rfl, rfl, rfl, ?_⟩
      simp [AnnotatedStringReplacement.markedText, hsame]

theorem applyMarkedFrom_eq (h : ∀ a b c : D, IEditData.join a b = some c → a = b ∧ c = a)
    (base : MarkedText D) (pos : Int) (rs : List (AnnotatedStringReplacement D)) :
    letI := markedReplacement h
    BaseStringEdit.applyFrom base pos rs = applyMarkedFrom base pos rs := by
  induction rs generalizing pos with
  | nil => rfl
  | cons r rs ih =>
    simp only [BaseStringEdit.applyFrom, applyMarkedFrom, ih]
    rfl

/-- Composed edits insert what the edits insert one after the other, with the same data:
`e2`'s texts carry its data, what survives of `e1`'s texts carries that of `e1`, and what
is copied from the base carries none. -/
theorem AnnotatedStringEdit.compose_keeps_data
    (h : ∀ a b c : D, IEditData.join a b = some c → a = b ∧ c = a) (base : Str)
    (e1 e2 : AnnotatedStringEdit D) (h1 : e1.Inside base.length)
    (h2 : e2.Inside (e1.apply base).length) :
    ∃ composed : AnnotatedStringEdit D, BaseEdit.compose e1 e2 = .ok composed ∧
      composed.apply base = e2.apply (e1.apply base) ∧
      composed.applyMarked (unmarked base) = e2.applyMarked (e1.applyMarked (unmarked base)) := by
  let _ := markedReplacement h
  have happly : ∀ (e : AnnotatedStringEdit D) (base : MarkedText D),
      BaseStringEdit.apply e base = e.applyMarked base :=
    fun e base => applyMarkedFrom_eq h base 0 e.replacements
  have hlength : ∀ e : AnnotatedStringEdit D, (e.applyMarked (unmarked base)).length =
      (e.apply base).length := by
    intro e
    rw [← List.length_map (f := Prod.fst), AnnotatedStringEdit.applyMarked_fst, unmarked_fst]
  obtain ⟨composed, hok, -, hmarked, -⟩ := BaseEdit.compose_spec (unmarked base) e1 e2
    (by simpa [unmarked] using h1) (by rw [happly, hlength]; exact h2)
  rw [happly, happly, happly] at hmarked
  refine ⟨composed, hok, ?_, hmarked⟩
  have hchars := congrArg (List.map Prod.fst) hmarked
  simpa only [AnnotatedStringEdit.applyMarked_fst, unmarked_fst] using hchars

end Joining

/-- The source of an edit, known by its identity. -/
structure EditSourceData where
  editSource : ℕ
  deriving DecidableEq, Repr

instance : IEditData EditSourceData where
  join r data := if r.editSource ≠ data.editSource then none else some r

theorem EditSourceData.join_eq_some (a b c : EditSourceData) (h : IEditData.join a b = some c) :
    a = b ∧ c = a := by
  obtain ⟨a⟩ := a
  obtain ⟨b⟩ := b
  simp only [IEditData.join] at h
  split_ifs at h with hne
  simp only [ne_eq, not_not] at hne
  exact ⟨congrArg _ hne, (Option.some.inj h).symm⟩

/-- `ab` inserted by source 1 before `x`, and `b` then replaced by source 2. -/
theorem AnnotatedStringEdit.compose_keeps_data_insert :
    ∃ composed : AnnotatedStringEdit EditSourceData,
      BaseEdit.compose (T := AnnotatedStringReplacement EditSourceData)
        ⟨[⟨⟨0, 0, by decide⟩, [97, 98], ⟨1⟩⟩], rfl⟩ ⟨[⟨⟨1, 2, by decide⟩, [99], ⟨2⟩⟩], rfl⟩ =
          .ok composed ∧
      composed.applyMarked (unmarked [120]) =
        [(97, some ⟨1⟩), (99, some ⟨2⟩), (120, none)] := by
  obtain ⟨composed, hok, -, hmarked⟩ :=
    AnnotatedStringEdit.compose_keeps_data EditSourceData.join_eq_some
      [120] ⟨[⟨⟨0, 0, by decide⟩, [97, 98], ⟨1⟩⟩], rfl⟩ ⟨[⟨⟨1, 2, by decide⟩, [99], ⟨2⟩⟩], rfl⟩
      (by intro r hr; simp at hr; subst hr; decide) (by intro r hr; simp at hr; subst hr; decide)
  exact ⟨composed, hok, hmarked⟩

end NexgileIde.Edits
