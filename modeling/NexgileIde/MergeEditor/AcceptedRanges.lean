import NexgileIde.MergeEditor.AcceptInput

/-!
# The edits of all modified base ranges

For correct line differences every modified base range can be built, and its edit for the
state of one input takes the joined difference of that input. Together the edits give the
input.
-/

namespace NexgileIde.MergeEditor

open Text MappingAlignment LineRangeMapping ModifiedBaseRange

section Options

variable {α β γ : Type} {f : α → Option β}

/-- A traversal whose steps all succeed. -/
theorem exists_mapM {P : α → β → Prop} {l : List α} (h : ∀ a ∈ l, ∃ b, f a = some b ∧ P a b) :
    ∃ bs, l.mapM f = some bs ∧ List.Forall₂ P l bs := by
  induction l with
  | nil => exact ⟨[], rfl, .nil⟩
  | cons a l ih =>
    rw [List.forall_mem_cons] at h
    obtain ⟨⟨b, hb, hP⟩, h⟩ := h
    obtain ⟨bs, hbs, hPs⟩ := ih h
    refine ⟨b :: bs, ?_, .cons hP hPs⟩
    rw [List.mapM_cons, hb, hbs]
    rfl

/-- A second traversal, over the results of a first one. -/
theorem mapM_of_forall₂ {g : β → Option γ} {F : γ → Option LineRangeEdit}
    {E : α → Option LineRangeEdit} {l : List α} {bs : List β}
    (h : List.Forall₂ (fun a b => ∃ c, g b = some c ∧ F c = E a) l bs) :
    ∃ cs, bs.mapM g = some cs ∧ cs.filterMap F = l.filterMap E := by
  induction h with
  | nil => exact ⟨[], rfl, rfl⟩
  | cons hab _ ih =>
    obtain ⟨c, hc, hE⟩ := hab
    obtain ⟨cs, hcs, hEs⟩ := ih
    refine ⟨c :: cs, ?_, ?_⟩
    · rw [List.mapM_cons, hc, hcs]
      rfl
    · rw [List.filterMap_cons, List.filterMap_cons, hE, hEs]

end Options

section Diffs

variable {input : TextModel} {d j : DetailedLineRangeMapping} {ds : List DetailedLineRangeMapping}

/-- The lines of a range that lies in the text. -/
theorem getLines_eq {r : LineRange} (h1 : 1 ≤ r.startLineNumber)
    (h2 : r.endLineNumberExclusive ≤ input.lines.length + 1) :
    r.getLines input =
      some (linesBetween input.lines r.startLineNumber r.endLineNumberExclusive) := by
  have hle := r.start_le_end
  have hlen := linesBetween_length h1 hle h2
  have hline : ∀ i ∈ List.range r.length.toNat, ∃ l,
      input.getLineContent (r.startLineNumber + i) = some l ∧
        (linesBetween input.lines r.startLineNumber r.endLineNumberExclusive)[i]? = some l := by
    intro i hi
    rw [List.mem_range, LineRange.length] at hi
    have hcount : r.startLineNumber + i ≤ input.getLineCount := by
      unfold TextModel.getLineCount
      omega
    obtain ⟨l, -, hl, -⟩ := exists_line (by omega) hcount
    refine ⟨l, ?_, ?_⟩
    · rw [TextModel.getLineContent, if_neg (by omega), hl]
    · rw [← hl, linesBetween, List.getElem?_drop, List.getElem?_take, if_pos (by omega)]
      congr 1
      omega
  obtain ⟨ls, hls, hall⟩ := exists_mapM hline
  rw [LineRange.getLines, hls, Option.some.injEq]
  have hlength := hall.length_eq
  rw [List.length_range, LineRange.length] at hlength
  apply List.ext_getElem?
  intro i
  by_cases hi : i < ls.length
  · have hi' : i < (List.range r.length.toNat).length := by
      rw [List.length_range, LineRange.length]
      omega
    have := hall.get hi' hi
    simp only [List.get_eq_getElem, List.getElem_range] at this
    rw [this, List.getElem?_eq_getElem hi]
  · rw [List.getElem?_eq_none (by omega), List.getElem?_eq_none (by omega)]

theorem getLineEdit_eq (hmodel : d.outputTextModel = input)
    (h1 : 1 ≤ d.outputRange.startLineNumber)
    (h2 : d.outputRange.endLineNumberExclusive ≤ input.lines.length + 1) :
    d.getLineEdit = some (takeOutput input d.toLineRangeMapping) := by
  rw [DetailedLineRangeMapping.getLineEdit, hmodel, getLines_eq h1 h2]
  rfl

theorem joinAll_detailed (hmodel : ∀ d ∈ ds, d.outputTextModel = input) :
    (DetailedLineRangeMapping.joinAll ds).map DetailedLineRangeMapping.toLineRangeMapping =
        LineRangeMapping.joinAll (ds.map DetailedLineRangeMapping.toLineRangeMapping) ∧
      ∀ j ∈ DetailedLineRangeMapping.joinAll ds, j.outputTextModel = input := by
  cases ds with
  | nil => exact ⟨rfl, nofun⟩
  | cons d ds =>
    unfold DetailedLineRangeMapping.joinAll
    rw [List.map_cons, LineRangeMapping.joinAll, Option.map_some, Option.some.injEq]
    rw [List.forall_mem_cons] at hmodel
    obtain ⟨hd, -⟩ := hmodel
    constructor
    · clear hd
      induction ds generalizing d with
      | nil => rfl
      | cons d' ds ih => exact ih (d.join d')
    · intro j hj
      cases hj
      induction ds generalizing d with
      | nil => exact hd
      | cons d' ds ih => exact ih (d.join d') hd

/-- The edit of the joined differences, when they lie in the input. -/
theorem exists_getLineEdit (hmodel : ∀ d ∈ ds, d.outputTextModel = input)
    (hbounds : ∀ m ∈ LineRangeMapping.joinAll (ds.map (·.toLineRangeMapping)),
      1 ≤ m.outputRange.startLineNumber ∧
        m.outputRange.endLineNumberExclusive ≤ input.lines.length + 1) :
    ∀ j ∈ DetailedLineRangeMapping.joinAll ds,
      j.getLineEdit = some (takeOutput input j.toLineRangeMapping) := by
  intro j hj
  obtain ⟨hmap, hj'⟩ := joinAll_detailed hmodel
  rw [Option.mem_def] at hj
  rw [hj] at hmap
  obtain ⟨h1, h2⟩ := hbounds j.toLineRangeMapping hmap.symm
  exact getLineEdit_eq (hj' j hj) h1 h2

end Diffs

section Ranges

variable {a : MappingAlignment DetailedLineRangeMapping}

/-- The output of an input. -/
def InputNumber.source : InputNumber → Fin 2
  | .one => 0
  | .two => 1

/-- The text of an input. -/
def InputNumber.text (input1 input2 : TextModel) : InputNumber → TextModel
  | .one => input1
  | .two => input2

theorem arrayEquals_isSome {α : Type} {itemEquals : α → α → Option Bool} {one other : List α}
    (h : ∀ x ∈ one, ∀ y ∈ other, ∃ b, itemEquals x y = some b) :
    ∃ b, arrayEquals itemEquals one other = some b := by
  have hfold : ∀ (ps : List (α × α)) (equal : Bool), (∀ p ∈ ps, ∃ b, itemEquals p.1 p.2 = some b) →
      ∃ b, ps.foldlM (fun equal p => if equal then itemEquals p.1 p.2 else some false) equal =
        some b := by
    intro ps
    induction ps with
    | nil => exact fun equal _ => ⟨equal, rfl⟩
    | cons p ps ih =>
      intro equal hps
      rw [List.forall_mem_cons] at hps
      obtain ⟨⟨b, hb⟩, hps⟩ := hps
      rw [List.foldlM_cons]
      cases equal with
      | true =>
        rw [if_pos rfl, hb]
        exact ih b hps
      | false => exact ih false hps
  unfold arrayEquals
  split_ifs with hlen
  · exact ⟨false, rfl⟩
  · apply hfold
    intro p hp
    exact h p.1 (List.of_mem_zip hp).1 p.2 (List.of_mem_zip hp).2

/-- What a range keeps of its alignment. -/
structure Represents (a : MappingAlignment DetailedLineRangeMapping) (r : ModifiedBaseRange) :
    Prop where
  input1 : r.input1CombinedDiff = DetailedLineRangeMapping.joinAll (a.lineMappings 0)
  input2 : r.input2CombinedDiff = DetailedLineRangeMapping.joinAll (a.lineMappings 1)

theorem exists_new (base input1 input2 : TextModel)
    (hedits : ∀ source, ∀ d ∈ a.lineMappings source, ∃ e, d.getLineEdit = some e)
    (hnonempty : ∃ source, a.lineMappings source ≠ []) :
    ∃ r, ModifiedBaseRange.new a base input1 input2 = some r ∧ Represents a r := by
  obtain ⟨b, hb⟩ : ∃ b, arrayEquals equalEdits a.output1LineMappings a.output2LineMappings =
      some b := by
    apply arrayEquals_isSome
    intro x hx y hy
    obtain ⟨e, he⟩ := hedits 0 x hx
    obtain ⟨e', he'⟩ := hedits 1 y hy
    unfold equalEdits
    rw [he, he']
    exact ⟨_, rfl⟩
  have hne : (a.output1LineMappings.isEmpty && a.output2LineMappings.isEmpty) = false := by
    obtain ⟨source, hsource⟩ := hnonempty
    rw [Bool.and_eq_false_iff, List.isEmpty_eq_false_iff, List.isEmpty_eq_false_iff]
    fin_cases source
    · exact .inl hsource
    · exact .inr hsource
  unfold ModifiedBaseRange.new
  rw [hb, Option.bind_some, hne]
  exact ⟨_, rfl, rfl, rfl⟩

/-- The state of one input takes its joined difference. -/
theorem Represents.getEditForBase_eq {r : ModifiedBaseRange} {input : TextModel}
    {combineInputs : ModifiedBaseRange → Bool → InputNumber → Option (Option LineRangeEdit)}
    (h : Represents a r) (inputNumber : InputNumber)
    (hedit : ∀ j ∈ DetailedLineRangeMapping.joinAll (a.lineMappings inputNumber.source),
      j.getLineEdit = some (takeOutput input j.toLineRangeMapping)) :
    ∃ result, r.getEditForBase combineInputs (.baseWithInput inputNumber) = some result ∧
      result.1 = (DetailedLineRangeMapping.joinAll (a.lineMappings inputNumber.source)).map
        fun j => takeOutput input j.toLineRangeMapping := by
  have hdiffs : r.includedDiffs (.baseWithInput inputNumber) =
      ((DetailedLineRangeMapping.joinAll (a.lineMappings inputNumber.source)).map fun j =>
        (j, inputNumber)).toList := by
    cases inputNumber with
    | one =>
      rw [InputNumber.source, ← h.input1]
      exact List.append_nil _
    | two =>
      rw [InputNumber.source, ← h.input2]
      rfl
  unfold ModifiedBaseRange.getEditForBase
  rw [hdiffs]
  cases hj : DetailedLineRangeMapping.joinAll (a.lineMappings inputNumber.source) with
  | none => exact ⟨_, rfl, rfl⟩
  | some j =>
    refine ⟨(some (takeOutput input j.toLineRangeMapping), .baseWithInput inputNumber), ?_, rfl⟩
    simp only [Option.map_some, Option.toList_some, hedit j hj]
    rfl

end Ranges

section Main

/-- Differences of one input: correct for the texts, and of the text model of that input. -/
structure CorrectDiffs (base input : TextModel) (diffs : List DetailedLineRangeMapping) :
    Prop where
  lineDiff : LineDiff base.lines input.lines (diffs.map (·.toLineRangeMapping))
  outputTextModel : ∀ d ∈ diffs, d.outputTextModel = input

/-- For the modified base ranges of correct differences, the edits that take one input are
defined, do not overlap, and give the lines of that input. -/
theorem accept_input (base input1 input2 : TextModel)
    (diffs1 diffs2 : List DetailedLineRangeMapping)
    (combineInputs : ModifiedBaseRange → Bool → InputNumber → Option (Option LineRangeEdit))
    (h1 : CorrectDiffs base input1 diffs1) (h2 : CorrectDiffs base input2 diffs2)
    (inputNumber : InputNumber) :
    ∃ ranges results, fromDiffs diffs1 diffs2 base input1 input2 = some ranges ∧
      ranges.mapM (fun r => r.getEditForBase combineInputs (.baseWithInput inputNumber)) =
        some results ∧
      applyEdits base (LineEdits.toEdits (results.filterMap Prod.fst) base.getLineCount) =
        (inputNumber.text input1 input2).lines ∧
      NonOverlapping (LineEdits.toEdits (results.filterMap Prod.fst) base.getLineCount) := by
  have hcorrect : ∀ n : InputNumber, CorrectDiffs base (n.text input1 input2)
      (outputs diffs1 diffs2 n.source) := by
    intro n
    cases n with
    | one => exact h1
    | two => exact h2
  have hsource : ∀ source : Fin 2, ∃ n : InputNumber, n.source = source := by
    rw [Fin.forall_fin_two]
    exact ⟨⟨.one, rfl⟩, ⟨.two, rfl⟩⟩
  obtain ⟨as, hcompute, hplaced, hsettled⟩ := compute_placed
    DetailedLineRangeMapping.toLineRangeMapping diffs1 diffs2 (by
      intro source
      obtain ⟨n, rfl⟩ := hsource source
      exact (hcorrect n).lineDiff.consecutive.1)
  have hmem : ∀ a ∈ as, ∀ source, ∀ d ∈ a.lineMappings source,
      d ∈ outputs diffs1 diffs2 source := by
    intro a ha source d hd
    rw [← hsettled]
    exact List.mem_flatMap.mpr ⟨a, ha, hd⟩
  -- The joined differences are line differences too.
  have hjoined : ∀ n : InputNumber, LineDiff base.lines (n.text input1 input2).lines
      (joined DetailedLineRangeMapping.toLineRangeMapping as n.source) := by
    intro n
    refine ⟨hplaced.joined_before, EqualOutside.joined ?_⟩
    rw [hsettled]
    exact (hcorrect n).lineDiff.outside
  have hjoinedEdit : ∀ a ∈ as, ∀ n : InputNumber,
      ∀ j ∈ DetailedLineRangeMapping.joinAll (a.lineMappings n.source),
        j.getLineEdit = some (takeOutput (n.text input1 input2) j.toLineRangeMapping) := by
    intro a ha n
    apply exists_getLineEdit fun d hd => (hcorrect n).outputTextModel d (hmem a ha n.source d hd)
    intro m hm
    have := (hjoined n).outside.bounds le_rfl le_rfl m
      (List.mem_filterMap.mpr ⟨a, ha, hm⟩)
    exact this.2.2
  have hedit : ∀ a ∈ as, ∀ source, ∀ d ∈ a.lineMappings source,
      ∃ e, d.getLineEdit = some e := by
    intro a ha source d hd
    obtain ⟨n, rfl⟩ := hsource source
    have hd' := hmem a ha n.source d hd
    have := (hcorrect n).lineDiff.outside.bounds le_rfl le_rfl d.toLineRangeMapping
      (List.mem_map_of_mem hd')
    exact ⟨_, getLineEdit_eq ((hcorrect n).outputTextModel d hd') this.2.2.1 this.2.2.2⟩
  have hrange : ∀ a ∈ as, ∃ r, ModifiedBaseRange.new a base input1 input2 = some r ∧
      ∃ result, r.getEditForBase combineInputs (.baseWithInput inputNumber) = some result ∧
        result.1 = (joinAll ((a.lineMappings inputNumber.source).map
          DetailedLineRangeMapping.toLineRangeMapping)).map
            (takeOutput (inputNumber.text input1 input2)) := by
    intro a ha
    obtain ⟨r, hr, hrep⟩ := exists_new base input1 input2
      (hedit a ha) (hplaced.nonempty a ha)
    obtain ⟨result, hresult, hfst⟩ := hrep.getEditForBase_eq inputNumber
      (hjoinedEdit a ha inputNumber)
    refine ⟨r, hr, result, hresult, ?_⟩
    have hmap := (joinAll_detailed fun d hd =>
      (hcorrect inputNumber).outputTextModel d (hmem a ha inputNumber.source d hd)).1
    rw [hfst, ← hmap, Option.map_map]
    rfl
  obtain ⟨ranges, hranges, hall⟩ := exists_mapM hrange
  obtain ⟨results, hresults, hfst⟩ := mapM_of_forall₂ hall
  have hedits : results.filterMap Prod.fst =
      (joined DetailedLineRangeMapping.toLineRangeMapping as inputNumber.source).map
        (takeOutput (inputNumber.text input1 input2)) := by
    rw [hfst, joined, List.map_filterMap]
  refine ⟨ranges, results, ?_, hresults, ?_, ?_⟩
  · unfold fromDiffs
    rw [hcompute]
    exact hranges
  · rw [hedits]
    exact applyEdits_eq (hjoined inputNumber)
  · rw [hedits]
    exact toEdits_nonOverlapping (hjoined inputNumber)

/-- A text of one line with one character. -/
def oneLine (c : CodeUnit) (h : c ≠ CarriageReturn ∧ c ≠ LineFeed) : TextModel where
  lines := [[c]]
  lines_ne_nil := List.cons_ne_nil _ _
  no_break := by simpa using h
  short := by
    simp [MAX_SAFE_INTEGER]

theorem accept_input_oneLine :
    ∃ ranges results,
      fromDiffs [⟨sameLine, oneLine 97 (by decide), oneLine 98 (by decide)⟩] []
        (oneLine 97 (by decide)) (oneLine 98 (by decide)) (oneLine 97 (by decide)) =
          some ranges ∧
      ranges.mapM (fun r => r.getEditForBase (fun _ _ _ => none) (.baseWithInput .one)) =
        some results ∧
      applyEdits (oneLine 97 (by decide)) (LineEdits.toEdits (results.filterMap Prod.fst) 1) =
        [[98]] ∧
      NonOverlapping (LineEdits.toEdits (results.filterMap Prod.fst) 1) := by
  apply accept_input (oneLine 97 (by decide)) _ _ _ _ _ _ _ .one
  · refine ⟨⟨.singleton _, ?_⟩, by simp⟩
    simp [EqualOutside]
    decide
  · exact ⟨⟨.nil, rfl⟩, by simp⟩

end Main

end NexgileIde.MergeEditor
