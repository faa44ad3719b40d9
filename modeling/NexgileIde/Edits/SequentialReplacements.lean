import NexgileIde.Edits.StringEdit

/-!
# Composing replacements that are made one after the other

The fast path collects replacements that move to the left into one edit and only
composes when the direction breaks. It agrees with composing one edit for each
replacement, because both have the effect of the sequence and are normalised.
-/
namespace NexgileIde.Edits

open Text Library Patch

def OffsetRange.isBefore (r other : OffsetRange) : Bool := r.endExclusive ≤ other.start

/-- `BaseStringReplacement.replace` -/
def StringReplacement.replace (r : StringReplacement) (str : Str) : Str :=
  substring str 0 r.replaceRange.start ++ r.newText ++ substringFrom str r.replaceRange.endExclusive

def StringReplacement.toEdit (r : StringReplacement) : Except BugIndicatingError StringEdit :=
  BaseEdit.createNew [r]

def StringEdit.empty : StringEdit := ⟨[], rfl⟩

/-- `StringEdit.compose(edits)` -/
def StringEdit.composeEdits : List StringEdit → Except BugIndicatingError StringEdit
  | [] => .ok StringEdit.empty
  | edit :: edits => edits.foldlM BaseEdit.compose edit

/-- The loop of `composeSequentialReplacements`; `curEditReplacements` are reverse sorted. -/
def composeSequentialLoop : StringEdit → List StringReplacement → List StringReplacement →
    Except BugIndicatingError StringEdit
  | edit, curEditReplacements, [] => do
    edit.compose (← BaseEdit.createNew curEditReplacements.reverse)
  | edit, curEditReplacements, r :: rest =>
    if curEditReplacements.getLast?.all fun last => r.replaceRange.isBefore last.replaceRange then
      composeSequentialLoop edit (curEditReplacements ++ [r]) rest
    else do
      -- the subsequence is broken: compose it and look for a new one
      let next ← edit.compose (← BaseEdit.createNew curEditReplacements.reverse)
      composeSequentialLoop next [r] rest

def StringEdit.composeSequentialReplacements (replacements : List StringReplacement) :
    Except BugIndicatingError StringEdit :=
  composeSequentialLoop StringEdit.empty [] replacements

/-- The texts that the replacements make one after the other. -/
def replaceAll (replacements : List StringReplacement) (str : Str) : Str :=
  replacements.foldl (fun str r => r.replace str) str

/-- Each replacement is valid on the text that the previous ones produce. -/
def SequenceValid : Str → List StringReplacement → Prop
  | _, [] => True
  | str, r :: rest =>
    0 ≤ r.replaceRange.start ∧ r.replaceRange.endExclusive ≤ str.length ∧
      SequenceValid (r.replace str) rest

instance SequenceValid.decidable : (str : Str) → (rs : List StringReplacement) →
    Decidable (SequenceValid str rs)
  | _, [] => inferInstanceAs (Decidable True)
  | str, r :: rest =>
    have := SequenceValid.decidable (r.replace str) rest
    inferInstanceAs (Decidable (_ ∧ _ ∧ _))

theorem replace_eq_run (r : StringReplacement) (str : Str) :
    r.replace str = run 0 (patches [r]) str := by
  simp [StringReplacement.replace, substring, substringFrom, run_cons]

theorem length_replace {r : StringReplacement} {str : Str} (h : 0 ≤ r.replaceRange.start)
    (hend : r.replaceRange.endExclusive ≤ str.length) :
    ((r.replace str).length : Int) =
      str.length + (r.newText.length - (r.replaceRange.endExclusive - r.replaceRange.start)) := by
  have hfits : Fits 0 (0 + str.length) (patches [r]) := by
    rw [zero_add]
    exact ⟨h, r.replaceRange.le, hend⟩
  rw [replace_eq_run, length_run hfits]
  simp [growth]

/-- Only the length of the text matters for what is valid on it, and for its final length. -/
theorem SequenceValid.of_length {rs : List StringReplacement} {str str' : Str}
    (h : SequenceValid str rs) (hlen : str.length = str'.length) :
    SequenceValid str' rs ∧ (replaceAll rs str).length = (replaceAll rs str').length := by
  induction rs generalizing str str' with
  | nil => exact ⟨trivial, hlen⟩
  | cons r rs ih =>
    obtain ⟨hstart, hend, hrest⟩ := h
    have hl := length_replace hstart hend
    have hl' := @length_replace r str' hstart (by omega)
    obtain ⟨hvalid, hlast⟩ := ih hrest (by omega : (r.replace str).length = (r.replace str').length)
    exact ⟨⟨hstart, by omega, hvalid⟩, hlast⟩

theorem replaceAll_concat (rs : List StringReplacement) (r : StringReplacement) (str : Str) :
    replaceAll (rs ++ [r]) str = r.replace (replaceAll rs str) := by
  simp [replaceAll]

theorem sequenceValid_append {rs rs' : List StringReplacement} {str : Str} :
    SequenceValid str (rs ++ rs') ↔ SequenceValid str rs ∧ SequenceValid (replaceAll rs str) rs' := by
  induction rs generalizing str with
  | nil => simp [SequenceValid, replaceAll]
  | cons r rs ih =>
    rw [List.cons_append, SequenceValid, SequenceValid, ih]
    simp only [replaceAll, List.foldl_cons, and_assoc]

/-- A batch of replacements: sorted from the last one made to the first, and together they
do what they do one after the other. -/
structure Batch (str : Str) (curEditReplacements : List StringReplacement) : Prop where
  fits : Fits 0 str.length (patches curEditReplacements.reverse)
  effect : run 0 (patches curEditReplacements.reverse) str = replaceAll curEditReplacements str

theorem Batch.nil (str : Str) : Batch str [] := ⟨Int.natCast_nonneg _, rfl⟩

theorem Batch.singleton {str : Str} {r : StringReplacement} (h : 0 ≤ r.replaceRange.start)
    (hend : r.replaceRange.endExclusive ≤ str.length) : Batch str [r] :=
  ⟨⟨h, r.replaceRange.le, hend⟩, (replace_eq_run r str).symm⟩

/-- A replacement before the last one joins the batch. -/
theorem Batch.push {str : Str} {cur : List StringReplacement} {r : StringReplacement}
    (hbatch : Batch str cur) (hstart : 0 ≤ r.replaceRange.start)
    (hend : r.replaceRange.endExclusive ≤ (replaceAll cur str).length)
    (hbefore : ∀ last ∈ cur.getLast?, r.replaceRange.isBefore last.replaceRange) :
    Batch str (cur ++ [r]) := by
  obtain ⟨hfits, heffect⟩ := hbatch
  have hle := r.replaceRange.le
  have hrest : Fits r.replaceRange.endExclusive str.length (patches cur.reverse) := by
    rcases cur.eq_nil_or_concat' with rfl | ⟨init, last, rfl⟩
    · exact hend
    · have hlast := hbefore last (by simp)
      rw [List.reverse_append] at hfits ⊢
      exact ⟨by simpa [OffsetRange.isBefore] using hlast, hfits.2⟩
  have hstop := hrest.le
  have hsplit := run_split (t := str) hrest (by omega : (0 : Int) ≤ _) (by omega)
  refine ⟨?_, ?_⟩
  · rw [List.reverse_append]
    exact ⟨hstart, hle, hrest⟩
  · rw [replaceAll_concat, ← heffect, replace_eq_run, hsplit, List.reverse_append]
    have htake : (str.take (r.replaceRange.endExclusive - 0).toNat).length =
        r.replaceRange.endExclusive.toNat := by
      rw [List.length_take]
      omega
    simp only [List.reverse_singleton, List.singleton_append, patches_cons, patches_nil, run_cons,
      run_nil, StringReplacement.toPatch_start, StringReplacement.toPatch_stop,
      StringReplacement.toPatch_text, sub_zero] at htake ⊢
    have hread : (str.take r.replaceRange.endExclusive.toNat).drop
        r.replaceRange.endExclusive.toNat = [] := List.drop_of_length_le htake.le
    have hmin : min r.replaceRange.start.toNat r.replaceRange.endExclusive.toNat =
        r.replaceRange.start.toNat := by omega
    rw [List.take_append_of_le_length (by omega), List.take_take, hmin,
      List.drop_append_of_le_length (by omega), hread, List.nil_append]

/-- The edit composed so far has the effect of the replacements `done`. -/
structure Composed (n : ℕ) (done : List StringReplacement) (edit : StringEdit) : Prop where
  within : edit.Within n
  effect : ∀ str : Str, str.length = n → edit.apply str = replaceAll done str

/-- Composing a batch, or a single replacement, behind what is composed already. -/
theorem Composed.compose {n : ℕ} {done cur : List StringReplacement} {edit : StringEdit}
    (h : Composed n done edit) (hbatch : ∀ str, str.length = n → Batch (replaceAll done str) cur) :
    ∃ batch composed raw : StringEdit, BaseEdit.createNew cur.reverse = .ok batch ∧
      edit.compose batch = .ok composed ∧ raw.normalize = .ok composed ∧
      Composed n (done ++ cur) composed := by
  have hfits := (hbatch (List.replicate n 0) (by simp)).fits
  obtain ⟨batch, hbatchok, hrep⟩ := createNew_of_fits hfits
  have hcompose : ∀ str : Str, str.length = n → ∃ composed : StringEdit,
      edit.compose batch = .ok composed ∧ composed.Within n ∧
        composed.apply str = replaceAll (done ++ cur) str ∧
        ∃ raw : StringEdit, raw.normalize = .ok composed := by
    intro str hstr
    subst hstr
    have hb := hbatch str rfl
    rw [← h.effect str rfl] at hb
    have hbwithin : batch.Within (edit.apply str).length := within_of_fits (by rw [hrep]; exact hb.fits)
    obtain ⟨composed, hok, hwithin, happly, hraw⟩ :=
      StringEdit.compose_spec str edit batch h.within hbwithin
    refine ⟨composed, hok, hwithin, ?_, hraw⟩
    rw [happly, hbwithin.apply_eq_run, hrep, hb.effect, h.effect str rfl, replaceAll, replaceAll,
      replaceAll, List.foldl_append]
  obtain ⟨composed, hok, hwithin, -, raw, hraw⟩ := hcompose (List.replicate n 0) (by simp)
  refine ⟨batch, composed, raw, hbatchok, hok, hraw, hwithin, fun str hstr => ?_⟩
  obtain ⟨composed', hok', -, happly, -⟩ := hcompose str hstr
  obtain rfl : composed = composed' := Except.ok.inj (hok.symm.trans hok')
  exact happly

theorem composeSequentialLoop_spec {n : ℕ} {done cur rest : List StringReplacement}
    {edit : StringEdit} (h : Composed n done edit)
    (hbatch : ∀ str, str.length = n → Batch (replaceAll done str) cur)
    (hvalid : ∀ str, str.length = n → SequenceValid str (done ++ cur ++ rest)) :
    ∃ result raw : StringEdit, composeSequentialLoop edit cur rest = .ok result ∧
      raw.normalize = .ok result ∧ Composed n (done ++ cur ++ rest) result := by
  induction rest generalizing done cur edit with
  | nil =>
    obtain ⟨batch, composed, raw, hcreate, hok, hraw, hcomposed⟩ := h.compose hbatch
    refine ⟨composed, raw, ?_, hraw, by rwa [List.append_nil]⟩
    simp only [composeSequentialLoop, hcreate]
    exact hok
  | cons r rest ih =>
    have hr : ∀ str, str.length = n → 0 ≤ r.replaceRange.start ∧
        r.replaceRange.endExclusive ≤ (replaceAll cur (replaceAll done str)).length := by
      intro str hstr
      obtain ⟨-, hstart, hend, -⟩ := sequenceValid_append.mp (hvalid str hstr)
      rw [replaceAll, List.foldl_append] at hend
      exact ⟨hstart, hend⟩
    have hassoc : done ++ cur ++ r :: rest = done ++ (cur ++ [r]) ++ rest := by simp
    unfold composeSequentialLoop
    split_ifs with hbefore
    · rw [hassoc] at hvalid ⊢
      refine ih h (fun str hstr => ?_) hvalid
      refine (hbatch str hstr).push (hr str hstr).1 (hr str hstr).2 fun last hlast => ?_
      rw [Option.mem_def.mp hlast] at hbefore
      exact hbefore
    · obtain ⟨batch, composed, raw, hcreate, hok, -, hcomposed⟩ := h.compose hbatch
      simp only [hcreate, bind, Except.bind, hok]
      have hassoc' : done ++ cur ++ r :: rest = done ++ cur ++ [r] ++ rest := by simp
      rw [hassoc'] at hvalid ⊢
      refine ih hcomposed (fun str hstr => ?_) hvalid
      rw [replaceAll, List.foldl_append]
      exact Batch.singleton (hr str hstr).1 (hr str hstr).2

/-- Composing one edit for each replacement. -/
theorem foldlM_compose_spec {n : ℕ} {done rest : List StringReplacement} {edit : StringEdit}
    (h : Composed n done edit) (hvalid : ∀ str, str.length = n → SequenceValid str (done ++ rest)) :
    ∃ (edits : List StringEdit) (result : StringEdit),
      rest.mapM StringReplacement.toEdit = .ok edits ∧
      edits.foldlM BaseEdit.compose edit = .ok result ∧ Composed n (done ++ rest) result := by
  induction rest generalizing done edit with
  | nil => exact ⟨[], edit, rfl, rfl, by rwa [List.append_nil]⟩
  | cons r rest ih =>
    have hbatch : ∀ str, str.length = n → Batch (replaceAll done str) [r] := by
      intro str hstr
      obtain ⟨-, hstart, hend, -⟩ := sequenceValid_append.mp (hvalid str hstr)
      exact Batch.singleton hstart hend
    have hassoc : done ++ r :: rest = done ++ [r] ++ rest := by simp
    obtain ⟨single, composed, -, hcreate, hok, -, hcomposed⟩ := h.compose hbatch
    rw [hassoc] at hvalid ⊢
    obtain ⟨edits, result, hedits, hfold, hresult⟩ := ih hcomposed hvalid
    have hsingle : r.toEdit = .ok single := hcreate
    refine ⟨single :: edits, result, ?_, ?_, hresult⟩
    · simp [List.mapM_cons, hsingle, hedits, bind, Except.bind, pure, Except.pure]
    · simp only [List.foldlM_cons, hok]
      exact hfold

theorem Composed.empty (n : ℕ) : Composed n [] StringEdit.empty where
  within := nofun
  effect str _ := by simp [StringEdit.empty, StringEdit.apply, applyFrom, substringFrom, replaceAll]

theorem Composed.single {n : ℕ} {r : StringReplacement}
    (h : ∀ str : Str, str.length = n → Batch str [r]) :
    ∃ single, r.toEdit = .ok single ∧ Composed n [r] single := by
  obtain ⟨single, hcreate, hrep⟩ := createNew_of_fits (h (List.replicate n 0) (by simp)).fits
  have hwithin : ∀ str : Str, str.length = n → single.Within str.length := fun str hstr =>
    within_of_fits (by rw [hrep]; exact (h str hstr).fits)
  refine ⟨single, hcreate, ?_, fun str hstr => ?_⟩
  · simpa using hwithin (List.replicate n 0) (by simp)
  · rw [(hwithin str hstr).apply_eq_run, hrep]
    exact (h str hstr).effect

/-- `StringEdit.compose` of the one-replacement edits of a valid sequence. -/
theorem composeEdits_spec {n : ℕ} {rs : List StringReplacement}
    (hvalid : ∀ str, str.length = n → SequenceValid str rs) :
    ∃ (edits : List StringEdit) (result : StringEdit), rs.mapM StringReplacement.toEdit = .ok edits ∧
      StringEdit.composeEdits edits = .ok result ∧ Composed n rs result := by
  cases rs with
  | nil => exact ⟨[], StringEdit.empty, rfl, rfl, Composed.empty n⟩
  | cons r rest =>
    obtain ⟨single, hsingle, hcomposed⟩ := Composed.single (n := n) (r := r) fun str hstr =>
      Batch.singleton (hvalid str hstr).1 (hvalid str hstr).2.1
    obtain ⟨edits, result, hedits, hfold, hresult⟩ := foldlM_compose_spec hcomposed hvalid
    refine ⟨single :: edits, result, ?_, hfold, hresult⟩
    simp [List.mapM_cons, hsingle, hedits, bind, Except.bind, pure, Except.pure]

/-- The fast path does not fail on replacements that are valid one after the other. It has
the effect of composing one edit for each of them, and normalises to the same edit. -/
theorem StringEdit.composeSequentialReplacements_eq (base : Str) (rs : List StringReplacement)
    (h : SequenceValid base rs) :
    ∃ (result : StringEdit) (edits : List StringEdit) (composed : StringEdit),
      StringEdit.composeSequentialReplacements rs = .ok result ∧
      rs.mapM StringReplacement.toEdit = .ok edits ∧
      StringEdit.composeEdits edits = .ok composed ∧
      result.apply base = composed.apply base ∧ result.apply base = replaceAll rs base ∧
      ∃ result' composed' : StringEdit, result.normalize = .ok result' ∧
        composed.normalize = .ok composed' ∧ result'.equals composed' = true := by
  have hvalid : ∀ str : Str, str.length = base.length → SequenceValid str rs :=
    fun str hstr => (h.of_length hstr.symm).1
  obtain ⟨result, -, hok, -, hresult⟩ := composeSequentialLoop_spec (Composed.empty base.length)
    (fun str _ => Batch.nil str) hvalid
  obtain ⟨edits, composed, hedits, hcompose, hcomposed⟩ := composeEdits_spec hvalid
  obtain ⟨result', hr, hrw, hra⟩ := BaseEdit.normalize_spec hresult.within
  obtain ⟨composed', hc, hcw, hca⟩ := BaseEdit.normalize_spec hcomposed.within
  refine ⟨result, edits, composed, hok, hedits, hcompose, ?_, hresult.effect base rfl,
    result', composed', hr, hc, ?_⟩
  · rw [hresult.effect base rfl, hcomposed.effect base rfl]
    rfl
  · rw [StringEdit.equals_iff]
    refine StringEdit.eq_of_apply_eq hr hc hrw hcw fun str hstr => ?_
    rw [← StringEdit.apply_eq, ← StringEdit.apply_eq, hra str hstr.symm, hca str hstr.symm,
      StringEdit.apply_eq, StringEdit.apply_eq, hresult.effect str hstr, hcomposed.effect str hstr]
    rfl

/-- Two insertions at one offset and a replacement that touches them. -/
theorem StringEdit.composeSequentialReplacements_eq_touching :
    ∃ result : StringEdit,
      StringEdit.composeSequentialReplacements [⟨⟨1, 1, by decide⟩, [120]⟩,
        ⟨⟨1, 1, by decide⟩, [121]⟩, ⟨⟨2, 4, by decide⟩, [122]⟩] = .ok result ∧
      result.apply [97, 98, 99] = [97, 121, 122, 99] := by
  obtain ⟨result, -, -, hok, -, -, -, happly, -⟩ :=
    StringEdit.composeSequentialReplacements_eq [97, 98, 99] [⟨⟨1, 1, by decide⟩, [120]⟩,
      ⟨⟨1, 1, by decide⟩, [121]⟩, ⟨⟨2, 4, by decide⟩, [122]⟩] (by decide)
  exact ⟨result, hok, happly⟩

end NexgileIde.Edits
