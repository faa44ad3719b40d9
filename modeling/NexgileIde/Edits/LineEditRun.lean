import NexgileIde.Edits.LineWindows

/-!
# Line edits from text edits

Replacements that share a line are joined with the gaps between them, and every group becomes
one line replacement. Each works on the lines of its group and at most the line feed behind
them, so that the string edit made from all of them has the effect of the text edit.
-/
namespace NexgileIde.Edits

open Text TextLength Library
open MergeEditor (LineRange joinLines)

namespace TextReplacement

/-- The texts of replacements and the gaps between them. -/
def joinTexts (initialValue : Str) : List TextReplacement → Except BugIndicatingError Str
  | [] => return []
  | [curEdit] => return curEdit.text
  | curEdit :: nextEdit :: rest => do
    let gapText ← getValueOfRange initialValue
      (.fromPositions curEdit.range.getEndPosition nextEdit.range.getStartPosition)
    let newText ← joinTexts initialValue (nextEdit :: rest)
    return curEdit.text ++ (gapText ++ newText)

def joinReplacements (replacements : List TextReplacement) (initialValue : Str) :
    Except TextEditError TextReplacement :=
  match replacements with
  | [] => .error .unexpected
  | [replacement] => .ok replacement
  | first :: rest => do
    let newText ← joinTexts initialValue (first :: rest)
    return ⟨.fromPositions first.range.getStartPosition
      (rest.getLastD first).range.getEndPosition, newText⟩

end TextReplacement

/-- Line replacements sorted by their ranges, which do not intersect. -/
structure LineEdit where
  replacements : List LineReplacement
  sorted : checkAdjacentItems (fun i1 i2 : LineReplacement =>
    i1.lineRange.endLineNumberExclusive ≤ i2.lineRange.startLineNumber) replacements

namespace LineEdit

/-- The constructor. -/
def create (replacements : List LineReplacement) : Except TextEditError LineEdit :=
  if h : checkAdjacentItems (fun i1 i2 : LineReplacement =>
      i1.lineRange.endLineNumberExclusive ≤ i2.lineRange.startLineNumber) replacements then
    .ok ⟨replacements, h⟩
  else .error .assertionFailed

/-- The loop of `fromTextEdit`. -/
def fromTextEditLoop (initialValue : Str) (currentEdits : List TextReplacement) :
    List TextReplacement → Except TextEditError (List LineReplacement)
  | [] => return []
  | edit :: rest =>
    let currentEdits := currentEdits ++ [edit]
    if rest.head?.any fun next => next.range.startLineNumber = edit.range.endLineNumber then
      fromTextEditLoop initialValue currentEdits rest
    else do
      let singleEdit ← TextReplacement.joinReplacements currentEdits initialValue
      let singleLineEdit ← LineReplacement.fromSingleTextEdit singleEdit initialValue
      let result ← fromTextEditLoop initialValue [] rest
      return singleLineEdit :: result

def fromTextEdit (edit : TextEdit) (initialValue : Str) : Except TextEditError LineEdit := do
  let result ← fromTextEditLoop initialValue [] edit.replacements
  create result

/-- The loop of `toEdit`. -/
def toEditLoop (initialValue : Str) :
    List LineReplacement → Except BugIndicatingError (List StringReplacement)
  | [] => return []
  | edit :: rest => do
    let singleEdit ← edit.toSingleEdit initialValue
    let edits ← toEditLoop initialValue rest
    return singleEdit :: edits

def toEdit (e : LineEdit) (initialValue : Str) : Except BugIndicatingError StringEdit := do
  let edits ← toEditLoop initialValue e.replacements
  BaseEdit.createNew edits

end LineEdit

theorem joinLines_splitLines_noCR (text : Str) : CarriageReturn ∉ joinLines (splitLines text) := by
  induction text with
  | nil => simp [splitLines, joinLines]
  | cons c text ih =>
    rw [splitLines_cons]
    split_ifs with hend hcr
    · rw [joinLines_cons, List.nil_append, ← lineFeed_append_joinLines (splitLines_ne_nil text)]
      simpa using ih
    · exact ih
    · have hmodify := joinLines_modifyHead [c] (splitLines_ne_nil text)
      simp only [List.singleton_append] at hmodify
      rw [hmodify, List.mem_cons, not_or]
      exact ⟨Ne.symm hcr, ih⟩

/-- Without carriage returns, splitting and joining gives the text back. -/
theorem joinLines_splitLines {text : Str} (h : CarriageReturn ∉ text) :
    joinLines (splitLines text) = text := by
  induction text with
  | nil => simp [splitLines, joinLines]
  | cons c text ih =>
    rw [List.mem_cons, not_or] at h
    rw [splitLines_cons]
    split_ifs with hend hcr
    · obtain rfl : c = LineFeed := by
        rcases hend with hlf | hcr
        · exact hlf
        · exact absurd hcr.1.symm h.1
      rw [joinLines_cons, List.nil_append, ← lineFeed_append_joinLines (splitLines_ne_nil text),
        ih h.2]
    · exact absurd hcr.symm h.1
    · have hmodify := joinLines_modifyHead [c] (splitLines_ne_nil text)
      simp only [List.singleton_append] at hmodify
      rw [hmodify, ih h.2]

/-- Joined replacements divide the text as their first and last do. -/
theorem joinTexts_spec {front rest new : Str} {first : TextReplacement}
    {more rs : List TextReplacement} (h : Rewrites front (first :: more ++ rs) rest new)
    (hcr : CarriageReturn ∉ front ++ rest) :
    ∃ text gap old rest' new', TextReplacement.joinTexts (front ++ rest) (first :: more) = .ok text ∧
      rest = gap ++ (old ++ rest') ∧ new = gap ++ (text ++ new') ∧
      first.range.getStartPosition = behind (front ++ gap) ∧
      (more.getLastD first).range.getEndPosition = behind (front ++ gap ++ old) ∧
      Rewrites (front ++ gap ++ old) rs rest' new' ∧
      ((∀ r ∈ first :: more, CarriageReturn ∉ r.text) → CarriageReturn ∉ text) := by
  induction more generalizing front rest new first with
  | nil =>
    cases h with
    | @cons _ rest new _ _ gap old hstart hend _ _ htail =>
      exact ⟨first.text, gap, old, rest, new, rfl, rfl, rfl, hstart, hend, htail,
        fun htexts => htexts first (List.mem_cons_self ..)⟩
  | cons next more ih =>
    cases h with
    | @cons _ rest new _ _ gap old hstart hend _ _ htail =>
      have hassoc : front ++ (gap ++ (old ++ rest)) = front ++ gap ++ old ++ rest := by simp
      rw [hassoc] at hcr ⊢
      obtain ⟨text, gap', old', rest', new', htext, rfl, rfl, hnext, hlast, hrewrites, hfree⟩ :=
        ih htail hcr
      have hleft : CarriageReturn ∉ front ++ gap ++ old := fun hmem =>
        hcr (List.mem_append_left _ hmem)
      have hleft' : CarriageReturn ∉ front ++ gap ++ old ++ gap' := fun hmem =>
        hcr (by
          rw [← List.append_assoc]
          exact List.mem_append_left _ hmem)
      have hgapcr : CarriageReturn ∉ gap' := fun hmem => hleft' (List.mem_append_right _ hmem)
      have hle := behind_le (front ++ gap ++ old) gap'
      have hgap : getValueOfRange (front ++ gap ++ old ++ (gap' ++ (old' ++ rest')))
          (.fromPositions first.range.getEndPosition next.range.getStartPosition) = .ok gap' := by
        rw [hend, hnext]
        exact getValueOfRange_eq (Range.fromPositions_start hle) (Range.fromPositions_end hle)
          (not_seam_of_noCarriageReturn hleft _) (not_seam_of_noCarriageReturn hleft' _)
      refine ⟨first.text ++ (gap' ++ text), gap, old ++ (gap' ++ old'), rest', new', ?_, by simp,
        by simp, hstart, ?_, ?_, ?_⟩
      · rw [TextReplacement.joinTexts, hgap]
        simp only [bind, Except.bind, htext]
        rfl
      · have hsame : front ++ gap ++ (old ++ (gap' ++ old')) = front ++ gap ++ old ++ gap' ++ old' := by
          simp
        rw [hsame, ← hlast, List.getLastD_cons]
      · have hsame : front ++ gap ++ (old ++ (gap' ++ old')) = front ++ gap ++ old ++ gap' ++ old' := by
          simp
        rw [hsame]
        exact hrewrites
      · intro htexts
        have hfirst := htexts first (List.mem_cons_self ..)
        have hmore := hfree fun r hr => htexts r (List.mem_cons_of_mem _ hr)
        simp only [List.mem_append, not_or]
        exact ⟨hfirst, hgapcr, hmore⟩

/-- A group of replacements acts as the one it is joined to. -/
theorem joinReplacements_spec {front rest new : Str} {first : TextReplacement}
    {more rs : List TextReplacement} (h : Rewrites front (first :: more ++ rs) rest new)
    (hcr : CarriageReturn ∉ front ++ rest) :
    ∃ joined gap old rest' new',
      TextReplacement.joinReplacements (first :: more) (front ++ rest) = .ok joined ∧
      rest = gap ++ (old ++ rest') ∧ new = gap ++ (joined.text ++ new') ∧
      joined.range.getStartPosition = behind (front ++ gap) ∧
      joined.range.getEndPosition = behind (front ++ gap ++ old) ∧
      (more.getLastD first).range.getEndPosition = behind (front ++ gap ++ old) ∧
      Rewrites (front ++ gap ++ old) rs rest' new' ∧
      ((∀ r ∈ first :: more, CarriageReturn ∉ r.text) → CarriageReturn ∉ joined.text) := by
  obtain ⟨text, gap, old, rest', new', htext, hrest, hnew, hstart, hend, hrewrites, hfree⟩ :=
    joinTexts_spec h hcr
  cases more with
  | nil =>
    cases htext
    exact ⟨first, gap, old, rest', new', rfl, hrest, hnew, hstart, hend, hend, hrewrites, hfree⟩
  | cons next more =>
    have hle := behind_le (front ++ gap) old
    refine ⟨⟨.fromPositions (behind (front ++ gap)) (behind (front ++ gap ++ old)), text⟩, gap, old,
      rest', new', ?_, hrest, hnew, Range.fromPositions_start hle, Range.fromPositions_end hle, hend,
      hrewrites, hfree⟩
    rw [TextReplacement.joinReplacements, htext, hstart, hend]
    · rfl
    · simp

/-- A text from the start of a line on, up to its last line. -/
theorem exists_lastLine {front gap : Str} (h : (behind front).column = 1) :
    ∃ lines a, gap = lines ++ a ∧ LineFeed ∉ a ∧ (behind (front ++ lines)).column = 1 := by
  obtain ⟨lines, a, rfl, hlines⟩ := @exists_lineStart gap (extent gap).lineCount le_rfl
  refine ⟨lines, a, rfl, ?_, ?_⟩
  · rw [← extent_lineCount_eq_zero]
    have hcount := congrArg TextLength.lineCount (extent_append lines a)
    rw [lineCount_add] at hcount
    rw [hlines] at hcount
    simp only at hcount
    omega
  · rw [behind_append, addToPosition, hlines]
    split_ifs
    · simpa using h
    · simp

theorem exists_firstLine (text : Str) : ∃ b rest, text = b ++ rest ∧ LineFeed ∉ b ∧ LineEnds rest := by
  induction text with
  | nil => exact ⟨[], [], rfl, List.not_mem_nil, .inl rfl⟩
  | cons c text ih =>
    by_cases hc : c = LineFeed
    · exact ⟨[], c :: text, rfl, List.not_mem_nil, .inr ⟨text, by rw [hc]⟩⟩
    · obtain ⟨b, rest, rfl, hb, hrest⟩ := ih
      refine ⟨c :: b, rest, rfl, ?_, hrest⟩
      rw [List.mem_cons, not_or]
      exact ⟨Ne.symm hc, hb⟩

/-- Text in front of the first replacement can be counted as read. -/
theorem Rewrites.skip {front x rest new : Str} {rs : List TextReplacement}
    (h : Rewrites front rs (x ++ rest) new)
    (hfirst : ∀ r, rs.head? = some r →
      (behind (front ++ x)).isBeforeOrEqual r.range.getStartPosition) :
    ∃ new', new = x ++ new' ∧ Rewrites (front ++ x) rs rest new' := by
  generalize htext : x ++ rest = text at h
  cases h with
  | nil => exact ⟨rest, htext.symm, .nil _ _⟩
  | @cons _ rest' new' r rs gap old hstart hend hgapSeam hendSeam htail =>
    have hle := hfirst r rfl
    rw [hstart] at hle
    have hsplit : front ++ x ++ rest = front ++ gap ++ (old ++ rest') := by
      rw [List.append_assoc, htext, List.append_assoc]
    obtain ⟨w, hgap, rfl⟩ := exists_gap hsplit hle
    obtain rfl : gap = x ++ w := by
      rw [List.append_assoc] at hgap
      exact List.append_cancel_left hgap
    have hassoc : front ++ (x ++ w) = front ++ x ++ w := by simp
    rw [hassoc] at hstart hend hgapSeam hendSeam htail
    exact ⟨w ++ (r.text ++ new'), by simp, .cons w old hstart hend hgapSeam hendSeam htail⟩

/-- A string replacement that works on one part of a text, run in front of others. -/
theorem run_of_splices {front gap old new rest : Str} {r : StringReplacement} {n : ℤ}
    {ps : List (Patch CodeUnit)} (h : Splices r (front ++ gap) old new)
    (hfits : Patch.Fits (front ++ gap ++ old).length n ps) :
    Patch.Fits front.length n (r.toPatch :: ps) ∧
      Patch.run front.length (r.toPatch :: ps) (gap ++ (old ++ rest)) =
        gap ++ (new ++ Patch.run (front ++ gap ++ old).length ps rest) := by
  obtain ⟨p, m, q, rfl, rfl, hstart, hend⟩ := h
  have hfits' : Patch.Fits ((front ++ gap ++ p ++ m).length : ℤ) n ps := by
    refine hfits.mono_left ?_
    simp only [List.length_append]
    push_cast
    omega
  constructor
  · refine ⟨?_, r.replaceRange.le, ?_⟩
    · rw [StringReplacement.toPatch_start, hstart]
      simp only [List.length_append]
      push_cast
      omega
    · rw [StringReplacement.toPatch_stop, hend]
      exact hfits'
  · have hcut : (((front ++ gap ++ p).length : ℤ) - front.length).toNat = (gap ++ p).length := by
      simp only [List.length_append]
      omega
    have hcut' : (((front ++ gap ++ p ++ m).length : ℤ) - front.length).toNat =
        (gap ++ p ++ m).length := by
      simp only [List.length_append]
      omega
    have hlen : ((front ++ gap ++ p ++ m).length : ℤ) + q.length =
        (front ++ gap ++ (p ++ (m ++ q))).length := by
      simp only [List.length_append]
      push_cast
      omega
    have hafter := @Patch.run_append_left _ (front ++ gap ++ p ++ m).length n ps q rest
      (by rw [hlen]; exact hfits)
    have htake : gap ++ (p ++ (m ++ q) ++ rest) = gap ++ p ++ (m ++ (q ++ rest)) := by simp
    have hdrop : gap ++ (p ++ (m ++ q) ++ rest) = gap ++ p ++ m ++ (q ++ rest) := by simp
    rw [Patch.run_cons, StringReplacement.toPatch_start, StringReplacement.toPatch_stop,
      StringReplacement.toPatch_text, hstart, hend, hcut, hcut']
    nth_rewrite 1 [htake]
    rw [hdrop, List.take_left, List.drop_left, hafter, hlen]
    simp

/-- What the line replacements made from some replacements do to the rest of a text: they
are sorted, and so are the string replacements made from them, which write `written`. -/
structure Converted (front rest new : Str) (rs : List TextReplacement)
    (result : List LineReplacement) : Prop where
  sorted : checkAdjacentItems (fun i1 i2 : LineReplacement =>
    i1.lineRange.endLineNumberExclusive ≤ i2.lineRange.startLineNumber) result
  first_ge : ∀ r, result.head? = some r → (behind front).lineNumber ≤ r.lineRange.startLineNumber
  writes : ∃ edits written, LineEdit.toEditLoop (front ++ rest) result = .ok edits ∧
    Patch.Fits front.length (front ++ rest).length (patches edits) ∧
    Patch.run front.length (patches edits) rest = written ∧ CarriageReturn ∉ written ∧
    ((∀ r ∈ rs, CarriageReturn ∉ r.text) → written = new)

theorem converted_nil {front rest : Str} (hcr : CarriageReturn ∉ front ++ rest) :
    Converted front rest rest [] [] where
  sorted := rfl
  first_ge := nofun
  writes := ⟨[], rest, rfl, by simp [Patch.Fits], rfl,
    fun hmem => hcr (List.mem_append_right _ hmem), fun _ => rfl⟩

/-- A group is converted in front of what has been converted behind its lines. -/
theorem Converted.cons {front lines a old b feed rest new : Str} {joined : TextReplacement}
    {group rs : List TextReplacement} {r : LineReplacement} {result : List LineReplacement}
    (hcr : CarriageReturn ∉ front ++ (lines ++ (a ++ (old ++ (b ++ feed))) ++ rest))
    (hfree : (∀ r ∈ group, CarriageReturn ∉ r.text) → CarriageReturn ∉ joined.text)
    (hstart : (behind (front ++ lines)).lineNumber ≤ r.lineRange.startLineNumber)
    (hend : ∀ r', result.head? = some r' →
      r.lineRange.endLineNumberExclusive ≤ r'.lineRange.startLineNumber)
    (hsplices : ∃ e, r.toSingleEdit (front ++ (lines ++ (a ++ (old ++ (b ++ feed))) ++ rest)) =
        .ok e ∧ Splices e (front ++ lines) (a ++ (old ++ (b ++ feed)))
          (a ++ (joinLines (splitLines joined.text) ++ (b ++ feed))))
    (hrest : Converted (front ++ (lines ++ (a ++ (old ++ (b ++ feed))))) rest new rs result) :
    Converted front (lines ++ (a ++ (old ++ (b ++ feed))) ++ rest)
      (lines ++ (a ++ (joined.text ++ (b ++ (feed ++ new))))) (group ++ rs) (r :: result) := by
  obtain ⟨e, he, hsplice⟩ := hsplices
  obtain ⟨edits, written, hedits, hfits, hrun, hwritten, hnew⟩ := hrest.writes
  have hassoc : front ++ (lines ++ (a ++ (old ++ (b ++ feed)))) ++ rest =
      front ++ (lines ++ (a ++ (old ++ (b ++ feed))) ++ rest) := by simp
  have hfront : front ++ (lines ++ (a ++ (old ++ (b ++ feed)))) =
      front ++ lines ++ (a ++ (old ++ (b ++ feed))) := by simp
  rw [hassoc] at hedits hfits
  rw [hfront] at hfits hrun
  obtain ⟨hfitsAll, hrunAll⟩ := @run_of_splices front lines _ _ rest e _ _ hsplice hfits
  rw [hrun] at hrunAll
  refine ⟨?_, ?_, e :: edits, _, ?_, hfitsAll, by simpa using hrunAll, ?_, ?_⟩
  · cases result with
    | nil => rfl
    | cons r' result =>
      rw [checkAdjacentItems, Bool.and_eq_true, decide_eq_true_eq]
      exact ⟨hend r' rfl, hrest.sorted⟩
  · rintro _ ⟨⟩
    have hle := behind_le front lines
    rw [Position.isBeforeOrEqual_iff] at hle
    omega
  · rw [LineEdit.toEditLoop, he, hedits]
    rfl
  · have hjoined := joinLines_splitLines_noCR joined.text
    intro hmem
    simp only [List.mem_append] at hmem hcr
    tauto
  · intro htexts
    have hgroup := hfree fun r hr => htexts r (List.mem_append_left _ hr)
    have htail := hnew fun r hr => htexts r (List.mem_append_right _ hr)
    rw [joinLines_splitLines hgroup, htail]

/-- A replacement that starts in a later line starts behind the next line feed. -/
theorem Rewrites.start_laterLine {front b tail new : Str} {r : TextReplacement}
    {rs : List TextReplacement} (h : Rewrites front (r :: rs) (b ++ tail) new)
    (hb : LineFeed ∉ b) (htail : LineEnds tail)
    (hline : r.range.getStartPosition.lineNumber ≠ (behind front).lineNumber) :
    ∃ rest, tail = LineFeed :: rest ∧
      (behind (front ++ (b ++ [LineFeed]))).isBeforeOrEqual r.range.getStartPosition := by
  generalize htext : b ++ tail = text at h
  cases h with
  | @cons _ rest' new' _ _ gap old hstart _ _ _ _ =>
    rw [hstart] at hline ⊢
    rcases List.append_eq_append_iff.mp htext with ⟨w, hgap, hw⟩ | ⟨w, hgap, -⟩
    · cases w with
      | nil =>
        rw [List.append_nil] at hgap
        rw [hgap] at hline
        exact absurd (Window.lineNumber_append hb) hline
      | cons c w =>
        rcases htail with rfl | ⟨rest, rfl⟩
        · cases hw
        · obtain rfl : c = LineFeed := (List.cons.inj hw).1.symm
          refine ⟨rest, rfl, ?_⟩
          have hle := behind_le (front ++ (b ++ [LineFeed])) w
          rw [hgap]
          simpa using hle
    · have hfree : LineFeed ∉ gap := fun hmem => hb (by
        rw [hgap]
        exact List.mem_append_left _ hmem)
      exact absurd (Window.lineNumber_append hfree) hline

/-- The loop converts what is pending and what is left. -/
theorem fromTextEditLoop_spec {front rest new : Str} {pending rs : List TextReplacement}
    (h : Rewrites front (pending ++ rs) rest new) (hcr : CarriageReturn ∉ front ++ rest)
    (hcolumn : (behind front).column = 1) (hpending : rs = [] → pending = []) :
    ∃ result, LineEdit.fromTextEditLoop (front ++ rest) pending rs = .ok result ∧
      Converted front rest new (pending ++ rs) result := by
  induction rs generalizing pending front rest new with
  | nil =>
    obtain rfl := hpending rfl
    cases h
    exact ⟨[], rfl, converted_nil hcr⟩
  | cons edit rs ih =>
    rw [LineEdit.fromTextEditLoop]
    have hgroup : pending ++ edit :: rs = pending ++ [edit] ++ rs := by simp
    rw [hgroup] at h ⊢
    split_ifs with hnext
    · have hne : rs ≠ [] := by
        rintro rfl
        simp at hnext
      exact ih h hcr hcolumn fun hnil => absurd hnil hne
    obtain ⟨first, more, hfirst⟩ : ∃ first more, pending ++ [edit] = first :: more := by
      cases pending with
      | nil => exact ⟨edit, [], rfl⟩
      | cons first pending => exact ⟨first, pending ++ [edit], rfl⟩
    have hlast : more.getLastD first = edit := by
      have hconcat := List.getLast?_concat (l := pending) (a := edit)
      rw [hfirst, List.getLast?_cons] at hconcat
      simpa [List.getLastD_eq_getLast?] using hconcat
    rw [hfirst] at h ⊢
    obtain ⟨joined, gap, old, rest', new', hjoined, rfl, rfl, hstart, hend, hedit, htail, hfree⟩ :=
      joinReplacements_spec h hcr
    rw [hlast, ← hend] at hedit
    obtain ⟨lines, a, rfl, ha, hlines⟩ := @exists_lastLine front gap hcolumn
    obtain ⟨b, tail, rfl, hb, htailEnds⟩ := exists_firstLine rest'
    have hwindow : Window joined (front ++ lines) a old b tail := by
      refine ⟨by simpa using hcr, hlines, ha, hb, htailEnds, by simpa using hstart, by simpa using hend⟩
    obtain ⟨r, hr, hge, hle, hspliced⟩ := hwindow.fromSingleTextEdit_spec
    have hendLine := hwindow.endLineNumber_eq
    have hlater : ∀ r', rs.head? = some r' →
        r'.range.getStartPosition.lineNumber ≠ (behind (front ++ (lines ++ a) ++ old)).lineNumber := by
      intro r' hr' hsame
      rw [← hend, ← hedit] at hsame
      exact hnext (by simpa [hr', Range.getStartPosition, Range.getEndPosition] using hsame)
    have hstartLine : (behind (front ++ lines)).lineNumber ≤ r.lineRange.startLineNumber := by
      rw [hwindow.behind_front]
      exact hge
    have hdoc : front ++ (lines ++ a ++ (old ++ (b ++ tail))) =
        front ++ lines ++ (a ++ (old ++ (b ++ tail))) := by simp
    rw [hdoc] at hjoined hcr ⊢
    unfold Window.Spliced at hspliced
    rcases htailEnds with rfl | ⟨tail, rfl⟩
    · obtain rfl : rs = [] := by
        cases rs with
        | nil => rfl
        | cons r' rs =>
          obtain ⟨_, hnil, -⟩ := htail.start_laterLine hb (.inl rfl) (hlater r' rfl)
          cases hnil
      cases htail
      have hconverted := @Converted.cons front lines a old b [] [] [] joined (first :: more) [] r []
        (by simpa using hcr) hfree hstartLine (by simp) (by simpa using hspliced)
        (converted_nil (by simpa using hcr))
      refine ⟨[r], ?_, by simpa using hconverted⟩
      rw [hjoined]
      simp only [bind, Except.bind, hr]
      rfl
    · have hsplit : b ++ LineFeed :: tail = b ++ [LineFeed] ++ tail := by simp
      have hskip : ∀ r', rs.head? = some r' →
          (behind (front ++ (lines ++ a) ++ old ++ (b ++ [LineFeed]))).isBeforeOrEqual
            r'.range.getStartPosition := by
        intro r' hr'
        cases rs with
        | nil => cases hr'
        | cons head rs =>
          obtain rfl : head = r' := by simpa using hr'
          obtain ⟨_, -, hle⟩ := htail.start_laterLine hb (.inr ⟨tail, rfl⟩) (hlater head rfl)
          exact hle
      rw [hsplit] at htail
      obtain ⟨new, rfl, hbelow⟩ := htail.skip hskip
      have hfront : front ++ (lines ++ a) ++ old ++ (b ++ [LineFeed]) =
          front ++ (lines ++ (a ++ (old ++ (b ++ [LineFeed])))) := by simp
      have hfeed : front ++ (lines ++ (a ++ (old ++ (b ++ [LineFeed])))) =
          front ++ lines ++ (a ++ (old ++ b)) ++ [LineFeed] := by simp
      rw [hfront] at hbelow
      have hbehind := behind_lineFeed (front ++ lines ++ (a ++ (old ++ b)))
      rw [← hfeed, ← hendLine] at hbehind
      obtain ⟨result, hresult, hbelowConverted⟩ := ih
        (show Rewrites _ ([] ++ rs) tail new from hbelow) (by simpa using hcr) (by rw [hbehind])
        fun _ => rfl
      have hnextLine : ∀ r', result.head? = some r' →
          r.lineRange.endLineNumberExclusive ≤ r'.lineRange.startLineNumber := by
        intro r' hr'
        have hfirst := hbelowConverted.first_ge r' hr'
        rw [hbehind] at hfirst
        exact hle.trans hfirst
      have hconverted := @Converted.cons front lines a old b [LineFeed] tail new joined
        (first :: more) rs r result (by simpa using hcr) hfree hstartLine hnextLine
        (by simpa using hspliced) hbelowConverted
      refine ⟨r :: result, ?_, by simpa using hconverted⟩
      have hsame : front ++ (lines ++ (a ++ (old ++ (b ++ [LineFeed])))) ++ tail =
          front ++ lines ++ (a ++ (old ++ (b ++ LineFeed :: tail))) := by simp
      rw [hsame] at hresult
      rw [hjoined]
      simp only [bind, Except.bind, hr, hresult]
      rfl

theorem Rewrites.mem_new {front rest new : Str} {rs : List TextReplacement}
    (h : Rewrites front rs rest new) {r : TextReplacement} (hr : r ∈ rs) {c : CodeUnit}
    (hc : c ∈ r.text) : c ∈ new := by
  induction h with
  | nil => cases hr
  | cons gap old _ _ _ _ _ ih =>
    simp only [List.mem_append]
    rcases List.mem_cons.mp hr with rfl | hr
    · exact .inr (.inl hc)
    · exact .inr (.inr (ih hr))

/-- A line edit made from a text edit of a text with line feeds only can be turned into a
string edit, which has the effect of the text edit unless a replacement brings a carriage
return: lines are joined by line feeds. -/
theorem LineEdit.fromTextEdit_toEdit (e : TextEdit) (text : Str) (hcr : CarriageReturn ∉ text)
    (hvalid : e.Valid text) (hsafe : Safe text) :
    ∃ lineEdit edit edited, LineEdit.fromTextEdit e text = .ok lineEdit ∧
      lineEdit.toEdit text = .ok edit ∧ e.apply text = .ok edited ∧
      (edit.apply text = edited ↔ ∀ r ∈ e.replacements, CarriageReturn ∉ r.text) := by
  obtain ⟨edited, hrewrites⟩ := hvalid.exists_rewrites
  obtain ⟨result, hloop, hsorted, -, edits, written, hedits, hfits, hrun, hfree, hsame⟩ :=
    fromTextEditLoop_spec (show Rewrites [] ([] ++ e.replacements) text edited from hrewrites) hcr
      rfl fun _ => rfl
  rw [List.nil_append] at hloop hedits hfits
  obtain ⟨edit, hedit, hreplacements⟩ := createNew_of_fits hfits
  have hwithin : edit.Within text.length := by
    rw [← hreplacements] at hfits
    exact within_of_fits hfits
  have hwritten : edit.apply text = written := by
    rw [hwithin.apply_eq_run, hreplacements]
    exact hrun
  refine ⟨⟨result, hsorted⟩, edit, edited, ?_, ?_, TextEdit.apply_eq hrewrites hsafe, ?_⟩
  · rw [LineEdit.fromTextEdit, hloop]
    simp only [bind, Except.bind, LineEdit.create]
    rw [dif_pos hsorted]
  · rw [LineEdit.toEdit, hedits]
    exact hedit
  · rw [hwritten]
    constructor
    · rintro rfl r hr hmem
      exact hfree (hrewrites.mem_new hr hmem)
    · exact hsame

theorem LineEdit.fromTextEdit_toEdit_joined :
    ∃ lineEdit edit edited,
      LineEdit.fromTextEdit ⟨[⟨.new 1 2 2 1, ascii "xy"⟩]⟩ (ascii "ab\nc") = .ok lineEdit ∧
      lineEdit.toEdit (ascii "ab\nc") = .ok edit ∧
      (TextEdit.mk [⟨.new 1 2 2 1, ascii "xy"⟩]).apply (ascii "ab\nc") = .ok edited ∧
      (edit.apply (ascii "ab\nc") = edited ↔
        ∀ r ∈ (TextEdit.mk [⟨.new 1 2 2 1, ascii "xy"⟩]).replacements, CarriageReturn ∉ r.text) :=
  LineEdit.fromTextEdit_toEdit _ _ (by decide) ⟨by decide, by decide, by decide⟩ (by decide)

/-- A carriage return put into the empty text comes back as a line feed. -/
theorem LineEdit.fromTextEdit_toEdit_carriageReturn :
    let e : TextEdit := ⟨[⟨.new 1 1 1 1, [CarriageReturn]⟩]⟩
    e.Valid [] ∧ e.apply [] = .ok [CarriageReturn] ∧
      ∃ lineEdit edit, LineEdit.fromTextEdit e [] = .ok lineEdit ∧ lineEdit.toEdit [] = .ok edit ∧
        edit.apply [] = [LineFeed] := by
  refine ⟨⟨by decide, by decide, by decide⟩, by decide, ?_⟩
  exact ⟨⟨[⟨⟨2, 2, le_rfl⟩, [[]]⟩], by decide⟩, ⟨[⟨⟨0, 0, le_rfl⟩, [LineFeed]⟩], by decide⟩, rfl, rfl,
    by decide⟩

end NexgileIde.Edits