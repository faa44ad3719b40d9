import NexgileIde.Edits.LineEdit

/-!
# The diff of a response while it arrives

The lines of a model's response are compared with the original lines one by one. From the
first line that differs they are collected, until the last ones are found again in the
original: then the lines before them replace the original lines up to there.
-/
namespace NexgileIde.InlineEdits

open Text MergeEditor Edits

inductive EmitFastCursorLineChange
  | Off
  | AdditiveOnly
deriving DecidableEq

structure DiffParams where
  emitFastCursorLineChange : EmitFastCursorLineChange
  nSignificantLinesToConverge : ℕ
  nLinesToConverge : ℕ

inductive DivergenceState
  | aligned
  | diverged (startLineIdx : ℕ) (newLines : List Str)

/-- `ArrayMap`: the values of a key in the order in which they were added. -/
def ArrayMap (K V : Type) := K → List V

namespace ArrayMap

def new {K V : Type} : ArrayMap K V := fun _ => []

def add {K V : Type} [DecidableEq K] (map : ArrayMap K V) (key : K) (value : V) : ArrayMap K V :=
  Function.update map key (map key ++ [value])

def get {K V : Type} (map : ArrayMap K V) (key : K) : List V := map key

end ArrayMap

/-- `lineToIdxs` -/
def lineToIdxs (originalLines : List Str) : ArrayMap Str ℕ :=
  originalLines.zipIdx.foldl (fun map (line, i) => map.add line i) .new

/-- `!!s.match(/[a-zA-Z1-9]+/)` -/
def isSignificant (s : Str) : Bool :=
  s.any fun unit => 97 ≤ unit && unit ≤ 122 || 65 ≤ unit && unit ≤ 90 || 49 ≤ unit && unit ≤ 57

/-- The code units that `trim` removes. -/
def isWhitespace (unit : CodeUnit) : Bool :=
  9 ≤ unit && unit ≤ 13 || unit = 32 || unit = 0xA0 || unit = 0x1680 ||
    0x2000 ≤ unit && unit ≤ 0x200A || unit = 0x2028 || unit = 0x2029 || unit = 0x202F ||
    unit = 0x205F || unit = 0x3000 || unit = 0xFEFF

/-- The loop of `isSubsequence`, with what is left of the subsequence. -/
def subsequenceLoop : Str → Str → Str
  | _, [] => []
  | [], subsequence => subsequence
  | unit :: str, first :: subsequence =>
    if unit = first then subsequenceLoop str subsequence
    else subsequenceLoop str (first :: subsequence)

def isSubsequence (subsequence str : Str) : Bool :=
  if subsequence.length = 0 then true
  else if subsequence.length > str.length then false
  else subsequenceLoop str subsequence = []

def isAdditiveEdit (originalLine newLine : Str) : Bool := isSubsequence originalLine newLine

/-- What `checkForConvergence` finds. -/
structure Convergence where
  singleLineEdit : LineReplacement
  convergenceEndIdx : ℕ

/-- The variables of the loop of `checkForConvergence`. A candidate has the original lines
where the convergence ends and where the lines found so far start. -/
structure ConvergenceLoop where
  candidates : List (ℕ × ℤ)
  nNonSigMatches : ℕ
  nSigMatches : ℕ
  /-- Something was found, in whichever way. -/
  result : Bool
  found : ℕ × ℤ

section

variable (originalLines : List Str) (cursorOriginalLinesOffset : ℤ) (params : DiffParams)

/-- The loop over the new lines before the last one, backwards. -/
def convergenceLoop (newLines : List Str) (editWindowIdx : ℕ) :
    ℕ → ConvergenceLoop → ConvergenceLoop
  | 0, self => self
  | newLinesIdx + 1, self =>
    let candidates := self.candidates.map fun (convEndIdx, convIdx) => (convEndIdx, convIdx - 1)
    let candidates := candidates.filter fun (_, currentIdx) =>
      currentIdx ≥ 0 ∧ (editWindowIdx : ℤ) ≤ currentIdx
    let candidates := candidates.filter fun (_, currentIdx) =>
      originalLines[currentIdx.toNat]? = newLines[newLinesIdx]?
    match candidates with
    | [] => { self with candidates := [] }
    | first :: rest =>
      let nNonSigMatches := self.nNonSigMatches + 1
      let nSigMatches :=
        if (newLines[newLinesIdx]?.map isSignificant).getD false then self.nSigMatches + 1
        else self.nSigMatches
      let self : ConvergenceLoop :=
        { self with candidates := first :: rest, nNonSigMatches, nSigMatches }
      let self :=
        if nSigMatches = params.nSignificantLinesToConverge then
          { self with result := true, found := first }
        else self
      if nNonSigMatches = params.nLinesToConverge then
        { self with result := true, found := first }
      else convergenceLoop newLines editWindowIdx newLinesIdx self

/-- A line that is not in the original, on the line of the cursor. -/
def fastCursorEdit (newLines : List Str) (editWindowIdx : ℕ) : Option (Option Convergence) :=
  if params.emitFastCursorLineChange = .Off ∨ (editWindowIdx : ℤ) ≠ cursorOriginalLinesOffset ∨
      newLines.length > 1 then some none
  else do
    let originalLine ← originalLines[editWindowIdx]?
    let newLine ← newLines[0]?
    let skip :=
      if originalLine.all isWhitespace ∧ editWindowIdx + 1 < originalLines.length then
        match originalLines[editWindowIdx + 1]? with
        | none => false
        | some nextLine => newLine = nextLine || newLine.isPrefixOf nextLine
      else false
    if skip then some none
    else if !isAdditiveEdit originalLine newLine then some none
    else
      let lineRange ← newLineRange (editWindowIdx + 1) (editWindowIdx + 1 + 1)
      return some ⟨⟨lineRange, newLines⟩, editWindowIdx + 1⟩

/-- `checkForConvergence`, where the outer `none` is an exception. -/
def checkForConvergence (lineToIndexes : ArrayMap Str ℕ) (startLineIdx : ℕ)
    (newLines : List Str) (editWindowIdx : ℕ) : Option (Option Convergence) :=
  match newLines.getLast? with
  | none => none
  | some lastLine =>
    match (lineToIndexes.get lastLine).map fun (idx : ℕ) => ((idx, (idx : ℤ)) : ℕ × ℤ) with
    | [] => fastCursorEdit originalLines cursorOriginalLinesOffset params newLines editWindowIdx
    | first :: rest =>
      if newLines.length < params.nSignificantLinesToConverge then some none
      else
        let last := convergenceLoop originalLines params newLines editWindowIdx
          (newLines.length - 1)
          { candidates := first :: rest
            nNonSigMatches := 1
            nSigMatches := if isSignificant lastLine then 1 else 0
            result := (first.1 : ℤ) - startLineIdx = newLines.length - 1
            found := first }
        if !last.result then some none
        else do
          let originalLinesConvIdx := last.found.2
          let originalLinesConvEndIdx := last.found.1
          let nLinesToConverge := originalLinesConvEndIdx - originalLinesConvIdx + 1
          let nLinesRemoved := originalLinesConvIdx - startLineIdx
          let linesInserted := newLines.take (newLines.length - nLinesToConverge).toNat
          let nLinesInserted := linesInserted.length
          if nLinesRemoved - nLinesInserted > 1 ∧ nLinesInserted > 0 then some none
          else
            let lineRange ← newLineRange (startLineIdx + 1) (originalLinesConvIdx + 1)
            return some ⟨⟨lineRange, linesInserted⟩, originalLinesConvEndIdx + 1⟩

/-- The variables of the loop of `diff`, with what was yielded so far. -/
structure DiffLoop where
  editWindowIdx : ℕ
  state : DivergenceState
  yielded : List LineReplacement

/-- One line of the response. -/
def diffLine (self : DiffLoop) (line : Str) : Option DiffLoop :=
  if self.editWindowIdx ≥ originalLines.length then
    match self.state with
    | .aligned => some { self with state := .diverged self.editWindowIdx [line] }
    | .diverged startLineIdx newLines =>
      some { self with state := .diverged startLineIdx (newLines ++ [line]) }
  else
    let diverge (startLineIdx : ℕ) (newLines : List Str) : Option DiffLoop := do
      let convergenceResult ← checkForConvergence originalLines cursorOriginalLinesOffset params
        (lineToIdxs originalLines) startLineIdx newLines self.editWindowIdx
      match convergenceResult with
      | none => return { self with state := .diverged startLineIdx newLines }
      | some result =>
        return ⟨result.convergenceEndIdx, .aligned, self.yielded ++ [result.singleLineEdit]⟩
    match self.state with
    | .aligned =>
      if originalLines[self.editWindowIdx]? = some line then
        some { self with editWindowIdx := self.editWindowIdx + 1 }
      else diverge self.editWindowIdx [line]
    | .diverged startLineIdx newLines => diverge startLineIdx (newLines ++ [line])

/-- What is yielded once all lines have arrived. -/
def diffEnd (self : DiffLoop) : Option (List LineReplacement) :=
  match self.state with
  | .diverged startLineIdx newLines => do
    let lineRange ← newLineRange (startLineIdx + 1) (originalLines.length + 1)
    return self.yielded ++ [⟨lineRange, newLines⟩]
  | .aligned =>
    if self.editWindowIdx < originalLines.length then do
      let lineRange ← newLineRange (self.editWindowIdx + 1) (originalLines.length + 1)
      return self.yielded ++ [⟨lineRange, []⟩]
    else some self.yielded

/-- `ResponseProcessor.diff`: the replacements that are yielded. -/
def diff (modifiedLines : List Str) : Option (List LineReplacement) := do
  let last ← modifiedLines.foldlM
    (diffLine originalLines cursorOriginalLinesOffset params) ⟨0, .aligned, []⟩
  diffEnd originalLines last

end

end NexgileIde.InlineEdits

/-!
## The diff of a response gives the response

Whatever the heuristics decide, a line of the response is either an original line that stays or
in one of the replacements.
-/
namespace NexgileIde.InlineEdits

open Text MergeEditor Edits

theorem ArrayMap.get_add {K V : Type} [DecidableEq K] (map : ArrayMap K V) (key key' : K)
    (value : V) : (map.add key value).get key' =
      if key' = key then map.get key ++ [value] else map.get key' := by
  unfold ArrayMap.get ArrayMap.add
  by_cases h : key' = key
  · subst h
    exact (Function.update_self ..).trans (if_pos rfl).symm
  · exact (Function.update_of_ne h ..).trans (if_neg h).symm

theorem mem_foldl_add {pairs : List (Str × ℕ)} {map : ArrayMap Str ℕ} {line : Str} {i : ℕ}
    (h : i ∈ (pairs.foldl (fun map pair => map.add pair.1 pair.2) map).get line) :
    i ∈ map.get line ∨ (line, i) ∈ pairs := by
  induction pairs generalizing map with
  | nil => exact .inl h
  | cons pair pairs ih =>
    rcases ih h with h | h
    · rw [ArrayMap.get_add] at h
      split at h
      · next hline =>
        rcases List.mem_append.1 h with h | h
        · exact .inl (hline ▸ h)
        · have : (line, i) = pair := by rw [List.mem_singleton.1 h, hline]
          exact .inr (this ▸ List.mem_cons_self)
      · exact .inl h
    · exact .inr (List.mem_cons_of_mem _ h)

/-- The map has the lines where a line is found. -/
theorem lineToIdxs_get {originalLines : List Str} {line : Str} {i : ℕ}
    (h : i ∈ (lineToIdxs originalLines).get line) : originalLines[i]? = some line := by
  rcases mem_foldl_add h with h | h
  · simp [ArrayMap.get, ArrayMap.new] at h
  · exact List.mk_mem_zipIdx_iff_getElem?.1 h

section

variable {originalLines newLines : List Str} {cursorOriginalLinesOffset : ℤ} {params : DiffParams}
  {editWindowIdx : ℕ}

/-- The last `n` new lines are the original ones of a candidate. -/
structure Matches (originalLines newLines : List Str) (n : ℕ) (candidate : ℕ × ℤ) : Prop where
  nonneg : 0 ≤ candidate.2
  length : (candidate.1 : ℤ) + 1 = candidate.2 + n
  end_lt : candidate.1 < originalLines.length
  le : n ≤ newLines.length
  lines : originalLines.extract candidate.2.toNat (candidate.1 + 1) =
    newLines.drop (newLines.length - n)

theorem Matches.single {line : Str} {i : ℕ} (h : originalLines[i]? = some line)
    (hlast : newLines.getLast? = some line) :
    Matches originalLines newLines 1 (i, (i : ℤ)) := by
  obtain ⟨before, rfl⟩ := List.getLast?_eq_some_iff.1 hlast
  obtain ⟨hi, hline⟩ := List.getElem?_eq_some_iff.1 h
  refine ⟨by simp, by simp, hi, by simp, ?_⟩
  have hstart : ((i : ℕ) : ℤ).toNat = i := by simp
  rw [hstart, List.extract_eq_take_drop, List.drop_eq_getElem_cons hi, hline]
  simp

/-- One more line back. -/
theorem Matches.extend {n newLinesIdx : ℕ} {candidate : ℕ × ℤ}
    (h : Matches originalLines newLines n candidate) (hn : newLinesIdx + 1 + n = newLines.length)
    (hnonneg : 0 ≤ candidate.2 - 1)
    (hline : originalLines[(candidate.2 - 1).toNat]? = newLines[newLinesIdx]?) :
    Matches originalLines newLines (n + 1) (candidate.1, candidate.2 - 1) := by
  have hlength := h.length
  have hlt := h.end_lt
  refine ⟨hnonneg, by push_cast; omega, hlt, by omega, ?_⟩
  have hidx : newLinesIdx < newLines.length := by omega
  have horiginal : (candidate.2 - 1).toNat < originalLines.length := by omega
  have hstart : candidate.2.toNat = (candidate.2 - 1).toNat + 1 := by omega
  have hrest := h.lines
  have hdrop : newLines.length - n = newLinesIdx + 1 := by omega
  have hdrop' : newLines.length - (n + 1) = newLinesIdx := by omega
  have hcount : candidate.1 + 1 - (candidate.2 - 1).toNat =
      candidate.1 + 1 - candidate.2.toNat + 1 := by omega
  rw [List.getElem?_eq_getElem hidx, List.getElem?_eq_getElem horiginal, Option.some.injEq] at hline
  rw [hdrop, List.extract_eq_take_drop, hstart] at hrest
  rw [hdrop', List.extract_eq_take_drop, List.drop_eq_getElem_cons horiginal,
    List.drop_eq_getElem_cons hidx, hcount, List.take_succ_cons, hline, hstart, hrest]

/-- The match that the loop has in the end is a convergence after the edit window's start. -/
def Found (originalLines newLines : List Str) (editWindowIdx : ℕ) (candidate : ℕ × ℤ) : Prop :=
  (editWindowIdx : ℤ) ≤ candidate.2 ∧ ∃ n, Matches originalLines newLines n candidate

theorem convergenceLoop_found {newLinesIdx n : ℕ} {loop : ConvergenceLoop}
    (hn : newLinesIdx + n = newLines.length)
    (hcandidates : ∀ candidate ∈ loop.candidates, Matches originalLines newLines n candidate)
    (hfound : loop.result → Found originalLines newLines editWindowIdx loop.found)
    (hresult : (convergenceLoop originalLines params newLines editWindowIdx newLinesIdx
      loop).result) :
    Found originalLines newLines editWindowIdx
      (convergenceLoop originalLines params newLines editWindowIdx newLinesIdx loop).found := by
  induction newLinesIdx generalizing loop n with
  | zero => exact hfound hresult
  | succ newLinesIdx ih =>
    unfold convergenceLoop at hresult ⊢
    dsimp only at hresult ⊢
    generalize hkept : (((loop.candidates.map fun c => (c.1, c.2 - 1)).filter _).filter _) =
      kept at hresult ⊢
    have hall : ∀ candidate ∈ kept, Found originalLines newLines editWindowIdx candidate ∧
        Matches originalLines newLines (n + 1) candidate := by
      intro candidate hcandidate
      subst hkept
      simp only [List.mem_filter, List.mem_map, decide_eq_true_eq] at hcandidate
      obtain ⟨⟨⟨before, hbefore, rfl⟩, hnonneg, hle⟩, hline⟩ := hcandidate
      have hmatches := (hcandidates before hbefore).extend (by omega) hnonneg hline
      exact ⟨⟨hle, n + 1, hmatches⟩, hmatches⟩
    have hn' : newLinesIdx + (n + 1) = newLines.length := by omega
    cases kept with
    | nil => exact hfound hresult
    | cons first rest =>
      have hfirst := (hall first List.mem_cons_self).1
      dsimp only at hresult ⊢
      generalize (if ((newLines[newLinesIdx]?.map isSignificant).getD false) = true then _ else _ :
        ℕ) = nSigMatches at hresult ⊢
      by_cases hlines : loop.nNonSigMatches + 1 = params.nLinesToConverge
      · rw [if_pos hlines]
        exact hfirst
      · rw [if_neg hlines] at hresult ⊢
        by_cases hsignificant : nSigMatches = params.nSignificantLinesToConverge
        · rw [if_pos hsignificant] at hresult ⊢
          exact ih hn' (fun candidate h => (hall candidate h).2) (fun _ => hfirst) hresult
        · rw [if_neg hsignificant] at hresult ⊢
          exact ih hn' (fun candidate h => (hall candidate h).2) hfound hresult

/-- A convergence writes the new lines and passes the original lines up to its end. -/
structure Converged (originalLines newLines : List Str) (editWindowIdx : ℕ)
    (result : Convergence) (convIdx : ℕ) : Prop where
  start : result.singleLineEdit.lineRange.startLineNumber = editWindowIdx + 1
  end_ : result.singleLineEdit.lineRange.endLineNumberExclusive = convIdx + 1
  after : editWindowIdx ≤ convIdx
  before : convIdx ≤ result.convergenceEndIdx
  within : result.convergenceEndIdx ≤ originalLines.length
  lines : newLines = result.singleLineEdit.newLines ++
    originalLines.extract convIdx result.convergenceEndIdx

theorem fastCursorEdit_spec (hnew : newLines ≠ []) (hlt : editWindowIdx < originalLines.length) :
    ∃ result, fastCursorEdit originalLines cursorOriginalLinesOffset params newLines
        editWindowIdx = some result ∧
      ∀ convergence, result = some convergence →
        ∃ convIdx, Converged originalLines newLines editWindowIdx convergence convIdx := by
  unfold fastCursorEdit
  obtain ⟨newLine, rest, rfl⟩ := List.exists_cons_of_ne_nil hnew
  have hrange : ((editWindowIdx : ℤ) + 1) ≤ (editWindowIdx : ℤ) + 1 + 1 := by omega
  have hemitted : Converged originalLines (newLine :: rest) editWindowIdx
      ⟨⟨⟨_, _, hrange⟩, newLine :: rest⟩, editWindowIdx + 1⟩ (editWindowIdx + 1) :=
    ⟨rfl, by simp, by omega, le_refl _, hlt, by simp⟩
  have hdecided : ∀ skip keep : Bool, ∃ result,
      (if skip then some none else if keep then some none else
        some (some ⟨⟨⟨_, _, hrange⟩, newLine :: rest⟩, editWindowIdx + 1⟩) :
          Option (Option Convergence)) = some result ∧
        ∀ convergence, result = some convergence →
          ∃ convIdx, Converged originalLines (newLine :: rest) editWindowIdx convergence
            convIdx := by
    intro skip keep
    cases skip
    · cases keep
      · exact ⟨_, rfl, fun _ h => ⟨_, (Option.some.inj h).symm ▸ hemitted⟩⟩
      · exact ⟨none, rfl, nofun⟩
    · exact ⟨none, rfl, nofun⟩
  split
  · exact ⟨none, rfl, nofun⟩
  · simp only [List.getElem?_eq_getElem hlt, List.getElem?_cons_zero, Option.bind_eq_bind,
      Option.bind_some, newLineRange_of_le hrange]
    exact hdecided _ _

theorem checkForConvergence_spec (hnew : newLines ≠ [])
    (hlt : editWindowIdx < originalLines.length) :
    ∃ result, checkForConvergence originalLines cursorOriginalLinesOffset params
        (lineToIdxs originalLines) editWindowIdx newLines editWindowIdx = some result ∧
      ∀ convergence, result = some convergence →
        ∃ convIdx, Converged originalLines newLines editWindowIdx convergence convIdx := by
  unfold checkForConvergence
  have hlast := List.getLast?_eq_some_getLast hnew
  have hpos := List.length_pos_iff.2 hnew
  rw [hlast]
  dsimp only
  generalize hcandidates : ((lineToIdxs originalLines).get (newLines.getLast hnew)).map _ =
    candidates
  have hall : ∀ candidate ∈ candidates, Matches originalLines newLines 1 candidate := by
    intro candidate hcandidate
    subst hcandidates
    obtain ⟨i, hi, rfl⟩ := List.mem_map.1 hcandidate
    exact .single (lineToIdxs_get hi) hlast
  cases candidates with
  | nil => exact fastCursorEdit_spec hnew hlt
  | cons first rest =>
    have hfirst := hall first List.mem_cons_self
    dsimp only
    split
    · exact ⟨none, rfl, nofun⟩
    · generalize hinit : ({ candidates := first :: rest, .. } : ConvergenceLoop) = init
      have hcandidates : init.candidates = first :: rest := by rw [← hinit]
      have hfound : init.result → Found originalLines newLines editWindowIdx init.found := by
        rw [← hinit]
        intro hresult
        have hstart : (first.1 : ℤ) - editWindowIdx = newLines.length - 1 :=
          of_decide_eq_true hresult
        have := hfirst.length
        have hafter : (editWindowIdx : ℤ) ≤ first.2 := by omega
        exact ⟨hafter, 1, hfirst⟩
      generalize hend : convergenceLoop originalLines params newLines editWindowIdx
        (newLines.length - 1) init = last
      have hlast : last.result → Found originalLines newLines editWindowIdx last.found := by
        rw [← hend]
        exact convergenceLoop_found (Nat.sub_add_cancel hpos) (hcandidates ▸ hall) hfound
      cases hresult : last.result
      · exact ⟨none, rfl, nofun⟩
      · obtain ⟨hafter, n, hmatches⟩ := hlast hresult
        have hlength := hmatches.length
        have hle := hmatches.le
        have hlines := hmatches.lines
        have hend_lt := hmatches.end_lt
        have hcount : ((newLines.length : ℤ) - (last.found.1 - last.found.2 + 1)).toNat =
            newLines.length - n := by omega
        have hrange : (editWindowIdx : ℤ) + 1 ≤ last.found.2 + 1 := by omega
        simp only [Bool.not_true, Bool.false_eq_true, ↓reduceIte, hcount,
          newLineRange_of_le hrange, Option.bind_eq_bind, Option.bind_some]
        split
        · exact ⟨none, rfl, nofun⟩
        · refine ⟨_, rfl, fun convergence h => ⟨last.found.2.toNat, ?_⟩⟩
          cases h
          have hend : last.found.2 + 1 = (last.found.2.toNat : ℤ) + 1 := by omega
          have hbefore : last.found.2.toNat ≤ last.found.1 + 1 := by omega
          refine ⟨rfl, hend, by omega, hbefore, hend_lt, ?_⟩
          rw [hlines, List.take_append_drop]

/-- The lines of the response so far are written, but for those that are still collected. -/
def DiffLoop.Consumed (originalLines : List Str) (loop : DiffLoop) (consumed : List Str) : Prop :=
  match loop.state with
  | .aligned => Written originalLines loop.yielded loop.editWindowIdx consumed
  | .diverged startLineIdx newLines => startLineIdx = loop.editWindowIdx ∧ newLines ≠ [] ∧
    ∃ before, Written originalLines loop.yielded loop.editWindowIdx before ∧
      consumed = before ++ newLines

/-- A convergence writes all that was collected. -/
theorem Written.converged {replacements : List LineReplacement} {before : List Str}
    {convergence : Convergence} {convIdx : ℕ}
    (h : Written originalLines replacements editWindowIdx before)
    (hconverged : Converged originalLines newLines editWindowIdx convergence convIdx) :
    Written originalLines (replacements ++ [convergence.singleLineEdit])
      convergence.convergenceEndIdx (before ++ newLines) := by
  have hreplaced := h.replace hconverged.after
    (hconverged.before.trans hconverged.within) hconverged.start hconverged.end_
  have hpassed := hreplaced.advance hconverged.before hconverged.within
  rw [List.append_assoc, ← hconverged.lines] at hpassed
  exact hpassed

theorem diffLine_consumed {loop : DiffLoop} {consumed : List Str} (line : Str)
    (h : loop.Consumed originalLines consumed) :
    ∃ next, diffLine originalLines cursorOriginalLinesOffset params loop line = some next ∧
      next.Consumed originalLines (consumed ++ [line]) := by
  have hdiverge : ∀ before newLines, newLines ≠ [] → loop.editWindowIdx < originalLines.length →
      Written originalLines loop.yielded loop.editWindowIdx before →
      before ++ newLines = consumed ++ [line] → ∃ next,
        ((checkForConvergence originalLines cursorOriginalLinesOffset params
          (lineToIdxs originalLines) loop.editWindowIdx newLines loop.editWindowIdx).bind
            fun convergenceResult => match convergenceResult with
              | none => some { loop with state := .diverged loop.editWindowIdx newLines }
              | some result => some ⟨result.convergenceEndIdx, .aligned,
                loop.yielded ++ [result.singleLineEdit]⟩) = some next ∧
        next.Consumed originalLines (consumed ++ [line]) := by
    intro before newLines hnew hlt hwritten heq
    obtain ⟨result, hresult, hspec⟩ := checkForConvergence_spec hnew hlt
    rw [hresult]
    cases result with
    | none => exact ⟨_, rfl, rfl, hnew, before, hwritten, heq.symm⟩
    | some convergence =>
      obtain ⟨convIdx, hconverged⟩ := hspec convergence rfl
      refine ⟨_, rfl, ?_⟩
      have hall := Written.converged hwritten hconverged
      rw [heq] at hall
      exact hall
  obtain ⟨editWindowIdx, state, yielded⟩ := loop
  unfold diffLine
  cases state with
  | aligned =>
    have hwritten : Written originalLines yielded editWindowIdx consumed := h
    by_cases hend : editWindowIdx ≥ originalLines.length
    · rw [if_pos hend]
      exact ⟨_, rfl, rfl, by simp, consumed, hwritten, rfl⟩
    · rw [if_neg hend]
      dsimp only
      by_cases hline : originalLines[editWindowIdx]? = some line
      · rw [if_pos hline]
        obtain ⟨hlt, rfl⟩ := List.getElem?_eq_some_iff.1 hline
        refine ⟨_, rfl, ?_⟩
        have hsame : originalLines.extract editWindowIdx (editWindowIdx + 1) =
            [originalLines[editWindowIdx]] := by
          rw [List.extract_eq_take_drop, List.drop_eq_getElem_cons hlt, Nat.add_sub_cancel_left,
            List.take_succ_cons, List.take_zero]
        have hnext := hwritten.advance (Nat.le_succ editWindowIdx) hlt
        rw [hsame] at hnext
        exact hnext
      · rw [if_neg hline]
        exact hdiverge consumed [line] (by simp) (Nat.lt_of_not_ge hend) hwritten rfl
  | diverged startLineIdx newLines =>
    obtain ⟨rfl, hnew, before, hwritten, rfl⟩ := h
    by_cases hend : startLineIdx ≥ originalLines.length
    · rw [if_pos hend]
      exact ⟨_, rfl, rfl, by simp, before, hwritten, List.append_assoc ..⟩
    · rw [if_neg hend]
      exact hdiverge before (newLines ++ [line]) (by simp) (Nat.lt_of_not_ge hend) hwritten
        (List.append_assoc ..).symm

/-- The lines that arrive one after the other. -/
theorem foldlM_diffLine {loop : DiffLoop} {consumed : List Str} (modifiedLines : List Str)
    (h : loop.Consumed originalLines consumed) :
    ∃ last, modifiedLines.foldlM (diffLine originalLines cursorOriginalLinesOffset params) loop =
      some last ∧ last.Consumed originalLines (consumed ++ modifiedLines) := by
  induction modifiedLines generalizing loop consumed with
  | nil => exact ⟨loop, rfl, by simpa using h⟩
  | cons line modifiedLines ih =>
    obtain ⟨next, hnext, hconsumed⟩ := diffLine_consumed line h
    obtain ⟨last, hlast, hall⟩ := ih hconsumed
    refine ⟨last, ?_, by simpa using hall⟩
    rw [List.foldlM_cons, hnext]
    exact hlast

theorem diffEnd_written {loop : DiffLoop} {consumed : List Str}
    (h : loop.Consumed originalLines consumed) :
    ∃ edits, diffEnd originalLines loop = some edits ∧
      Written originalLines edits originalLines.length consumed := by
  obtain ⟨editWindowIdx, state, yielded⟩ := loop
  unfold diffEnd
  cases state with
  | aligned =>
    have hwritten : Written originalLines yielded editWindowIdx consumed := h
    have hle := hwritten.next_le
    dsimp only
    split
    · have hrange : (editWindowIdx : ℤ) + 1 ≤ originalLines.length + 1 := by omega
      rw [newLineRange_of_le hrange]
      have hall : Written originalLines (yielded ++ [⟨⟨_, _, hrange⟩, []⟩]) _ (consumed ++ []) :=
        hwritten.replace hle (le_refl _) rfl rfl
      rw [List.append_nil] at hall
      exact ⟨_, rfl, hall⟩
    · have hend : editWindowIdx = originalLines.length := by omega
      exact ⟨_, rfl, hend ▸ hwritten⟩
  | diverged startLineIdx newLines =>
    obtain ⟨rfl, -, before, hwritten, rfl⟩ := h
    have hle : startLineIdx ≤ originalLines.length := hwritten.next_le
    have hrange : (startLineIdx : ℤ) + 1 ≤ originalLines.length + 1 := by omega
    dsimp only
    rw [newLineRange_of_le hrange]
    exact ⟨_, rfl, hwritten.replace hle (le_refl _) rfl rfl⟩

end

/-- The replacements of a response are in order, do not overlap and lie within the original
lines, and they turn those into the lines of the response. -/
theorem diff_apply (originalLines : List Str) (cursorOriginalLinesOffset : ℤ)
    (params : DiffParams) (modifiedLines : List Str) :
    ∃ edits, diff originalLines cursorOriginalLinesOffset params modifiedLines = some edits ∧
      InOrder originalLines.length edits ∧
      applyLineEdit edits originalLines = modifiedLines := by
  have hstart : DiffLoop.Consumed originalLines ⟨0, .aligned, []⟩ [] := Written.start originalLines
  have hrun : ∃ last, modifiedLines.foldlM (diffLine originalLines cursorOriginalLinesOffset
      params) ⟨0, .aligned, []⟩ = some last ∧ last.Consumed originalLines ([] ++ modifiedLines) :=
    foldlM_diffLine modifiedLines hstart
  obtain ⟨last, hlast, hconsumed⟩ := hrun
  obtain ⟨edits, hedits, hwritten⟩ := diffEnd_written hconsumed
  refine ⟨edits, ?_, hwritten.inOrder, hwritten.apply_eq⟩
  rw [diff, hlast]
  exact hedits

end NexgileIde.InlineEdits
