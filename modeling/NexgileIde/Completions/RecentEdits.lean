import NexgileIde.ApplyPatch.FindContext
import NexgileIde.Library.Runs

/-!
# Recent edits of files

For every file the reducer keeps a text, the contents seen last, and edits of lines between the
two. A change close to the last edit is merged with it by comparing the lines before that edit
with the new ones; where they are the same, both the change and the last edit are kept as they
were, although they cancel each other.
-/
namespace NexgileIde.RecentEdits

open Text (Str)
open ApplyPatch (split join)
open Library (AtEachStep Throughout)

structure RecentEditsConfig where
  maxFiles : ℕ
  maxEdits : ℕ
  diffContextLines : ℕ
  editMergeLineDistance : ℕ
  maxCharsPerEdit : ℕ

structure DiffHunk where
  file : Str
  pre : ℕ
  post : ℕ
  before : List Str
  removed : List Str
  added : List Str
  after : List Str

/-- The last line is the one before the first if no line is removed. -/
structure RecentEdit where
  file : Str
  startLine : ℕ
  endLine : ℤ
  diff : DiffHunk
  timestamp : ℚ

structure FileEntry where
  originalContent : Str
  currentContent : Str
  edits : List RecentEdit

/-- A record with its entries in order. -/
abbrev RecentEditMap := List (Str × FileEntry)

/-- `{ ...state, [file]: entry }` -/
def RecentEditMap.assign (file : Str) (entry : FileEntry) : RecentEditMap → RecentEditMap
  | [] => [(file, entry)]
  | (name, existing) :: rest =>
    if name = file then (file, entry) :: rest
    else (name, existing) :: assign file entry rest

/-! ## Changed lines -/

structure Span where
  start : ℕ
  endPrev : ℤ
  endNew : ℤ
deriving Repr, DecidableEq

/-- How far a loop over two lists gets while their lines are the same. -/
def matching : List Str → List Str → ℕ
  | a :: as, b :: bs => if a = b then matching as bs + 1 else 0
  | _, _ => 0

/-- The loop from the ends does not go past `start`. -/
def findChangeSpan (prevLines newLines : List Str) : Option Span :=
  let start := matching prevLines newLines
  let back := matching (prevLines.drop start).reverse (newLines.drop start).reverse
  let endPrev : ℤ := prevLines.length - 1 - back
  let endNew : ℤ := newLines.length - 1 - back
  if start > endPrev ∧ start > endNew then none
  else some ⟨start, endPrev, endNew⟩

/-- `lines.slice(start, end)`, with bounds that are not negative -/
def slice (lines : List Str) (start stop : ℤ) : List Str :=
  (lines.take stop.toNat).drop start.toNat

def getDiff (file : Str) (prevLines newLines : List Str) (span : Span) (context : ℕ) :
    DiffHunk :=
  let pre := span.start - context
  let post := min newLines.length (span.endNew + context + 1).toNat
  { file
    pre
    post
    before := slice prevLines pre span.start
    removed := slice prevLines span.start (span.endPrev + 1)
    added := slice newLines span.start (span.endNew + 1)
    after := slice newLines (span.endNew + 1) post }

def measureDiffSize (hunk : DiffHunk) : ℕ :=
  ((hunk.before ++ hunk.removed ++ hunk.added ++ hunk.after).map fun line => line.length + 1).sum

/-- One turn of the loop of `applyEditsToLines` -/
def applyEditToLines (lines : List Str) (e : RecentEdit) : List Str :=
  lines.take e.startLine ++ e.diff.added ++ lines.drop (e.endLine + 1).toNat

def applyEditsToLines (lines : List Str) (edits : List RecentEdit) : List Str :=
  edits.foldl applyEditToLines lines

def editsOverlap (incoming last : RecentEdit) (editMergeLineDistance : ℕ) : Bool :=
  let lastStart : ℤ := last.startLine
  let lastEnd : ℤ := last.startLine + last.diff.added.length
  let incStart : ℤ := incoming.startLine
  let incEnd := incoming.endLine + 1
  incStart ≤ lastEnd + editMergeLineDistance && incEnd ≥ lastStart - editMergeLineDistance

/-- `now` is what the clock shows. -/
def buildIncomingEdit (file : Str) (prevLines nextLines : List Str) (span : Span)
    (config : RecentEditsConfig) (now : ℚ) : RecentEdit :=
  ⟨file, span.start, span.endPrev,
    getDiff file prevLines nextLines span config.diffContextLines, now⟩

/-! ## The reducer -/

/-- The edits with the incoming one: merged with the last one, or behind it. -/
def mergeIncoming (originalContent : Str) (existing : List RecentEdit) (incoming : RecentEdit)
    (currentFileLines : List Str) (config : RecentEditsConfig) (now : ℚ) : List RecentEdit :=
  match existing.getLast? with
  | none => existing ++ [incoming]
  | some last =>
    if editsOverlap incoming last config.editMergeLineDistance then
      let prevLines := applyEditsToLines (split originalContent) existing.dropLast
      match findChangeSpan prevLines currentFileLines with
      | some span =>
        existing.dropLast ++
          [buildIncomingEdit incoming.file prevLines currentFileLines span config now]
      -- "a no-op or perfect revert, just drop the incoming"
      | none => existing
    else existing ++ [incoming]

/-- Edits over the limit go into the text they start from. -/
def trimEdits (originalContent : Str) (edits : List RecentEdit) (config : RecentEditsConfig) :
    Str × List RecentEdit :=
  if edits.length > config.maxEdits then
    let staleEdits := edits.take (edits.length - config.maxEdits)
    let allLines := applyEditsToLines (split originalContent) staleEdits
    (join allLines, edits.drop (edits.length - config.maxEdits))
  else (originalContent, edits)

def updateEdits (originalContent : Str) (existing : List RecentEdit) (incoming : RecentEdit)
    (currentFileLines : List Str) (config : RecentEditsConfig) (now : ℚ) :
    Str × List RecentEdit :=
  trimEdits originalContent
    (mergeIncoming originalContent existing incoming currentFileLines config now) config

/-- The timestamp of the last edit of an entry that has one. -/
def lastTimestamp (entry : FileEntry) : ℚ := (entry.edits.getLast?.map (·.timestamp)).getD 0

def modifiedFilesInOrder (state : RecentEditMap) : RecentEditMap :=
  (state.filter fun (_, entry) => entry.edits.length ≠ 0).mergeSort
    fun (_, a) (_, b) => lastTimestamp a ≤ lastTimestamp b

def trimOldFilesFromState (state : RecentEditMap) (maxFiles : ℕ) : RecentEditMap :=
  let modified := modifiedFilesInOrder state
  let filesToTrim := modified.length - maxFiles
  let trimmed := (modified.take filesToTrim).map Prod.fst
  state.filter fun (name, _) => name ∉ trimmed

/-- What the reducer is given; the clock is read for the incoming edit and once more for a
merged one. -/
structure Snapshot where
  file : Str
  newContents : Str
  now : ℚ
  nowMerged : ℚ

def recentEditsReducer (config : RecentEditsConfig) (state : RecentEditMap)
    (snapshot : Snapshot) : RecentEditMap :=
  let ⟨file, newContents, now, nowMerged⟩ := snapshot
  if newContents.length > 2 * 1024 * 1024 then state
  else match state.lookup file with
  | none => state.assign file ⟨newContents, newContents, []⟩
  | some prev =>
    if prev.currentContent = newContents then state
    else
      let prevLines := split prev.currentContent
      let newLines := split newContents
      match findChangeSpan prevLines newLines with
      | none => state.assign file { prev with currentContent := newContents }
      | some span =>
        let incoming := buildIncomingEdit file prevLines newLines span config now
        if measureDiffSize incoming.diff > config.maxCharsPerEdit then
          -- a huge edit resets the file
          state.assign file ⟨newContents, newContents, []⟩
        else
          let (originalContent, edits) :=
            updateEdits prev.originalContent prev.edits incoming newLines config nowMerged
          trimOldFilesFromState (state.assign file ⟨originalContent, newContents, edits⟩)
            config.maxFiles

/-! ## Comparing lines -/

variable {as bs : List Str}

theorem matching_le (as bs : List Str) :
    matching as bs ≤ as.length ∧ matching as bs ≤ bs.length ∧
      as.take (matching as bs) = bs.take (matching as bs) := by
  induction as generalizing bs with
  | nil => simp [matching]
  | cons a as ih =>
    cases bs with
    | nil => simp [matching]
    | cons b bs =>
      unfold matching
      split_ifs with hab
      · obtain ⟨hleft, hright, htake⟩ := ih bs
        refine ⟨Nat.succ_le_succ hleft, Nat.succ_le_succ hright, ?_⟩
        rw [List.take_succ_cons, List.take_succ_cons, hab, htake]
      · exact ⟨Nat.zero_le _, Nat.zero_le _, rfl⟩

/-- The lines behind both ends are the same. -/
theorem drop_matching_reverse (as bs : List Str) :
    as.drop (as.length - matching as.reverse bs.reverse) =
      bs.drop (bs.length - matching as.reverse bs.reverse) := by
  obtain ⟨-, -, htake⟩ := matching_le as.reverse bs.reverse
  rw [List.take_reverse, List.take_reverse] at htake
  exact List.reverse_injective htake

/-- The span of a change: what is in front of it and behind it is the same. -/
structure Spans (prevLines newLines : List Str) (span : Span) : Prop where
  start_le : span.start ≤ prevLines.length
  front : prevLines.take span.start = newLines.take span.start
  start_le_prev : (span.start : ℤ) ≤ span.endPrev + 1
  start_le_new : (span.start : ℤ) ≤ span.endNew + 1
  behind : prevLines.drop (span.endPrev + 1).toNat = newLines.drop (span.endNew + 1).toNat

theorem findChangeSpan_eq_some {prevLines newLines : List Str} {span : Span}
    (h : findChangeSpan prevLines newLines = some span) : Spans prevLines newLines span := by
  obtain ⟨hprev, hnew, htake⟩ := matching_le prevLines newLines
  obtain ⟨hbackPrev, hbackNew, -⟩ :=
    matching_le (prevLines.drop (matching prevLines newLines)).reverse
      (newLines.drop (matching prevLines newLines)).reverse
  have hdrop := drop_matching_reverse (prevLines.drop (matching prevLines newLines))
    (newLines.drop (matching prevLines newLines))
  unfold findChangeSpan at h
  dsimp only at h
  revert h hdrop hbackPrev hbackNew
  generalize matching (prevLines.drop (matching prevLines newLines)).reverse
    (newLines.drop (matching prevLines newLines)).reverse = back
  intro h hbackPrev hbackNew hdrop
  rw [List.length_reverse, List.length_drop] at hbackPrev hbackNew
  split_ifs at h
  obtain rfl := Option.some.inj h
  refine ⟨hprev, htake, by dsimp only; omega, by dsimp only; omega, ?_⟩
  rw [List.drop_drop, List.drop_drop, List.length_drop, List.length_drop] at hdrop
  dsimp only
  convert hdrop using 2 <;> omega

theorem findChangeSpan_eq_none {prevLines newLines : List Str} :
    findChangeSpan prevLines newLines = none ↔ prevLines = newLines := by
  constructor
  · intro h
    obtain ⟨hprev, hnew, htake⟩ := matching_le prevLines newLines
    have hdrop := drop_matching_reverse (prevLines.drop (matching prevLines newLines))
      (newLines.drop (matching prevLines newLines))
    unfold findChangeSpan at h
    dsimp only at h
    split_ifs at h with hsame
    obtain ⟨hendPrev, hendNew⟩ := hsame
    rw [List.length_drop, List.length_drop, Nat.sub_eq_zero_of_le (by omega),
      Nat.sub_eq_zero_of_le (by omega), List.drop_zero, List.drop_zero] at hdrop
    rw [← List.take_append_drop (matching prevLines newLines) prevLines, htake, hdrop,
      List.take_append_drop]
  · rintro rfl
    have hall : matching prevLines prevLines = prevLines.length := by
      induction prevLines with
      | nil => rfl
      | cons line rest ih =>
        unfold matching
        rw [if_pos rfl, ih, List.length_cons]
    unfold findChangeSpan
    dsimp only
    rw [hall]
    exact if_pos ⟨by omega, by omega⟩

/-- The edit built from a span makes the new lines. -/
theorem applyEditToLines_built {prevLines newLines : List Str} {span : Span}
    (h : Spans prevLines newLines span) (file : Str) (config : RecentEditsConfig) (now : ℚ) :
    applyEditToLines prevLines (buildIncomingEdit file prevLines newLines span config now) =
      newLines := by
  unfold applyEditToLines buildIncomingEdit getDiff slice
  dsimp only
  rw [h.front, h.behind, Int.toNat_natCast]
  have hle : span.start ≤ (span.endNew + 1).toNat := by
    have := h.start_le_new
    omega
  have htake : newLines.take span.start = (newLines.take (span.endNew + 1).toNat).take span.start := by
    rw [List.take_take, min_eq_left hle]
  rw [htake, List.take_append_drop, List.take_append_drop]

/-! ## Edits of a file -/

/-- Lines that are those of some text. -/
def IsText (lines : List Str) : Prop := split (join lines) = lines

theorem isText_split (text : Str) : IsText (split text) := by
  unfold IsText
  rw [ApplyPatch.join_split]

theorem split_injective {s t : Str} (h : split s = split t) : s = t := by
  rw [← ApplyPatch.join_split s, h, ApplyPatch.join_split]

/-- Between two edits there are the lines of a text. -/
def Stages (lines : List Str) (edits : List RecentEdit) : Prop :=
  ∀ k, IsText (applyEditsToLines lines (edits.take k))

theorem applyEditsToLines_append (lines : List Str) (es es' : List RecentEdit) :
    applyEditsToLines lines (es ++ es') =
      applyEditsToLines (applyEditsToLines lines es) es' := List.foldl_append

variable {lines : List Str} {edits : List RecentEdit}

theorem Stages.concat (h : Stages lines edits) {e : RecentEdit}
    (hlast : IsText (applyEditsToLines lines (edits ++ [e]))) : Stages lines (edits ++ [e]) := by
  intro k
  rcases Nat.lt_or_ge edits.length k with hlt | hge
  · rw [List.take_of_length_le (by rw [List.length_append]; exact hlt)]
    exact hlast
  · rw [List.take_append_of_le_length hge]
    exact h k

theorem Stages.dropLast (h : Stages lines edits) : Stages lines edits.dropLast := by
  intro k
  rw [List.dropLast_eq_take, List.take_take]
  exact h _

theorem Stages.drop (h : Stages lines edits) (n : ℕ) :
    Stages (applyEditsToLines lines (edits.take n)) (edits.drop n) := by
  intro k
  rw [← applyEditsToLines_append, ← List.take_add]
  exact h (n + k)

/-- The edits of a file make its current contents. -/
def Replays (entry : FileEntry) : Prop :=
  applyEditsToLines (split entry.originalContent) entry.edits = split entry.currentContent

/-- The merged edits make the new lines, and so do the ones left when old edits go. -/
theorem trimEdits_replays {originalContent : Str} {config : RecentEditsConfig}
    (hstages : Stages (split originalContent) edits) :
    applyEditsToLines (split (trimEdits originalContent edits config).1)
        (trimEdits originalContent edits config).2 =
      applyEditsToLines (split originalContent) edits ∧
    Stages (split (trimEdits originalContent edits config).1)
      (trimEdits originalContent edits config).2 ∧
    (trimEdits originalContent edits config).2.length ≤ config.maxEdits := by
  unfold trimEdits
  split_ifs with hmany
  · dsimp only
    have hstale : split (join (applyEditsToLines (split originalContent)
        (edits.take (edits.length - config.maxEdits)))) = applyEditsToLines (split originalContent)
          (edits.take (edits.length - config.maxEdits)) := hstages _
    rw [hstale, ← applyEditsToLines_append, List.take_append_drop]
    refine ⟨rfl, hstages.drop _, ?_⟩
    rw [List.length_drop]
    omega
  · exact ⟨rfl, hstages, not_lt.1 hmany⟩

/-- The incoming edit takes the lines back to what they were before the last edit. -/
def CancelsLast (entry : FileEntry) (incoming : RecentEdit) (newLines : List Str)
    (config : RecentEditsConfig) : Prop :=
  ∃ last ∈ entry.edits.getLast?, editsOverlap incoming last config.editMergeLineDistance ∧
    applyEditsToLines (split entry.originalContent) entry.edits.dropLast = newLines

theorem mergeIncoming_replays {entry : FileEntry} {incoming : RecentEdit} {newContents : Str}
    {config : RecentEditsConfig} (now : ℚ)
    (hreplays : Replays entry) (hstages : Stages (split entry.originalContent) entry.edits)
    (hincoming : applyEditToLines (split entry.currentContent) incoming = split newContents)
    (hkept : ¬ CancelsLast entry incoming (split newContents) config) :
    applyEditsToLines (split entry.originalContent) (mergeIncoming entry.originalContent
        entry.edits incoming (split newContents) config now) = split newContents ∧
      Stages (split entry.originalContent) (mergeIncoming entry.originalContent entry.edits
        incoming (split newContents) config now) := by
  have hbehind : applyEditsToLines (split entry.originalContent) (entry.edits ++ [incoming]) =
      split newContents := by
    rw [applyEditsToLines_append, hreplays]
    exact hincoming
  have hpushed := hstages.concat (hbehind ▸ isText_split newContents)
  unfold mergeIncoming
  cases hlast : entry.edits.getLast? with
  | none => exact ⟨hbehind, hpushed⟩
  | some last =>
    dsimp only
    split_ifs with hoverlap
    · cases hspan : findChangeSpan (applyEditsToLines (split entry.originalContent)
          entry.edits.dropLast) (split newContents) with
      | none => exact absurd ⟨last, hlast, hoverlap, findChangeSpan_eq_none.1 hspan⟩ hkept
      | some span =>
        have hbuilt := applyEditToLines_built (findChangeSpan_eq_some hspan) incoming.file config
          now
        have hmerged := applyEditsToLines_append (split entry.originalContent)
          entry.edits.dropLast [buildIncomingEdit incoming.file (applyEditsToLines
            (split entry.originalContent) entry.edits.dropLast) (split newContents) span config now]
        rw [show applyEditsToLines _ [_] = _ from hbuilt] at hmerged
        refine ⟨hmerged, hstages.dropLast.concat ?_⟩
        rw [hmerged]
        exact isText_split newContents
    · exact ⟨hbehind, hpushed⟩

/-- A change that cancels the last edit changes no edits. -/
theorem mergeIncoming_of_cancels {entry : FileEntry} {incoming : RecentEdit} {newLines : List Str}
    {config : RecentEditsConfig} (now : ℚ) (h : CancelsLast entry incoming newLines config) :
    mergeIncoming entry.originalContent entry.edits incoming newLines config now = entry.edits := by
  obtain ⟨last, hlast, hoverlap, hlines⟩ := h
  unfold mergeIncoming
  rw [Option.mem_def.1 hlast]
  dsimp only
  rw [if_pos hoverlap, findChangeSpan_eq_none.2 hlines]

/-! ## Entries of the state -/

variable {state : RecentEditMap} {file name : Str} {entry existing : FileEntry}

theorem mem_assign_self (state : RecentEditMap) (file : Str) (entry : FileEntry) :
    (file, entry) ∈ state.assign file entry := by
  induction state with
  | nil => exact List.mem_singleton_self _
  | cons first rest ih =>
    obtain ⟨other, existing⟩ := first
    unfold RecentEditMap.assign
    split_ifs
    · exact List.mem_cons_self
    · exact List.mem_cons_of_mem _ ih

theorem mem_of_mem_assign (h : (name, existing) ∈ state.assign file entry) :
    (name, existing) = (file, entry) ∨ (name, existing) ∈ state := by
  induction state with
  | nil => exact .inl (List.mem_singleton.1 h)
  | cons first rest ih =>
    obtain ⟨other, e⟩ := first
    unfold RecentEditMap.assign at h
    split_ifs at h
    · rcases List.mem_cons.1 h with heq | hmem
      · exact .inl heq
      · exact .inr (List.mem_cons_of_mem _ hmem)
    · rcases List.mem_cons.1 h with heq | hmem
      · exact .inr (heq ▸ List.mem_cons_self)
      · exact (ih hmem).imp_right (List.mem_cons_of_mem _)

theorem mem_of_lookup (h : state.lookup file = some entry) : (file, entry) ∈ state := by
  obtain ⟨front, behind, rfl, -⟩ := List.lookup_eq_some_iff.1 h
  simp

theorem name_mem_assign : name ∈ (state.assign file entry).map Prod.fst ↔
    name = file ∨ name ∈ state.map Prod.fst := by
  induction state with
  | nil => simp [RecentEditMap.assign]
  | cons first rest ih =>
    obtain ⟨other, e⟩ := first
    unfold RecentEditMap.assign
    split_ifs with hother
    · subst hother
      simp
    · simp only [List.map_cons, List.mem_cons, ih]
      exact or_left_comm

/-- Every file has one entry. -/
theorem nodup_assign (h : (state.map Prod.fst).Nodup) (file : Str) (entry : FileEntry) :
    ((state.assign file entry).map Prod.fst).Nodup := by
  induction state with
  | nil => exact List.nodup_singleton _
  | cons first rest ih =>
    obtain ⟨other, e⟩ := first
    rw [List.map_cons, List.nodup_cons] at h
    unfold RecentEditMap.assign
    split_ifs with hother
    · subst hother
      exact List.nodup_cons.2 h
    · rw [List.map_cons, List.nodup_cons, name_mem_assign, not_or]
      exact ⟨⟨hother, h.1⟩, ih h.2⟩

def modified (state : RecentEditMap) : RecentEditMap :=
  state.filter fun (_, entry) => entry.edits.length ≠ 0

/-- No more files are modified if the entry has no edits, or the one before had some. -/
theorem length_modified_assign (h : entry.edits = [] ∨
    ∃ prev, state.lookup file = some prev ∧ prev.edits ≠ []) :
    (modified (state.assign file entry)).length ≤ (modified state).length := by
  unfold modified
  induction state with
  | nil =>
    rcases h with h | ⟨prev, hprev, -⟩
    · simp [RecentEditMap.assign, h]
    · cases hprev
  | cons first rest ih =>
    obtain ⟨other, e⟩ := first
    unfold RecentEditMap.assign
    split_ifs with hother
    · subst hother
      rcases h with h | ⟨prev, hprev, hedits⟩
      · rw [List.filter_cons_of_neg (by simp [h])]
        exact (List.sublist_cons_self _ _).filter _ |>.length_le
      · rw [List.lookup_cons_self] at hprev
        obtain rfl := Option.some.inj hprev
        have hold : ((other, e) :: rest).filter (fun (_, entry) => entry.edits.length ≠ 0) =
            (other, e) :: rest.filter fun (_, entry) => entry.edits.length ≠ 0 :=
          List.filter_cons_of_pos (by simpa using hedits)
        rw [hold, List.length_cons, List.filter_cons]
        split_ifs
        · rw [List.length_cons]
        · exact Nat.le_succ _
    · have hrest : entry.edits = [] ∨ ∃ prev, rest.lookup file = some prev ∧ prev.edits ≠ [] := by
        refine h.imp_right ?_
        rintro ⟨prev, hprev, hedits⟩
        rw [List.lookup_cons] at hprev
        rw [beq_false_of_ne (Ne.symm hother)] at hprev
        exact ⟨prev, hprev, hedits⟩
      rw [List.filter_cons, List.filter_cons]
      split_ifs
      · rw [List.length_cons, List.length_cons]
        exact Nat.succ_le_succ (ih hrest)
      · exact ih hrest

theorem modifiedFilesInOrder_perm (state : RecentEditMap) :
    (modifiedFilesInOrder state).Perm (modified state) := List.mergeSort_perm _ _

theorem trimOldFilesFromState_of_le {maxFiles : ℕ} (h : (modified state).length ≤ maxFiles) :
    trimOldFilesFromState state maxFiles = state := by
  unfold trimOldFilesFromState
  dsimp only
  rw [(modifiedFilesInOrder_perm state).length_eq, Nat.sub_eq_zero_of_le h, List.take_zero]
  simp

/-- The oldest modified files are removed until there are not too many. -/
theorem length_modified_trim (h : (state.map Prod.fst).Nodup) (maxFiles : ℕ) :
    (modified (trimOldFilesFromState state maxFiles)).length ≤ maxFiles := by
  unfold trimOldFilesFromState
  dsimp only
  generalize hsorted : modifiedFilesInOrder state = sorted
  have hperm := modifiedFilesInOrder_perm state
  rw [hsorted] at hperm
  have hnodup : (sorted.map Prod.fst).Nodup :=
    (hperm.map Prod.fst).nodup_iff.2 (((List.filter_sublist).map Prod.fst).nodup h)
  have hdisjoint := List.nodup_append.1 (by
    rwa [← List.take_append_drop (sorted.length - maxFiles) sorted, List.map_append] at hnodup)
  have hleft : sorted.filter (fun (name, _) =>
      name ∉ (sorted.take (sorted.length - maxFiles)).map Prod.fst) =
        sorted.drop (sorted.length - maxFiles) := by
    conv_lhs =>
      arg 2
      rw [← List.take_append_drop (sorted.length - maxFiles) sorted]
    rw [List.filter_append, List.filter_eq_nil_iff.2, List.nil_append, List.filter_eq_self]
    · intro entry hentry
      rw [decide_eq_true_eq]
      intro hname
      exact hdisjoint.2.2 _ hname _ (List.mem_map_of_mem hentry) rfl
    · intro entry hentry
      rw [decide_eq_true_eq, not_not]
      exact List.mem_map_of_mem hentry
  have hlength := ((hperm.filter fun (name, _) =>
    name ∉ (sorted.take (sorted.length - maxFiles)).map Prod.fst)).length_eq
  rw [hleft, List.length_drop] at hlength
  unfold modified at hlength ⊢
  rw [List.filter_comm, ← hlength]
  omega

/-! ## Steps of the reducer -/

/-- The edit the reducer makes of a change. -/
def incomingEdit (config : RecentEditsConfig) (snapshot : Snapshot) (prev : FileEntry)
    (span : Span) : RecentEdit :=
  buildIncomingEdit snapshot.file (split prev.currentContent) (split snapshot.newContents) span
    config snapshot.now

/-- A tracked file changes, and the change is neither too large nor a reset. -/
structure Changes (config : RecentEditsConfig) (state : RecentEditMap) (snapshot : Snapshot)
    (prev : FileEntry) (span : Span) : Prop where
  small : snapshot.newContents.length ≤ 2 * 1024 * 1024
  tracked : state.lookup snapshot.file = some prev
  changed : prev.currentContent ≠ snapshot.newContents
  span_eq : findChangeSpan (split prev.currentContent) (split snapshot.newContents) = some span
  size_le : measureDiffSize (incomingEdit config snapshot prev span).diff ≤ config.maxCharsPerEdit

/-- The contents of a file become what they were before its last edit, by a change close to that
edit. -/
def RevertsLastEdit (config : RecentEditsConfig) (state : RecentEditMap) (snapshot : Snapshot) :
    Prop :=
  ∃ prev span, Changes config state snapshot prev span ∧
    CancelsLast prev (incomingEdit config snapshot prev span) (split snapshot.newContents) config

/-- The entry of a changed file. -/
def changedEntry (config : RecentEditsConfig) (snapshot : Snapshot) (prev : FileEntry)
    (span : Span) : FileEntry :=
  let updated := updateEdits prev.originalContent prev.edits
    (incomingEdit config snapshot prev span) (split snapshot.newContents) config snapshot.nowMerged
  ⟨updated.1, snapshot.newContents, updated.2⟩

theorem Changes.unique {config : RecentEditsConfig} {snapshot : Snapshot} {prev prev' : FileEntry}
    {span span' : Span} (h : Changes config state snapshot prev span)
    (h' : Changes config state snapshot prev' span') : prev' = prev ∧ span' = span := by
  obtain rfl : prev' = prev := Option.some.inj (h'.tracked.symm.trans h.tracked)
  exact ⟨rfl, Option.some.inj (h'.span_eq.symm.trans h.span_eq)⟩

/-- A step keeps the state, starts a file again, or changes a file. -/
theorem recentEditsReducer_cases (config : RecentEditsConfig) (state : RecentEditMap)
    (snapshot : Snapshot) :
    (¬ RevertsLastEdit config state snapshot ∧
      (recentEditsReducer config state snapshot = state ∨
        recentEditsReducer config state snapshot =
          state.assign snapshot.file ⟨snapshot.newContents, snapshot.newContents, []⟩)) ∨
    ∃ prev span, Changes config state snapshot prev span ∧
      recentEditsReducer config state snapshot = trimOldFilesFromState
        (state.assign snapshot.file (changedEntry config snapshot prev span)) config.maxFiles := by
  unfold recentEditsReducer
  dsimp only
  split_ifs with hlarge
  · refine .inl ⟨?_, .inl rfl⟩
    rintro ⟨prev, span, h, -⟩
    exact absurd h.small (not_le.2 hlarge)
  · cases htracked : state.lookup snapshot.file with
    | none =>
      refine .inl ⟨?_, .inr rfl⟩
      rintro ⟨prev, span, h, -⟩
      cases htracked.symm.trans h.tracked
    | some prev =>
      dsimp only
      split_ifs with hsame
      · refine .inl ⟨?_, .inl rfl⟩
        rintro ⟨prev', span, h, -⟩
        obtain rfl := Option.some.inj (htracked.symm.trans h.tracked)
        exact h.changed hsame
      · cases hspan : findChangeSpan (split prev.currentContent) (split snapshot.newContents) with
        | none => exact absurd (split_injective (findChangeSpan_eq_none.1 hspan)) hsame
        | some span =>
          dsimp only
          split_ifs with hsize
          · refine .inl ⟨?_, .inr rfl⟩
            rintro ⟨prev', span', h, -⟩
            obtain rfl := Option.some.inj (htracked.symm.trans h.tracked)
            obtain rfl := Option.some.inj (hspan.symm.trans h.span_eq)
            exact absurd h.size_le (not_le.2 hsize)
          · exact .inr ⟨prev, span, ⟨not_lt.1 hlarge, htracked, hsame, hspan, not_lt.1 hsize⟩, rfl⟩

/-- The edits of every tracked file replay to its contents, and there are not too many. -/
def AllReplay (config : RecentEditsConfig) (state : RecentEditMap) : Prop :=
  ∀ file entry, (file, entry) ∈ state → Replays entry ∧ entry.edits.length ≤ config.maxEdits

/-- What else holds of the states of a run. -/
structure Steady (config : RecentEditsConfig) (state : RecentEditMap) : Prop where
  names : (state.map Prod.fst).Nodup
  files : (modified state).length ≤ config.maxFiles
  stages : ∀ file entry, (file, entry) ∈ state →
    Stages (split entry.originalContent) entry.edits

theorem replays_fresh (contents : Str) : Replays ⟨contents, contents, []⟩ := rfl

theorem stages_nil (contents : Str) : Stages (split contents) [] := by
  intro k
  rw [List.take_nil]
  exact isText_split contents

section Step

variable {config : RecentEditsConfig} {snapshot : Snapshot} {prev : FileEntry} {span : Span}

/-- A change that does not cancel the last edit is replayed. -/
theorem changedEntry_replays (hchanges : Changes config state snapshot prev span)
    (hreplays : Replays prev) (hstages : Stages (split prev.originalContent) prev.edits)
    (hkept : ¬ CancelsLast prev (incomingEdit config snapshot prev span)
      (split snapshot.newContents) config) :
    Replays (changedEntry config snapshot prev span) ∧
      Stages (split (changedEntry config snapshot prev span).originalContent)
        (changedEntry config snapshot prev span).edits ∧
      (changedEntry config snapshot prev span).edits.length ≤ config.maxEdits := by
  have hincoming := applyEditToLines_built (findChangeSpan_eq_some hchanges.span_eq) snapshot.file
    config snapshot.now
  obtain ⟨hmerged, hstages'⟩ :=
    mergeIncoming_replays snapshot.nowMerged hreplays hstages hincoming hkept
  obtain ⟨htrimmed, hstages'', hlength⟩ := @trimEdits_replays _ _ config hstages'
  exact ⟨htrimmed.trans hmerged, hstages'', hlength⟩

/-- One that does keeps the edits. -/
theorem changedEntry_of_cancels (hlength : prev.edits.length ≤ config.maxEdits)
    (hcancels : CancelsLast prev (incomingEdit config snapshot prev span)
      (split snapshot.newContents) config) :
    changedEntry config snapshot prev span =
      ⟨prev.originalContent, snapshot.newContents, prev.edits⟩ := by
  unfold changedEntry updateEdits trimEdits
  rw [mergeIncoming_of_cancels _ hcancels, if_neg (not_lt.2 hlength)]

theorem not_allReplay_of_reverts (hsteady : Steady config state)
    (hgood : AllReplay config state) (h : RevertsLastEdit config state snapshot) :
    ¬ AllReplay config (recentEditsReducer config state snapshot) := by
  obtain ⟨prev, span, hchanges, hcancels⟩ := h
  rcases recentEditsReducer_cases config state snapshot with ⟨hnot, -⟩ | ⟨prev', span', h, hout⟩
  · exact absurd ⟨prev, span, hchanges, hcancels⟩ hnot
  · obtain ⟨rfl, rfl⟩ := hchanges.unique h
    obtain ⟨hreplays, hlength⟩ := hgood _ _ (mem_of_lookup hchanges.tracked)
    have hedits : prev'.edits ≠ [] := by
      obtain ⟨last, hlast, -⟩ := hcancels
      exact List.ne_nil_of_mem (List.mem_of_getLast? hlast)
    rw [changedEntry_of_cancels hlength hcancels] at hout
    have hfew : (modified (state.assign snapshot.file
        ⟨prev'.originalContent, snapshot.newContents, prev'.edits⟩)).length ≤ config.maxFiles :=
      (length_modified_assign (.inr ⟨prev', hchanges.tracked, hedits⟩)).trans hsteady.files
    rw [trimOldFilesFromState_of_le hfew] at hout
    rw [hout]
    intro hall
    have hnew := (hall _ _ (mem_assign_self state snapshot.file _)).1
    exact hchanges.changed (split_injective (hreplays.symm.trans hnew))

/-- What holds of every entry and of the one that is assigned holds of the entries behind. -/
theorem forall_mem_assign {P : FileEntry → Prop} (h : ∀ file entry, (file, entry) ∈ state → P entry)
    (hentry : P entry) : ∀ name e, (name, e) ∈ state.assign file entry → P e := by
  intro name e hmem
  rcases mem_of_mem_assign hmem with heq | hmem
  · rw [(Prod.mk.inj heq).2]
    exact hentry
  · exact h name e hmem

theorem mem_of_mem_trim {maxFiles : ℕ}
    (h : (name, entry) ∈ trimOldFilesFromState state maxFiles) : (name, entry) ∈ state :=
  List.mem_of_mem_filter h

theorem step_of_not_reverts (hsteady : Steady config state) (hgood : AllReplay config state)
    (h : ¬ RevertsLastEdit config state snapshot) :
    AllReplay config (recentEditsReducer config state snapshot) ∧
      Steady config (recentEditsReducer config state snapshot) := by
  rcases recentEditsReducer_cases config state snapshot with
    ⟨-, hout | hout⟩ | ⟨prev, span, hchanges, hout⟩
  · rw [hout]
    exact ⟨hgood, hsteady⟩
  · rw [hout]
    refine ⟨forall_mem_assign hgood ⟨replays_fresh _, Nat.zero_le _⟩,
      nodup_assign hsteady.names _ _, (length_modified_assign (.inl rfl)).trans hsteady.files, ?_⟩
    exact @forall_mem_assign _ _ _
      (fun entry => Stages (split entry.originalContent) entry.edits) hsteady.stages (stages_nil _)
  · have hmem := mem_of_lookup hchanges.tracked
    obtain ⟨hreplays, hstages, hlength⟩ := changedEntry_replays hchanges (hgood _ _ hmem).1
      (hsteady.stages _ _ hmem) fun hcancels => h ⟨prev, span, hchanges, hcancels⟩
    have hnames := nodup_assign hsteady.names snapshot.file
      (changedEntry config snapshot prev span)
    rw [hout]
    refine ⟨fun name e he => ?_, ?_, length_modified_trim hnames config.maxFiles,
      fun name e he => ?_⟩
    · exact forall_mem_assign hgood ⟨hreplays, hlength⟩ name e (mem_of_mem_trim he)
    · exact (List.filter_sublist.map Prod.fst).nodup hnames
    · exact @forall_mem_assign _ _ _
        (fun entry => Stages (split entry.originalContent) entry.edits) hsteady.stages hstages
        name e (mem_of_mem_trim he)

end Step

/-- In a run over snapshots, the edits of all tracked files replay to their contents after every
snapshot exactly when no snapshot reverts the last edit of its file. -/
theorem recentEdits_replay_iff (config : RecentEditsConfig) (snapshots : List Snapshot) :
    Throughout (recentEditsReducer config) (AllReplay config) [] snapshots ↔
      AtEachStep (recentEditsReducer config)
        (fun state snapshot => ¬ RevertsLastEdit config state snapshot) [] snapshots := by
  have hstart : Steady config [] :=
    ⟨List.nodup_nil, Nat.zero_le _, fun _ _ h => absurd h List.not_mem_nil⟩
  refine @Library.throughout_iff _ _ (recentEditsReducer config) (Steady config)
    (AllReplay config) (fun _ _ => True) _ ?_ ?_ [] hstart
    (fun _ _ h => absurd h List.not_mem_nil) snapshots fun _ _ _ => trivial
  · intro state snapshot hsteady hgood _
    constructor
    · intro hafter hreverts
      exact not_allReplay_of_reverts hsteady hgood hreverts hafter
    · intro hkept
      exact (step_of_not_reverts hsteady hgood hkept).1
  · intro state snapshot hsteady hgood _ hkept
    exact (step_of_not_reverts hsteady hgood hkept).2

/-- `a`, then `b`, then `a` again -/
def configTwo : RecentEditsConfig := ⟨20, 8, 3, 1, 2000⟩
def revertingSnapshots : List Snapshot :=
  [⟨[102], [97], 0, 0⟩, ⟨[102], [98], 1, 1⟩, ⟨[102], [97], 2, 2⟩]

/-- The edit from `a` to `b`. -/
def editAb : RecentEdit := ⟨[102], 0, 0, ⟨[102], 0, 1, [], [[97]], [[98]], []⟩, 1⟩

/-- The edit from `a` to `b` stays although the contents are `a` again. -/
theorem recentEdits_revert_wrong :
    ¬ ∀ (config : RecentEditsConfig) (snapshots : List Snapshot), 0 < config.maxEdits →
      0 < config.maxFiles → AllReplay config (snapshots.foldl (recentEditsReducer config) []) := by
  intro h
  have hall := h configTwo revertingSnapshots (by decide) (by decide)
  have hsecond : recentEditsReducer configTwo [([102], ⟨[97], [97], []⟩)] ⟨[102], [98], 1, 1⟩ =
      [([102], ⟨[97], [98], [editAb]⟩)] :=
    @trimOldFilesFromState_of_le [([102], ⟨[97], [98], [editAb]⟩)] 20 (by decide)
  have hthird : recentEditsReducer configTwo [([102], ⟨[97], [98], [editAb]⟩)]
      ⟨[102], [97], 2, 2⟩ = [([102], ⟨[97], [97], [editAb]⟩)] :=
    @trimOldFilesFromState_of_le [([102], ⟨[97], [97], [editAb]⟩)] 20 (by decide)
  have hrun : revertingSnapshots.foldl (recentEditsReducer configTwo) [] =
      [([102], ⟨[97], [97], [editAb]⟩)] := by
    unfold revertingSnapshots
    rw [List.foldl_cons, List.foldl_cons, List.foldl_cons, List.foldl_nil]
    exact (congrArg (recentEditsReducer configTwo · ⟨[102], [97], 2, 2⟩) hsecond).trans hthird
  rw [hrun] at hall
  have hreplays := (hall _ _ (List.mem_singleton_self _)).1
  revert hreplays
  unfold Replays
  decide +kernel

end NexgileIde.RecentEdits
