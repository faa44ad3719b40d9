import NexgileIde.Edits.AnnotatedStringEdit
import NexgileIde.Edits.StringEdit
import NexgileIde.Library.SplitPatches
import NexgileIde.Library.Runs

/-!
# The recent edits of a document

All recent edits of a document are kept composed into one edit, whose replacements carry the
number of the newest edit in them. The edit is split by these numbers: the old part goes into the
base, the young part is kept. The split moves the old part as if the young one came first, and the
history applies it first.
-/
namespace NexgileIde.Edits

open Library

variable {T : Type} [BaseReplacement T]

/-- The loop of `decomposeSplit` -/
def decomposeSplitLoop (shouldBeInE1 : T → Bool) :
    Int → List T → Except BugIndicatingError (List T × List T)
  | _, [] => .ok ([], [])
  | e2delta, edit :: rest =>
    if shouldBeInE1 edit then do
      let (e1, e2) ← decomposeSplitLoop shouldBeInE1
        (e2delta + (getNewLength edit - (replaceRange edit).length)) rest
      return (edit :: e1, e2)
    else do
      let moved ← BaseReplacement.delta edit e2delta
      let (e1, e2) ← decomposeSplitLoop shouldBeInE1 e2delta rest
      return (e1, moved :: e2)

def BaseEdit.decomposeSplit (e : BaseEdit T) (shouldBeInE1 : T → Bool) :
    Except BugIndicatingError (BaseEdit T × BaseEdit T) := do
  let (e1, e2) ← decomposeSplitLoop shouldBeInE1 0 e.replacements
  return (← BaseEdit.createNew e1, ← BaseEdit.createNew e2)

section Split

variable {α : Type} [BaseStringReplacement T α] {shouldBeInE1 : T → Bool} {rs : List T}

theorem grow_toPatch (r : T) :
    Patch.grow (toPatch r) = getNewLength r - (replaceRange r).length := by
  rw [BaseStringReplacement.getNewLength_eq]
  rfl

theorem decomposeSplitLoop_ok (shouldBeInE1 : T → Bool) (d : Int) (rs : List T) :
    ∃ e2, decomposeSplitLoop shouldBeInE1 d rs = .ok (rs.filter shouldBeInE1, e2) ∧
      patchesOf e2 = Patch.shiftedOthers shouldBeInE1 toPatch d rs := by
  induction rs generalizing d with
  | nil => exact ⟨[], rfl, rfl⟩
  | cons r rs ih =>
    unfold decomposeSplitLoop Patch.shiftedOthers
    by_cases hin : shouldBeInE1 r
    · obtain ⟨e2, hloop, he2⟩ := ih (d + (getNewLength r - (replaceRange r).length))
      refine ⟨e2, ?_, ?_⟩
      · rw [if_pos hin, hloop, List.filter_cons_of_pos hin]
        rfl
      · rw [if_pos hin, grow_toPatch, he2]
    · obtain ⟨e2, hloop, he2⟩ := ih d
      obtain ⟨moved, hmoved, hpatch⟩ := delta_spec r d
      refine ⟨moved :: e2, ?_, ?_⟩
      · rw [if_neg hin, hmoved, List.filter_cons_of_neg hin]
        change (decomposeSplitLoop shouldBeInE1 d rs >>= fun x => _) = _
        rw [hloop]
        rfl
      · rw [if_neg hin, patchesOf_cons, hpatch, he2]
        rfl

/-- The split never fails, and the two parts one after the other are the edit. -/
theorem BaseEdit.decomposeSplit_spec {e : BaseEdit T} {base : List α} (h : e.Inside base.length)
    (shouldBeInE1 : T → Bool) :
    ∃ e1 e2 : BaseEdit T, e.decomposeSplit shouldBeInE1 = .ok (e1, e2) ∧
      patchesOf e1.replacements = Patch.chosen shouldBeInE1 toPatch e.replacements ∧
      patchesOf e2.replacements = Patch.shiftedOthers shouldBeInE1 toPatch 0 e.replacements ∧
      e1.Inside base.length ∧
      BaseStringEdit.apply e2 (BaseStringEdit.apply e1 base) = BaseStringEdit.apply e base := by
  obtain ⟨e2, hloop, hpatches⟩ := decomposeSplitLoop_ok (α := α) shouldBeInE1 0 e.replacements
  have hfits := h.fits
  have hfirst : Patch.Fits 0 base.length (patchesOf (e.replacements.filter shouldBeInE1)) :=
    Patch.chosen_fits hfits
  have hsecond := @Patch.shiftedOthers_fits _ _ shouldBeInE1 toPatch e.replacements 0
    base.length 0 hfits
  rw [← hpatches] at hsecond
  obtain ⟨f1, hf1, hr1⟩ := createNew_of_patches hfirst
  obtain ⟨f2, hf2, hr2⟩ := createNew_of_patches hsecond
  have hinside : f1.Inside base.length := inside_of_fits (by rwa [hr1])
  have hrun := @Patch.run_shiftedOthers _ _ shouldBeInE1 toPatch e.replacements 0 base.length 0 base
    hfits (by simp)
  refine ⟨f1, f2, ?_, by rw [hr1]; rfl, by rw [hr2, hpatches], hinside, ?_⟩
  · unfold BaseEdit.decomposeSplit
    rw [hloop]
    change (BaseEdit.createNew _ >>= fun x => _) = _
    rw [hf1]
    change (BaseEdit.createNew _ >>= fun x => _) = _
    rw [hf2]
    rfl
  · have hchosen : patchesOf f1.replacements =
        Patch.chosen shouldBeInE1 toPatch e.replacements := by
      rw [hr1]
      rfl
    have hlength : ((BaseStringEdit.apply f1 base).length : Int) = base.length +
        Patch.growth (patchesOf f1.replacements) := by
      rw [hinside.apply_eq_run]
      exact Patch.length_run (by simpa using hinside.fits)
    have hinside2 : f2.Inside (BaseStringEdit.apply f1 base).length := by
      refine inside_of_fits ?_
      rw [hlength, hchosen, hr2]
      simpa using hsecond
    rw [hinside2.apply_eq_run, hinside.apply_eq_run, h.apply_eq_run, hchosen, hr2, hpatches]
    rwa [add_zero] at hrun

/-- Where the parts find each other even, the second one may come first. -/
theorem BaseEdit.decomposeSplit_swapped {e e1 e2 : BaseEdit T} {base : List α}
    (h : e.Inside base.length) (hsplit : e.decomposeSplit shouldBeInE1 = .ok (e1, e2))
    (heven : Patch.Even shouldBeInE1 toPatch 0 0 e.replacements) :
    e2.Inside base.length ∧ e1.Inside (BaseStringEdit.apply e2 base).length ∧
      BaseStringEdit.apply e1 (BaseStringEdit.apply e2 base) = BaseStringEdit.apply e base := by
  obtain ⟨f1, f2, hok, hr1, hr2, -, -⟩ := BaseEdit.decomposeSplit_spec h shouldBeInE1
  obtain ⟨rfl, rfl⟩ := Prod.mk.inj (Except.ok.inj (hok.symm.trans hsplit))
  have hfits := h.fits
  rw [heven.shiftedOthers_eq] at hr2
  have hinside2 : f2.Inside base.length := inside_of_fits (by
    rw [hr2]
    exact Patch.others_fits hfits)
  have hlength : ((BaseStringEdit.apply f2 base).length : Int) = base.length +
      Patch.growth (patchesOf f2.replacements) := by
    rw [hinside2.apply_eq_run]
    exact Patch.length_run (by simpa using hinside2.fits)
  have hinside1 : f1.Inside (BaseStringEdit.apply f2 base).length := by
    refine inside_of_fits ?_
    rw [hlength, hr1, hr2]
    simpa using heven.chosen_fits hfits
  refine ⟨hinside2, hinside1, ?_⟩
  have hrun := heven.run_eq hfits (by simp : (base.length : Int) = 0 + base.length)
  rw [hinside1.apply_eq_run, hinside2.apply_eq_run, h.apply_eq_run, hr1, hr2]
  rwa [add_zero] at hrun

end Split

end NexgileIde.Edits

namespace NexgileIde.InlineEdits

open Edits Library
open Text (Str CodeUnit)

structure DocumentEdit where
  value : ℕ
deriving Repr, DecidableEq

/-- The newer edit -/
def DocumentEdit.join (a other : DocumentEdit) : DocumentEdit :=
  if a.value ≥ other.value then a else other

instance : IEditData DocumentEdit where
  join a b := some (a.join b)

instance : BaseStringReplacement (AnnotatedStringReplacement DocumentEdit) CodeUnit where
  newText := AnnotatedStringReplacement.newText
  getNewLength_eq _ := rfl
  slice_replaceRange _ _ _ := rfl
  slice_newText _ _ _ := rfl
  joins l r htouch := by
    have hjoin := OffsetRange.joinRightTouching_of_eq htouch
    simp only [BaseReplacement.replaceRange] at hjoin
    simp only [BaseReplacement.tryJoinTouching, AnnotatedStringReplacement.tryJoinTouching,
      IEditData.join, hjoin]
    exact .inr ⟨_, rfl, rfl, rfl, rfl⟩

abbrev RecentEdits := AnnotatedStringEdit DocumentEdit

/-- `edit.mapData(r => data)` -/
def mapData (edit : StringEdit) (data : DocumentEdit) : Except BugIndicatingError RecentEdits :=
  BaseEdit.createNew (edit.replacements.map fun r => ⟨r.replaceRange, r.newText, data⟩)

def toStringEdit (edit : RecentEdits) : Except BugIndicatingError StringEdit :=
  BaseEdit.createNew (edit.replacements.map fun r => ⟨r.replaceRange, r.newText⟩)

structure DocumentHistoryDifference where
  before : Str
  after : Str
  edits : StringEdit

structure DocumentEditHistory where
  documentStateID : ℕ
  recentEdits : RecentEdits
  base : Str
  current : Str
  historyLength : ℤ

/-- Whether a replacement is one of the last `n` edits. -/
def isRecent (documentStateID : ℕ) (n : ℤ) (r : AnnotatedStringReplacement DocumentEdit) : Bool :=
  (r.data.value : ℤ) > documentStateID - n

namespace DocumentEditHistory

def new (original : Str) (historyLength : ℤ) : DocumentEditHistory :=
  ⟨0, ⟨[], rfl⟩, original, original, historyLength⟩

def resetEditHistory (h : DocumentEditHistory) : DocumentEditHistory :=
  { h with base := h.current, recentEdits := ⟨[], rfl⟩ }

def handleEdit (h : DocumentEditHistory) (edit : StringEdit) (isInCooldown : Bool) :
    Except BugIndicatingError DocumentEditHistory :=
  if edit.isEmpty then .ok h
  else
    let stateIdentifier := h.documentStateID
    let h := { h with
      documentStateID := h.documentStateID + 1
      current := edit.apply h.current }
    if isInCooldown then .ok h.resetEditHistory
    else do
      let annotatedEdit ← mapData edit ⟨stateIdentifier⟩
      let updatedRecentEdits ← h.recentEdits.compose annotatedEdit
      let (newRecentEdits, oldEdits) ←
        updatedRecentEdits.decomposeSplit (isRecent h.documentStateID h.historyLength)
      return { h with
        recentEdits := newRecentEdits
        base := BaseStringEdit.apply oldEdits h.base }

def getRecentEdits (h : DocumentEditHistory) :
    Except BugIndicatingError DocumentHistoryDifference := do
  return ⟨h.base, h.current, ← toStringEdit h.recentEdits⟩

def getNRecentEdits (h : DocumentEditHistory) (n : ℕ) :
    Except BugIndicatingError DocumentHistoryDifference := do
  let (nRecentEdits, oldEdits) ← h.recentEdits.decomposeSplit (isRecent h.documentStateID n)
  return ⟨BaseStringEdit.apply oldEdits h.base, h.current, ← toStringEdit nRecentEdits⟩

end DocumentEditHistory

structure HandleEdit where
  edit : StringEdit
  isInCooldown : Bool

/-- The history after the calls. -/
def historyAfter (original : Str) (historyLength : ℤ) (calls : List HandleEdit) :
    Except BugIndicatingError DocumentEditHistory :=
  calls.foldlM (fun h call => h.handleEdit call.edit call.isInCooldown)
    (DocumentEditHistory.new original historyLength)

/-- The text after the calls. -/
def textAfter (original : Str) (calls : List HandleEdit) : Str :=
  calls.foldl (fun text call => call.edit.apply text) original

/-- The replacements of the last `n` edits and the others find each other even: none has one of
the others before it that changes the length, as far as these do not cancel out. -/
def SplitsEvenly (documentStateID : ℕ) (n : ℤ) (edit : RecentEdits) : Prop :=
  Patch.Even (isRecent documentStateID n) (toPatch (α := CodeUnit)) 0 0 edit.replacements

/-- The edit that a call splits is split evenly. -/
def HandleEdit.Even (h : DocumentEditHistory) (call : HandleEdit) : Prop :=
  call.edit.isEmpty = false → call.isInCooldown = false →
    ∀ annotatedEdit updatedRecentEdits, mapData call.edit ⟨h.documentStateID⟩ = .ok annotatedEdit →
      h.recentEdits.compose annotatedEdit = .ok updatedRecentEdits →
      SplitsEvenly (h.documentStateID + 1) h.historyLength updatedRecentEdits

/-! ## The invariant -/

/-- The difference is between the texts it names. -/
structure Replays (d : DocumentHistoryDifference) (text : Str) : Prop where
  apply_eq : d.edits.apply d.before = d.after
  after_eq : d.after = text

/-- The recent edits lead from the base to the current text. -/
structure Holds (h : DocumentEditHistory) (text : Str) : Prop where
  current_eq : h.current = text
  inside : h.recentEdits.Inside h.base.length
  apply_eq : BaseStringEdit.apply h.recentEdits h.base = text

section History

variable {h h' : DocumentEditHistory} {text original : Str} {edit : StringEdit}

theorem mapData_ok {n : ℕ} (hwithin : edit.Within n) (data : DocumentEdit) :
    ∃ annotated, mapData edit data = .ok annotated ∧ annotated.Inside n ∧
      patchesOf annotated.replacements = patches edit.replacements := by
  have hpatches : patchesOf (edit.replacements.map fun r =>
      (⟨r.replaceRange, r.newText, data⟩ : AnnotatedStringReplacement DocumentEdit)) =
        patches edit.replacements := by
    unfold patchesOf patches
    rw [List.map_map]
    rfl
  have hfits := hwithin.fits
  rw [← hpatches] at hfits
  obtain ⟨annotated, hok, hr⟩ := createNew_of_patches hfits
  refine ⟨annotated, hok, inside_of_fits ?_, ?_⟩
  · rwa [hr]
  · rw [hr, hpatches]

theorem toStringEdit_ok {e : RecentEdits} {base : Str} (hinside : e.Inside base.length) :
    ∃ edit, toStringEdit e = .ok edit ∧ edit.apply base = BaseStringEdit.apply e base := by
  have hpatches : patches (e.replacements.map fun r => ⟨r.replaceRange, r.newText⟩) =
      patchesOf e.replacements := by
    unfold patchesOf patches
    rw [List.map_map]
    rfl
  have hfits := hinside.fits
  rw [← hpatches] at hfits
  obtain ⟨edit, hok, hr⟩ := createNew_of_fits hfits
  refine ⟨edit, hok, ?_⟩
  have hwithin : edit.Within base.length := within_of_fits (by rwa [hr])
  rw [hwithin.apply_eq_run, hinside.apply_eq_run, hr, hpatches]

theorem apply_mapData {annotated : RecentEdits} (hwithin : edit.Within text.length)
    (hinside : annotated.Inside text.length)
    (hpatches : patchesOf annotated.replacements = patches edit.replacements) :
    BaseStringEdit.apply annotated text = edit.apply text := by
  rw [hinside.apply_eq_run, hwithin.apply_eq_run, hpatches]

theorem apply_empty (hempty : edit.isEmpty) (text : Str) : edit.apply text = text := by
  have hnil : edit.replacements = [] := List.isEmpty_iff.mp hempty
  unfold StringEdit.apply
  rw [hnil]
  exact List.drop_zero

theorem holds_new (original : Str) (historyLength : ℤ) :
    Holds (DocumentEditHistory.new original historyLength) original where
  current_eq := rfl
  inside _ hr := absurd hr List.not_mem_nil
  apply_eq := List.drop_zero

theorem holds_reset (hcurrent : h.current = text) : Holds h.resetEditHistory text where
  current_eq := hcurrent
  inside _ hr := absurd hr List.not_mem_nil
  apply_eq := hcurrent ▸ List.drop_zero

theorem Holds.handleEdit (hholds : Holds h text) {call : HandleEdit}
    (hwithin : call.edit.Within text.length) (heven : call.Even h) :
    ∃ h', h.handleEdit call.edit call.isInCooldown = .ok h' ∧
      Holds h' (call.edit.apply text) := by
  unfold DocumentEditHistory.handleEdit
  by_cases hempty : call.edit.isEmpty
  · rw [if_pos hempty, apply_empty hempty]
    exact ⟨h, rfl, hholds⟩
  rw [if_neg hempty]
  dsimp only
  have hcurrent : call.edit.apply h.current = call.edit.apply text := by
    rw [hholds.current_eq]
  by_cases hcool : call.isInCooldown
  · rw [if_pos hcool]
    exact ⟨_, rfl, holds_reset hcurrent⟩
  rw [if_neg hcool]
  obtain ⟨annotated, hmap, hinside, hpatches⟩ := mapData_ok hwithin ⟨h.documentStateID⟩
  obtain ⟨composed, hcompose, hcomposed, happly, -⟩ := BaseEdit.compose_spec h.base h.recentEdits
    annotated hholds.inside (by rw [hholds.apply_eq]; exact hinside)
  rw [hholds.apply_eq, apply_mapData hwithin hinside hpatches] at happly
  obtain ⟨e1, e2, hsplit, -⟩ := BaseEdit.decomposeSplit_spec hcomposed
    (isRecent (h.documentStateID + 1) h.historyLength)
  obtain ⟨-, hinside1, hswapped⟩ := BaseEdit.decomposeSplit_swapped hcomposed hsplit
    (heven (by simpa using hempty) (by simpa using hcool) annotated composed hmap hcompose)
  refine ⟨⟨h.documentStateID + 1, e1, BaseStringEdit.apply e2 h.base, call.edit.apply h.current,
    h.historyLength⟩, ?_, hcurrent, hinside1, hswapped.trans happly⟩
  rw [hmap]
  change (h.recentEdits.compose annotated >>= fun x => _) = _
  rw [hcompose]
  change (composed.decomposeSplit _ >>= fun x => _) = _
  rw [hsplit]
  rfl

theorem Holds.getRecentEdits (hholds : Holds h text) :
    ∃ d, h.getRecentEdits = .ok d ∧ Replays d text := by
  obtain ⟨edit, hok, happly⟩ := toStringEdit_ok hholds.inside
  refine ⟨⟨h.base, h.current, edit⟩, ?_, ?_, hholds.current_eq⟩
  · unfold DocumentEditHistory.getRecentEdits
    rw [hok]
    rfl
  · exact happly.trans (hholds.apply_eq.trans hholds.current_eq.symm)

theorem Holds.getNRecentEdits (hholds : Holds h text) {n : ℕ}
    (heven : SplitsEvenly h.documentStateID n h.recentEdits) :
    ∃ d, h.getNRecentEdits n = .ok d ∧ Replays d text := by
  obtain ⟨e1, e2, hsplit, -⟩ :=
    BaseEdit.decomposeSplit_spec hholds.inside (isRecent h.documentStateID n)
  obtain ⟨-, hinside1, hswapped⟩ := BaseEdit.decomposeSplit_swapped hholds.inside hsplit heven
  obtain ⟨edit, hok, happly⟩ := toStringEdit_ok hinside1
  refine ⟨⟨BaseStringEdit.apply e2 h.base, h.current, edit⟩, ?_, ?_, hholds.current_eq⟩
  · unfold DocumentEditHistory.getNRecentEdits
    rw [hsplit]
    change (toStringEdit e1 >>= fun x => _) = _
    rw [hok]
    rfl
  · exact happly.trans (hswapped.trans (hholds.apply_eq.trans hholds.current_eq.symm))

/-- The invariant holds in every state of a run that only splits evenly. -/
theorem holds_historyAfter {historyLength : ℤ} {calls : List HandleEdit}
    (hvalid : ∀ done call, done ++ [call] <+: calls →
      call.edit.Within (textAfter original done).length)
    (heven : ∀ done call h, done ++ [call] <+: calls →
      historyAfter original historyLength done = .ok h → call.Even h) :
    ∀ done, done <+: calls → ∃ h, historyAfter original historyLength done = .ok h ∧
      Holds h (textAfter original done) := by
  intro done
  induction done using List.reverseRecOn with
  | nil => exact fun _ => ⟨_, rfl, holds_new original historyLength⟩
  | append_singleton done call ih =>
    intro hdone
    obtain ⟨h, hrun, hholds⟩ := ih ((List.prefix_append done [call]).trans hdone)
    obtain ⟨h', hhandle, hholds'⟩ := hholds.handleEdit (hvalid done call hdone)
      (heven done call h hdone hrun)
    refine ⟨h', ?_, ?_⟩
    · unfold historyAfter at hrun ⊢
      rw [List.foldlM_append, hrun]
      change (h.handleEdit call.edit call.isInCooldown >>= fun x => pure x) = _
      rw [hhandle]
      rfl
    · unfold textAfter at hholds' ⊢
      rw [List.foldl_append]
      exact hholds'

end History

/-- In a run whose calls split evenly, the recent edits of every state reached lead to the current
text, and so do the last `n` ones where they split evenly from the others. -/
theorem documentEditHistory_replays (original : Str) (historyLength : ℤ)
    (calls : List HandleEdit)
    (hvalid : ∀ done call, done ++ [call] <+: calls →
      call.edit.Within (textAfter original done).length)
    (heven : ∀ done call h, done ++ [call] <+: calls →
      historyAfter original historyLength done = .ok h → call.Even h) :
    ∀ done, done <+: calls → ∃ h, historyAfter original historyLength done = .ok h ∧
      (∃ d, h.getRecentEdits = .ok d ∧ Replays d (textAfter original done)) ∧
      ∀ n : ℕ, SplitsEvenly h.documentStateID n h.recentEdits →
        ∃ d, h.getNRecentEdits n = .ok d ∧ Replays d (textAfter original done) := by
  intro done hdone
  obtain ⟨h, hrun, hholds⟩ := holds_historyAfter hvalid heven done hdone
  exact ⟨h, hrun, hholds.getRecentEdits, fun n => hholds.getNRecentEdits⟩

/-- `a` is replaced by `x`, then `y` is put behind `ab`. -/
def replaceThenInsert : List HandleEdit :=
  [⟨⟨[⟨⟨0, 1, by decide⟩, [120]⟩], rfl⟩, false⟩, ⟨⟨[⟨⟨2, 2, by decide⟩, [121]⟩], rfl⟩, false⟩]

/-- The history of the first call. -/
def historyX : DocumentEditHistory :=
  ⟨1, ⟨[⟨⟨0, 1, by decide⟩, [120], ⟨0⟩⟩], rfl⟩, [97, 98], [120, 98], 2⟩

theorem cases_of_two {α : Type} {done : List α} {a b c : α} (h : done ++ [a] <+: [b, c]) :
    done = [] ∧ a = b ∨ done = [b] ∧ a = c := by
  rcases done with _ | ⟨d, _ | ⟨e, done⟩⟩
  · obtain ⟨rfl, -⟩ := List.cons_prefix_cons.1 h
    exact .inl ⟨rfl, rfl⟩
  · obtain ⟨rfl, htail⟩ := List.cons_prefix_cons.1 h
    obtain ⟨rfl, -⟩ := List.cons_prefix_cons.1 htail
    exact .inr ⟨rfl, rfl⟩
  · have hlength := h.length_le
    simp at hlength

theorem documentEditHistory_replays_ab :
    ∃ h, historyAfter [97, 98] 2 replaceThenInsert = .ok h ∧
      (∃ d, h.getRecentEdits = .ok d ∧ Replays d (textAfter [97, 98] replaceThenInsert)) ∧
      ∀ n : ℕ, SplitsEvenly h.documentStateID n h.recentEdits →
        ∃ d, h.getNRecentEdits n = .ok d ∧
          Replays d (textAfter [97, 98] replaceThenInsert) := by
  refine documentEditHistory_replays [97, 98] 2 replaceThenInsert ?_ ?_ _ List.prefix_rfl
  · intro done call hdone
    rcases cases_of_two hdone with ⟨rfl, rfl⟩ | ⟨rfl, rfl⟩
    · decide
    · decide
  · intro done call h hdone hrun
    rcases cases_of_two hdone with ⟨rfl, rfl⟩ | ⟨rfl, rfl⟩
    · obtain rfl := Except.ok.inj hrun
      rintro - - annotated updated hannotated hupdated
      obtain rfl := Except.ok.inj hannotated
      obtain rfl := Except.ok.inj hupdated
      unfold SplitsEvenly
      decide
    · have hx : historyAfter [97, 98] 2 [⟨⟨[⟨⟨0, 1, by decide⟩, [120]⟩], rfl⟩, false⟩] =
          .ok historyX := rfl
      obtain rfl := Except.ok.inj (hx.symm.trans hrun)
      rintro - - annotated updated hannotated hupdated
      obtain rfl := Except.ok.inj hannotated
      obtain rfl := Except.ok.inj hupdated
      unfold SplitsEvenly
      decide

/-- `x` is put behind `a`, then `y` behind `c`; with two edits of history the `x` is old. -/
def insertTwice : List HandleEdit :=
  [⟨⟨[⟨⟨1, 1, by decide⟩, [120]⟩], rfl⟩, false⟩, ⟨⟨[⟨⟨4, 4, by decide⟩, [121]⟩], rfl⟩, false⟩]

/-- The `y` is put in front of the `c`. -/
theorem documentEditHistory_wrong :
    ¬ ∀ (original : Str) (historyLength : ℤ) (calls : List HandleEdit),
      (∀ done call, done ++ [call] <+: calls →
        call.edit.Within (textAfter original done).length) →
      ∀ h d, historyAfter original historyLength calls = .ok h → h.getRecentEdits = .ok d →
        Replays d (textAfter original calls) := by
  intro hall
  have hvalid : ∀ done call, done ++ [call] <+: insertTwice →
      call.edit.Within (textAfter [97, 98, 99, 100] done).length := by
    intro done call hdone
    rcases cases_of_two hdone with ⟨rfl, rfl⟩ | ⟨rfl, rfl⟩
    · decide
    · decide
  have hreplays := (hall [97, 98, 99, 100] 2 insertTwice hvalid _ _ rfl rfl).apply_eq
  revert hreplays
  decide

end NexgileIde.InlineEdits
