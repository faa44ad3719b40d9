import Mathlib

/-!
# Merging the manifest of profiles

The local profiles, the remote ones and those of the last sync are compared by their
ids. What one side has changed since the last sync is taken over by the other one.
-/
namespace NexgileIde.UserDataSync

inductive ProfileResourceType
  | settings | keybindings | snippets | prompts | tasks | extensions | globalState | mcp
  | languageModels
  deriving DecidableEq, Repr

instance : Fintype ProfileResourceType where
  elems := {.settings, .keybindings, .snippets, .prompts, .tasks, .extensions, .globalState, .mcp,
    .languageModels}
  complete := by
    intro x
    cases x <;> simp

/-- A flag is absent, or present and possibly undefined. -/
abbrev UseDefaultProfileFlags : Type := ProfileResourceType → Option (Option Bool)

structure ProfileInfo where
  id : String
  name : String
  icon : Option String
  useDefaultFlags : Option UseDefaultProfileFlags
  deriving DecidableEq

structure SyncProfile extends ProfileInfo where
  collection : String
  deriving DecidableEq

namespace ProfilesManifest

/-- The ids that the second list adds, lacks or has with other properties. -/
structure Comparison where
  added : List String
  removed : List String
  updated : List String

def find (profiles : List ProfileInfo) (id : String) : Option ProfileInfo :=
  profiles.find? fun profile => profile.id = id

/-- The `id`s of profiles. -/
def ids (profiles : List ProfileInfo) : List String := profiles.map ProfileInfo.id

def compare (before : Option (List ProfileInfo)) (after : List ProfileInfo)
    (ignoredProfiles : List String) : Comparison :=
  let before := (before.getD []).filter fun profile => !ignoredProfiles.contains profile.id
  let after := after.filter fun profile => !ignoredProfiles.contains profile.id
  let removed := (ids before).filter fun key => !(ids after).contains key
  { added := (ids after).filter fun key => !(ids before).contains key
    removed := removed
    updated := ids (before.filter fun profile => !removed.contains profile.id &&
      match find after profile.id with
      | none => true
      | some toProfile => toProfile.name ≠ profile.name || toProfile.icon ≠ profile.icon ||
        toProfile.useDefaultFlags ≠ profile.useDefaultFlags) }

structure LocalChanges where
  added : List SyncProfile
  removed : List ProfileInfo
  updated : List SyncProfile

structure RemoteChanges where
  added : List ProfileInfo
  removed : List SyncProfile
  updated : List ProfileInfo

structure MergeResult where
  localChanges : LocalChanges
  remoteChanges : Option RemoteChanges

def infos (profiles : List SyncProfile) : List ProfileInfo := profiles.map SyncProfile.toProfileInfo

def findRemote (profiles : List SyncProfile) (id : String) : Option SyncProfile :=
  profiles.find? fun profile => profile.id = id

/-- An empty change of the remote side is `null`. -/
def RemoteChanges.orNull (c : RemoteChanges) : Option RemoteChanges :=
  if c.added.isEmpty && c.removed.isEmpty && c.updated.isEmpty then none else some c

/-- The six loops. -/
def loops (locals : List ProfileInfo) (remotes : List SyncProfile)
    (localToRemote baseToLocal baseToRemote : Comparison) : LocalChanges × RemoteChanges :=
  let addedInBoth := baseToRemote.added.filter fun id => baseToLocal.added.contains id
  ({ removed := baseToRemote.removed.filterMap (find locals)
     added := (baseToRemote.added.filter fun id => !baseToLocal.added.contains id).filterMap
       (findRemote remotes)
     -- remote wins always
     updated := (addedInBoth.filter fun id => localToRemote.updated.contains id).filterMap
       (findRemote remotes) ++ baseToRemote.updated.filterMap (findRemote remotes) },
   { added := (baseToLocal.added.filter fun id => !baseToRemote.added.contains id).filterMap
       (find locals)
     updated := (baseToLocal.updated.filter fun id => !baseToRemote.removed.contains id &&
       !baseToRemote.updated.contains id).filterMap (find locals)
     removed := baseToLocal.removed.filterMap (findRemote remotes) })

def merge (locals : List ProfileInfo) (remote lastSync : Option (List SyncProfile))
    (ignored : List String) : MergeResult :=
  match remote with
  | none =>
    let added := locals.filter fun profile => !ignored.contains profile.id
    ⟨⟨[], [], []⟩, if added.isEmpty then none else some ⟨added, [], []⟩⟩
  | some remotes =>
    let localToRemote := compare (some locals) (infos remotes) ignored
    if localToRemote.added.isEmpty && localToRemote.removed.isEmpty &&
        localToRemote.updated.isEmpty then ⟨⟨[], [], []⟩, none⟩
    else
      let changes := loops locals remotes localToRemote
        (compare (lastSync.map infos) locals ignored)
        (compare (lastSync.map infos) (infos remotes) ignored)
      ⟨changes.1, changes.2.orNull⟩

/-! ## Applying the result -/

/-- The profile of that id gets the properties of `profile`. -/
def update (profiles : List ProfileInfo) (profile : ProfileInfo) : List ProfileInfo :=
  profiles.map fun p => if p.id = profile.id then profile else p

def remove (profiles : List ProfileInfo) (id : String) : List ProfileInfo :=
  profiles.filter fun p => p.id ≠ id

/-- `applyResult` on the local side: profiles are removed, created and updated. -/
def LocalChanges.apply (c : LocalChanges) (locals : List ProfileInfo) : List ProfileInfo :=
  (infos c.updated).foldl update ((ids c.removed).foldl remove locals ++ infos c.added)

/-- `applyResult` on the remote side, without the collections. -/
def RemoteChanges.apply (c : RemoteChanges) (remotes : List ProfileInfo) : List ProfileInfo :=
  c.updated.foldl update ((ids (infos c.removed)).foldl remove (remotes ++ c.added))

def applyRemote (c : Option RemoteChanges) (remotes : List ProfileInfo) : List ProfileInfo :=
  c.elim remotes fun c => c.apply remotes

end ProfilesManifest

end NexgileIde.UserDataSync

/-!
## The manifests of profiles come together

Each id is merged for itself. A profile that was removed locally and changed remotely
is updated on the one side and removed on the other; in all other cases the two sides
agree on what to do.
-/
namespace NexgileIde.UserDataSync.ProfilesManifest

section Find

variable {profiles : List ProfileInfo} {id : String} {profile : ProfileInfo}

theorem find_eq_none : find profiles id = none ↔ id ∉ ids profiles := by
  simp [find, ids, List.find?_eq_none]

theorem find_ne_none : find profiles id ≠ none ↔ id ∈ ids profiles := by
  rw [Ne, find_eq_none, not_not]

theorem id_of_find (h : find profiles id = some profile) : profile.id = id := by
  unfold find at h
  simpa using List.find?_some h

theorem mem_of_find (h : find profiles id = some profile) : profile ∈ profiles :=
  List.mem_of_find?_eq_some h

theorem find_of_mem (hnodup : (ids profiles).Nodup) (h : profile ∈ profiles) :
    find profiles profile.id = some profile := by
  induction profiles with
  | nil => cases h
  | cons first profiles ih =>
    obtain ⟨hfirst, hrest⟩ := List.nodup_cons.mp hnodup
    rcases List.mem_cons.mp h with rfl | hmem
    · simp [find]
    · have hne : first.id ≠ profile.id := by
        intro heq
        exact hfirst (heq ▸ List.mem_map_of_mem hmem)
      unfold find
      rw [List.find?_cons_of_neg (by simpa using hne)]
      exact ih hrest hmem

theorem find_filter (keep : String → Bool) :
    find (profiles.filter fun p => keep p.id) id =
      if keep id then find profiles id else none := by
  induction profiles with
  | nil => simp [find]
  | cons first profiles ih =>
    unfold find at ih ⊢
    by_cases hid : first.id = id
    · by_cases hkeep : keep id = true
      · subst hid
        simp [hkeep]
      · have hkeep' : keep first.id = false := by
          rw [hid]
          simpa using hkeep
        rw [List.filter_cons_of_neg (by simp [hkeep']), ih, if_neg hkeep, if_neg hkeep]
    · by_cases hkeep : keep first.id = true
      · rw [List.filter_cons, if_pos hkeep, List.find?_cons_of_neg (by simpa using hid), ih,
          List.find?_cons_of_neg (by simpa using hid)]
      · rw [List.filter_cons, if_neg hkeep, ih, List.find?_cons_of_neg (by simpa using hid)]

theorem find_append (others : List ProfileInfo) :
    find (profiles ++ others) id = (find profiles id).or (find others id) := by
  unfold find
  exact List.find?_append

theorem mem_ids_filter (keep : String → Bool) :
    id ∈ ids (profiles.filter fun p => keep p.id) ↔ keep id = true ∧ id ∈ ids profiles := by
  rw [← find_ne_none, find_filter]
  split_ifs with hkeep
  · simp [hkeep, find_ne_none]
  · simp [hkeep]

end Find

/-! ## Comparing -/

section Compare

variable {before : Option (List ProfileInfo)} {after : List ProfileInfo} {ignored : List String}
  {id : String}

def valueOf (profiles : Option (List ProfileInfo)) (id : String) : Option ProfileInfo :=
  profiles.bind fun profiles => find profiles id

theorem valueOf_eq (profiles : Option (List ProfileInfo)) (id : String) :
    valueOf profiles id = find (profiles.getD []) id := by
  cases profiles <;> rfl

/-- The keys of a list without the ignored ones. -/
theorem mem_keys (profiles : List ProfileInfo) :
    id ∈ ids (profiles.filter fun p => !ignored.contains p.id) ↔
      id ∉ ignored ∧ find profiles id ≠ none := by
  rw [mem_ids_filter fun id => !ignored.contains id, find_ne_none]
  simp

theorem mem_compare_added : id ∈ (compare before after ignored).added ↔
    id ∉ ignored ∧ valueOf before id = none ∧ find after id ≠ none := by
  simp only [compare, List.mem_filter, Bool.not_eq_true', ← Bool.not_eq_true,
    List.contains_iff_mem, mem_keys, valueOf_eq]
  tauto

theorem mem_compare_removed : id ∈ (compare before after ignored).removed ↔
    id ∉ ignored ∧ valueOf before id ≠ none ∧ find after id = none := by
  simp only [compare, List.mem_filter, Bool.not_eq_true', ← Bool.not_eq_true,
    List.contains_iff_mem, mem_keys, valueOf_eq]
  tauto

theorem mem_compare_updated (hnodup : (ids (before.getD [])).Nodup) :
    id ∈ (compare before after ignored).updated ↔
      id ∉ ignored ∧ ∃ p q, valueOf before id = some p ∧ find after id = some q ∧ p ≠ q := by
  rw [valueOf_eq]
  constructor
  · intro h
    obtain ⟨p, hp, rfl⟩ := List.mem_map.mp h
    obtain ⟨hmem, hupdated⟩ := List.mem_filter.mp hp
    obtain ⟨hmem, hignored⟩ := List.mem_filter.mp hmem
    obtain ⟨hremoved, hdiffers⟩ := (Bool.and_eq_true _ _).mp hupdated
    have hkey : p.id ∉ ignored := by simpa using hignored
    have hfind := find_of_mem hnodup hmem
    have hafter : find after p.id ≠ none := by
      intro hnone
      have hin : p.id ∈ (compare before after ignored).removed :=
        mem_compare_removed.mpr ⟨hkey, by simp [valueOf_eq, hfind], hnone⟩
      simp only [Bool.not_eq_true', ← Bool.not_eq_true, List.contains_iff_mem] at hremoved
      exact hremoved hin
    obtain ⟨q, hq⟩ := Option.ne_none_iff_exists'.mp hafter
    refine ⟨hkey, p, q, hfind, hq, ?_⟩
    rintro rfl
    have hfiltered : find (after.filter fun p => !ignored.contains p.id) p.id = some p := by
      rw [find_filter fun id => !ignored.contains id, if_pos (by simpa using hkey), hq]
    rw [hfiltered] at hdiffers
    simp at hdiffers
  · rintro ⟨hkey, p, q, hp, hq, hne⟩
    have hpid := id_of_find hp
    have hqid := id_of_find hq
    refine List.mem_map.mpr ⟨p, List.mem_filter.mpr ⟨List.mem_filter.mpr ⟨mem_of_find hp, ?_⟩, ?_⟩,
      hpid⟩
    · simpa [hpid] using hkey
    · have hremoved : p.id ∉ (compare before after ignored).removed := by
        rw [mem_compare_removed, hpid, hq]
        simp
      have hfiltered : find (after.filter fun p => !ignored.contains p.id) p.id = some q := by
        rw [hpid, find_filter fun id => !ignored.contains id, if_pos (by simpa using hkey), hq]
      rw [hfiltered]
      have hdiffers : q.name ≠ p.name ∨ q.icon ≠ p.icon ∨ q.useDefaultFlags ≠ p.useDefaultFlags := by
        by_contra hsame
        simp only [not_or, ne_eq, not_not] at hsame
        apply hne
        cases p
        cases q
        simp_all
      simp only [Bool.and_eq_true, Bool.not_eq_true', ← Bool.not_eq_true, List.contains_iff_mem,
        Bool.or_eq_true, decide_eq_true_eq]
      exact ⟨hremoved, by tauto⟩

end Compare

/-! ## Applying -/

section Apply

variable {profiles qs us : List ProfileInfo} {id : String}

theorem find_update (profile : ProfileInfo) : find (update profiles profile) id =
    if profile.id = id then (find profiles id).map fun _ => profile else find profiles id := by
  induction profiles with
  | nil => simp [update, find]
  | cons first profiles ih =>
    unfold update find at ih ⊢
    by_cases hfirst : first.id = id
    · by_cases hprofile : profile.id = id
      · simp [hfirst, hprofile]
      · simp [hfirst, hprofile, Ne.symm hprofile]
    · by_cases hsame : first.id = profile.id
      · have hprofile : profile.id ≠ id := hsame ▸ hfirst
        rw [if_neg hprofile] at ih ⊢
        simp [hsame, hprofile, ih]
      · simp [hfirst, hsame, ih]

theorem find_foldl_remove (removed : List String) : find (removed.foldl remove profiles) id =
    if id ∈ removed then none else find profiles id := by
  induction removed generalizing profiles with
  | nil => simp
  | cons key removed ih =>
    have hremove : find (remove profiles key) id = if id = key then none else find profiles id := by
      have hfilter := @find_filter profiles id fun other => decide (other ≠ key)
      unfold remove
      rw [hfilter]
      by_cases hkey : id = key <;> simp [hkey]
    rw [List.foldl_cons, ih, hremove]
    by_cases hkey : id = key <;> simp [hkey]

/-- The updates of one id are all the same, and change a profile that is there. -/
theorem find_foldl_update (h : ∀ u ∈ us, find qs u.id = some u) :
    find (us.foldl update profiles) id =
      if id ∈ ids us then (find profiles id).bind fun _ => find qs id else find profiles id := by
  induction us generalizing profiles with
  | nil => simp [ids]
  | cons u us ih =>
    have hu := h u List.mem_cons_self
    rw [List.foldl_cons, ih fun v hv => h v (List.mem_cons_of_mem _ hv), find_update]
    by_cases hid : u.id = id
    · subst hid
      cases find profiles u.id <;> simp [ids, hu]
    · simp [ids, hid, Ne.symm hid]

/-- The profiles of the ids in a list, as far as there are any. -/
def pick (qs : List ProfileInfo) (keys : List String) : List ProfileInfo := keys.filterMap (find qs)

theorem mem_ids_pick {keys : List String} :
    id ∈ ids (pick qs keys) ↔ id ∈ keys ∧ find qs id ≠ none := by
  unfold ids pick
  simp only [List.mem_map, List.mem_filterMap]
  constructor
  · rintro ⟨p, ⟨key, hkey, hp⟩, rfl⟩
    have hid := id_of_find hp
    subst hid
    exact ⟨hkey, by simp [hp]⟩
  · rintro ⟨hkey, hne⟩
    obtain ⟨p, hp⟩ := Option.ne_none_iff_exists'.mp hne
    exact ⟨p, ⟨id, hkey, hp⟩, id_of_find hp⟩

theorem find_of_mem_pick {keys : List String} : ∀ u ∈ pick qs keys, find qs u.id = some u := by
  intro u hu
  obtain ⟨key, -, hp⟩ := List.mem_filterMap.mp hu
  rw [id_of_find hp, hp]

theorem find_of_forall (h : ∀ u ∈ us, find qs u.id = some u) :
    find us id = if id ∈ ids us then find qs id else none := by
  cases hfind : find us id with
  | none => rw [if_neg (find_eq_none.mp hfind)]
  | some u =>
    have hid := id_of_find hfind
    rw [if_pos (find_ne_none.mp (by simp [hfind])), ← hid, h u (mem_of_find hfind)]

theorem infos_filterMap (remotes : List SyncProfile) (keys : List String) :
    infos (keys.filterMap (findRemote remotes)) = pick (infos remotes) keys := by
  unfold infos pick
  rw [List.map_filterMap]
  refine congrArg (fun f => keys.filterMap f) (funext fun id => ?_)
  unfold find findRemote
  rw [List.find?_map]
  rfl

end Apply

/-! ## The changes of one id -/

section Loops

variable {locals : List ProfileInfo} {remotes : List SyncProfile}
  {lastSync : Option (List SyncProfile)} {ignored : List String} {id : String}

/-- The loops on the comparisons that `merge` makes. -/
def changes (locals : List ProfileInfo) (remotes : List SyncProfile)
    (lastSync : Option (List SyncProfile)) (ignored : List String) :
    LocalChanges × RemoteChanges :=
  loops locals remotes (compare (some locals) (infos remotes) ignored)
    (compare (lastSync.map infos) locals ignored)
    (compare (lastSync.map infos) (infos remotes) ignored)

theorem mem_local_added :
    id ∈ ids (infos (changes locals remotes lastSync ignored).1.added) ↔
      id ∉ ignored ∧ valueOf (lastSync.map infos) id = none ∧ find locals id = none ∧
        find (infos remotes) id ≠ none := by
  simp only [changes, loops, infos_filterMap, mem_ids_pick, List.mem_filter, mem_compare_added,
    Bool.not_eq_true', ← Bool.not_eq_true, List.contains_iff_mem]
  tauto

theorem mem_local_removed :
    id ∈ ids (changes locals remotes lastSync ignored).1.removed ↔
      id ∉ ignored ∧ valueOf (lastSync.map infos) id ≠ none ∧ find locals id ≠ none ∧
        find (infos remotes) id = none := by
  change id ∈ ids (pick locals (compare _ _ _).removed) ↔ _
  rw [mem_ids_pick, mem_compare_removed]
  tauto

theorem mem_local_updated (hlocals : (ids locals).Nodup)
    (hbase : (ids ((lastSync.map infos).getD [])).Nodup) :
    id ∈ ids (infos (changes locals remotes lastSync ignored).1.updated) ↔
      id ∉ ignored ∧ find (infos remotes) id ≠ none ∧
        ((valueOf (lastSync.map infos) id = none ∧ find locals id ≠ none ∧
          find locals id ≠ find (infos remotes) id) ∨
        (valueOf (lastSync.map infos) id ≠ none ∧
          valueOf (lastSync.map infos) id ≠ find (infos remotes) id)) := by
  have hsplit : ids (infos (changes locals remotes lastSync ignored).1.updated) =
      ids (pick (infos remotes) (((compare (lastSync.map infos) (infos remotes) ignored).added.filter
        fun id => (compare (lastSync.map infos) locals ignored).added.contains id).filter
          fun id => (compare (some locals) (infos remotes) ignored).updated.contains id)) ++
      ids (pick (infos remotes) (compare (lastSync.map infos) (infos remotes) ignored).updated) := by
    rw [← infos_filterMap, ← infos_filterMap]
    simp [changes, loops, ids, infos]
  rw [hsplit, List.mem_append, mem_ids_pick, mem_ids_pick, mem_compare_updated hbase]
  simp only [List.mem_filter, mem_compare_added, List.contains_iff_mem,
    @mem_compare_updated (some locals) _ _ _ hlocals]
  have hlocal : valueOf (some locals) id = find locals id := rfl
  rw [hlocal]
  cases valueOf (lastSync.map infos) id <;> cases find locals id <;>
    cases find (infos remotes) id <;> simp

theorem mem_remote_added :
    id ∈ ids (changes locals remotes lastSync ignored).2.added ↔
      id ∉ ignored ∧ valueOf (lastSync.map infos) id = none ∧ find locals id ≠ none ∧
        find (infos remotes) id = none := by
  change id ∈ ids (pick locals (List.filter _ _)) ↔ _
  rw [mem_ids_pick, List.mem_filter, mem_compare_added]
  simp only [Bool.not_eq_true', ← Bool.not_eq_true, List.contains_iff_mem, mem_compare_added]
  tauto

theorem mem_remote_removed :
    id ∈ ids (infos (changes locals remotes lastSync ignored).2.removed) ↔
      id ∉ ignored ∧ valueOf (lastSync.map infos) id ≠ none ∧ find locals id = none ∧
        find (infos remotes) id ≠ none := by
  simp only [changes, loops, infos_filterMap, mem_ids_pick, mem_compare_removed]
  tauto

theorem mem_remote_updated (hbase : (ids ((lastSync.map infos).getD [])).Nodup) :
    id ∈ ids (changes locals remotes lastSync ignored).2.updated ↔
      id ∉ ignored ∧ valueOf (lastSync.map infos) id ≠ none ∧ find locals id ≠ none ∧
        valueOf (lastSync.map infos) id ≠ find locals id ∧
        find (infos remotes) id = valueOf (lastSync.map infos) id := by
  change id ∈ ids (pick locals (List.filter _ _)) ↔ _
  rw [mem_ids_pick, List.mem_filter, mem_compare_updated hbase]
  simp only [Bool.not_eq_true', ← Bool.not_eq_true, List.contains_iff_mem, mem_compare_removed,
    mem_compare_updated hbase, Bool.and_eq_true]
  cases valueOf (lastSync.map infos) id <;> cases find locals id <;>
    cases find (infos remotes) id <;> simp <;> tauto

theorem find_local_apply : find ((changes locals remotes lastSync ignored).1.apply locals) id =
    let kept := if id ∈ ids (changes locals remotes lastSync ignored).1.removed then none
      else find locals id
    let all := kept.or (if id ∈ ids (infos (changes locals remotes lastSync ignored).1.added) then
      find (infos remotes) id else none)
    if id ∈ ids (infos (changes locals remotes lastSync ignored).1.updated) then
      all.bind fun _ => find (infos remotes) id else all := by
  have hadded : ∀ u ∈ infos (changes locals remotes lastSync ignored).1.added,
      find (infos remotes) u.id = some u := by
    intro u hu
    simp only [changes, loops, infos_filterMap] at hu
    exact find_of_mem_pick u hu
  have hupdated : ∀ u ∈ infos (changes locals remotes lastSync ignored).1.updated,
      find (infos remotes) u.id = some u := by
    intro u hu
    simp only [changes, loops, infos, List.map_append, List.mem_append] at hu
    rcases hu with hu | hu <;> exact find_of_mem_pick u (by rwa [← infos_filterMap])
  unfold LocalChanges.apply
  rw [find_foldl_update hupdated, find_append, find_foldl_remove, find_of_forall hadded]

theorem find_remote_apply :
    find ((changes locals remotes lastSync ignored).2.apply (infos remotes)) id =
      let all := (find (infos remotes) id).or
        (if id ∈ ids (changes locals remotes lastSync ignored).2.added then find locals id else none)
      let kept := if id ∈ ids (infos (changes locals remotes lastSync ignored).2.removed) then none
        else all
      if id ∈ ids (changes locals remotes lastSync ignored).2.updated then
        kept.bind fun _ => find locals id else kept := by
  have hadded : ∀ u ∈ (changes locals remotes lastSync ignored).2.added,
      find locals u.id = some u := fun u hu => find_of_mem_pick u hu
  have hupdated : ∀ u ∈ (changes locals remotes lastSync ignored).2.updated,
      find locals u.id = some u := fun u hu => find_of_mem_pick u hu
  unfold RemoteChanges.apply
  rw [find_foldl_update hupdated, find_foldl_remove, find_append, find_of_forall hadded]

/-- Applied, the changes give both sides the same profile for every id. -/
theorem changes_converge (hlocals : (ids locals).Nodup)
    (hbase : (ids ((lastSync.map infos).getD [])).Nodup) (hid : id ∉ ignored) :
    find ((changes locals remotes lastSync ignored).1.apply locals) id =
      find ((changes locals remotes lastSync ignored).2.apply (infos remotes)) id := by
  rw [find_local_apply, find_remote_apply]
  simp only [mem_local_added, mem_local_removed, mem_local_updated hlocals hbase, mem_remote_added,
    mem_remote_removed, mem_remote_updated hbase, hid, not_false_eq_true, true_and]
  cases valueOf (lastSync.map infos) id with
  | none =>
    cases find locals id <;> cases find (infos remotes) id <;> simp
  | some b =>
    cases find locals id with
    | none => cases find (infos remotes) id <;> simp
    | some l =>
      cases find (infos remotes) id with
      | none => simp
      | some r =>
        by_cases hbr : b = r
        · by_cases hbl : b = l
          · simp [← hbr, ← hbl]
          · simp [← hbr, hbl]
        · simp [hbr, Ne.symm hbr]

end Loops

theorem RemoteChanges.getD_orNull (c : RemoteChanges) : c.orNull.getD ⟨[], [], []⟩ = c := by
  unfold orNull
  split_ifs with h
  · obtain ⟨added, removed, updated⟩ := c
    simp only [Bool.and_eq_true, List.isEmpty_iff] at h
    obtain ⟨⟨rfl, rfl⟩, rfl⟩ := h
    rfl
  · rfl

theorem applyRemote_eq (c : Option RemoteChanges) (remotes : List ProfileInfo) :
    applyRemote c remotes = (c.getD ⟨[], [], []⟩).apply remotes := by
  cases c with
  | none => simp [applyRemote, RemoteChanges.apply, ids, infos]
  | some c => rfl

/-! ## The whole merge -/

/-- No side takes over an id that the other one drops. -/
def MergeResult.Consistent (result : MergeResult) (id : String) : Prop :=
  let localChanges := result.localChanges
  let remoteChanges := result.remoteChanges.getD ⟨[], [], []⟩
  ¬ ((id ∈ ids (infos localChanges.added) ∨ id ∈ ids (infos localChanges.updated)) ∧
      id ∈ ids (infos remoteChanges.removed)) ∧
    ¬ (id ∈ ids localChanges.removed ∧
      (id ∈ ids remoteChanges.added ∨ id ∈ ids remoteChanges.updated))

/-- Applied to both sides, the result leaves the same profile of that id on both. -/
def MergeResult.Converges (result : MergeResult) (locals : List ProfileInfo)
    (remote : Option (List SyncProfile)) (id : String) : Prop :=
  find (result.localChanges.apply locals) id =
    find (applyRemote result.remoteChanges (infos (remote.getD []))) id

/-- Since the last sync the profile was removed locally and changed remotely. -/
def RemovedAndChanged (locals : List ProfileInfo) (remote lastSync : Option (List SyncProfile))
    (id : String) : Prop :=
  find locals id = none ∧ ∃ b r, valueOf (lastSync.map infos) id = some b ∧
    valueOf (remote.map infos) id = some r ∧ b ≠ r

section Merge

variable {locals : List ProfileInfo} {lastSync : Option (List SyncProfile)} {ignored : List String}
  {id : String}

/-- Without a remote side it gets the local profiles. -/
theorem merge_none : (merge locals none lastSync ignored).Consistent id ∧
    (id ∉ ignored → (merge locals none lastSync ignored).Converges locals none id) := by
  have hlocal : (merge locals none lastSync ignored).localChanges = ⟨[], [], []⟩ := rfl
  have hremote : (merge locals none lastSync ignored).remoteChanges.getD ⟨[], [], []⟩ =
      ⟨locals.filter fun profile => !ignored.contains profile.id, [], []⟩ := by
    simp only [merge]
    split_ifs with hempty
    · rw [List.isEmpty_iff.mp hempty]
      rfl
    · rfl
  constructor
  · unfold MergeResult.Consistent
    rw [hlocal, hremote]
    simp [infos, ids]
  · intro hid
    unfold MergeResult.Converges
    rw [applyRemote_eq, hlocal, hremote]
    have hfilter := @find_filter locals id fun id => !ignored.contains id
    rw [if_pos (by simpa using hid)] at hfilter
    simp only [LocalChanges.apply, RemoteChanges.apply, infos, ids, List.map_nil, List.foldl_nil,
      List.append_nil, Option.getD_none, List.nil_append]
    exact hfilter.symm

theorem eq_of_compare_empty {remotes : List ProfileInfo} (hlocals : (ids locals).Nodup)
    (h : ((compare (some locals) remotes ignored).added.isEmpty &&
      (compare (some locals) remotes ignored).removed.isEmpty &&
      (compare (some locals) remotes ignored).updated.isEmpty) = true) (hid : id ∉ ignored) :
    find locals id = find remotes id := by
  simp only [Bool.and_eq_true, List.isEmpty_iff, List.eq_nil_iff_forall_not_mem, mem_compare_added,
    mem_compare_removed, @mem_compare_updated (some locals) _ _ _ hlocals] at h
  obtain ⟨⟨hadded, hremoved⟩, hupdated⟩ := h
  have hadded := hadded id
  have hremoved := hremoved id
  have hupdated := hupdated id
  have hvalue : valueOf (some locals) id = find locals id := rfl
  rw [hvalue] at hadded hremoved hupdated
  cases hl : find locals id <;> cases hr : find remotes id <;> simp_all

theorem merge_some {remotes : List SyncProfile} (hlocals : (ids locals).Nodup)
    (hbase : (ids ((lastSync.map infos).getD [])).Nodup) :
    ((merge locals (some remotes) lastSync ignored).Consistent id ↔
      (id ∉ ignored → ¬ RemovedAndChanged locals (some remotes) lastSync id)) ∧
    (id ∉ ignored → (merge locals (some remotes) lastSync ignored).Converges locals (some remotes)
      id) := by
  have hvalue : valueOf ((some remotes).map infos) id = find (infos remotes) id := rfl
  by_cases hempty : ((compare (some locals) (infos remotes) ignored).added.isEmpty &&
      (compare (some locals) (infos remotes) ignored).removed.isEmpty &&
      (compare (some locals) (infos remotes) ignored).updated.isEmpty) = true
  · have hmerge : merge locals (some remotes) lastSync ignored = ⟨⟨[], [], []⟩, none⟩ := by
      simp only [merge, hempty, if_true]
    rw [hmerge]
    refine ⟨⟨fun _ hid => ?_, fun _ => by simp [MergeResult.Consistent, infos, ids]⟩, fun hid => ?_⟩
    · rintro ⟨hnone, -, r, -, hr, -⟩
      rw [eq_of_compare_empty hlocals hempty hid, ← hvalue, hr] at hnone
      cases hnone
    · simpa [MergeResult.Converges, LocalChanges.apply, applyRemote, infos, ids] using
        eq_of_compare_empty hlocals hempty hid
  · have hmerge : merge locals (some remotes) lastSync ignored =
        ⟨(changes locals remotes lastSync ignored).1,
          (changes locals remotes lastSync ignored).2.orNull⟩ := by
      simp only [merge, hempty]
      rfl
    rw [hmerge]
    constructor
    · unfold MergeResult.Consistent RemovedAndChanged
      simp only [RemoteChanges.getD_orNull, mem_local_added, mem_local_removed,
        mem_local_updated hlocals hbase, mem_remote_added, mem_remote_removed,
        mem_remote_updated hbase, hvalue]
      by_cases hid : id ∈ ignored
      · simp [hid]
      · cases valueOf (lastSync.map infos) id <;> cases find locals id <;>
          cases find (infos remotes) id <;> simp [hid]
    · intro hid
      unfold MergeResult.Converges
      rw [applyRemote_eq, RemoteChanges.getD_orNull]
      exact changes_converge hlocals hbase hid

/-- The sides come together in any case, and no side takes over what the other one
drops exactly where nothing was removed locally and changed remotely. -/
theorem merge_consistent_iff {remote : Option (List SyncProfile)} (hlocals : (ids locals).Nodup)
    (hbase : (ids (infos (lastSync.getD []))).Nodup) :
    ((∀ id, (merge locals remote lastSync ignored).Consistent id) ∧
      ∀ id ∉ ignored, (merge locals remote lastSync ignored).Converges locals remote id) ↔
      ∀ id ∉ ignored, ¬ RemovedAndChanged locals remote lastSync id := by
  have hbase' : (ids ((lastSync.map infos).getD [])).Nodup := by
    cases lastSync <;> exact hbase
  cases remote with
  | none =>
    refine ⟨fun _ id _ => ?_, fun _ => ⟨fun id => merge_none.1, fun id hid => merge_none.2 hid⟩⟩
    rintro ⟨-, _, _, -, hr, -⟩
    cases hr
  | some remotes =>
    constructor
    · rintro ⟨hconsistent, -⟩ id hid
      exact (merge_some hlocals hbase').1.mp (hconsistent id) hid
    · intro h
      exact ⟨fun id => (merge_some hlocals hbase').1.mpr (h id),
        fun id hid => (merge_some hlocals hbase').2 hid⟩

end Merge

/-- A profile without an icon or flags. -/
def namedProfile (id name : String) : ProfileInfo := ⟨id, name, none, none⟩

/-- One profile was renamed remotely, one was added locally. -/
theorem merge_consistent_iff_renamed :
    ((∀ id, (merge [namedProfile "1" "a", namedProfile "2" "b"] (some [⟨namedProfile "1" "c", "1"⟩])
        (some [⟨namedProfile "1" "a", "1"⟩]) []).Consistent id) ∧
      ∀ id ∉ ([] : List String), (merge [namedProfile "1" "a", namedProfile "2" "b"]
        (some [⟨namedProfile "1" "c", "1"⟩]) (some [⟨namedProfile "1" "a", "1"⟩]) []).Converges
          [namedProfile "1" "a", namedProfile "2" "b"] (some [⟨namedProfile "1" "c", "1"⟩]) id) ↔
      ∀ id ∉ ([] : List String), ¬ RemovedAndChanged
        [namedProfile "1" "a", namedProfile "2" "b"] (some [⟨namedProfile "1" "c", "1"⟩])
        (some [⟨namedProfile "1" "a", "1"⟩]) id :=
  merge_consistent_iff (by decide) (by decide)

/-- Renamed remotely and removed locally, a profile is to be updated on the local side
and removed on the remote one. -/
theorem merge_not_consistent :
    ¬ (merge [] (some [⟨namedProfile "1" "b", "1"⟩]) (some [⟨namedProfile "1" "a", "1"⟩])
      []).Consistent "1" := by
  intro h
  exact h.1 (by decide)

end NexgileIde.UserDataSync.ProfilesManifest
