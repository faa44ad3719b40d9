import NexgileIde.SearchTree.KeyIterators

/-!
# Coalescing file events

The coalescer keeps a set of events and, by path, the event that later ones are merged
into. Events are objects whose type is changed in place, so both hold references; a
reference is the position of the event in the list of changes. The objects of the map are
always in the set.
-/

namespace NexgileIde.Files

open Text SearchTree

/-- What the platform decides: whether it is Linux, its separator and its lower-casing. -/
structure Platform where
  isLinux : Bool
  sep : CodeUnit
  toLowerCase : Str → Str

inductive FileChangeType
  | UPDATED
  | ADDED
  | DELETED
  deriving DecidableEq, Repr

/-- The resource is known by its `fsPath`. -/
structure IFileChange where
  type : FileChangeType
  fsPath : Str
  deriving DecidableEq, Repr

def startsWithIgnoreCase (toLowerCase : Str → Str) (str candidate : Str) : Bool :=
  candidate.length ≤ str.length &&
    compareSubstringIgnoreCase toLowerCase str candidate 0 candidate.length 0
      candidate.length = 0

def isParent (P : Platform) (path candidate : Str) (ignoreCase : Bool) : Bool :=
  if path = [] ∨ candidate = [] ∨ path = candidate then false
  else if candidate.length > path.length then false
  else
    let candidate := if candidate.getLast? = some P.sep then candidate else candidate ++ [P.sep]
    if ignoreCase then startsWithIgnoreCase P.toLowerCase path candidate
    else candidate.isPrefixOf path

structure EventCoalescer where
  coalesced : List (ℕ × IFileChange)
  mapPathToChange : Str → Option ℕ

namespace EventCoalescer

def empty : EventCoalescer := ⟨[], fun _ => none⟩

/-- normalise to file system case sensitivity -/
def toKey (P : Platform) (event : IFileChange) : Str :=
  if P.isLinux then event.fsPath else P.toLowerCase event.fsPath

/-- `mapPathToChange.get`, with the object behind the reference -/
def existing (P : Platform) (s : EventCoalescer) (event : IFileChange) :
    Option (ℕ × IFileChange) :=
  (s.mapPathToChange (toKey P event)).bind fun ref => s.coalesced.find? (·.1 == ref)

def keep (P : Platform) (s : EventCoalescer) (ref : ℕ) (event : IFileChange) :
    EventCoalescer where
  coalesced := s.coalesced ++ [(ref, event)]
  mapPathToChange := Function.update s.mapPathToChange (toKey P event) (some ref)

def ignore (P : Platform) (s : EventCoalescer) (ref : ℕ) (event : IFileChange) :
    EventCoalescer where
  coalesced := s.coalesced.filter (·.1 != ref)
  mapPathToChange := Function.update s.mapPathToChange (toKey P event) none

def setType (s : EventCoalescer) (ref : ℕ) (type : FileChangeType) : EventCoalescer :=
  { s with
    coalesced := s.coalesced.map fun o => if o.1 = ref then (o.1, ⟨type, o.2.fsPath⟩) else o }

def processEvent (P : Platform) (s : EventCoalescer) (ref : ℕ) (event : IFileChange) :
    EventCoalescer :=
  match s.existing P event with
  | none => s.keep P ref event
  | some (existingRef, existingEvent) =>
    -- macOS/Windows: track renames to different case by keeping both CREATE and DELETE events
    if existingEvent.fsPath ≠ event.fsPath ∧ (event.type = .DELETED ∨ event.type = .ADDED) then
      s.keep P ref event
    -- Ignore CREATE followed by DELETE in one go
    else if existingEvent.type = .ADDED ∧ event.type = .DELETED then
      s.ignore P existingRef event
    -- Flatten DELETE followed by CREATE into CHANGE
    else if existingEvent.type = .DELETED ∧ event.type = .ADDED then
      s.setType existingRef .UPDATED
    -- Do nothing. Keep the created event
    else if existingEvent.type = .ADDED ∧ event.type = .UPDATED then s
    -- Otherwise apply change type
    else s.setType existingRef event.type

/-- The second filter of `coalesce`, with the deleted paths so far. -/
def keepRoots (P : Platform) : List Str → List IFileChange → List IFileChange
  | _, [] => []
  | deletedPaths, e :: events =>
    if deletedPaths.any fun deletedPath => isParent P e.fsPath deletedPath !P.isLinux then
      keepRoots P deletedPaths events
    else e :: keepRoots P (deletedPaths ++ [e.fsPath]) events

/-- shortest path first -/
def shortestFirst (e1 e2 : IFileChange) : Prop := e1.fsPath.length ≤ e2.fsPath.length

instance : DecidableRel shortestFirst := fun _ _ => Nat.decLe _ _

def coalesce (P : Platform) (s : EventCoalescer) : List IFileChange :=
  let coalesced := s.coalesced.map Prod.snd
  let addOrChangeEvents := coalesced.filter fun e => e.type ≠ .DELETED
  let deleted := coalesced.filter fun e => e.type = .DELETED
  keepRoots P [] (deleted.insertionSort shortestFirst) ++ addOrChangeEvents

/-- The coalescer after a list of changes, each an object of its own. -/
def process (P : Platform) (changes : List IFileChange) : EventCoalescer :=
  changes.zipIdx.foldl (fun s e => s.processEvent P e.2 e.1) empty

end EventCoalescer

def coalesceEvents (P : Platform) (changes : List IFileChange) : List IFileChange :=
  (EventCoalescer.process P changes).coalesce P

end NexgileIde.Files

/-!
## The net effect of coalesced events

A file system is the set of paths that are present. Each path has one net change, which
every event of the path is merged into; the deleted paths that are reported are those
without a deleted folder around them.
-/

namespace NexgileIde.Files

open Text SearchTree EventCoalescer

variable {P : Platform}

/-- A path lies in a folder. -/
abbrev Platform.Inside (P : Platform) (path folder : Str) : Prop :=
  isParent P path folder (!P.isLinux) = true

section FileSystem

/-- Deleting a folder deletes what is inside. -/
def change (P : Platform) (fs : Set Str) (e : IFileChange) : Set Str :=
  match e.type with
  | .ADDED => insert e.fsPath fs
  | .UPDATED => fs
  | .DELETED => {path ∈ fs | path ≠ e.fsPath ∧ ¬ P.Inside path e.fsPath}

def after (P : Platform) (before : Set Str) (events : List IFileChange) : Set Str :=
  events.foldl (change P) before

/-- What is added was absent, what is updated or deleted was present. -/
def CanHappen (fs : Set Str) (e : IFileChange) : Prop :=
  e.type = .ADDED ↔ e.fsPath ∉ fs

/-- The events are possible from the initial file system. -/
def Possible (P : Platform) (before : Set Str) (events : List IFileChange) : Prop :=
  ∀ xs e ys, events = xs ++ e :: ys → CanHappen (after P before xs) e

def HasEvent (events : List IFileChange) (path : Str) : Prop := ∃ e ∈ events, e.fsPath = path

/-- A reported deleted folder covers the path. -/
def Covered (P : Platform) (reported : List IFileChange) (path : Str) : Prop :=
  ∃ r ∈ reported, r.type = .DELETED ∧ P.Inside path r.fsPath

open Classical in
/-- The change of a path from a file system to a later one. -/
noncomputable def netChange (before now : Set Str) (events : List IFileChange) (path : Str) :
    Option FileChangeType :=
  if path ∈ before then
    if path ∈ now then if HasEvent events path then some .UPDATED else none
    else some .DELETED
  else if path ∈ now then some .ADDED else none

open Classical in
/-- What should be reported of a path. -/
noncomputable def netEvents (P : Platform) (before : Set Str)
    (events reported : List IFileChange) (path : Str) : List FileChangeType :=
  match netChange before (after P before events) events path with
  | some .DELETED => if Covered P reported path then [] else [.DELETED]
  | change => change.toList

/-- The types of the events that are reported for a path. -/
def reportedFor (reported : List IFileChange) (path : Str) : List FileChangeType :=
  (reported.filter fun e => e.fsPath = path).map IFileChange.type

/-- Every path has the events of its net change. -/
def KeepsNetEffect (P : Platform) (before : Set Str) (events : List IFileChange) : Prop :=
  ∀ path, reportedFor (coalesceEvents P events) path =
    netEvents P before events (coalesceEvents P events) path

end FileSystem

section Conditions

def EventCoalescer.Keeps (s : EventCoalescer) (path : Str) : Prop :=
  ∃ o ∈ s.coalesced, o.2.fsPath = path

/-- An event finds the kept event of its own path under its key. Where it finds that of a
path in another case, its own path has none, and it is no update. -/
def Unmixed (P : Platform) (s : EventCoalescer) (e : IFileChange) : Prop :=
  match s.existing P e with
  | none => ¬ s.Keeps e.fsPath
  | some o => o.2.fsPath = e.fsPath ∨ e.type ≠ .UPDATED ∧ ¬ s.Keeps e.fsPath

/-- What a deleted folder still had inside: it was there from the beginning and had no event,
and neither it nor the folder has one later. -/
structure LeftInside (P : Platform) (before : Set Str) (events xs ys : List IFileChange)
    (folder path : Str) : Prop where
  folder_before : folder ∈ before
  no_event_before : ¬ HasEvent xs path
  no_event_after : ¬ HasEvent ys path
  folder_no_event_after : ¬ HasEvent ys folder
  inside_outer : ∀ e ∈ events, e.type = .DELETED → P.Inside folder e.fsPath →
    P.Inside path e.fsPath

/-- Where coalescing does not lose track of a path. -/
structure Orderly (P : Platform) (before : Set Str) (events : List IFileChange) : Prop where
  unmixed : ∀ xs e ys, events = xs ++ e :: ys → Unmixed P (process P xs) e
  left : ∀ xs e ys, events = xs ++ e :: ys → e.type = .DELETED →
    ∀ path ∈ after P before xs, P.Inside path e.fsPath →
      LeftInside P before events xs ys e.fsPath path
  shorter : ∀ e ∈ events, ∀ f ∈ events, e.type = .DELETED → f.type = .DELETED →
    P.Inside f.fsPath e.fsPath → e.fsPath.length < f.fsPath.length ∨ P.Inside e.fsPath f.fsPath

end Conditions

section Step

/-- How an event changes the net change of its path. -/
def merge : Option FileChangeType → FileChangeType → Option FileChangeType
  | some .ADDED, .DELETED => none
  | some .DELETED, .ADDED => some .UPDATED
  | some .ADDED, .UPDATED => some .ADDED
  | _, type => some type

/-- The type of the event that is kept for a path. -/
def EventCoalescer.net (s : EventCoalescer) (path : Str) : Option FileChangeType :=
  (s.coalesced.find? fun o => o.2.fsPath = path).map fun o => o.2.type

/-- The invariant of the coalescer, when `n` events were processed. -/
structure Valid (P : Platform) (s : EventCoalescer) (n : ℕ) : Prop where
  fresh : ∀ o ∈ s.coalesced, o.1 < n
  refs : (s.coalesced.map Prod.fst).Nodup
  paths : (s.coalesced.map fun o => o.2.fsPath).Nodup
  mapped : ∀ key ref, s.mapPathToChange key = some ref →
    ∃ e, (ref, e) ∈ s.coalesced ∧ toKey P e = key

variable {s : EventCoalescer} {n : ℕ} {e : IFileChange}

theorem mem_of_existing {o : ℕ × IFileChange} (h : s.existing P e = some o) :
    o ∈ s.coalesced := by
  unfold existing at h
  rw [Option.bind_eq_some_iff] at h
  obtain ⟨ref, -, h⟩ := h
  exact List.mem_of_find?_eq_some h

theorem net_eq_none {path : Str} : s.net path = none ↔ ¬ s.Keeps path := by
  simp [net, Keeps]

theorem Valid.net_eq_some (h : Valid P s n) {path : Str} {type : FileChangeType} :
    s.net path = some type ↔ ∃ ref, (ref, ⟨type, path⟩) ∈ s.coalesced := by
  unfold net
  rw [Option.map_eq_some_iff]
  constructor
  · rintro ⟨⟨ref, x⟩, hfind, rfl⟩
    have hpath := List.find?_some hfind
    simp only [decide_eq_true_eq] at hpath
    subst hpath
    exact ⟨ref, List.mem_of_find?_eq_some hfind⟩
  · rintro ⟨ref, hmem⟩
    obtain ⟨o, ho⟩ : ∃ o, s.coalesced.find? (fun o => o.2.fsPath = path) = some o := by
      rw [← Option.isSome_iff_exists, List.find?_isSome]
      exact ⟨_, hmem, by simp⟩
    have hpath := List.find?_some ho
    simp only [decide_eq_true_eq] at hpath
    have heq : o = (ref, ⟨type, path⟩) :=
      List.inj_on_of_nodup_map h.paths (List.mem_of_find?_eq_some ho) hmem hpath
    exact ⟨o, ho, by rw [heq]⟩

theorem keep_net (hkeeps : ¬ s.Keeps e.fsPath) (path : Str) :
    (s.keep P n e).net path = if path = e.fsPath then some e.type else s.net path := by
  unfold net keep
  rw [List.find?_append, List.find?_singleton]
  by_cases hpath : path = e.fsPath
  · subst hpath
    have hnone := net_eq_none.mpr hkeeps
    rw [net, Option.map_eq_none_iff] at hnone
    simp [hnone]
  · simp [hpath, Ne.symm hpath]

theorem keep_valid (h : Valid P s n) (hkeeps : ¬ s.Keeps e.fsPath) :
    Valid P (s.keep P n e) (n + 1) where
  fresh o ho := by
    rcases List.mem_append.mp ho with ho | ho
    · exact Nat.lt_succ_of_lt (h.fresh o ho)
    · cases List.mem_singleton.mp ho
      exact Nat.lt_succ_self n
  refs := by
    simp only [keep, List.map_append, List.map_singleton]
    apply h.refs.append (List.nodup_singleton n)
    rw [List.disjoint_singleton, List.mem_map]
    rintro ⟨o, ho, rfl⟩
    exact lt_irrefl _ (h.fresh o ho)
  paths := by
    simp only [keep, List.map_append, List.map_singleton]
    apply h.paths.append (List.nodup_singleton e.fsPath)
    rw [List.disjoint_singleton, List.mem_map]
    exact hkeeps
  mapped key ref hkey := by
    simp only [keep, Function.update_apply] at hkey ⊢
    split_ifs at hkey with heq
    · cases hkey
      exact ⟨e, by simp, heq.symm⟩
    · obtain ⟨x, hx, hk⟩ := h.mapped key ref hkey
      exact ⟨x, List.mem_append_left _ hx, hk⟩

/-- The new type of one object. -/
def retype (ref : ℕ) (type : FileChangeType) (o : ℕ × IFileChange) : ℕ × IFileChange :=
  if o.1 = ref then (o.1, ⟨type, o.2.fsPath⟩) else o

@[simp] theorem retype_fst (ref : ℕ) (type : FileChangeType) (o : ℕ × IFileChange) :
    (retype ref type o).1 = o.1 := by
  unfold retype
  split_ifs <;> rfl

@[simp] theorem retype_fsPath (ref : ℕ) (type : FileChangeType) (o : ℕ × IFileChange) :
    (retype ref type o).2.fsPath = o.2.fsPath := by
  unfold retype
  split_ifs <;> rfl

theorem setType_coalesced (ref : ℕ) (type : FileChangeType) :
    (s.setType ref type).coalesced = s.coalesced.map (retype ref type) := rfl

theorem setType_valid (h : Valid P s n) (ref : ℕ) (type : FileChangeType) :
    Valid P (s.setType ref type) (n + 1) where
  fresh o ho := by
    rw [setType_coalesced, List.mem_map] at ho
    obtain ⟨o, ho, rfl⟩ := ho
    rw [retype_fst]
    exact Nat.lt_succ_of_lt (h.fresh o ho)
  refs := by
    simpa [setType_coalesced, Function.comp_def] using h.refs
  paths := by
    simpa [setType_coalesced, Function.comp_def] using h.paths
  mapped key ref' hkey := by
    obtain ⟨x, hx, hk⟩ := h.mapped key ref' hkey
    refine ⟨(retype ref type (ref', x)).2, ?_, ?_⟩
    · rw [setType_coalesced, List.mem_map]
      exact ⟨_, hx, Prod.ext (retype_fst ref type _) rfl⟩
    · rw [← hk]
      unfold toKey
      rw [retype_fsPath]

theorem setType_net (h : Valid P s n) {ref : ℕ} {x : IFileChange} (hx : (ref, x) ∈ s.coalesced)
    (type : FileChangeType) (path : Str) :
    (s.setType ref type).net path = if path = x.fsPath then some type else s.net path := by
  have hvalid := setType_valid h ref type
  by_cases hpath : path = x.fsPath
  · subst hpath
    rw [if_pos rfl, hvalid.net_eq_some, setType_coalesced]
    exact ⟨ref, List.mem_map.mpr ⟨_, hx, by simp [retype]⟩⟩
  · rw [if_neg hpath]
    ext type'
    rw [hvalid.net_eq_some, h.net_eq_some, setType_coalesced]
    constructor
    · rintro ⟨ref', hmem⟩
      rw [List.mem_map] at hmem
      obtain ⟨o, ho, heq⟩ := hmem
      unfold retype at heq
      split_ifs at heq with href
      · have : o = (ref, x) := List.inj_on_of_nodup_map h.refs ho hx href
        cases heq
        rw [this] at hpath
        exact absurd rfl hpath
      · exact ⟨ref', heq ▸ ho⟩
    · rintro ⟨ref', hmem⟩
      refine ⟨ref', List.mem_map.mpr ⟨_, hmem, ?_⟩⟩
      unfold retype
      rw [if_neg]
      intro href
      have := List.inj_on_of_nodup_map h.refs hmem hx href
      cases this
      exact hpath rfl

theorem mem_ignore {ref : ℕ} {o : ℕ × IFileChange} :
    o ∈ (s.ignore P ref e).coalesced ↔ o ∈ s.coalesced ∧ o.1 ≠ ref := by
  simp [ignore]

theorem ignore_valid (h : Valid P s n) {ref : ℕ} {x : IFileChange} (hx : (ref, x) ∈ s.coalesced)
    (hkey : toKey P x = toKey P e) : Valid P (s.ignore P ref e) (n + 1) where
  fresh o ho := Nat.lt_succ_of_lt (h.fresh o (mem_ignore.mp ho).1)
  refs := h.refs.sublist (List.filter_sublist.map _)
  paths := h.paths.sublist (List.filter_sublist.map _)
  mapped key ref' hmap := by
    simp only [ignore, Function.update_apply] at hmap
    split_ifs at hmap with heq
    obtain ⟨x', hx', hk⟩ := h.mapped key ref' hmap
    refine ⟨x', mem_ignore.mpr ⟨hx', ?_⟩, hk⟩
    rintro rfl
    have := List.inj_on_of_nodup_map h.refs hx' hx rfl
    cases this
    exact heq (hk.symm.trans hkey)

theorem ignore_net (h : Valid P s n) {ref : ℕ} {x : IFileChange} (hx : (ref, x) ∈ s.coalesced)
    (hkey : toKey P x = toKey P e) (path : Str) :
    (s.ignore P ref e).net path = if path = x.fsPath then none else s.net path := by
  have hvalid := ignore_valid h hx hkey
  ext type
  rw [hvalid.net_eq_some]
  simp only [mem_ignore]
  constructor
  · rintro ⟨ref', hmem, hne⟩
    rw [if_neg]
    · exact h.net_eq_some.mpr ⟨ref', hmem⟩
    · intro hpath
      have := List.inj_on_of_nodup_map h.paths hmem hx hpath
      cases this
      exact hne rfl
  · intro hnet
    split_ifs at hnet with hpath
    obtain ⟨ref', hmem⟩ := h.net_eq_some.mp hnet
    refine ⟨ref', hmem, ?_⟩
    rintro rfl
    have := List.inj_on_of_nodup_map h.refs hmem hx rfl
    cases this
    exact hpath rfl

/-- One event is merged into the net change of its path, and no other path is changed. -/
theorem processEvent_net (h : Valid P s n) (hunmixed : Unmixed P s e) :
    Valid P (s.processEvent P n e) (n + 1) ∧
      ∀ path, (s.processEvent P n e).net path =
        if path = e.fsPath then merge (s.net path) e.type else s.net path := by
  have hkept : ∀ path, ¬ s.Keeps e.fsPath → (s.keep P n e).net path =
      if path = e.fsPath then merge (s.net path) e.type else s.net path := by
    intro path hkeeps
    rw [keep_net hkeeps]
    split_ifs with hpath
    · subst hpath
      rw [net_eq_none.mpr hkeeps]
      rfl
    · rfl
  unfold Unmixed at hunmixed
  unfold processEvent
  cases hexisting : s.existing P e with
  | none =>
    rw [hexisting] at hunmixed
    exact ⟨keep_valid h hunmixed, fun path => hkept path hunmixed⟩
  | some o =>
    obtain ⟨ref, x⟩ := o
    have hx := mem_of_existing hexisting
    rw [hexisting] at hunmixed
    dsimp only at hunmixed ⊢
    by_cases hpath : x.fsPath = e.fsPath
    · have hkey : toKey P x = toKey P e := by
        unfold toKey
        rw [hpath]
      have hnet : s.net e.fsPath = some x.type := by
        rw [← hpath]
        exact h.net_eq_some.mpr ⟨ref, hx⟩
      have hset : ∀ type, (∀ path, (s.setType ref type).net path =
          if path = e.fsPath then some type else s.net path) := by
        intro type path
        rw [setType_net h hx, hpath]
      rw [if_neg (fun hne => hne.1 hpath)]
      split_ifs with h1 h2 h3
      · refine ⟨ignore_valid h hx hkey, fun path => ?_⟩
        rw [ignore_net h hx hkey, hpath]
        split_ifs with heq
        · rw [heq, hnet, h1.1, h1.2]
          rfl
        · rfl
      · refine ⟨setType_valid h ref _, fun path => ?_⟩
        rw [hset]
        split_ifs with heq
        · rw [heq, hnet, h2.1, h2.2]
          rfl
        · rfl
      · refine ⟨⟨fun o ho => Nat.lt_succ_of_lt (h.fresh o ho), h.refs, h.paths, h.mapped⟩,
          fun path => ?_⟩
        split_ifs with heq
        · rw [heq, hnet, h3.1, h3.2]
          rfl
        · rfl
      · refine ⟨setType_valid h ref _, fun path => ?_⟩
        rw [hset]
        split_ifs with heq
        · rw [heq, hnet]
          cases hx : x.type <;> cases he : e.type <;> simp_all [merge]
        · rfl
    · obtain ⟨htype, hkeeps⟩ := hunmixed.resolve_left hpath
      have hedge : e.type = .DELETED ∨ e.type = .ADDED := by
        cases he : e.type <;> simp_all
      rw [if_pos ⟨hpath, hedge⟩]
      exact ⟨keep_valid h hkeeps, fun path => hkept path hkeeps⟩

end Step

section Run

variable {before : Set Str} {events xs ys : List IFileChange} {e : IFileChange} {path : Str}

theorem process_append_singleton (xs : List IFileChange) (e : IFileChange) :
    process P (xs ++ [e]) = (process P xs).processEvent P xs.length e := by
  simp [process, List.zipIdx_append, List.foldl_append]

theorem after_append_singleton (xs : List IFileChange) (e : IFileChange) :
    after P before (xs ++ [e]) = change P (after P before xs) e := by
  simp [after, List.foldl_append]

theorem hasEvent_append_singleton :
    HasEvent (xs ++ [e]) path ↔ HasEvent xs path ∨ e.fsPath = path := by
  simp [HasEvent, or_and_right, exists_or]

/-- Only an event of its own makes a path present. -/
theorem mem_before_of_mem_after (hmem : path ∈ after P before xs) (hno : ¬ HasEvent xs path) :
    path ∈ before := by
  induction xs using List.reverseRecOn with
  | nil => exact hmem
  | append_singleton xs e ih =>
    rw [hasEvent_append_singleton, not_or] at hno
    rw [after_append_singleton] at hmem
    apply ih _ hno.1
    unfold change at hmem
    split at hmem
    · exact hmem.resolve_left (Ne.symm hno.2)
    · exact hmem
    · exact hmem.1

/-- The path went with a folder that was deleted. -/
def WentWith (P : Platform) (before : Set Str) (xs : List IFileChange) (folder path : Str) : Prop :=
  ∃ xs1 xs2, xs = xs1 ++ ⟨.DELETED, folder⟩ :: xs2 ∧ path ∈ after P before xs1 ∧
    P.Inside path folder

/-- What a prefix of the events leaves of a path: its net change, or nothing where it went
with a folder whose net change is deletion. -/
inductive Tracked (P : Platform) (before : Set Str) (xs : List IFileChange) (path : Str) : Prop
  | own (hnet : (process P xs).net path = netChange before (after P before xs) xs path)
  | inside (folder : Str) (hwent : WentWith P before xs folder path)
      (hno : ¬ HasEvent xs path) (hbefore : path ∈ before) (hafter : path ∉ after P before xs)
      (hnone : (process P xs).net path = none)
      (hfolder : (process P xs).net folder = some .DELETED)

theorem netChange_congr {before now now' : Set Str} {xs xs' : List IFileChange}
    (hnow : path ∈ now' ↔ path ∈ now) (hevent : HasEvent xs' path ↔ HasEvent xs path) :
    netChange before now' xs' path = netChange before now xs path := by
  by_cases hmem : path ∈ now <;> by_cases hold : HasEvent xs path <;>
    simp [netChange, hnow, hevent, hmem, hold]

/-- The net change of the path of an event. -/
theorem netChange_merge (hcan : CanHappen (after P before xs) e) :
    netChange before (change P (after P before xs) e) (xs ++ [e]) e.fsPath =
      merge (netChange before (after P before xs) xs e.fsPath) e.type := by
  have hevent : HasEvent (xs ++ [e]) e.fsPath := hasEvent_append_singleton.mpr (.inr rfl)
  unfold CanHappen at hcan
  unfold netChange change
  cases htype : e.type with
  | ADDED =>
    have habsent : e.fsPath ∉ after P before xs := hcan.mp htype
    by_cases hbefore : e.fsPath ∈ before <;> simp [hbefore, habsent, hevent, merge]
  | UPDATED =>
    have hpresent : e.fsPath ∈ after P before xs := by
      by_contra habsent
      cases htype.symm.trans (hcan.mpr habsent)
    by_cases hbefore : e.fsPath ∈ before <;> by_cases hold : HasEvent xs e.fsPath <;>
      simp [hbefore, hpresent, hevent, hold, merge]
  | DELETED =>
    have hpresent : e.fsPath ∈ after P before xs := by
      by_contra habsent
      cases htype.symm.trans (hcan.mpr habsent)
    by_cases hbefore : e.fsPath ∈ before <;> by_cases hold : HasEvent xs e.fsPath <;>
      simp [hbefore, hpresent, hold, merge]

theorem process_step (hvalid : Valid P (process P xs) xs.length)
    (hunmixed : Unmixed P (process P xs) e) :
    Valid P (process P (xs ++ [e])) (xs ++ [e]).length ∧
      ∀ path, (process P (xs ++ [e])).net path =
        if path = e.fsPath then merge ((process P xs).net path) e.type
        else (process P xs).net path := by
  rw [process_append_singleton, List.length_append, List.length_singleton]
  exact processEvent_net hvalid hunmixed

theorem WentWith.append {folder : Str} (h : WentWith P before xs folder path)
    (e : IFileChange) : WentWith P before (xs ++ [e]) folder path := by
  obtain ⟨xs1, xs2, rfl, hmem, hinside⟩ := h
  exact ⟨xs1, xs2 ++ [e], by simp, hmem, hinside⟩

theorem Tracked.step (hpossible : Possible P before events) (horderly : Orderly P before events)
    (hvalid : Valid P (process P xs) xs.length) (heq : events = xs ++ e :: ys)
    (h : ∀ path, Tracked P before xs path) (path : Str) :
    Tracked P before (xs ++ [e]) path := by
  have hcan := hpossible xs e ys heq
  obtain ⟨-, hnet⟩ := process_step hvalid (horderly.unmixed xs e ys heq)
  cases h path with
  | inside folder hwent hno hbefore hafter hnone hfolder =>
    obtain ⟨xs1, xs2, rfl, hmem, hinside⟩ := id hwent
    have hleft := horderly.left xs1 ⟨.DELETED, folder⟩ (xs2 ++ e :: ys) (by simp [heq]) rfl path
      hmem hinside
    have hne : e.fsPath ≠ path := fun hpath => hleft.no_event_after ⟨e, by simp, hpath⟩
    have hne' : e.fsPath ≠ folder := fun hpath => hleft.folder_no_event_after ⟨e, by simp, hpath⟩
    apply Tracked.inside folder (hwent.append e)
    · rw [hasEvent_append_singleton, not_or]
      exact ⟨hno, hne⟩
    · exact hbefore
    · rw [after_append_singleton]
      unfold change
      split
      · simpa [hne.symm] using hafter
      · exact hafter
      · exact fun hmem => hafter hmem.1
    · rw [hnet, if_neg hne.symm, hnone]
    · rw [hnet, if_neg hne'.symm, hfolder]
  | own hown =>
    by_cases hpath : path = e.fsPath
    · subst hpath
      apply Tracked.own
      rw [hnet, if_pos rfl, hown, after_append_singleton, netChange_merge hcan]
    · have hevent : HasEvent (xs ++ [e]) path ↔ HasEvent xs path := by
        rw [hasEvent_append_singleton]
        simp [Ne.symm hpath]
      by_cases hwent : e.type = .DELETED ∧ path ∈ after P before xs ∧ P.Inside path e.fsPath
      · obtain ⟨htype, hmem, hinside⟩ := hwent
        have hleft := horderly.left xs e ys heq htype path hmem hinside
        have hbefore := mem_before_of_mem_after hmem hleft.no_event_before
        have hpresent : e.fsPath ∈ after P before xs := by
          by_contra habsent
          cases htype.symm.trans (hcan.mpr habsent)
        have hfolder : (process P xs).net e.fsPath =
            netChange before (after P before xs) xs e.fsPath := by
          cases h e.fsPath with
          | own hown => exact hown
          | inside _ _ _ _ hafter => exact absurd hpresent hafter
        apply Tracked.inside e.fsPath
        · exact ⟨xs, [], by rw [← htype], hmem, hinside⟩
        · rw [hevent]
          exact hleft.no_event_before
        · exact hbefore
        · rw [after_append_singleton]
          unfold change
          rw [htype]
          exact fun hmem => hmem.2.2 hinside
        · rw [hnet, if_neg hpath, hown]
          simp [netChange, hbefore, hmem, hleft.no_event_before]
        · rw [hnet, if_pos rfl, hfolder, htype]
          by_cases hold : HasEvent xs e.fsPath <;>
            simp [netChange, hleft.folder_before, hpresent, hold, merge]
      · apply Tracked.own
        rw [hnet, if_neg hpath, hown, after_append_singleton]
        apply (netChange_congr _ hevent).symm
        unfold change
        split
        · simp [hpath]
        · rfl
        · next htype =>
          constructor
          · exact fun hmem => hmem.1
          · exact fun hmem => ⟨hmem, hpath, fun hinside => hwent ⟨htype, hmem, hinside⟩⟩

theorem merge_eq_deleted {change : Option FileChangeType} {type : FileChangeType}
    (h : merge change type = some .DELETED) : type = .DELETED := by
  unfold merge at h
  split at h <;> simp_all

/-- The invariant of a run. -/
structure Mirrors (P : Platform) (before : Set Str) (xs : List IFileChange) : Prop where
  valid : Valid P (process P xs) xs.length
  tracked : ∀ path, Tracked P before xs path
  deleted : ∀ path, (process P xs).net path = some .DELETED → ⟨.DELETED, path⟩ ∈ xs

theorem process_mirrors (hpossible : Possible P before events)
    (horderly : Orderly P before events) (ys : List IFileChange) (heq : events = xs ++ ys) :
    Mirrors P before xs := by
  induction xs using List.reverseRecOn generalizing ys with
  | nil =>
    refine ⟨⟨nofun, List.nodup_nil, List.nodup_nil, nofun⟩, fun path => .own ?_, nofun⟩
    have hno : ¬ HasEvent [] path := nofun
    by_cases hbefore : path ∈ before <;> simp [netChange, after, hbefore, hno, process, net, empty]
  | append_singleton xs e ih =>
    have heq' : events = xs ++ e :: ys := by simp [heq]
    obtain ⟨hvalid, htracked, hdeleted⟩ := ih (e :: ys) heq'
    obtain ⟨hvalid', hnet⟩ := process_step hvalid (horderly.unmixed xs e ys heq')
    refine ⟨hvalid', Tracked.step hpossible horderly hvalid heq' htracked, ?_⟩
    intro path hpath
    rw [hnet] at hpath
    rw [List.mem_append]
    split_ifs at hpath with heq
    · subst heq
      exact .inr (by rw [← merge_eq_deleted hpath]; exact List.mem_singleton_self e)
    · exact .inl (hdeleted path hpath)

end Run

section Report

variable {before : Set Str} {events : List IFileChange} {path : Str}

theorem isParent_length {path candidate : Str} {ignoreCase : Bool}
    (h : isParent P path candidate ignoreCase = true) :
    path ≠ candidate ∧ candidate.length ≤ path.length := by
  unfold isParent at h
  split_ifs at h with h1 h2 <;> exact ⟨by tauto, by omega⟩

theorem keepRoots_sublist (deletedPaths : List Str) (es : List IFileChange) :
    (keepRoots P deletedPaths es).Sublist es := by
  induction es generalizing deletedPaths with
  | nil => exact .slnil
  | cons e es ih =>
    unfold keepRoots
    split_ifs
    · exact (ih _).cons e
    · exact (ih _).cons_cons e

/-- What is not reported lies in a folder that is. -/
theorem inside_of_not_mem_keepRoots {deletedPaths : List Str} {es : List IFileChange}
    {e : IFileChange} (hmem : e ∈ es) (hnot : e ∉ keepRoots P deletedPaths es) :
    (∃ d ∈ deletedPaths, P.Inside e.fsPath d) ∨
      ∃ r ∈ keepRoots P deletedPaths es, P.Inside e.fsPath r.fsPath := by
  induction es generalizing deletedPaths with
  | nil => cases hmem
  | cons x es ih =>
    unfold keepRoots at hnot ⊢
    split_ifs at hnot ⊢ with hany
    · rcases List.mem_cons.mp hmem with rfl | hmem
      · exact .inl (List.any_eq_true.mp hany)
      · exact ih hmem hnot
    · rw [List.mem_cons, not_or] at hnot
      rcases ih ((List.mem_cons.mp hmem).resolve_left hnot.1) hnot.2 with
        ⟨d, hd, hinside⟩ | ⟨r, hr, hinside⟩
      · rcases List.mem_append.mp hd with hd | hd
        · exact .inl ⟨d, hd, hinside⟩
        · cases List.mem_singleton.mp hd
          exact .inr ⟨x, List.mem_cons_self, hinside⟩
      · exact .inr ⟨r, List.mem_cons_of_mem x hr, hinside⟩

theorem not_inside_of_mem_keepRoots (deletedPaths : List Str) (es : List IFileChange) :
    (∀ e ∈ keepRoots P deletedPaths es, ∀ d ∈ deletedPaths, ¬ P.Inside e.fsPath d) ∧
      (keepRoots P deletedPaths es).Pairwise fun a b => ¬ P.Inside b.fsPath a.fsPath := by
  induction es generalizing deletedPaths with
  | nil => exact ⟨nofun, .nil⟩
  | cons x es ih =>
    unfold keepRoots
    split_ifs with hany
    · exact ih deletedPaths
    · obtain ⟨hold, hpairs⟩ := ih (deletedPaths ++ [x.fsPath])
      constructor
      · intro e he d hd
        rcases List.mem_cons.mp he with rfl | he
        · intro hinside
          exact hany (List.any_eq_true.mpr ⟨d, hd, hinside⟩)
        · exact hold e he d (List.mem_append_left _ hd)
      · rw [List.pairwise_cons]
        exact ⟨fun e he => hold e he _ (by simp), hpairs⟩

/-- The deleted events that are reported are those that no reported one lies around. -/
theorem mem_keepRoots {es : List IFileChange} (hsorted : es.Pairwise shortestFirst)
    (hshorter : ∀ e ∈ es, ∀ f ∈ es, P.Inside f.fsPath e.fsPath →
      e.fsPath.length < f.fsPath.length ∨ P.Inside e.fsPath f.fsPath) {e : IFileChange} :
    e ∈ keepRoots P [] es ↔
      e ∈ es ∧ ∀ r ∈ keepRoots P [] es, ¬ P.Inside e.fsPath r.fsPath := by
  have hsub := keepRoots_sublist (P := P) [] es
  constructor
  · intro he
    refine ⟨hsub.mem he, fun r hr => ?_⟩
    have hlater := (not_inside_of_mem_keepRoots (P := P) [] es).2
    have hearlier : (keepRoots P [] es).Pairwise fun a b => ¬ P.Inside a.fsPath b.fsPath := by
      apply (hlater.and (hsorted.sublist hsub)).imp_of_mem
      intro a b ha hb ⟨hinside, hle⟩ hab
      rcases hshorter b (hsub.mem hb) a (hsub.mem ha) hab with hlt | hba
      · exact absurd hle (not_le.mpr hlt)
      · exact hinside hba
    exact hearlier.forall_of_forall_of_flip (fun a _ h => (isParent_length h).1 rfl) hlater he hr
  · rintro ⟨he, hno⟩
    by_contra hnot
    rcases inside_of_not_mem_keepRoots he hnot with ⟨d, hd, -⟩ | ⟨r, hr, hinside⟩
    · cases hd
    · exact hno r hr hinside

/-- With one event a path at most, what is reported for a path is that event. -/
theorem reportedFor_eq {es : List IFileChange} (hnodup : (es.map IFileChange.fsPath).Nodup)
    {path : Str} {o : Option FileChangeType} (h : ∀ type, o = some type ↔ ⟨type, path⟩ ∈ es) :
    reportedFor es path = o.toList := by
  induction es generalizing o with
  | nil =>
    have hnone : o = none := Option.eq_none_iff_forall_ne_some.mpr fun type heq =>
      nomatch (h type).mp heq
    rw [hnone]
    rfl
  | cons e es ih =>
    rw [List.map_cons, List.nodup_cons] at hnodup
    unfold reportedFor at ih ⊢
    by_cases hpath : e.fsPath = path
    · subst hpath
      have hchange : o = some e.type := (h e.type).mpr List.mem_cons_self
      have hnone : (none : Option FileChangeType).toList = _ := (ih hnodup.2 (by
        intro type
        constructor
        · nofun
        · intro hmem
          exact absurd (List.mem_map_of_mem hmem) hnodup.1)).symm
      rw [List.filter_cons_of_pos (by simp), List.map_cons, ← hnone, hchange]
      rfl
    · rw [List.filter_cons_of_neg (by simpa using hpath)]
      apply ih hnodup.2
      intro type
      rw [h, List.mem_cons, or_iff_right]
      rintro rfl
      exact hpath rfl

section Coalesce

variable {s : EventCoalescer} {n : ℕ}

/-- The deleted events, shortest path first. -/
def deletedEvents (s : EventCoalescer) : List IFileChange :=
  ((s.coalesced.map Prod.snd).filter fun e => e.type = .DELETED).insertionSort shortestFirst

def addOrChangeEvents (s : EventCoalescer) : List IFileChange :=
  (s.coalesced.map Prod.snd).filter fun e => e.type ≠ .DELETED

theorem coalesce_eq : s.coalesce P = keepRoots P [] (deletedEvents s) ++ addOrChangeEvents s :=
  rfl

theorem mem_deletedEvents {e : IFileChange} :
    e ∈ deletedEvents s ↔ (∃ ref, (ref, e) ∈ s.coalesced) ∧ e.type = .DELETED := by
  simp [deletedEvents]

theorem mem_addOrChangeEvents {e : IFileChange} :
    e ∈ addOrChangeEvents s ↔ (∃ ref, (ref, e) ∈ s.coalesced) ∧ e.type ≠ .DELETED := by
  simp [addOrChangeEvents]

theorem coalesce_nodup (h : Valid P s n) : ((s.coalesce P).map IFileChange.fsPath).Nodup := by
  have hpaths : ((s.coalesced.map Prod.snd).map IFileChange.fsPath).Nodup := by
    rw [List.map_map]
    exact h.paths
  have hperm : (deletedEvents s ++ addOrChangeEvents s).Perm (s.coalesced.map Prod.snd) := by
    apply ((List.perm_insertionSort _ _).append_right _).trans
    simpa [addOrChangeEvents] using
      List.filter_append_perm (fun e : IFileChange => e.type = .DELETED) (s.coalesced.map Prod.snd)
  have hnodup := (hperm.map IFileChange.fsPath).nodup_iff.mpr hpaths
  exact hnodup.sublist (((keepRoots_sublist [] _).append (.refl _)).map _)

instance : Std.Total shortestFirst := ⟨fun _ _ => Nat.le_total _ _⟩

instance : IsTrans IFileChange shortestFirst := ⟨fun _ _ _ => Nat.le_trans⟩

theorem covered_iff {path : Str} :
    Covered P (s.coalesce P) path ↔
      ∃ r ∈ keepRoots P [] (deletedEvents s), P.Inside path r.fsPath := by
  unfold Covered
  rw [coalesce_eq]
  constructor
  · rintro ⟨r, hr, htype, hinside⟩
    rcases List.mem_append.mp hr with hr | hr
    · exact ⟨r, hr, hinside⟩
    · exact absurd htype (mem_addOrChangeEvents.mp hr).2
  · rintro ⟨r, hr, hinside⟩
    have hdeleted := mem_deletedEvents.mp ((keepRoots_sublist [] _).mem hr)
    exact ⟨r, List.mem_append_left _ hr, hdeleted.2, hinside⟩

/-- What is reported: the kept events, without the deleted ones that are covered. -/
theorem mem_coalesce (hshorter : ∀ e ∈ deletedEvents s, ∀ f ∈ deletedEvents s,
      P.Inside f.fsPath e.fsPath →
        e.fsPath.length < f.fsPath.length ∨ P.Inside e.fsPath f.fsPath) {e : IFileChange} :
    e ∈ s.coalesce P ↔ (∃ ref, (ref, e) ∈ s.coalesced) ∧
      (e.type = .DELETED → ¬ Covered P (s.coalesce P) e.fsPath) := by
  have hsorted : (deletedEvents s).Pairwise shortestFirst :=
    List.pairwise_insertionSort shortestFirst _
  rw [covered_iff, coalesce_eq, List.mem_append, mem_keepRoots hsorted hshorter, mem_deletedEvents,
    mem_addOrChangeEvents]
  push Not
  by_cases htype : e.type = .DELETED <;> simp [htype]

end Coalesce

end Report

section NetEffect

/-- In an orderly run the report is the net effect: one event at most for every path, and
deletions only where no reported deleted folder lies around. -/
theorem coalesceEvents_netEffect (P : Platform) (before : Set Str) (events : List IFileChange)
    (hpossible : Possible P before events) (horderly : Orderly P before events) :
    KeepsNetEffect P before events := by
  obtain ⟨hvalid, htracked, hdeleted⟩ :=
    process_mirrors hpossible horderly [] (List.append_nil events).symm
  have hnodup : ((coalesceEvents P events).map IFileChange.fsPath).Nodup := coalesce_nodup hvalid
  have hevent : ∀ e ∈ deletedEvents (process P events), e ∈ events ∧ e.type = .DELETED := by
    rintro ⟨type, path⟩ he
    obtain ⟨href, rfl⟩ := mem_deletedEvents.mp he
    exact ⟨hdeleted path (hvalid.net_eq_some.mpr href), rfl⟩
  have hmem : ∀ e, e ∈ coalesceEvents P events ↔
      (process P events).net e.fsPath = some e.type ∧
        (e.type = .DELETED → ¬ Covered P (coalesceEvents P events) e.fsPath) := by
    intro e
    rw [hvalid.net_eq_some]
    apply mem_coalesce
    intro e he f hf
    exact horderly.shorter e (hevent e he).1 f (hevent f hf).1 (hevent e he).2 (hevent f hf).2
  intro path
  unfold netEvents
  cases htracked path with
  | own hnet =>
    rw [← hnet]
    cases hchange : (process P events).net path with
    | none =>
      apply reportedFor_eq hnodup
      intro type
      rw [hmem, hchange]
      simp
    | some change =>
      cases change with
      | DELETED =>
        dsimp only
        split_ifs with hcovered
        · apply reportedFor_eq hnodup (o := none)
          intro type
          rw [hmem, hchange]
          constructor
          · nofun
          · rintro ⟨heq, hno⟩
            exact absurd hcovered (hno (Option.some.inj heq).symm)
        · apply reportedFor_eq hnodup (o := some .DELETED)
          intro type
          rw [hmem, hchange]
          exact ⟨fun h => ⟨h, fun _ => hcovered⟩, fun h => h.1⟩
      | UPDATED | ADDED =>
        apply reportedFor_eq hnodup
        intro type
        rw [hmem, hchange]
        refine ⟨fun h => ⟨h, ?_⟩, fun h => h.1⟩
        rintro rfl
        cases h
  | inside folder hwent hno hbefore hafter hnone hfolder =>
    obtain ⟨xs, ys, heq, hpath, hinside⟩ := hwent
    have hleft := horderly.left xs _ ys heq rfl path hpath hinside
    have hcovered : Covered P (coalesceEvents P events) path := by
      by_cases hreported : (⟨.DELETED, folder⟩ : IFileChange) ∈ coalesceEvents P events
      · exact ⟨_, hreported, rfl, hinside⟩
      · rw [hmem] at hreported
        simp only [hfolder, true_and, forall_const, not_not] at hreported
        obtain ⟨r, hr, htype, houter⟩ := hreported
        refine ⟨r, hr, htype, hleft.inside_outer r ?_ htype houter⟩
        have hrnet := ((hmem r).mp hr).1
        obtain ⟨type, rpath⟩ := r
        cases htype
        exact hdeleted rpath hrnet
    have hchange : netChange before (after P before events) events path = some .DELETED := by
      simp [netChange, hbefore, hafter]
    rw [hchange]
    dsimp only
    rw [if_pos hcovered]
    apply reportedFor_eq hnodup (o := none)
    intro type
    rw [hmem, hnone]
    simp

/-- Linux, and a platform that ignores case, with paths in ASCII. -/
def linux : Platform := ⟨true, Slash, id⟩

def macOS : Platform :=
  ⟨false, Slash, List.map fun c => if 65 ≤ c && c ≤ 90 then c + 32 else c⟩

/-- `/a`, `/a/b` and `/A` -/
def folder : Str := [47, 97]

def child : Str := [47, 97, 47, 98]

def upperFolder : Str := [47, 65]

theorem coalesceEvents_netEffect_linux :
    KeepsNetEffect linux {folder} [⟨.UPDATED, folder⟩, ⟨.DELETED, folder⟩] := by
  apply coalesceEvents_netEffect
  · intro xs e ys heq
    rcases xs with _ | ⟨x, _ | ⟨y, xs⟩⟩
    · cases heq
      simp [CanHappen, after]
    · cases heq
      simp [CanHappen, after, change]
    · simp at heq
  · constructor
    · intro xs e ys heq
      rcases xs with _ | ⟨x, _ | ⟨y, xs⟩⟩
      · cases heq
        simp [Unmixed, process, existing, empty, EventCoalescer.Keeps]
      · cases heq
        exact .inl rfl
      · simp at heq
    · intro xs e ys heq htype path hmem hinside
      have hpath : path = folder := by
        rcases xs with _ | ⟨x, _ | ⟨y, xs⟩⟩
        · exact hmem
        · cases heq
          exact hmem
        · simp at heq
      have hfolder : e.fsPath = folder := by
        have : e ∈ xs ++ e :: ys := by simp
        rw [← heq] at this
        simp only [List.mem_cons, List.not_mem_nil, or_false] at this
        rcases this with rfl | rfl <;> rfl
      rw [hpath, hfolder] at hinside
      exact absurd rfl (isParent_length hinside).1
    · intro e he f hf _ _ hinside
      simp only [List.mem_cons, List.not_mem_nil, or_false] at he hf
      rcases he with rfl | rfl <;> rcases hf with rfl | rfl <;>
        exact absurd rfl (isParent_length hinside).1

/-- On Linux what was added inside a folder is still reported after the folder was deleted;
where case is ignored a path is reported twice after it was renamed to another case and back. -/
theorem coalesceEvents_not_netEffect :
    (¬ ∀ before events, Possible linux before events → KeepsNetEffect linux before events) ∧
      ¬ ∀ before events, Possible macOS before events → KeepsNetEffect macOS before events := by
  constructor
  · intro h
    have hpossible : Possible linux {folder} [⟨.ADDED, child⟩, ⟨.DELETED, folder⟩] := by
      intro xs e ys heq
      rcases xs with _ | ⟨x, _ | ⟨y, xs⟩⟩
      · cases heq
        simp [CanHappen, after, folder, child]
      · cases heq
        simp [CanHappen, after, change]
      · simp at heq
    have hkeeps := h _ _ hpossible child
    have hreported : reportedFor (coalesceEvents linux [⟨.ADDED, child⟩, ⟨.DELETED, folder⟩])
        child = [.ADDED] := by decide
    have hinside : linux.Inside child folder := by decide
    have hnone : netChange {folder} (after linux {folder} [⟨.ADDED, child⟩, ⟨.DELETED, folder⟩])
        [⟨.ADDED, child⟩, ⟨.DELETED, folder⟩] child = none := by
      have hbefore : child ∉ ({folder} : Set Str) := by simp [child, folder]
      simp [netChange, hbefore, after, change, hinside]
    rw [hreported, netEvents, hnone] at hkeeps
    cases hkeeps
  · intro h
    have hpossible : Possible macOS {folder} [⟨.DELETED, folder⟩, ⟨.ADDED, upperFolder⟩,
        ⟨.DELETED, upperFolder⟩, ⟨.ADDED, folder⟩] := by
      intro xs e ys heq
      rcases xs with _ | ⟨x, _ | ⟨y, _ | ⟨z, _ | ⟨w, xs⟩⟩⟩⟩
      · cases heq
        simp [CanHappen, after]
      · cases heq
        simp [CanHappen, after, change, folder, upperFolder]
      · cases heq
        simp [CanHappen, after, change]
      · cases heq
        simp [CanHappen, after, change, folder, upperFolder]
      · simp at heq
    have hkeeps := congrArg List.length (h _ _ hpossible folder)
    have hreported : reportedFor (coalesceEvents macOS [⟨.DELETED, folder⟩, ⟨.ADDED, upperFolder⟩,
        ⟨.DELETED, upperFolder⟩, ⟨.ADDED, folder⟩]) folder = [.DELETED, .ADDED] := by decide
    have hone : ∀ change : Option FileChangeType, change.toList.length ≤ 1 := by
      rintro (_ | change) <;> simp
    rw [hreported, netEvents] at hkeeps
    split at hkeeps
    · split_ifs at hkeeps
      cases hkeeps
    · exact absurd (hkeeps.le.trans (hone _)) (by decide)

end NetEffect

end NexgileIde.Files
