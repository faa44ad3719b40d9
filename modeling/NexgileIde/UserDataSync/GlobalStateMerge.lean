import NexgileIde.Library.ThreeWayMerge

/-!
# Merging global state

Storage entries are merged key by key. Keys that are scoped to the machine are not
written locally, and keys that are not registered are not removed remotely.
-/
namespace NexgileIde.UserDataSync

inductive StorageScope
  | applicationShared | application | profile | workspace
  deriving DecidableEq, Repr

structure StorageValue where
  version : ℕ
  value : String
  scope : Option StorageScope
  deriving DecidableEq, Repr

abbrev Storage : Type := AList fun _ : String => StorageValue

structure StorageKeys where
  machine : List String
  unregistered : List String

def SYNC_SERVICE_URL_TYPE : String := "sync.store.url.type"

namespace GlobalState

structure Comparison where
  added : List String
  removed : List String
  updated : List String

def compare (before after : Storage) : Comparison :=
  let removed := before.keys.filter fun key => !after.keys.contains key
  { added := after.keys.filter fun key => !before.keys.contains key
    removed := removed
    updated := before.keys.filter fun key =>
      !removed.contains key && before.lookup key ≠ after.lookup key }

/-- Without a base all keys are added. -/
def compareBase (base : Option Storage) (after : Storage) : Comparison :=
  match base with
  | some base => compare base after
  | none => ⟨after.keys, [], []⟩

def Comparison.isEmpty (c : Comparison) : Bool :=
  c.added.isEmpty && c.removed.isEmpty && c.updated.isEmpty

structure LocalChanges where
  added : Storage
  removed : List String
  updated : Storage

structure RemoteChanges where
  added : List String
  removed : List String
  updated : List String
  all : Option Storage

structure MergeResult where
  localChanges : LocalChanges
  remoteChanges : RemoteChanges

def LocalChanges.empty : LocalChanges := ⟨∅, [], ∅⟩

structure MergeInput where
  localStorage : Storage
  remoteStorage : Storage
  baseStorage : Option Storage
  storageKeys : StorageKeys

namespace MergeInput

variable (input : MergeInput)

def baseToRemote : Comparison := compareBase input.baseStorage input.remoteStorage

def baseToLocal : Comparison := compareBase input.baseStorage input.localStorage

def isFirstTimeSync : Bool := input.baseStorage.isNone

end MergeInput

structure MergeState where
  changes : LocalChanges
  remote : Storage

/-- `target[key] = source[key]`, for a key that the source has. -/
def assign (target source : Storage) (key : String) : Storage :=
  match source.lookup key with
  | none => target
  | some value => target.insert key value

/-- `localValue && localValue.value === remoteValue.value` -/
def sameValue (localValue remoteValue : Option StorageValue) : Bool :=
  match localValue, remoteValue with
  | some l, some r => l.value = r.value
  | _, _ => false

namespace MergeState

variable (input : MergeInput)

def addedInLocal (s : MergeState) (key : String) : MergeState :=
  -- the remote value wins the first sync, except for the sync service
  if key ≠ SYNC_SERVICE_URL_TYPE ∧ input.isFirstTimeSync ∧ key ∈ input.baseToRemote.added then s
  else { s with remote := assign s.remote input.localStorage key }

def updatedInLocal (s : MergeState) (key : String) : MergeState :=
  { s with remote := assign s.remote input.localStorage key }

def removedInLocal (s : MergeState) (key : String) : MergeState :=
  if key ∈ input.storageKeys.unregistered then s
  else { s with remote := s.remote.erase key }

def setUpdated (s : MergeState) (key : String) : MergeState :=
  { s with changes.updated := assign s.changes.updated input.remoteStorage key }

def addedInRemote (s : MergeState) (key : String) : MergeState :=
  if key ∈ input.storageKeys.machine then s
  else if input.baseStorage.isSome ∧ key ∈ input.baseToLocal.added then s
  else if sameValue (input.localStorage.lookup key) (input.remoteStorage.lookup key) then s
  else if key = SYNC_SERVICE_URL_TYPE ∧ input.isFirstTimeSync ∧ key ∈ input.baseToLocal.added then s
  else if (input.localStorage.lookup key).isSome then s.setUpdated input key
  else { s with changes.added := assign s.changes.added input.remoteStorage key }

def updatedInRemote (s : MergeState) (key : String) : MergeState :=
  if key ∈ input.storageKeys.machine then s
  else if key ∈ input.baseToLocal.updated ∨ key ∈ input.baseToLocal.removed then s
  else if sameValue (input.localStorage.lookup key) (input.remoteStorage.lookup key) then s
  else s.setUpdated input key

def removedInRemote (s : MergeState) (key : String) : MergeState :=
  if key ∈ input.storageKeys.machine then s
  else if key ∈ input.baseToLocal.updated ∨ key ∈ input.baseToLocal.removed then s
  else { s with changes.removed := s.changes.removed ++ [key] }

/-- The six loops. -/
def loops : MergeState :=
  let s : MergeState := ⟨.empty, input.remoteStorage⟩
  let s := input.baseToLocal.added.foldl (addedInLocal input) s
  let s := input.baseToLocal.updated.foldl (updatedInLocal input) s
  let s := input.baseToLocal.removed.foldl (removedInLocal input) s
  let s := input.baseToRemote.added.foldl (addedInRemote input) s
  let s := input.baseToRemote.updated.foldl (updatedInRemote input) s
  input.baseToRemote.removed.foldl (removedInRemote input) s

end MergeState

def merge (localStorage : Storage) (remoteStorage baseStorage : Option Storage)
    (storageKeys : StorageKeys) : MergeResult :=
  match remoteStorage with
  | none =>
    ⟨.empty, localStorage.keys, [], [],
      if localStorage.keys.length > 0 then some localStorage else none⟩
  | some remoteStorage =>
    if (compare localStorage remoteStorage).isEmpty then ⟨.empty, [], [], [], none⟩
    else
      let s := MergeState.loops ⟨localStorage, remoteStorage, baseStorage, storageKeys⟩
      let result := compare remoteStorage s.remote
      ⟨s.changes, result.added, result.removed, result.updated,
        if result.isEmpty then none else some s.remote⟩

/-! ## Applying the result -/

/-- `writeLocalGlobalState` -/
def LocalChanges.apply (c : LocalChanges) (storage : Storage) : Storage :=
  c.removed.foldl (fun storage key => storage.erase key) (c.updated ∪ (c.added ∪ storage))

/-- The remote state afterwards, which becomes the last synced one. -/
def MergeResult.remoteAfter (result : MergeResult) (remoteStorage : Option Storage) :
    Option Storage :=
  result.remoteChanges.all.or remoteStorage

def MergeResult.localAfter (result : MergeResult) (localStorage : Storage) : Storage :=
  result.localChanges.apply localStorage

/-- Nothing is to be done on either side. -/
def MergeResult.NoChanges (result : MergeResult) : Prop :=
  result.localChanges = .empty ∧ result.remoteChanges.all = none

end GlobalState

end NexgileIde.UserDataSync

/-!
## Global state on both sides

The loops change one key at a time, so the merge has an outcome for each key, which
depends on its entries in the base, locally and remotely.
-/
namespace NexgileIde.UserDataSync.GlobalState

open Library

/-! ## Comparisons -/

section Compare

variable {base : Option Storage} {after : Storage} {key : String}

def baseValue (base : Option Storage) (key : String) : Option StorageValue :=
  base.bind fun storage => storage.lookup key

theorem mem_added : key ∈ (compareBase base after).added ↔
    baseValue base key = none ∧ after.lookup key ≠ none := by
  cases base <;> simp [compareBase, compare, baseValue, mem_keys_iff_lookup, and_comm]

theorem mem_removed : key ∈ (compareBase base after).removed ↔
    baseValue base key ≠ none ∧ after.lookup key = none := by
  cases base <;> simp [compareBase, compare, baseValue, mem_keys_iff_lookup]

theorem mem_updated : key ∈ (compareBase base after).updated ↔
    baseValue base key ≠ none ∧ after.lookup key ≠ none ∧
      baseValue base key ≠ after.lookup key := by
  cases base with
  | none => simp [compareBase, baseValue]
  | some before =>
    simp only [compareBase, compare, baseValue, Option.bind_some, List.mem_filter, mem_keys_iff_lookup,
      Bool.and_eq_true, Bool.not_eq_true', ← Bool.not_eq_true, List.contains_iff_mem,
      decide_eq_true_eq]
    tauto

theorem compareBase_nodup (base : Option Storage) (after : Storage) :
    (compareBase base after).added.Nodup ∧ (compareBase base after).removed.Nodup ∧
      (compareBase base after).updated.Nodup := by
  cases base with
  | none => exact ⟨after.keys_nodup, List.nodup_nil, List.nodup_nil⟩
  | some before =>
    exact ⟨after.keys_nodup.filter _, before.keys_nodup.filter _, before.keys_nodup.filter _⟩

theorem compare_isEmpty_iff {before : Storage} :
    (compare before after).isEmpty = true ↔ ∀ key, before.lookup key = after.lookup key := by
  have hcompare : compare before after = compareBase (some before) after := rfl
  simp only [hcompare, Comparison.isEmpty, Bool.and_eq_true, List.isEmpty_iff,
    List.eq_nil_iff_forall_not_mem, mem_added, mem_removed, mem_updated]
  have hbase : ∀ key, baseValue (some before) key = before.lookup key := fun _ => rfl
  simp only [hbase]
  constructor
  · rintro ⟨⟨hadded, hremoved⟩, hupdated⟩ key
    by_contra hne
    have hadded := hadded key
    have hremoved := hremoved key
    have hupdated := hupdated key
    by_cases hafter : after.lookup key = none
    · exact hremoved ⟨fun hbefore => hne (hbefore.trans hafter.symm), hafter⟩
    · exact hupdated ⟨fun hbefore => hadded ⟨hbefore, hafter⟩, hafter, hne⟩
  · intro heq
    refine ⟨⟨?_, ?_⟩, ?_⟩
    · rintro key ⟨hbefore, hafter⟩
      exact hafter (heq key ▸ hbefore)
    · rintro key ⟨hbefore, hafter⟩
      exact hbefore (heq key ▸ hafter)
    · rintro key ⟨-, -, hne⟩
      exact hne (heq key)

end Compare

/-! ## The loops, key by key -/

/-- What is recorded of one key. -/
structure KeyState where
  added : Option StorageValue
  updated : Option StorageValue
  removed : Bool
  remote : Option StorageValue

def MergeState.at (s : MergeState) (key : String) : KeyState where
  added := s.changes.added.lookup key
  updated := s.changes.updated.lookup key
  removed := s.changes.removed.contains key
  remote := s.remote.lookup key

theorem lookup_assign_self (target source : Storage) (key : String) :
    (assign target source key).lookup key = (source.lookup key).or (target.lookup key) := by
  unfold assign
  cases source.lookup key with
  | none => rfl
  | some value => simp

theorem lookup_assign_of_ne (target source : Storage) {key other : String} (h : other ≠ key) :
    (assign target source key).lookup other = target.lookup other := by
  unfold assign
  cases source.lookup key with
  | none => rfl
  | some value => simp [h]

namespace KeyState

variable (input : MergeInput) (key : String) (n : KeyState)

def setRemote : KeyState := { n with remote := (input.localStorage.lookup key).or n.remote }

def setUpdated : KeyState := { n with updated := (input.remoteStorage.lookup key).or n.updated }

def addedInLocal : KeyState :=
  if key ≠ SYNC_SERVICE_URL_TYPE ∧ input.isFirstTimeSync ∧ key ∈ input.baseToRemote.added then n
  else n.setRemote input key

def removedInLocal : KeyState :=
  if key ∈ input.storageKeys.unregistered then n else { n with remote := none }

def addedInRemote : KeyState :=
  if key ∈ input.storageKeys.machine then n
  else if input.baseStorage.isSome ∧ key ∈ input.baseToLocal.added then n
  else if sameValue (input.localStorage.lookup key) (input.remoteStorage.lookup key) then n
  else if key = SYNC_SERVICE_URL_TYPE ∧ input.isFirstTimeSync ∧ key ∈ input.baseToLocal.added then n
  else if (input.localStorage.lookup key).isSome then n.setUpdated input key
  else { n with added := (input.remoteStorage.lookup key).or n.added }

def updatedInRemote : KeyState :=
  if key ∈ input.storageKeys.machine then n
  else if key ∈ input.baseToLocal.updated ∨ key ∈ input.baseToLocal.removed then n
  else if sameValue (input.localStorage.lookup key) (input.remoteStorage.lookup key) then n
  else n.setUpdated input key

def removedInRemote : KeyState :=
  if key ∈ input.storageKeys.machine then n
  else if key ∈ input.baseToLocal.updated ∨ key ∈ input.baseToLocal.removed then n
  else { n with removed := true }

end KeyState

/-- A step of a loop changes what is recorded of its own key. -/
structure Pointwise (step : MergeState → String → MergeState)
    (change : String → KeyState → KeyState) : Prop where
  same : ∀ s key, (step s key).at key = change key (s.at key)
  other : ∀ s key other, other ≠ key → (step s key).at other = s.at other

theorem Pointwise.foldl {step : MergeState → String → MergeState}
    {change : String → KeyState → KeyState} (h : Pointwise step change) {keys : List String}
    (hnodup : keys.Nodup) (s : MergeState) (key : String) :
    (keys.foldl step s).at key = if key ∈ keys then change key (s.at key) else s.at key :=
  @foldl_pointwise _ _ _ _ MergeState.at step change h.same h.other keys hnodup s key

section Loops

variable (input : MergeInput)

theorem pointwise_updatedInLocal :
    Pointwise (MergeState.updatedInLocal input) (KeyState.setRemote input) := by
  constructor
  · intro s key
    simp [MergeState.updatedInLocal, KeyState.setRemote, MergeState.at, lookup_assign_self]
  · intro s key other hother
    simp [MergeState.updatedInLocal, MergeState.at, lookup_assign_of_ne, hother]

theorem pointwise_addedInLocal :
    Pointwise (MergeState.addedInLocal input) (KeyState.addedInLocal input) := by
  constructor
  · intro s key
    unfold MergeState.addedInLocal KeyState.addedInLocal
    split_ifs
    · rfl
    · exact (pointwise_updatedInLocal input).same s key
  · intro s key other hother
    unfold MergeState.addedInLocal
    split_ifs
    · rfl
    · exact (pointwise_updatedInLocal input).other s key other hother

theorem pointwise_removedInLocal :
    Pointwise (MergeState.removedInLocal input) (KeyState.removedInLocal input) := by
  constructor
  · intro s key
    unfold MergeState.removedInLocal KeyState.removedInLocal
    split_ifs <;> simp [MergeState.at]
  · intro s key other hother
    unfold MergeState.removedInLocal
    split_ifs <;> simp [MergeState.at, hother]

theorem pointwise_addedInRemote :
    Pointwise (MergeState.addedInRemote input) (KeyState.addedInRemote input) := by
  constructor
  · intro s key
    unfold MergeState.addedInRemote KeyState.addedInRemote MergeState.setUpdated KeyState.setUpdated
    split_ifs <;> simp [MergeState.at, lookup_assign_self]
  · intro s key other hother
    unfold MergeState.addedInRemote MergeState.setUpdated
    split_ifs <;> simp [MergeState.at, lookup_assign_of_ne, hother]

theorem pointwise_updatedInRemote :
    Pointwise (MergeState.updatedInRemote input) (KeyState.updatedInRemote input) := by
  constructor
  · intro s key
    unfold MergeState.updatedInRemote KeyState.updatedInRemote MergeState.setUpdated
      KeyState.setUpdated
    split_ifs <;> simp [MergeState.at, lookup_assign_self]
  · intro s key other hother
    unfold MergeState.updatedInRemote MergeState.setUpdated
    split_ifs <;> simp [MergeState.at, lookup_assign_of_ne, hother]

theorem pointwise_removedInRemote :
    Pointwise (MergeState.removedInRemote input) (KeyState.removedInRemote input) := by
  constructor
  · intro s key
    unfold MergeState.removedInRemote KeyState.removedInRemote
    split_ifs <;> simp [MergeState.at]
  · intro s key other hother
    unfold MergeState.removedInRemote
    split_ifs <;> simp [MergeState.at, hother]

end Loops

/-! ## The outcome for a key -/

/-- What the loops record of a key by its entries in the base, locally and remotely. -/
def outcome (first sync machine unregistered : Bool) :
    Option StorageValue → Option StorageValue → Option StorageValue → KeyState
  | none, none, none => ⟨none, none, false, none⟩
  | none, none, some r => ⟨if machine then none else some r, none, false, some r⟩
  | none, some l, none => ⟨none, none, false, some l⟩
  | none, some l, some r =>
    if first && !sync then
      ⟨none, if machine || l.value = r.value then none else some r, false, some r⟩
    else ⟨none, none, false, some l⟩
  | some _, none, r => ⟨none, none, false, if unregistered then r else none⟩
  | some b, some l, none =>
    if b = l then ⟨none, none, !machine, none⟩ else ⟨none, none, false, some l⟩
  | some b, some l, some r =>
    if b = l then
      ⟨none, if machine || b = r || l.value = r.value then none else some r, false, some r⟩
    else ⟨none, none, false, some l⟩

section Outcome

variable (input : MergeInput) (key : String)

/-- The outcome of the key for this input. -/
def MergeInput.outcome : KeyState :=
  GlobalState.outcome input.isFirstTimeSync (key = SYNC_SERVICE_URL_TYPE)
    (key ∈ input.storageKeys.machine) (key ∈ input.storageKeys.unregistered)
    (baseValue input.baseStorage key) (input.localStorage.lookup key)
    (input.remoteStorage.lookup key)

/-- The loops key by key: those that have the key in their list change what is
recorded of it. -/
theorem loops_at_eq :
    let b := baseValue input.baseStorage key
    let l := input.localStorage.lookup key
    let r := input.remoteStorage.lookup key
    let n : KeyState := ⟨none, none, false, r⟩
    let n := if b = none ∧ l ≠ none then n.addedInLocal input key else n
    let n := if b ≠ none ∧ l ≠ none ∧ b ≠ l then n.setRemote input key else n
    let n := if b ≠ none ∧ l = none then n.removedInLocal input key else n
    let n := if b = none ∧ r ≠ none then n.addedInRemote input key else n
    let n := if b ≠ none ∧ r ≠ none ∧ b ≠ r then n.updatedInRemote input key else n
    (MergeState.loops input).at key =
      if b ≠ none ∧ r = none then n.removedInRemote input key else n := by
  obtain ⟨hlocalAdded, hlocalRemoved, hlocalUpdated⟩ :=
    compareBase_nodup input.baseStorage input.localStorage
  obtain ⟨hremoteAdded, hremoteRemoved, hremoteUpdated⟩ :=
    compareBase_nodup input.baseStorage input.remoteStorage
  dsimp only
  unfold MergeState.loops
  dsimp only [MergeInput.baseToLocal, MergeInput.baseToRemote]
  rw [(pointwise_removedInRemote _).foldl hremoteRemoved,
    (pointwise_updatedInRemote _).foldl hremoteUpdated,
    (pointwise_addedInRemote _).foldl hremoteAdded,
    (pointwise_removedInLocal _).foldl hlocalRemoved,
    (pointwise_updatedInLocal _).foldl hlocalUpdated,
    (pointwise_addedInLocal _).foldl hlocalAdded]
  simp only [mem_added, mem_removed, mem_updated]
  rfl

theorem loops_at : (MergeState.loops input).at key = input.outcome key := by
  have hloops := loops_at_eq input key
  dsimp only at hloops
  rw [hloops]
  clear hloops
  have hfirst : input.baseStorage.isSome = !input.isFirstTimeSync := by
    unfold MergeInput.isFirstTimeSync
    cases input.baseStorage <;> rfl
  have hbase : input.isFirstTimeSync = true → baseValue input.baseStorage key = none := by
    unfold MergeInput.isFirstTimeSync baseValue
    cases input.baseStorage <;> simp
  have hlocalAdded : key ∈ input.baseToLocal.added ↔
    baseValue input.baseStorage key = none ∧ input.localStorage.lookup key ≠ none := mem_added
  have hlocalRemoved : key ∈ input.baseToLocal.removed ↔
    baseValue input.baseStorage key ≠ none ∧ input.localStorage.lookup key = none := mem_removed
  have hlocalUpdated : key ∈ input.baseToLocal.updated ↔
    baseValue input.baseStorage key ≠ none ∧ input.localStorage.lookup key ≠ none ∧
      baseValue input.baseStorage key ≠ input.localStorage.lookup key := mem_updated
  have hremoteAdded : key ∈ input.baseToRemote.added ↔
    baseValue input.baseStorage key = none ∧ input.remoteStorage.lookup key ≠ none := mem_added
  unfold MergeInput.outcome
  revert hbase hlocalAdded hlocalRemoved hlocalUpdated hremoteAdded
  generalize baseValue input.baseStorage key = b
  generalize hl : input.localStorage.lookup key = l
  generalize hr : input.remoteStorage.lookup key = r
  intro hbase hlocalAdded hlocalRemoved hlocalUpdated hremoteAdded
  cases b with
  | none =>
    cases l with
    | none =>
      cases r with
      | none => simp [outcome]
      | some r =>
        by_cases hmachine : key ∈ input.storageKeys.machine <;>
          simp [outcome, KeyState.addedInRemote, hlocalAdded, hl, hr, hmachine, sameValue]
    | some l =>
      cases r with
      | none => simp [outcome, KeyState.addedInLocal, KeyState.setRemote, hremoteAdded, hl]
      | some r =>
        cases hsync : input.isFirstTimeSync with
        | false =>
          by_cases hmachine : key ∈ input.storageKeys.machine <;>
            simp [outcome, KeyState.addedInLocal, KeyState.setRemote, KeyState.addedInRemote, hsync,
              hfirst, hlocalAdded, hl, hmachine]
        | true =>
          by_cases hkey : key = SYNC_SERVICE_URL_TYPE
          · subst hkey
            simp [outcome, KeyState.addedInLocal, KeyState.setRemote, KeyState.addedInRemote, hsync,
              hfirst, hlocalAdded, hl]
          · by_cases hvalue : l.value = r.value <;>
              by_cases hmachine : key ∈ input.storageKeys.machine <;>
              simp [outcome, KeyState.addedInLocal, KeyState.addedInRemote, KeyState.setUpdated,
                hsync, hfirst, hremoteAdded, hl, hr, hkey, hmachine, sameValue, hvalue]
  | some b =>
    have hsync : input.isFirstTimeSync = false := by
      by_contra h
      simp only [Bool.not_eq_false] at h
      exact absurd (hbase h) (by simp)
    cases l with
    | none =>
      cases r with
      | none =>
        by_cases hkey : key ∈ input.storageKeys.unregistered <;>
          simp [outcome, KeyState.removedInLocal, KeyState.removedInRemote, hlocalRemoved, hkey]
      | some r =>
        by_cases hkey : key ∈ input.storageKeys.unregistered <;> by_cases hbr : b = r <;>
          simp [outcome, KeyState.removedInLocal, KeyState.updatedInRemote, hlocalRemoved, hkey, hbr]
    | some l =>
      by_cases hbl : b = l
      · cases r with
        | none =>
          by_cases hmachine : key ∈ input.storageKeys.machine <;>
            simp [outcome, KeyState.removedInRemote, hlocalUpdated, hlocalRemoved, hbl, hmachine]
        | some r =>
          by_cases hmachine : key ∈ input.storageKeys.machine <;> by_cases hbr : b = r <;>
            by_cases hvalue : l.value = r.value <;>
            simp_all [outcome, KeyState.updatedInRemote, KeyState.setUpdated, sameValue]
      · cases r with
        | none => simp [outcome, KeyState.setRemote, KeyState.removedInRemote, hlocalUpdated, hl, hbl]
        | some r =>
          by_cases hbr : b = r <;>
            simp [outcome, KeyState.setRemote, KeyState.updatedInRemote, hlocalUpdated, hl, hbl, hbr]

end Outcome

namespace KeyState

/-- The local entry afterwards. -/
def localResult (n : KeyState) (l : Option StorageValue) : Option StorageValue :=
  if n.removed then none else n.updated.or (n.added.or l)

end KeyState

section OutcomeResult

variable {first sync machine unregistered : Bool} {b l r : Option StorageValue}

theorem outcome_atMostOne : let n := outcome first sync machine unregistered b l r
    ¬ (n.added ≠ none ∧ n.updated ≠ none) ∧ ¬ (n.added ≠ none ∧ n.removed = true) ∧
      ¬ (n.updated ≠ none ∧ n.removed = true) := by
  rcases b with _ | b <;> rcases l with _ | l <;> rcases r with _ | r <;>
    simp only [outcome] <;> (try split_ifs) <;> simp

/-- The machine keeps its own entries. -/
theorem outcome_machine :
    (outcome first sync true unregistered b l r).localResult l = l := by
  rcases b with _ | b <;> rcases l with _ | l <;> rcases r with _ | r <;>
    simp only [outcome] <;> (try split_ifs) <;> simp_all [KeyState.localResult]

theorem outcome_absent (hb : b ≠ none) :
    (outcome first sync machine unregistered b none r).localResult none = none := by
  obtain ⟨b, rfl⟩ := Option.ne_none_iff_exists'.mp hb
  cases r <;> simp [outcome, KeyState.localResult]

/-- A registered key of the user gets the same value on both sides. -/
theorem outcome_value :
    ((outcome first sync false false b l r).localResult l).map StorageValue.value =
      (outcome first sync false false b l r).remote.map StorageValue.value := by
  rcases b with _ | b <;> rcases l with _ | l <;> rcases r with _ | r <;>
    simp only [outcome] <;> (try split_ifs) <;> simp_all [KeyState.localResult]
  -- the same entry has the same value
  rename_i hsame
  rcases hsame with rfl | hvalue
  · rfl
  · exact hvalue

/-- Both sides have the same entry afterwards, or a key that is not registered is left
on the remote side. -/
theorem outcome_settles (hfirst : first = true → b = none)
    (h : l = r ∨ ((first = false ∧ b ≠ l) ∨ (first = true ∧ l ≠ none ∧ (r = none ∨ sync = true))) ∨
      if machine then l = none ∧ unregistered = true else sameValue l r = false) :
    let n := outcome first sync machine unregistered b l r
    n.localResult l = n.remote ∨ (n.localResult l = none ∧ unregistered = true) := by
  rcases b with _ | b
  · rcases l with _ | l <;> rcases r with _ | r
    · simp [outcome, KeyState.localResult]
    · cases machine <;> simp_all [outcome, KeyState.localResult]
    · simp [outcome, KeyState.localResult]
    · cases first <;> cases sync <;> cases machine <;>
        simp_all [outcome, KeyState.localResult, sameValue]
      rcases h with rfl | hvalue
      · simp
      · simp [hvalue]
  · have hbase : first = false := by
      by_contra hne
      simpa using hfirst (Bool.eq_true_of_not_eq_false hne)
    subst hbase
    rcases l with _ | l <;> rcases r with _ | r
    · simp [outcome, KeyState.localResult]
    · cases unregistered <;> simp_all [outcome, KeyState.localResult]
    · by_cases hbl : b = l <;> cases machine <;> simp_all [outcome, KeyState.localResult]
    · by_cases hbl : b = l <;> cases machine <;>
        simp_all [outcome, KeyState.localResult, sameValue]
      rcases h with rfl | hvalue
      · simp
      · have hne : l ≠ r := fun heq => hvalue (heq ▸ rfl)
        simp [hvalue, hne]

end OutcomeResult

/-! ## The whole merge -/

theorem LocalChanges.lookup_apply (c : LocalChanges) (storage : Storage) (key : String) :
    (c.apply storage).lookup key = if key ∈ c.removed then none
      else (c.updated.lookup key).or ((c.added.lookup key).or (storage.lookup key)) := by
  rw [LocalChanges.apply, lookup_foldl_erase, lookup_union, lookup_union]

/-- A key is in at most one of the three. -/
def LocalChanges.AtMostOne (c : LocalChanges) (key : String) : Prop :=
  ¬ (c.added.lookup key ≠ none ∧ c.updated.lookup key ≠ none) ∧
    ¬ (c.added.lookup key ≠ none ∧ key ∈ c.removed) ∧
    ¬ (c.updated.lookup key ≠ none ∧ key ∈ c.removed)

/-- The local entry has changed since the last sync, or is not overridden by the first
one. -/
def LocalWins (base : Option Storage) (key : String) (l r : Option StorageValue) : Prop :=
  (base ≠ none ∧ baseValue base key ≠ l) ∨
    (base = none ∧ l ≠ none ∧ (r = none ∨ key = SYNC_SERVICE_URL_TYPE))

/-- Nothing is left to be done for the key: a key of the machine is not taken over, and
an entry with the same value is not. -/
def Settles (storageKeys : StorageKeys) (base : Option Storage) (key : String)
    (l r : Option StorageValue) : Prop :=
  l = r ∨ LocalWins base key l r ∨
    if key ∈ storageKeys.machine then l = none ∧ key ∈ storageKeys.unregistered
    else sameValue l r = false

section Sides

variable (input : MergeInput) (key : String)

def MergeInput.result : MergeResult :=
  merge input.localStorage (some input.remoteStorage) input.baseStorage input.storageKeys

def MergeInput.remoteAfter : Storage :=
  (input.result.remoteAfter (some input.remoteStorage)).getD ∅

/-- What the merge does with a key: nothing where the storages are the same, else the
outcome of the key. -/
theorem result_at :
    (input.localStorage.lookup key = input.remoteStorage.lookup key ∧
      input.result = ⟨.empty, [], [], [], none⟩) ∨
    (input.result.localChanges.added.lookup key = (input.outcome key).added ∧
      input.result.localChanges.updated.lookup key = (input.outcome key).updated ∧
      (key ∈ input.result.localChanges.removed ↔ (input.outcome key).removed = true) ∧
      input.remoteAfter.lookup key = (input.outcome key).remote) := by
  by_cases hsame : (compare input.localStorage input.remoteStorage).isEmpty = true
  · left
    refine ⟨compare_isEmpty_iff.mp hsame key, ?_⟩
    simp only [MergeInput.result, merge, hsame, if_true]
  · right
    have hat := loops_at input key
    have hresult : input.result = ⟨(MergeState.loops input).changes,
        (compare input.remoteStorage (MergeState.loops input).remote).added,
        (compare input.remoteStorage (MergeState.loops input).remote).removed,
        (compare input.remoteStorage (MergeState.loops input).remote).updated,
        if (compare input.remoteStorage (MergeState.loops input).remote).isEmpty then none
        else some (MergeState.loops input).remote⟩ := by
      simp only [MergeInput.result, merge, hsame]
      rfl
    unfold MergeInput.remoteAfter
    rw [hresult, ← hat]
    refine ⟨rfl, rfl, ?_, ?_⟩
    · simp [MergeState.at]
    · by_cases hunchanged :
        (compare input.remoteStorage (MergeState.loops input).remote).isEmpty = true
      · simpa [MergeResult.remoteAfter, hunchanged, MergeState.at] using
          compare_isEmpty_iff.mp hunchanged key
      · simp [MergeResult.remoteAfter, hunchanged, MergeState.at]

theorem result_sides :
    ((input.result.localAfter input.localStorage).lookup key = input.localStorage.lookup key ∧
      input.remoteAfter.lookup key = input.localStorage.lookup key) ∨
    ((input.result.localAfter input.localStorage).lookup key =
        (input.outcome key).localResult (input.localStorage.lookup key) ∧
      input.remoteAfter.lookup key = (input.outcome key).remote) := by
  have hlocal : (input.result.localAfter input.localStorage).lookup key = _ :=
    input.result.localChanges.lookup_apply input.localStorage key
  rcases result_at input key with ⟨heq, hresult⟩ | ⟨hadded, hupdated, hremoved, hremote⟩
  · left
    unfold MergeInput.remoteAfter
    rw [hlocal, hresult]
    exact ⟨by simp [LocalChanges.empty], by simp [MergeResult.remoteAfter, heq]⟩
  · right
    refine ⟨?_, hremote⟩
    rw [hlocal, hadded, hupdated]
    simp only [hremoved]
    rfl

theorem result_atMostOne : input.result.localChanges.AtMostOne key := by
  rcases result_at input key with ⟨-, hresult⟩ | ⟨hadded, hupdated, hremoved, -⟩
  · rw [hresult]
    simp [LocalChanges.AtMostOne, LocalChanges.empty]
  · unfold LocalChanges.AtMostOne
    rw [hadded, hupdated, hremoved]
    exact outcome_atMostOne

theorem sides_value (hmachine : key ∉ input.storageKeys.machine)
    (hunregistered : key ∉ input.storageKeys.unregistered) :
    ((input.result.localAfter input.localStorage).lookup key).map StorageValue.value =
      (input.remoteAfter.lookup key).map StorageValue.value := by
  rcases result_sides input key with ⟨hlocal, hremote⟩ | ⟨hlocal, hremote⟩
  · rw [hlocal, hremote]
  · rw [hlocal, hremote]
    unfold MergeInput.outcome
    rw [decide_eq_false hmachine, decide_eq_false hunregistered]
    exact outcome_value

theorem sides_machine (hmachine : key ∈ input.storageKeys.machine) :
    (input.result.localAfter input.localStorage).lookup key = input.localStorage.lookup key := by
  rcases result_sides input key with ⟨hlocal, -⟩ | ⟨hlocal, -⟩
  · exact hlocal
  · rw [hlocal]
    unfold MergeInput.outcome
    rw [decide_eq_true hmachine]
    exact outcome_machine

theorem sides_absent (hlocal : input.localStorage.lookup key = none)
    (hbase : baseValue input.baseStorage key ≠ none) :
    (input.result.localAfter input.localStorage).lookup key = none := by
  rcases result_sides input key with ⟨hafter, -⟩ | ⟨hafter, -⟩
  · rw [hafter, hlocal]
  · rw [hafter, hlocal]
    unfold MergeInput.outcome
    rw [hlocal]
    exact outcome_absent hbase

theorem sides_settle (h : Settles input.storageKeys input.baseStorage key
      (input.localStorage.lookup key) (input.remoteStorage.lookup key)) :
    (input.result.localAfter input.localStorage).lookup key = input.remoteAfter.lookup key ∨
      (input.result.localAfter input.localStorage).lookup key = none ∧
        key ∈ input.storageKeys.unregistered := by
  rcases result_sides input key with ⟨hlocal, hremote⟩ | ⟨hlocal, hremote⟩
  · exact .inl (hlocal.trans hremote.symm)
  · rw [hlocal, hremote]
    have hbase : input.isFirstTimeSync = true → baseValue input.baseStorage key = none := by
      unfold MergeInput.isFirstTimeSync baseValue
      cases input.baseStorage <;> simp
    have hwins : LocalWins input.baseStorage key (input.localStorage.lookup key)
        (input.remoteStorage.lookup key) →
        (input.isFirstTimeSync = false ∧
          baseValue input.baseStorage key ≠ input.localStorage.lookup key) ∨
        (input.isFirstTimeSync = true ∧ input.localStorage.lookup key ≠ none ∧
          (input.remoteStorage.lookup key = none ∨
            decide (key = SYNC_SERVICE_URL_TYPE) = true)) := by
      unfold LocalWins MergeInput.isFirstTimeSync
      cases input.baseStorage <;> simp
    have hsettles := @outcome_settles input.isFirstTimeSync (key = SYNC_SERVICE_URL_TYPE)
      (key ∈ input.storageKeys.machine) (key ∈ input.storageKeys.unregistered) _ _ _ hbase
      (h.imp id fun h => h.imp hwins fun h => by simpa using h)
    simpa [MergeInput.outcome] using hsettles

end Sides

/-- The merge of what a first merge leaves on the two sides. -/
def mergeAgain (localStorage : Storage) (remoteStorage baseStorage : Option Storage)
    (storageKeys : StorageKeys) : MergeResult :=
  let result := merge localStorage remoteStorage baseStorage storageKeys
  let remote := result.remoteAfter remoteStorage
  merge (result.localAfter localStorage) remote remote storageKeys

section Merge

variable {localStorage : Storage} {remoteStorage baseStorage : Option Storage}
  {storageKeys : StorageKeys} {key : String}

theorem compare_self (storage : Storage) : compare storage storage = ⟨[], [], []⟩ := by
  have hempty : (compare storage storage).isEmpty = true := compare_isEmpty_iff.mpr fun _ => rfl
  simp only [Comparison.isEmpty, Bool.and_eq_true, List.isEmpty_iff] at hempty
  obtain ⟨⟨hadded, hremoved⟩, hupdated⟩ := hempty
  cases h : compare storage storage
  simp_all

theorem foldl_changes {step : MergeState → String → MergeState}
    (hstep : ∀ s key, (step s key).changes = s.changes) (keys : List String) (s : MergeState) :
    (keys.foldl step s).changes = s.changes := by
  induction keys generalizing s with
  | nil => rfl
  | cons key keys ih => rw [List.foldl_cons, ih, hstep]

/-- The loops over local keys record changes of the remote side only. -/
theorem loops_changes {input : MergeInput} (h : input.baseToRemote = ⟨[], [], []⟩) :
    (MergeState.loops input).changes = .empty := by
  unfold MergeState.loops
  rw [h]
  have hadded : ∀ s key, (MergeState.addedInLocal input s key).changes = s.changes := by
    intro s key
    unfold MergeState.addedInLocal
    split_ifs <;> rfl
  have hremoved : ∀ s key, (MergeState.removedInLocal input s key).changes = s.changes := by
    intro s key
    unfold MergeState.removedInLocal
    split_ifs <;> rfl
  have hupdated : ∀ s key, (MergeState.updatedInLocal input s key).changes = s.changes :=
    fun _ _ => rfl
  simp only [List.foldl_nil]
  rw [foldl_changes hremoved, foldl_changes hupdated, foldl_changes hadded]

/-- A second merge has nothing to do where the two sides are the same, up to keys that
are not registered and absent locally. -/
theorem merge_again {storage remote : Storage}
    (h : ∀ key, storage.lookup key = remote.lookup key ∨
      storage.lookup key = none ∧ key ∈ storageKeys.unregistered) :
    (merge storage (some remote) (some remote) storageKeys).NoChanges := by
  by_cases hsame : (compare storage remote).isEmpty = true
  · simp only [merge, hsame, if_true]
    exact ⟨rfl, rfl⟩
  · -- the remote side has not changed, and no local change reaches it
    have hkept : (MergeState.loops ⟨storage, remote, some remote, storageKeys⟩).changes = .empty :=
      loops_changes (compare_self remote)
    have hremote : ∀ key, remote.lookup key =
        (MergeState.loops ⟨storage, remote, some remote, storageKeys⟩).remote.lookup key := by
      intro key
      have hat := congrArg KeyState.remote (loops_at ⟨storage, remote, some remote, storageKeys⟩ key)
      refine Eq.trans ?_ hat.symm
      have hbase : baseValue (some remote) key = remote.lookup key := rfl
      unfold MergeInput.outcome MergeInput.isFirstTimeSync
      rw [hbase]
      rcases h key with heq | ⟨hnone, hunregistered⟩
      · rw [heq]
        cases remote.lookup key <;> simp [outcome]
      · rw [hnone]
        cases remote.lookup key <;> simp [outcome, hunregistered]
    have hempty := compare_isEmpty_iff.mpr hremote
    simp only [merge, hsame, MergeResult.NoChanges, hempty, if_true]
    exact ⟨hkept, rfl⟩

theorem merge_agrees :
    let result := merge localStorage remoteStorage baseStorage storageKeys
    let locals := result.localAfter localStorage
    let remote := result.remoteAfter remoteStorage
    (∀ key ∉ storageKeys.machine, key ∉ storageKeys.unregistered →
      (locals.lookup key).map StorageValue.value =
        ((remote.getD ∅).lookup key).map StorageValue.value) ∧
    (∀ key ∈ storageKeys.machine, locals.lookup key = localStorage.lookup key) ∧
    (∀ key ∈ storageKeys.unregistered, localStorage.lookup key = none →
      baseValue baseStorage key ≠ none → locals.lookup key = none) ∧
    (∀ key, result.localChanges.AtMostOne key) ∧
    ((∀ remotes, remoteStorage = some remotes → ∀ key,
      Settles storageKeys baseStorage key (localStorage.lookup key) (remotes.lookup key)) →
      (mergeAgain localStorage remoteStorage baseStorage storageKeys).NoChanges) := by
  intro result locals remote
  have hagain : mergeAgain localStorage remoteStorage baseStorage storageKeys =
      merge locals remote remote storageKeys := rfl
  rw [hagain]
  cases remoteStorage with
  | none =>
    -- the local storage becomes the remote one
    have hlocal : ∀ key, locals.lookup key = localStorage.lookup key := by
      intro key
      simp [locals, result, MergeResult.localAfter, LocalChanges.lookup_apply, merge,
        LocalChanges.empty]
    by_cases hkeys : localStorage.keys.length > 0
    · have hremote : remote = some localStorage := by
        simp [remote, result, MergeResult.remoteAfter, merge, hkeys]
      rw [hremote]
      refine ⟨fun key _ _ => by rw [hlocal, Option.getD_some], fun key _ => hlocal key,
        fun key _ hnone _ => by rw [hlocal, hnone], fun key => ?_, fun _ =>
          merge_again fun key => .inl (hlocal key)⟩
      simp [LocalChanges.AtMostOne, result, merge, LocalChanges.empty]
    · have hremote : remote = none := by
        simp [remote, result, MergeResult.remoteAfter, merge, hkeys]
      have hnone : ∀ key, localStorage.lookup key = none := by
        intro key
        have hnil : localStorage.keys = [] := List.eq_nil_of_length_eq_zero (by omega)
        by_contra hne
        have hmem := mem_keys_iff_lookup.mpr hne
        rw [hnil] at hmem
        cases hmem
      have hempty : locals.keys = [] := by
        rw [List.eq_nil_iff_forall_not_mem]
        intro key hkey
        exact mem_keys_iff_lookup.mp hkey ((hlocal key).trans (hnone key))
      rw [hremote]
      refine ⟨fun key _ _ => ?_, fun key _ => hlocal key, fun key _ hnone _ => by rw [hlocal, hnone],
        fun key => ?_, fun _ => ?_⟩
      · rw [hlocal, hnone]
        rfl
      · simp [LocalChanges.AtMostOne, result, merge, LocalChanges.empty]
      · simp [MergeResult.NoChanges, merge, hempty]
  | some remotes =>
    have hremote : remote = some (MergeInput.remoteAfter
        ⟨localStorage, remotes, baseStorage, storageKeys⟩) := by
      have hsome : ∀ all : Option Storage, all.or (some remotes) =
          some ((all.or (some remotes)).getD ∅) := by
        intro all
        cases all <;> rfl
      exact hsome result.remoteChanges.all
    rw [hremote]
    exact ⟨sides_value ⟨localStorage, remotes, baseStorage, storageKeys⟩,
      sides_machine ⟨localStorage, remotes, baseStorage, storageKeys⟩,
      fun key _ => sides_absent ⟨localStorage, remotes, baseStorage, storageKeys⟩ key,
      result_atMostOne ⟨localStorage, remotes, baseStorage, storageKeys⟩,
      fun hsettles => merge_again fun key =>
        sides_settle ⟨localStorage, remotes, baseStorage, storageKeys⟩ key (hsettles remotes rfl key)⟩

/-- Entries without a scope. -/
def storageOf (entries : List (String × String)) : Storage :=
  (entries.map fun entry => ⟨entry.1, ⟨1, entry.2, none⟩⟩).toAList

/-- A key of the machine that is added remotely stays away locally, so that the second
merge removes it from the remote side, and a key that is not registered is added
locally. -/
theorem merge_not_agrees :
    ¬ (mergeAgain (storageOf []) (some (storageOf [("a", "1")])) (some (storageOf []))
      ⟨["a"], []⟩).NoChanges ∧
    ((merge (storageOf []) (some (storageOf [("a", "1")])) (some (storageOf []))
      ⟨[], ["a"]⟩).localAfter (storageOf [])).lookup "a" ≠ (storageOf []).lookup "a" := by
  constructor
  · intro hagain
    exact absurd hagain.2 (by decide)
  · decide

end Merge

end NexgileIde.UserDataSync.GlobalState
