import NexgileIde.UserDataSync.SnippetsMerge

/-!
# What a merge does with each name

Each loop changes what is recorded of one name at a time, so the six loops together
record an outcome that depends on the three contents of the name only. Where the
outcome is no conflict, both sides are led to the three-way merge of the contents.
-/
namespace NexgileIde.UserDataSync

open Library

/-! ## Dictionaries and comparisons -/

theorem mem_keysOf {d : Option StringDictionary} {name : String} :
    name ∈ keysOf d ↔ valueOf d name ≠ none := by
  cases d with
  | none => simp [keysOf, valueOf]
  | some d =>
    simp only [keysOf, valueOf, Option.bind_some]
    exact mem_keys_iff_lookup

theorem keysOf_nodup (d : Option StringDictionary) : (keysOf d).Nodup := by
  cases d with
  | none => exact List.nodup_nil
  | some d => exact d.keys_nodup

section Compare

variable {before after : Option StringDictionary} {name : String}

theorem mem_compare_added :
    name ∈ (compare before after).added ↔
      valueOf before name = none ∧ valueOf after name ≠ none := by
  simp [compare, mem_keysOf, and_comm]

theorem mem_compare_removed :
    name ∈ (compare before after).removed ↔
      valueOf before name ≠ none ∧ valueOf after name = none := by
  simp [compare, mem_keysOf]

theorem mem_compare_updated :
    name ∈ (compare before after).updated ↔ valueOf before name ≠ none ∧
      valueOf after name ≠ none ∧ valueOf before name ≠ valueOf after name := by
  simp only [compare, List.mem_filter, mem_keysOf, Bool.and_eq_true, Bool.not_eq_true',
    bne_iff_ne, List.contains_eq_mem, decide_eq_false_iff_not]
  constructor
  · rintro ⟨hbefore, hkept, hchanged⟩
    refine ⟨hbefore, fun hafter => hkept ⟨hbefore, ?_⟩, hchanged⟩
    simpa using hafter
  · rintro ⟨hbefore, hafter, hchanged⟩
    refine ⟨hbefore, fun hremoved => ?_, hchanged⟩
    simp at hremoved
    exact hafter hremoved.2

theorem compare_nodup (before after : Option StringDictionary) :
    (compare before after).added.Nodup ∧ (compare before after).removed.Nodup ∧
      (compare before after).updated.Nodup :=
  ⟨(keysOf_nodup after).filter _, (keysOf_nodup before).filter _, (keysOf_nodup before).filter _⟩

/-- Two dictionaries compare as equal when they have the same content under every name. -/
theorem compare_isEmpty_iff (before after : Option StringDictionary) :
    (compare before after).isEmpty = true ↔ ∀ name, valueOf before name = valueOf after name := by
  simp only [Comparison.isEmpty, Bool.and_eq_true, List.isEmpty_iff, List.eq_nil_iff_forall_not_mem,
    mem_compare_added, mem_compare_removed, mem_compare_updated]
  constructor
  · rintro ⟨⟨hadded, hremoved⟩, hupdated⟩ name
    have hadded := hadded name
    have hremoved := hremoved name
    have hupdated := hupdated name
    by_cases hbefore : valueOf before name = none
    · by_cases hafter : valueOf after name = none
      · rw [hbefore, hafter]
      · exact absurd ⟨hbefore, hafter⟩ hadded
    · by_cases hafter : valueOf after name = none
      · exact absurd ⟨hbefore, hafter⟩ hremoved
      · by_contra hne
        exact hupdated ⟨hbefore, hafter, hne⟩
  · intro heq
    refine ⟨⟨?_, ?_⟩, ?_⟩
    · rintro name ⟨hbefore, hafter⟩
      exact hafter (heq name ▸ hbefore)
    · rintro name ⟨hbefore, hafter⟩
      exact hbefore (heq name ▸ hafter)
    · rintro name ⟨-, -, hne⟩
      exact hne (heq name)

end Compare

/-! ## The loops -/

/-- What is recorded of one name. -/
structure NameState where
  localAdded : Option String
  localUpdated : Option String
  localRemoved : Bool
  remoteAdded : Option String
  remoteUpdated : Option String
  remoteRemoved : Bool
  conflict : Bool
  deriving DecidableEq, Repr

def NameState.initial : NameState := ⟨none, none, false, none, none, false, false⟩

def MergeState.at (s : MergeState) (name : String) : NameState where
  localAdded := s.localAdded.lookup name
  localUpdated := s.localUpdated.lookup name
  localRemoved := s.localRemoved.contains name
  remoteAdded := s.remoteAdded.lookup name
  remoteUpdated := s.remoteUpdated.lookup name
  remoteRemoved := s.remoteRemoved.contains name
  conflict := s.conflicts.contains name

@[simp] theorem mem_setAdd {s : List String} {key name : String} :
    name ∈ setAdd s key ↔ name ∈ s ∨ name = key := by
  unfold setAdd
  split_ifs with h
  · constructor
    · exact Or.inl
    · rintro (hname | rfl)
      · exact hname
      · exact h
  · simp

theorem lookup_assign_self (target source : StringDictionary) (key : String) :
    (assign target source key).lookup key = (source.lookup key).or (target.lookup key) := by
  unfold assign
  cases source.lookup key with
  | none => rfl
  | some content => simp

theorem lookup_assign_of_ne (target source : StringDictionary) {key name : String}
    (h : name ≠ key) : (assign target source key).lookup name = target.lookup name := by
  unfold assign
  cases source.lookup key with
  | none => rfl
  | some content => simp [h]

namespace NameState

variable (input : MergeInput) (key : String) (n : NameState)

def removedInLocal : NameState :=
  if input.baseToRemote.updated.contains key then
    { n with localAdded := (input.remotes.lookup key).or n.localAdded }
  else { n with remoteRemoved := true }

def removedInRemote : NameState :=
  if n.conflict then n
  else if input.baseToLocal.updated.contains key then { n with conflict := true }
  else { n with localRemoved := true }

/-- Both sides have changed the content: a conflict, unless it is the same. -/
def changedInBoth : NameState :=
  if input.localToRemote.updated.contains key then { n with conflict := true } else n

def updatedInLocal : NameState :=
  if n.conflict then n
  else if input.baseToRemote.updated.contains key then n.changedInBoth input key
  else { n with remoteUpdated := (input.locals.lookup key).or n.remoteUpdated }

def updatedInRemote : NameState :=
  if n.conflict then n
  else if input.baseToLocal.updated.contains key then n.changedInBoth input key
  else if (input.locals.lookup key).isSome then
    { n with localUpdated := (input.remotes.lookup key).or n.localUpdated }
  else n

def addedInLocal : NameState :=
  if n.conflict then n
  else if input.baseToRemote.added.contains key then n.changedInBoth input key
  else { n with remoteAdded := (input.locals.lookup key).or n.remoteAdded }

def addedInRemote : NameState :=
  if n.conflict then n
  else if input.baseToLocal.added.contains key then n.changedInBoth input key
  else { n with localAdded := (input.remotes.lookup key).or n.localAdded }

end NameState

/-- A step of a loop changes what is recorded of its own name. -/
structure Pointwise (step : MergeState → String → MergeState)
    (change : String → NameState → NameState) : Prop where
  same : ∀ s key, (step s key).at key = change key (s.at key)
  other : ∀ s key name, name ≠ key → (step s key).at name = s.at name

section Loops

variable (input : MergeInput)

theorem pointwise_removedInLocal :
    Pointwise (MergeState.removedInLocal input) (NameState.removedInLocal input) := by
  constructor
  · intro s key
    unfold MergeState.removedInLocal NameState.removedInLocal
    split_ifs <;> simp [MergeState.at, lookup_assign_self]
  · intro s key name hname
    unfold MergeState.removedInLocal
    split_ifs <;> simp [MergeState.at, lookup_assign_of_ne, hname]

theorem pointwise_removedInRemote :
    Pointwise (MergeState.removedInRemote input) (NameState.removedInRemote input) := by
  constructor
  · intro s key
    unfold MergeState.removedInRemote NameState.removedInRemote
    split_ifs <;> simp_all [MergeState.at]
  · intro s key name hname
    unfold MergeState.removedInRemote
    split_ifs <;> simp [MergeState.at, hname]

theorem pointwise_updatedInLocal :
    Pointwise (MergeState.updatedInLocal input) (NameState.updatedInLocal input) := by
  constructor
  · intro s key
    unfold MergeState.updatedInLocal NameState.updatedInLocal NameState.changedInBoth
    split_ifs <;> simp_all [MergeState.at, lookup_assign_self]
  · intro s key name hname
    unfold MergeState.updatedInLocal
    split_ifs <;> simp [MergeState.at, lookup_assign_of_ne, hname]

theorem pointwise_updatedInRemote :
    Pointwise (MergeState.updatedInRemote input) (NameState.updatedInRemote input) := by
  constructor
  · intro s key
    unfold MergeState.updatedInRemote NameState.updatedInRemote NameState.changedInBoth
    split_ifs <;> simp_all [MergeState.at, lookup_assign_self]
  · intro s key name hname
    unfold MergeState.updatedInRemote
    split_ifs <;> simp [MergeState.at, lookup_assign_of_ne, hname]

theorem pointwise_addedInLocal :
    Pointwise (MergeState.addedInLocal input) (NameState.addedInLocal input) := by
  constructor
  · intro s key
    unfold MergeState.addedInLocal NameState.addedInLocal NameState.changedInBoth
    split_ifs <;> simp_all [MergeState.at, lookup_assign_self]
  · intro s key name hname
    unfold MergeState.addedInLocal
    split_ifs <;> simp [MergeState.at, lookup_assign_of_ne, hname]

theorem pointwise_addedInRemote :
    Pointwise (MergeState.addedInRemote input) (NameState.addedInRemote input) := by
  constructor
  · intro s key
    unfold MergeState.addedInRemote NameState.addedInRemote NameState.changedInBoth
    split_ifs <;> simp_all [MergeState.at, lookup_assign_self]
  · intro s key name hname
    unfold MergeState.addedInRemote
    split_ifs <;> simp [MergeState.at, lookup_assign_of_ne, hname]

theorem Pointwise.foldl {step : MergeState → String → MergeState}
    {change : String → NameState → NameState} (h : Pointwise step change) {keys : List String}
    (hnodup : keys.Nodup) (s : MergeState) (name : String) :
    (keys.foldl step s).at name = if name ∈ keys then change name (s.at name) else s.at name :=
  @foldl_pointwise _ _ _ _ MergeState.at step change h.same h.other keys hnodup s name

end Loops

/-! ## The outcome for a name -/

/-- What the loops record of a name, by its contents in the base, locally and remotely. -/
def outcome : Option String → Option String → Option String → NameState
  | none, none, none => .initial
  | none, some content, none => { NameState.initial with remoteAdded := some content }
  | none, none, some content => { NameState.initial with localAdded := some content }
  | none, some l, some r => if l = r then .initial else { NameState.initial with conflict := true }
  -- removed on both sides: both are told to remove it
  | some _, none, none => { NameState.initial with localRemoved := true, remoteRemoved := true }
  | some b, none, some r =>
    if b = r then { NameState.initial with remoteRemoved := true }
    else { NameState.initial with localAdded := some r }
  | some b, some l, none =>
    if b = l then { NameState.initial with localRemoved := true }
    else { NameState.initial with conflict := true }
  | some b, some l, some r =>
    if b = l then
      if b = r then .initial else { NameState.initial with localUpdated := some r }
    else if b = r then { NameState.initial with remoteUpdated := some l }
    else if l = r then .initial
    else { NameState.initial with conflict := true }

theorem at_initial (name : String) : MergeState.initial.at name = NameState.initial := rfl

theorem valueOf_some (d : StringDictionary) (name : String) :
    valueOf (some d) name = d.lookup name := rfl

section LoopsAt

variable (locals remotes : StringDictionary) (base : Option StringDictionary) (name : String)

/-- What the loops look at. -/
def mergeInput : MergeInput :=
  ⟨locals, remotes, compare (some locals) (some remotes), compare base (some locals),
    compare base (some remotes)⟩

/-- The loops name by name: those that have the name among their keys change what is
recorded of it. -/
theorem loops_at_eq :
    let input := mergeInput locals remotes base
    let b := valueOf base name
    let l := locals.lookup name
    let r := remotes.lookup name
    let n := NameState.initial
    let n := if b ≠ none ∧ l = none then n.removedInLocal input name else n
    let n := if b ≠ none ∧ r = none then n.removedInRemote input name else n
    let n := if b ≠ none ∧ l ≠ none ∧ b ≠ l then n.updatedInLocal input name else n
    let n := if b ≠ none ∧ r ≠ none ∧ b ≠ r then n.updatedInRemote input name else n
    let n := if b = none ∧ l ≠ none then n.addedInLocal input name else n
    (MergeState.loops input).at name =
      if b = none ∧ r ≠ none then n.addedInRemote input name else n := by
  obtain ⟨hlocalAdded, hlocalRemoved, hlocalUpdated⟩ := compare_nodup base (some locals)
  obtain ⟨hremoteAdded, hremoteRemoved, hremoteUpdated⟩ := compare_nodup base (some remotes)
  dsimp only
  unfold MergeState.loops
  dsimp only [mergeInput]
  rw [(pointwise_addedInRemote _).foldl hremoteAdded, (pointwise_addedInLocal _).foldl hlocalAdded,
    (pointwise_updatedInRemote _).foldl hremoteUpdated,
    (pointwise_updatedInLocal _).foldl hlocalUpdated,
    (pointwise_removedInRemote _).foldl hremoteRemoved,
    (pointwise_removedInLocal _).foldl hlocalRemoved, at_initial]
  simp only [mem_compare_added, mem_compare_removed, mem_compare_updated, valueOf_some]

/-- The loops record the outcome of every name. -/
theorem loops_at :
    (MergeState.loops (mergeInput locals remotes base)).at name =
      outcome (valueOf base name) (locals.lookup name) (remotes.lookup name) := by
  have hloops := loops_at_eq locals remotes base name
  dsimp only at hloops
  rw [hloops]
  have hlocal : (mergeInput locals remotes base).locals.lookup name = locals.lookup name := rfl
  have hremote : (mergeInput locals remotes base).remotes.lookup name = remotes.lookup name := rfl
  have hlocalToRemote : name ∈ (mergeInput locals remotes base).localToRemote.updated ↔ _ :=
    mem_compare_updated
  have hlocalUpdated : name ∈ (mergeInput locals remotes base).baseToLocal.updated ↔ _ :=
    mem_compare_updated
  have hremoteUpdated : name ∈ (mergeInput locals remotes base).baseToRemote.updated ↔ _ :=
    mem_compare_updated
  have hlocalAdded : name ∈ (mergeInput locals remotes base).baseToLocal.added ↔ _ :=
    mem_compare_added
  have hremoteAdded : name ∈ (mergeInput locals remotes base).baseToRemote.added ↔ _ :=
    mem_compare_added
  simp only [valueOf_some] at hlocalToRemote hlocalUpdated hremoteUpdated hlocalAdded hremoteAdded
  revert hlocal hremote hlocalToRemote hlocalUpdated hremoteUpdated hlocalAdded hremoteAdded
  generalize mergeInput locals remotes base = input
  generalize valueOf base name = b
  generalize locals.lookup name = l
  generalize remotes.lookup name = r
  intro hlocal hremote hlocalToRemote hlocalUpdated hremoteUpdated hlocalAdded hremoteAdded
  clear hloops
  cases b with
  | none =>
    cases l with
    | none =>
      cases r with
      | none => simp [outcome]
      | some r =>
        simp [outcome, NameState.initial, NameState.addedInRemote, hlocalAdded, hremote]
    | some l =>
      cases r with
      | none => simp [outcome, NameState.initial, NameState.addedInLocal, hremoteAdded, hlocal]
      | some r =>
        by_cases hlr : l = r
        · simp [outcome, NameState.initial, NameState.addedInLocal, NameState.addedInRemote,
            NameState.changedInBoth, hlocalAdded, hremoteAdded, hlocalToRemote, hlr]
        · simp [outcome, NameState.initial, NameState.addedInLocal, NameState.addedInRemote,
            NameState.changedInBoth, hremoteAdded, hlocalToRemote, hlr]
  | some b =>
    cases l with
    | none =>
      cases r with
      | none =>
        simp [outcome, NameState.initial, NameState.removedInLocal, NameState.removedInRemote,
          hlocalUpdated, hremoteUpdated]
      | some r =>
        by_cases hbr : b = r
        · simp [outcome, NameState.initial, NameState.removedInLocal, hremoteUpdated, hbr]
        · simp [outcome, NameState.initial, NameState.removedInLocal, NameState.updatedInRemote,
            hlocalUpdated, hremoteUpdated, hlocal, hremote, hbr]
    | some l =>
      cases r with
      | none =>
        by_cases hbl : b = l
        · simp [outcome, NameState.initial, NameState.removedInRemote, hlocalUpdated, hbl]
        · simp [outcome, NameState.initial, NameState.removedInRemote, NameState.updatedInLocal,
            hlocalUpdated, hbl]
      | some r =>
        by_cases hbl : b = l
        · subst hbl
          by_cases hbr : b = r
          · simp [outcome, NameState.initial, hbr]
          · simp [outcome, NameState.initial, NameState.updatedInRemote, hlocalUpdated, hlocal,
              hremote, hbr]
        · by_cases hbr : b = r
          · subst hbr
            simp [outcome, NameState.initial, NameState.updatedInLocal, hremoteUpdated, hlocal, hbl]
          · by_cases hlr : l = r
            · simp [outcome, NameState.initial, NameState.updatedInLocal, NameState.updatedInRemote,
                NameState.changedInBoth, hlocalUpdated, hremoteUpdated, hlocalToRemote, hbr, hlr]
            · simp [outcome, NameState.initial, NameState.updatedInLocal, NameState.updatedInRemote,
                NameState.changedInBoth, hremoteUpdated, hlocalToRemote, hbl, hbr, hlr]

end LoopsAt

end NexgileIde.UserDataSync

/-!
## The merge brings both sides together

Without conflicts the two sides are the same after each has taken over its changes,
and a second merge with the result as base has nothing to do.
-/
namespace NexgileIde.UserDataSync

open Library

/-! ## Applying changes -/

theorem Changes.lookup_apply (c : Changes) (d : StringDictionary) (name : String) :
    (c.apply d).lookup name = if name ∈ c.removed then none
      else (c.updated.lookup name).or ((c.added.lookup name).or (d.lookup name)) := by
  rw [Changes.apply, lookup_foldl_erase, lookup_union, lookup_union]

/-- A name is in at most one of the three. -/
def Changes.AtMostOne (c : Changes) (name : String) : Prop :=
  ¬ (c.added.lookup name ≠ none ∧ c.updated.lookup name ≠ none) ∧
    ¬ (c.added.lookup name ≠ none ∧ name ∈ c.removed) ∧
    ¬ (c.updated.lookup name ≠ none ∧ name ∈ c.removed)

/-! ## One name -/

namespace NameState

def localResult (n : NameState) (content : Option String) : Option String :=
  if n.localRemoved then none else n.localUpdated.or (n.localAdded.or content)

def remoteResult (n : NameState) (content : Option String) : Option String :=
  if n.remoteRemoved then none else n.remoteUpdated.or (n.remoteAdded.or content)

def AtMostOne (n : NameState) : Prop :=
  (¬ (n.localAdded ≠ none ∧ n.localUpdated ≠ none) ∧
    ¬ (n.localAdded ≠ none ∧ n.localRemoved = true) ∧
    ¬ (n.localUpdated ≠ none ∧ n.localRemoved = true)) ∧
  (¬ (n.remoteAdded ≠ none ∧ n.remoteUpdated ≠ none) ∧
    ¬ (n.remoteAdded ≠ none ∧ n.remoteRemoved = true) ∧
    ¬ (n.remoteUpdated ≠ none ∧ n.remoteRemoved = true))

end NameState

/-- Removed locally and changed remotely. -/
def Restored (b l r : Option String) : Prop := b ≠ none ∧ l = none ∧ r ≠ none ∧ r ≠ b

theorem outcome_atMostOne (b l r : Option String) : (outcome b l r).AtMostOne := by
  rcases b with _ | b <;> rcases l with _ | l <;> rcases r with _ | r <;>
    simp only [outcome] <;> (try split_ifs) <;>
    simp [NameState.AtMostOne, NameState.initial]

theorem outcome_conflict (b l r : Option String) :
    (outcome b l r).conflict = true ↔ threeWay b l r = none ∧ ¬ Restored b l r := by
  rw [threeWay_eq_none]
  rcases b with _ | b <;> rcases l with _ | l <;> rcases r with _ | r <;>
    simp only [outcome, Restored] <;> (try split_ifs) <;> simp_all [NameState.initial, eq_comm]

/-- A name that was removed locally and changed remotely is added to the local side. -/
theorem outcome_restored {b l r : Option String} (h : Restored b l r) :
    (outcome b l r).localAdded = r := by
  obtain ⟨hb, rfl, hr, hbr⟩ := h
  obtain ⟨b, rfl⟩ := Option.ne_none_iff_exists'.mp hb
  obtain ⟨r, rfl⟩ := Option.ne_none_iff_exists'.mp hr
  have hne : b ≠ r := fun heq => hbr (by rw [heq])
  simp [outcome, hne]

/-- Without a conflict both sides get the three-way merge, or the restored content. -/
theorem outcome_result {b l r : Option String} (h : (outcome b l r).conflict = false) :
    (outcome b l r).remoteResult r = (outcome b l r).localResult l ∧
      (threeWay b l r = some ((outcome b l r).localResult l) ∨
        Restored b l r ∧ (outcome b l r).localResult l = r) := by
  revert h
  rcases b with _ | b <;> rcases l with _ | l <;> rcases r with _ | r <;>
    simp only [outcome] <;> (try split_ifs) <;>
    simp_all [NameState.initial, NameState.localResult, NameState.remoteResult, threeWay, Restored,
      eq_comm]

/-! ## The whole merge -/

def MergeResult.at (result : MergeResult) (name : String) : NameState where
  localAdded := result.localChanges.added.lookup name
  localUpdated := result.localChanges.updated.lookup name
  localRemoved := result.localChanges.removed.contains name
  remoteAdded := result.remoteChanges.added.lookup name
  remoteUpdated := result.remoteChanges.updated.lookup name
  remoteRemoved := result.remoteChanges.removed.contains name
  conflict := result.conflicts.contains name

theorem MergeResult.atMostOne_iff (result : MergeResult) (name : String) :
    (result.at name).AtMostOne ↔
      result.localChanges.AtMostOne name ∧ result.remoteChanges.AtMostOne name := by
  simp [NameState.AtMostOne, Changes.AtMostOne, MergeResult.at]

theorem MergeResult.localResult_eq (result : MergeResult) (locals : StringDictionary)
    (name : String) :
    (result.localChanges.apply locals).lookup name =
      (result.at name).localResult (locals.lookup name) := by
  rw [Changes.lookup_apply]
  simp [NameState.localResult, MergeResult.at]

theorem MergeResult.remoteResult_eq (result : MergeResult) (remotes : StringDictionary)
    (name : String) :
    (result.remoteChanges.apply remotes).lookup name =
      (result.at name).remoteResult (remotes.lookup name) := by
  rw [Changes.lookup_apply]
  simp [NameState.remoteResult, MergeResult.at]

namespace SnippetsMerge

section Names

variable (locals remotes : StringDictionary) (base : Option StringDictionary) (name : String)

/-- The merge records the outcome of every name, or nothing where both sides are the same. -/
theorem merge_at :
    (merge locals (some remotes) base).at name =
        outcome (valueOf base name) (locals.lookup name) (remotes.lookup name) ∨
      locals.lookup name = remotes.lookup name ∧
        (merge locals (some remotes) base).at name = NameState.initial := by
  by_cases hsame : (compare (some locals) (some remotes)).isEmpty = true
  · right
    have heq := (compare_isEmpty_iff _ _).mp hsame name
    refine ⟨heq, ?_⟩
    simp only [merge, hsame, if_true]
    rfl
  · left
    simp only [merge, hsame]
    exact loops_at locals remotes base name

theorem merge_atMostOne : ((merge locals (some remotes) base).at name).AtMostOne := by
  rcases merge_at locals remotes base name with hat | ⟨-, hat⟩
  · rw [hat]
    exact outcome_atMostOne _ _ _
  · rw [hat]
    simp [NameState.AtMostOne, NameState.initial]

theorem merge_conflict :
    ((merge locals (some remotes) base).at name).conflict = true ↔
      threeWay (valueOf base name) (locals.lookup name) (remotes.lookup name) = none ∧
        ¬ Restored (valueOf base name) (locals.lookup name) (remotes.lookup name) := by
  rcases merge_at locals remotes base name with hat | ⟨heq, hat⟩
  · rw [hat]
    exact outcome_conflict _ _ _
  · rw [hat, heq, threeWay_self]
    simp [NameState.initial]

theorem merge_result (h : ((merge locals (some remotes) base).at name).conflict = false) :
    let n := (merge locals (some remotes) base).at name
    n.remoteResult (remotes.lookup name) = n.localResult (locals.lookup name) ∧
      (threeWay (valueOf base name) (locals.lookup name) (remotes.lookup name) =
          some (n.localResult (locals.lookup name)) ∨
        Restored (valueOf base name) (locals.lookup name) (remotes.lookup name) ∧
          n.localResult (locals.lookup name) = remotes.lookup name) := by
  rcases merge_at locals remotes base name with hat | ⟨heq, hat⟩
  · rw [hat] at h ⊢
    exact outcome_result h
  · rw [hat, heq, threeWay_self]
    exact ⟨rfl, .inl rfl⟩

end Names

theorem merge_none_atMostOne (locals : StringDictionary) (base : Option StringDictionary)
    (name : String) : ((merge locals none base).at name).AtMostOne := by
  simp [NameState.AtMostOne, MergeResult.at, merge, Changes.empty]

/-- Without a remote side the local content goes there as it is. -/
theorem merge_none_apply (locals : StringDictionary) (base : Option StringDictionary)
    (name : String) :
    ((merge locals none base).localChanges.apply locals).lookup name = locals.lookup name ∧
      ((merge locals none base).remoteChanges.apply ∅).lookup name = locals.lookup name := by
  rw [Changes.lookup_apply, Changes.lookup_apply]
  simp [merge, Changes.empty]

/-- Two sides that are the same have nothing to do. -/
theorem merge_same {locals remotes : StringDictionary} (base : Option StringDictionary)
    (h : ∀ name, locals.lookup name = remotes.lookup name) :
    merge locals (some remotes) base = ⟨Changes.empty, Changes.empty, []⟩ := by
  have hsame : (compare (some locals) (some remotes)).isEmpty = true :=
    (compare_isEmpty_iff _ _).mpr h
  simp only [merge, hsame, if_true]

end SnippetsMerge

/-! ## Three-way merge -/

/-- The remote side exists and has another content than the base. -/
def ChangedRemotely (remote base : Option StringDictionary) (name : String) : Prop :=
  ∃ remotes, remote = some remotes ∧ remotes.lookup name ≠ valueOf base name

def ChangedLocally (locals : StringDictionary) (base : Option StringDictionary) (name : String) :
    Prop :=
  locals.lookup name ≠ valueOf base name

structure IsThreeWayMerge (merge : Merge) : Prop where
  /-- A name is added, updated or removed on a side, and not two of these. -/
  atMostOne : ∀ locals remote base name,
    (merge locals remote base).localChanges.AtMostOne name ∧
      (merge locals remote base).remoteChanges.AtMostOne name
  /-- A conflict is a name that both sides have changed in different ways, unless it
  was removed locally and changed remotely. -/
  conflict_iff : ∀ locals remotes base name,
    name ∈ (merge locals (some remotes) base).conflicts ↔
      ChangedLocally locals base name ∧ ChangedRemotely (some remotes) base name ∧
        locals.lookup name ≠ remotes.lookup name ∧
        ¬ Restored (valueOf base name) (locals.lookup name) (remotes.lookup name)
  /-- Then it is added to the local side as it is remotely. -/
  restored : ∀ locals remotes base name,
    Restored (valueOf base name) (locals.lookup name) (remotes.lookup name) →
      (merge locals (some remotes) base).localChanges.added.lookup name = remotes.lookup name
  converges : ∀ locals remote base, (merge locals remote base).conflicts = [] → ∀ name,
    ((merge locals remote base).localChanges.apply locals).lookup name =
      ((merge locals remote base).remoteChanges.apply (remote.getD ∅)).lookup name
  /-- What only the local side has changed has the local content. -/
  localWins : ∀ locals remote base, (merge locals remote base).conflicts = [] → ∀ name,
    ChangedLocally locals base name → ¬ ChangedRemotely remote base name →
      ((merge locals remote base).localChanges.apply locals).lookup name = locals.lookup name
  /-- What only the remote side has changed has the remote content. -/
  remoteWins : ∀ locals remotes base, (merge locals (some remotes) base).conflicts = [] →
    ∀ name, ¬ ChangedLocally locals base name → ChangedRemotely (some remotes) base name →
      ((merge locals (some remotes) base).localChanges.apply locals).lookup name =
        remotes.lookup name
  /-- Merged again, with the result as base, nothing changes. -/
  settles : ∀ locals remote base, (merge locals remote base).conflicts = [] →
    let merged := (merge locals remote base).localChanges.apply locals
    merge merged (some ((merge locals remote base).remoteChanges.apply (remote.getD ∅)))
      (some merged) = ⟨Changes.empty, Changes.empty, []⟩

theorem not_conflict_of_eq_nil {result : MergeResult} (h : result.conflicts = [])
    (name : String) : (result.at name).conflict = false := by
  simp [MergeResult.at, h]

theorem snippetsMerge_converges {locals : StringDictionary} {remote base : Option StringDictionary}
    (h : (SnippetsMerge.merge locals remote base).conflicts = []) (name : String) :
    ((SnippetsMerge.merge locals remote base).localChanges.apply locals).lookup name =
      ((SnippetsMerge.merge locals remote base).remoteChanges.apply (remote.getD ∅)).lookup
        name := by
  cases remote with
  | none =>
    obtain ⟨hlocal, hremote⟩ := SnippetsMerge.merge_none_apply locals base name
    rw [hlocal, Option.getD_none, hremote]
  | some remotes =>
    rw [MergeResult.localResult_eq, Option.getD_some, MergeResult.remoteResult_eq]
    exact (SnippetsMerge.merge_result locals remotes base name
      (not_conflict_of_eq_nil h name)).1.symm

theorem snippetsMerge_isThreeWayMerge : IsThreeWayMerge SnippetsMerge.merge := by
  refine ⟨?_, ?_, ?_, fun locals remote base h name => snippetsMerge_converges h name, ?_, ?_,
    fun locals remote base h => SnippetsMerge.merge_same _ (snippetsMerge_converges h)⟩
  · intro locals remote base name
    rw [← MergeResult.atMostOne_iff]
    cases remote with
    | none => exact SnippetsMerge.merge_none_atMostOne locals base name
    | some remotes => exact SnippetsMerge.merge_atMostOne locals remotes base name
  · intro locals remotes base name
    have hconflict := SnippetsMerge.merge_conflict locals remotes base name
    rw [threeWay_eq_none] at hconflict
    simpa [MergeResult.at, ChangedLocally, ChangedRemotely, and_assoc] using hconflict
  · intro locals remotes base name hrestored
    rcases SnippetsMerge.merge_at locals remotes base name with hat | ⟨heq, -⟩
    · exact (congrArg NameState.localAdded hat).trans (outcome_restored hrestored)
    · exact absurd (heq ▸ hrestored.2.1) hrestored.2.2.1
  · intro locals remote base h name hlocal hremote
    cases remote with
    | none => exact (SnippetsMerge.merge_none_apply locals base name).1
    | some remotes =>
      have hsame : remotes.lookup name = valueOf base name := by
        by_contra hne
        exact hremote ⟨remotes, rfl, hne⟩
      have hresult := (SnippetsMerge.merge_result locals remotes base name
        (not_conflict_of_eq_nil h name)).2
      rw [MergeResult.localResult_eq]
      rw [hsame, threeWay_right] at hresult
      rcases hresult with hmerged | ⟨hrestored, -⟩
      · exact (Option.some.inj hmerged).symm
      · exact absurd rfl hrestored.2.2.2
  · intro locals remotes base h name hlocal hremote
    have hsame : locals.lookup name = valueOf base name := not_not.mp hlocal
    have hresult := (SnippetsMerge.merge_result locals remotes base name
      (not_conflict_of_eq_nil h name)).2
    rw [MergeResult.localResult_eq]
    rw [← hsame, threeWay_left] at hresult
    rcases hresult with hmerged | ⟨-, hresult⟩
    · exact (Option.some.inj hmerged).symm
    · exact hresult

/-- Snippets and prompts are merged in three ways. -/
theorem merge_isThreeWayMerge :
    IsThreeWayMerge SnippetsMerge.merge ∧ IsThreeWayMerge PromptsMerge.merge :=
  ⟨snippetsMerge_isThreeWayMerge, snippetsMerge_isThreeWayMerge⟩

end NexgileIde.UserDataSync
