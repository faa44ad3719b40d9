import NexgileIde.UserDataSync.KeybindingsMerge

/-!
# Merged keybindings have the rules of one side for each command

Rules count as the same when, for each key and each sign, they come in the same order. A merge
without conflicts takes the rules of some commands from the remote side, where the local ones are
those of the base, and leaves all others as they are locally.
-/

namespace NexgileIde.UserDataSync.Keybindings

open Text

variable {A E C : Type}

section Maps

theorem RuleMap.get_map (map : RuleMap A) (key : Str) (keybinding : IUserFriendlyKeybinding A)
    (k : Str) : RuleMap.get (map.map fun entry =>
        if entry.1 = key then (key, entry.2 ++ [keybinding]) else entry) k =
      if k = key then (map.get key).map (· ++ [keybinding]) else map.get k := by
  unfold RuleMap.get
  induction map with
  | nil => simp
  | cons entry map ih =>
    obtain ⟨first, rules⟩ := entry
    rw [List.map_cons, List.lookup_cons, List.lookup_cons, List.lookup_cons]
    by_cases hfirst : first = key
    · subst hfirst
      by_cases hk : k = first
      · simp [hk]
      · have hne : (k == first) = false := by simpa using hk
        simp [hk, hne, ih]
    · by_cases hk : k = first
      · subst hk
        simp [hfirst]
      · have hne : (k == first) = false := by simpa using hk
        have hkey : (key == first) = false := by simpa using Ne.symm hfirst
        simp [hfirst, hne, hkey, ih]

theorem RuleMap.get_push (map : RuleMap A) (key : Str) (keybinding : IUserFriendlyKeybinding A)
    (k : Str) : (map.push key keybinding).get k =
      if k = key then some ((map.get key).getD [] ++ [keybinding]) else map.get k := by
  unfold RuleMap.push
  split_ifs with hsome hk hk
  · rw [RuleMap.get_map, if_pos hk]
    obtain ⟨rules, hrules⟩ := Option.isSome_iff_exists.mp hsome
    rw [hrules]
    rfl
  · rw [RuleMap.get_map, if_neg hk]
  · subst hk
    rw [Option.not_isSome_iff_eq_none] at hsome
    unfold RuleMap.get at *
    rw [List.lookup_append, hsome]
    simp
  · have hne : (k == key) = false := by simpa using hk
    unfold RuleMap.get
    simp [List.lookup_append, List.lookup_cons, hne]

theorem RuleMap.mem_keys (map : RuleMap A) (key : Str) :
    key ∈ map.keys ↔ (map.get key).isSome := by
  unfold RuleMap.keys RuleMap.get
  induction map with
  | nil => simp
  | cons entry map ih =>
    rw [List.map_cons, List.mem_cons, ih, List.lookup_cons]
    by_cases hkey : key = entry.1
    · simp [hkey]
    · have hne : (key == entry.1) = false := by simpa using hkey
      simp [hkey, hne]

/-- The rules of a group, in their order -/
def rulesOf (group : IUserFriendlyKeybinding A → Str) (key : Str)
    (keybindings : List (IUserFriendlyKeybinding A)) : List (IUserFriendlyKeybinding A) :=
  keybindings.filter fun keybinding => group keybinding = key

theorem groupBy_append (group : IUserFriendlyKeybinding A → Str)
    (keybindings : List (IUserFriendlyKeybinding A)) (keybinding : IUserFriendlyKeybinding A) :
    groupBy group (keybindings ++ [keybinding]) =
      (groupBy group keybindings).push (group keybinding) keybinding := by
  unfold groupBy
  rw [List.foldl_append]
  rfl

/-- The rules of a key are those that were pushed under it, in their order. -/
theorem get_groupBy (group : IUserFriendlyKeybinding A → Str)
    (keybindings : List (IUserFriendlyKeybinding A)) (key : Str) :
    (groupBy group keybindings).get key =
      if rulesOf group key keybindings = [] then none
      else some (rulesOf group key keybindings) := by
  induction keybindings using List.reverseRecOn with
  | nil => rfl
  | append_singleton keybindings keybinding ih =>
    have hrules : rulesOf group key (keybindings ++ [keybinding]) =
        rulesOf group key keybindings ++ if group keybinding = key then [keybinding] else [] := by
      unfold rulesOf
      rw [List.filter_append]
      by_cases hgroup : group keybinding = key <;> simp [hgroup]
    rw [groupBy_append, RuleMap.get_push, hrules]
    by_cases hgroup : key = group keybinding
    · subst hgroup
      rw [ih]
      by_cases hnil : rulesOf group (group keybinding) keybindings = [] <;> simp [hnil]
    · simp [hgroup, Ne.symm hgroup, ih]

theorem mem_keys_groupBy (group : IUserFriendlyKeybinding A → Str)
    (keybindings : List (IUserFriendlyKeybinding A)) (key : Str) :
    key ∈ (groupBy group keybindings).keys ↔ rulesOf group key keybindings ≠ [] := by
  rw [RuleMap.mem_keys, get_groupBy]
  by_cases hnil : rulesOf group key keybindings = [] <;> simp [hnil]

theorem getD_get_groupBy (group : IUserFriendlyKeybinding A → Str)
    (keybindings : List (IUserFriendlyKeybinding A)) (key : Str) :
    ((groupBy group keybindings).get key).getD [] = rulesOf group key keybindings := by
  rw [get_groupBy]
  by_cases hnil : rulesOf group key keybindings = [] <;> simp [hnil]

end Maps

section Compares

/-- The result tells in which groups the rules of two lists differ. -/
structure Compares (group : IUserFriendlyKeybinding A → Str)
    (isSame : List (IUserFriendlyKeybinding A) → List (IUserFriendlyKeybinding A) → Bool)
    (before after : List (IUserFriendlyKeybinding A)) (result : ICompareResult) : Prop where
  added : ∀ key, key ∈ result.added ↔ rulesOf group key before = [] ∧ rulesOf group key after ≠ []
  removed : ∀ key, key ∈ result.removed ↔
    rulesOf group key before ≠ [] ∧ rulesOf group key after = []
  updated : ∀ key, key ∈ result.updated ↔ rulesOf group key before ≠ [] ∧
    rulesOf group key after ≠ [] ∧ isSame (rulesOf group key before) (rulesOf group key after) = false

variable {group : IUserFriendlyKeybinding A → Str}
  {isSame : List (IUserFriendlyKeybinding A) → List (IUserFriendlyKeybinding A) → Bool}
  {before after : List (IUserFriendlyKeybinding A)} {result : ICompareResult}

theorem compareBy_compares (before after : List (IUserFriendlyKeybinding A)) :
    Compares group isSame before after
      (compareBy isSame (groupBy group before) (groupBy group after)) where
  added key := by
    simp [compareBy, mem_keys_groupBy, and_comm]
  removed key := by
    simp [compareBy, mem_keys_groupBy]
  updated key := by
    simp only [compareBy, List.mem_filter, mem_keys_groupBy, getD_get_groupBy, Bool.and_eq_true,
      Bool.not_eq_true', List.contains_eq_mem, decide_eq_false_iff_not, not_and, Decidable.not_not]
    grind

theorem allAdded_compares (after : List (IUserFriendlyKeybinding A)) :
    Compares group isSame [] after (allAdded (groupBy group after)) where
  added key := by
    simp [allAdded, mem_keys_groupBy, rulesOf]
  removed key := by
    simp [allAdded, rulesOf]
  updated key := by
    simp [allAdded, rulesOf]

/-- A base that is not there is compared as one without rules. -/
theorem elim_compares (base : Option (List (IUserFriendlyKeybinding A)))
    (after : List (IUserFriendlyKeybinding A)) :
    Compares group isSame (base.getD []) after
      ((base.map (groupBy group)).elim (allAdded (groupBy group after)) fun before =>
        compareBy isSame before (groupBy group after)) := by
  cases base with
  | none => exact allAdded_compares after
  | some base => exact compareBy_compares base after

/-- What was not found to be different is the same. -/
theorem Compares.same_of_not_mem (h : Compares group isSame before after result)
    (hnil : isSame [] [] = true) (key : Str) (hadded : key ∉ result.added)
    (hremoved : key ∉ result.removed) (hupdated : key ∉ result.updated) :
    isSame (rulesOf group key before) (rulesOf group key after) = true := by
  rw [h.added] at hadded
  rw [h.removed] at hremoved
  rw [h.updated] at hupdated
  by_cases hbefore : rulesOf group key before = []
  · have hafter : rulesOf group key after = [] := by simpa [hbefore] using hadded
    rw [hbefore, hafter]
    exact hnil
  · have hafter : rulesOf group key after ≠ [] := by simpa [hbefore] using hremoved
    simpa [hbefore, hafter] using hupdated

theorem Compares.same_of_isEmpty (h : Compares group isSame before after result)
    (hnil : isSame [] [] = true) (hempty : result.isEmpty = true) (key : Str) :
    isSame (rulesOf group key before) (rulesOf group key after) = true := by
  obtain ⟨⟨hadded, hremoved⟩, hupdated⟩ :
      (result.added = [] ∧ result.removed = []) ∧ result.updated = [] := by
    simpa [ICompareResult.isEmpty] using hempty
  apply h.same_of_not_mem hnil key
  · simp [hadded]
  · simp [hremoved]
  · simp [hupdated]

end Compares

section SameRules

variable (platform : Platform A E C) (keys : Str → Str)

/-- The rules are the same when their keys are normalized. -/
def Same (a b : IUserFriendlyKeybinding A) : Prop :=
  isSameKeybinding platform { a with key := keys a.key } { b with key := keys b.key } = true

/-- For each key and each sign, the same rules in the same order -/
def SameRules (one other : List (IUserFriendlyKeybinding A)) : Prop :=
  ∀ key negated, List.Forall₂ (Same platform keys)
    (one.filter fun r => keys r.key = key && isNegated r = negated)
    (other.filter fun r => keys r.key = key && isNegated r = negated)

variable {platform keys}

theorem Same.command_eq {a b : IUserFriendlyKeybinding A} (h : Same platform keys a b) :
    a.command = b.command := by
  unfold Same isSameKeybinding at h
  by_contra hne
  simp [hne] at h

theorem Same.key_eq {a b : IUserFriendlyKeybinding A} (h : Same platform keys a b) :
    keys a.key = keys b.key := by
  unfold Same isSameKeybinding at h
  by_contra hne
  simp [hne] at h

theorem equalRules_withKeys (one other : List (IUserFriendlyKeybinding A)) :
    equalRules platform (withKeys keys one) (withKeys keys other) = true ↔
      List.Forall₂ (Same platform keys) one other := by
  induction one generalizing other with
  | nil =>
    cases other with
    | nil => simp [withKeys, equalRules]
    | cons b other => simp [withKeys, equalRules]
  | cons a one ih =>
    cases other with
    | nil => simp [withKeys, equalRules]
    | cons b other =>
      have ih := ih other
      unfold withKeys at ih
      simp [withKeys, equalRules, ih, Same]

/-- Rules that are the same pass the same filters on their command and their normalized key. -/
theorem forall₂_filter {one other : List (IUserFriendlyKeybinding A)}
    {p : IUserFriendlyKeybinding A → Bool} (hp : ∀ a b, Same platform keys a b → p a = p b)
    (h : List.Forall₂ (Same platform keys) one other) :
    List.Forall₂ (Same platform keys) (one.filter p) (other.filter p) := by
  apply List.rel_filter (R := Same platform keys) _ h
  intro a b hab
  change p a = true ↔ p b = true
  rw [hp a b hab]

theorem Same.isNegated_eq {a b : IUserFriendlyKeybinding A} (h : Same platform keys a b) :
    isNegated a = isNegated b := by
  unfold isNegated
  rw [h.command_eq]

theorem Same.commandOf_eq {a b : IUserFriendlyKeybinding A} (h : Same platform keys a b) :
    commandOf a = commandOf b := by
  unfold commandOf
  rw [h.command_eq]

theorem filter_withKeys (p : IUserFriendlyKeybinding A → Bool)
    (hp : ∀ r, p { r with key := keys r.key } = p r)
    (keybindings : List (IUserFriendlyKeybinding A)) :
    (withKeys keys keybindings).filter p = withKeys keys (keybindings.filter p) := by
  unfold withKeys
  rw [List.filter_map]
  congr 1
  apply List.filter_congr
  intro r _
  exact hp r

theorem sameRules_of_command {one other : List (IUserFriendlyKeybinding A)}
    (h : areSameKeybindingsWithSameCommand platform (withKeys keys one) (withKeys keys other) =
      true) : SameRules platform keys one other := by
  unfold areSameKeybindingsWithSameCommand at h
  rw [Bool.and_eq_true, filter_withKeys _ (fun _ => rfl), filter_withKeys _ (fun _ => rfl),
    filter_withKeys _ (fun _ => rfl), filter_withKeys _ (fun _ => rfl), equalRules_withKeys,
    equalRules_withKeys] at h
  obtain ⟨hpositive, hnegative⟩ := h
  intro key negated
  have hkey : ∀ a b, Same platform keys a b →
      decide (keys a.key = key) = decide (keys b.key = key) := by
    intro a b hab
    rw [hab.key_eq]
  cases negated with
  | false => simpa [List.filter_filter] using forall₂_filter hkey hpositive
  | true => simpa [List.filter_filter] using forall₂_filter hkey hnegative

theorem areSame_of_forall₂ {one other : List (IUserFriendlyKeybinding A)}
    (h : List.Forall₂ (Same platform keys) one other) :
    areSameKeybindingsWithSameCommand platform (withKeys keys one) (withKeys keys other) = true := by
  unfold areSameKeybindingsWithSameCommand
  rw [Bool.and_eq_true, filter_withKeys _ (fun _ => rfl), filter_withKeys _ (fun _ => rfl),
    filter_withKeys _ (fun _ => rfl), filter_withKeys _ (fun _ => rfl), equalRules_withKeys,
    equalRules_withKeys]
  constructor
  · apply forall₂_filter _ h
    intro a b hab
    rw [hab.isNegated_eq]
  · apply forall₂_filter _ h
    intro a b hab
    exact hab.isNegated_eq

/-- Where the rules of each key are the same, those of each command are. -/
theorem sameRules_of_keys {one other : List (IUserFriendlyKeybinding A)}
    (h : ∀ key, equalRules platform (withKeys keys (rulesOf (fun r => keys r.key) key one))
      (withKeys keys (rulesOf (fun r => keys r.key) key other)) = true) (command : Str) :
    SameRules platform keys (rulesOf commandOf command one) (rulesOf commandOf command other) := by
  intro key negated
  have hsame : ∀ a b, Same platform keys a b →
      (isNegated a = negated && decide (commandOf a = command)) =
        (isNegated b = negated && decide (commandOf b = command)) := by
    intro a b hab
    rw [hab.isNegated_eq, hab.commandOf_eq]
  have hforall := forall₂_filter hsame ((equalRules_withKeys _ _).mp (h key))
  unfold rulesOf at hforall ⊢
  rw [List.filter_filter, List.filter_filter] at hforall ⊢
  have hswap : (fun r : IUserFriendlyKeybinding A =>
      (isNegated r = negated && decide (commandOf r = command)) && decide (keys r.key = key)) =
      fun r => (decide (keys r.key = key) && decide (isNegated r = negated)) &&
        decide (commandOf r = command) := by
    funext r
    rw [Bool.and_comm, Bool.and_assoc]
  rw [hswap] at hforall
  exact hforall

end SameRules

section Result

theorem mem_addTo (set : List Str) (key k : Str) : k ∈ addTo set key ↔ k ∈ set ∨ k = key := by
  unfold addTo
  split_ifs with h
  · simp only [List.contains_eq_mem, decide_eq_true_eq] at h
    grind
  · simp

theorem nodup_addTo {set : List Str} (h : set.Nodup) (key : Str) : (addTo set key).Nodup := by
  unfold addTo
  split_ifs with hmem
  · exact h
  · simp only [List.contains_eq_mem, decide_eq_true_eq] at hmem
    grind

/-- A loop that has found no conflict -/
structure LoopTakes (isConflict isTaken : Str → Bool) (keys : List Str) (s s' : List Str × List Str) :
    Prop where
  before : s.2 = []
  noConflict : ∀ key ∈ keys, isConflict key = false
  mem : ∀ key, key ∈ s'.1 ↔ key ∈ s.1 ∨ key ∈ keys ∧ isTaken key = true
  nodup : s.1.Nodup → s'.1.Nodup

theorem mergeLoop_takes (isConflict isTaken : Str → Bool) (keys : List Str)
    (s : List Str × List Str) (h : (mergeLoop isConflict isTaken keys s).2 = []) :
    LoopTakes isConflict isTaken keys s (mergeLoop isConflict isTaken keys s) := by
  unfold mergeLoop at *
  induction keys generalizing s with
  | nil => exact ⟨h, by simp, by simp, fun hnodup => hnodup⟩
  | cons key keys ih =>
    rw [List.foldl_cons] at h ⊢
    have hrest := ih _ h
    have hbefore := hrest.before
    have hmem := hrest.mem
    have hnodup := hrest.nodup
    split_ifs at hbefore hmem hnodup ⊢ with hcontains hconflict htaken
    · simp [hbefore] at hcontains
    · have hkey : key ∈ addTo s.2 key := (mem_addTo _ _ _).mpr (Or.inr rfl)
      change addTo s.2 key = [] at hbefore
      simp [hbefore] at hkey
    · refine ⟨hbefore, ?_, ?_, fun h => hnodup (nodup_addTo h key)⟩
      · simpa [hconflict] using hrest.noConflict
      · intro k
        rw [hmem, mem_addTo, List.mem_cons]
        grind
    · refine ⟨hbefore, ?_, ?_, hnodup⟩
      · simpa [hconflict] using hrest.noConflict
      · intro k
        rw [hmem, List.mem_cons]
        grind

/-- Without conflicts, what remote has changed is taken unless it was added or updated locally too. -/
structure Resolves (localToRemote baseToLocal baseToRemote : ICompareResult)
    (result : MergeResult) : Prop where
  removed : ∀ key, key ∈ result.removed ↔ key ∈ baseToRemote.removed
  added : ∀ key, key ∈ result.added ↔ key ∈ baseToRemote.added ∧ key ∉ baseToLocal.added
  updated : ∀ key, key ∈ result.updated ↔ key ∈ baseToRemote.updated ∧ key ∉ baseToLocal.updated
  nodup_removed : result.removed.Nodup
  nodup_added : result.added.Nodup
  nodup_updated : result.updated.Nodup
  removedLocal : ∀ key ∈ baseToLocal.removed, key ∉ baseToRemote.updated
  removedRemote : ∀ key ∈ baseToRemote.removed, key ∉ baseToLocal.updated
  addedBoth : ∀ key ∈ baseToLocal.added, key ∈ baseToRemote.added → key ∉ localToRemote.updated
  updatedBoth : ∀ key ∈ baseToLocal.updated, key ∈ baseToRemote.updated →
    key ∉ localToRemote.updated

theorem computeMergeResult_resolves {localToRemote baseToLocal baseToRemote : ICompareResult}
    (h : (computeMergeResult localToRemote baseToLocal baseToRemote).conflicts = []) :
    Resolves localToRemote baseToLocal baseToRemote
      (computeMergeResult localToRemote baseToLocal baseToRemote) := by
  have updated := mergeLoop_takes _ _ _ _ h
  have updatedLocal := mergeLoop_takes _ _ _ _ updated.before
  have added := mergeLoop_takes _ _ _ _ updatedLocal.before
  have addedLocal := mergeLoop_takes _ _ _ _ added.before
  have removed := mergeLoop_takes _ _ _ _ addedLocal.before
  have removedLocal := mergeLoop_takes _ _ _ _ removed.before
  constructor
  · intro key
    exact (removed.mem key).trans (by simp)
  · intro key
    exact (added.mem key).trans (by simp)
  · intro key
    exact (updated.mem key).trans (by simp)
  · exact removed.nodup List.nodup_nil
  · exact added.nodup List.nodup_nil
  · exact updated.nodup List.nodup_nil
  · intro key hkey
    simpa using removedLocal.noConflict key hkey
  · intro key hkey
    simpa using removed.noConflict key hkey
  · intro key hkey
    simpa using addedLocal.noConflict key hkey
  · intro key hkey
    simpa using updatedLocal.noConflict key hkey

end Result

section Editing

/-- Contents that hold an array are edited as arrays are. -/
structure EditsArrays (platform : Platform A E C) (IsArray : C → Prop) : Prop where
  remove : ∀ content (index : ℕ), IsArray content → index < (platform.parse content).length →
    IsArray (platform.edit content index none) ∧
      platform.parse (platform.edit content index none) = (platform.parse content).eraseIdx index
  append : ∀ content keybinding, IsArray content →
    IsArray (platform.edit content (-1) (some keybinding)) ∧
      platform.parse (platform.edit content (-1) (some keybinding)) =
        platform.parse content ++ [keybinding]
  insert : ∀ content (index : ℕ) keybinding, IsArray content →
    index ≤ (platform.parse content).length →
    IsArray (platform.edit content index (some keybinding)) ∧
      platform.parse (platform.edit content index (some keybinding)) =
        (platform.parse content).insertIdx index keybinding

/-- The content holds these rules. -/
def Holds (platform : Platform A E C) (IsArray : C → Prop) (content : C)
    (keybindings : List (IUserFriendlyKeybinding A)) : Prop :=
  IsArray content ∧ platform.parse content = keybindings

variable {platform : Platform A E C} {IsArray : C → Prop} (edits : EditsArrays platform IsArray)
include edits

theorem holds_remove {content : C} {front back : List (IUserFriendlyKeybinding A)}
    {keybinding : IUserFriendlyKeybinding A}
    (h : Holds platform IsArray content (front ++ keybinding :: back)) :
    Holds platform IsArray (platform.edit content front.length none) (front ++ back) := by
  obtain ⟨harray, hparse⟩ := h
  have hlength : front.length < (platform.parse content).length := by simp [hparse]
  obtain ⟨harray', hparse'⟩ := edits.remove content front.length harray hlength
  refine ⟨harray', ?_⟩
  rw [hparse', hparse, List.eraseIdx_append_of_length_le (le_refl _)]
  simp

theorem holds_insert {content : C} {front back : List (IUserFriendlyKeybinding A)}
    (keybinding : IUserFriendlyKeybinding A)
    (h : Holds platform IsArray content (front ++ back)) :
    Holds platform IsArray (platform.edit content front.length (some keybinding))
      (front ++ keybinding :: back) := by
  obtain ⟨harray, hparse⟩ := h
  have hlength : front.length ≤ (platform.parse content).length := by simp [hparse]
  obtain ⟨harray', hparse'⟩ := edits.insert content front.length keybinding harray hlength
  refine ⟨harray', ?_⟩
  rw [hparse', hparse]
  clear hparse hparse' hlength harray'
  induction front with
  | nil => rfl
  | cons first front ih => simp [ih]

theorem addKeybindings_holds {content : C} {front : List (IUserFriendlyKeybinding A)}
    (keybindings : List (IUserFriendlyKeybinding A)) (h : Holds platform IsArray content front) :
    Holds platform IsArray (addKeybindings platform content keybindings) (front ++ keybindings) := by
  unfold addKeybindings
  induction keybindings generalizing content front with
  | nil => simpa using h
  | cons keybinding keybindings ih =>
    obtain ⟨harray, hparse⟩ := edits.append content keybinding h.1
    rw [h.2] at hparse
    have hrest := ih ⟨harray, hparse⟩
    simpa using hrest

/-- The indices are taken from the last one on, so that those before are still right. -/
theorem removeLoop_holds (command : Str) (front back : List (IUserFriendlyKeybinding A))
    {rest : List (IUserFriendlyKeybinding A)} {content : C}
    (h : Holds platform IsArray content (front ++ rest)) :
    Holds platform IsArray ((List.range front.length).reverse.foldl (fun content (index : ℕ) =>
        if (front ++ back)[index]?.any (isOfCommand command) then platform.edit content index none
        else content) content)
      ((front.filter fun keybinding => !isOfCommand command keybinding) ++ rest) := by
  induction front using List.reverseRecOn generalizing back rest content with
  | nil => exact h
  | append_singleton front keybinding ih =>
    rw [List.append_assoc, List.singleton_append] at h ⊢
    rw [List.length_append, List.length_singleton, List.range_succ, List.reverse_append,
      List.reverse_singleton, List.singleton_append, List.foldl_cons,
      List.getElem?_append_right (le_refl _), Nat.sub_self, List.getElem?_cons_zero,
      Option.any_some]
    by_cases hof : isOfCommand command keybinding
    · rw [if_pos hof]
      simpa [hof] using ih (keybinding :: back) (holds_remove edits h)
    · rw [if_neg hof]
      simpa [hof] using ih (keybinding :: back) h

theorem removeFrom_holds {content : C} (command : Str)
    {keybindings : List (IUserFriendlyKeybinding A)}
    (h : Holds platform IsArray content keybindings) :
    Holds platform IsArray (removeFrom platform keybindings command content)
      (keybindings.filter fun keybinding => !isOfCommand command keybinding) := by
  have happend : Holds platform IsArray content (keybindings ++ []) := by simpa using h
  have hloop := removeLoop_holds edits command keybindings [] happend
  rw [List.append_nil, List.append_nil] at hloop
  exact hloop

theorem removeKeybindings_holds {content : C} (command : Str)
    {keybindings : List (IUserFriendlyKeybinding A)}
    (h : Holds platform IsArray content keybindings) :
    Holds platform IsArray (removeKeybindings platform content command)
      (keybindings.filter fun keybinding => !isOfCommand command keybinding) := by
  unfold removeKeybindings
  rw [h.2]
  exact removeFrom_holds edits command h

/-- Inserted at one index from the last one on, the rules stand there in their order. -/
theorem insertLoop_holds {front back : List (IUserFriendlyKeybinding A)}
    (keybindings : List (IUserFriendlyKeybinding A)) {content : C}
    (h : Holds platform IsArray content (front ++ back)) :
    Holds platform IsArray (keybindings.reverse.foldl (fun content keybinding =>
        platform.edit content front.length (some keybinding)) content)
      (front ++ (keybindings ++ back)) := by
  rw [List.foldl_reverse]
  induction keybindings with
  | nil => exact h
  | cons keybinding keybindings ih => exact holds_insert edits keybinding ih

/-- The rules of the command are replaced at the place of the first one. -/
theorem updateKeybindings_holds {content : C} (command : Str)
    {front back : List (IUserFriendlyKeybinding A)} {first : IUserFriendlyKeybinding A}
    (keybindings : List (IUserFriendlyKeybinding A))
    (hfront : ∀ keybinding ∈ front, isOfCommand command keybinding = false)
    (hfirst : isOfCommand command first = true)
    (h : Holds platform IsArray content (front ++ first :: back)) :
    Holds platform IsArray (updateKeybindings platform content command keybindings)
      (front ++ (keybindings ++ back.filter fun keybinding => !isOfCommand command keybinding)) := by
  have hlocation : (front ++ first :: back).findIdx? (isOfCommand command) = some front.length := by
    rw [List.findIdx?_append, List.findIdx?_eq_none_iff.mpr hfront]
    simp [List.findIdx?_cons, hfirst]
  have hremoved := removeFrom_holds edits command h
  have hfilter : (front ++ first :: back).filter (fun keybinding =>
      !isOfCommand command keybinding) =
      front ++ back.filter fun keybinding => !isOfCommand command keybinding := by
    have hkeep : front.filter (fun keybinding => !isOfCommand command keybinding) = front := by
      rw [List.filter_eq_self]
      intro keybinding hmem
      simp [hfront keybinding hmem]
    rw [List.filter_append, hkeep]
    simp [hfirst]
  rw [hfilter] at hremoved
  unfold updateKeybindings
  simp only [h.2, hlocation, Option.elim_some]
  exact insertLoop_holds edits keybindings hremoved

end Editing

section Taking

/-- The commands take their rules from the remote side; the rules of all others are the local ones. -/
structure Takes (taken : List Str) (localRules remoteRules keybindings :
    List (IUserFriendlyKeybinding A)) : Prop where
  remote : ∀ command ∈ taken, rulesOf commandOf command keybindings =
    rulesOf commandOf command remoteRules
  others : keybindings.filter (fun keybinding => commandOf keybinding ∉ taken) =
    localRules.filter fun keybinding => commandOf keybinding ∉ taken

theorem isOfCommand_eq {command : Str} (hcommand : command.head? ≠ some dash)
    (keybinding : IUserFriendlyKeybinding A) :
    isOfCommand command keybinding = decide (commandOf keybinding = command) := by
  unfold isOfCommand commandOf
  rw [Bool.eq_iff_iff, Bool.or_eq_true, decide_eq_true_eq, decide_eq_true_eq, decide_eq_true_eq]
  cases hrule : keybinding.command with
  | nil => simp
  | cons first rest =>
    by_cases hfirst : first = dash
    · subst hfirst
      have hne : dash :: rest ≠ command := by
        intro heq
        apply hcommand
        rw [← heq]
        rfl
      simp [hne]
    · simp [hfirst]

/-- Lists that agree on some commands have the same rules of each of them. -/
theorem rulesOf_eq_of_filter (p : Str → Prop) [DecidablePred p]
    {one other : List (IUserFriendlyKeybinding A)}
    (h : one.filter (fun keybinding => p (commandOf keybinding)) =
      other.filter fun keybinding => p (commandOf keybinding))
    {command : Str} (hcommand : p command) :
    rulesOf commandOf command one = rulesOf commandOf command other := by
  have hfilter := congrArg (rulesOf commandOf command) h
  unfold rulesOf at hfilter ⊢
  rw [List.filter_filter, List.filter_filter] at hfilter
  have hsame : (fun keybinding : IUserFriendlyKeybinding A =>
      decide (commandOf keybinding = command) && decide (p (commandOf keybinding))) =
      fun keybinding => decide (commandOf keybinding = command) := by
    funext keybinding
    by_cases hkey : commandOf keybinding = command
    · simp [hkey, hcommand]
    · simp [hkey]
  rw [hsame] at hfilter
  exact hfilter

variable {localRules remoteRules keybindings : List (IUserFriendlyKeybinding A)}

theorem takes_nil : Takes [] localRules remoteRules localRules := ⟨by simp, rfl⟩

/-- One more command is replaced, and nothing else. -/
theorem Takes.cons {taken : List Str} (h : Takes taken localRules remoteRules keybindings)
    {command : Str} {keybindings' : List (IUserFriendlyKeybinding A)}
    (hcommand : rulesOf commandOf command keybindings' = rulesOf commandOf command remoteRules)
    (hothers : keybindings'.filter (fun keybinding => commandOf keybinding ≠ command) =
      keybindings.filter fun keybinding => commandOf keybinding ≠ command) :
    Takes (command :: taken) localRules remoteRules keybindings' := by
  constructor
  · intro k hk
    by_cases hkey : k = command
    · rw [hkey, hcommand]
    · rw [rulesOf_eq_of_filter (fun k => k ≠ command) hothers hkey]
      exact h.remote k (by simpa [hkey] using hk)
  · have hsplit : ∀ keybindings : List (IUserFriendlyKeybinding A),
        keybindings.filter (fun keybinding => commandOf keybinding ∉ command :: taken) =
          (keybindings.filter fun keybinding => commandOf keybinding ∉ taken).filter
            fun keybinding => commandOf keybinding ≠ command := by
      intro keybindings
      rw [List.filter_filter]
      simp
    have hswap : ∀ keybindings : List (IUserFriendlyKeybinding A),
        keybindings.filter (fun keybinding => commandOf keybinding ∉ command :: taken) =
          (keybindings.filter fun keybinding => commandOf keybinding ≠ command).filter
            fun keybinding => commandOf keybinding ∉ taken := by
      intro keybindings
      rw [hsplit, List.filter_filter, List.filter_filter]
      simp only [Bool.and_comm]
    rw [hswap, hothers, ← hswap, hsplit, hsplit, h.others]

/-- The rules of a command that is not taken are the local ones. -/
theorem Takes.rulesOf_eq {taken : List Str} (h : Takes taken localRules remoteRules keybindings)
    {command : Str} (hcommand : command ∉ taken) :
    rulesOf commandOf command keybindings = rulesOf commandOf command localRules :=
  rulesOf_eq_of_filter (fun k => k ∉ taken) h.others hcommand

variable {platform : Platform A E C} {IsArray : C → Prop}

/-- A step for one command takes its rules from the remote side. -/
def TakesOne (platform : Platform A E C) (IsArray : C → Prop)
    (remoteRules keybindings : List (IUserFriendlyKeybinding A)) (command : Str) (content : C) :
    Prop :=
  ∃ keybindings', Holds platform IsArray content keybindings' ∧
    rulesOf commandOf command keybindings' = rulesOf commandOf command remoteRules ∧
    keybindings'.filter (fun keybinding => commandOf keybinding ≠ command) =
      keybindings.filter fun keybinding => commandOf keybinding ≠ command

theorem foldl_takes {step : C → Str → C} {commands : List Str}
    (hstep : ∀ command ∈ commands, ∀ content keybindings,
      Holds platform IsArray content keybindings →
      rulesOf commandOf command keybindings = rulesOf commandOf command localRules →
      TakesOne platform IsArray remoteRules keybindings command (step content command))
    (hnodup : commands.Nodup) {taken : List Str} (hdisjoint : ∀ command ∈ commands, command ∉ taken)
    {content : C} (hcontent : Holds platform IsArray content keybindings)
    (h : Takes taken localRules remoteRules keybindings) :
    ∃ keybindings', Holds platform IsArray (commands.foldl step content) keybindings' ∧
      Takes (commands.reverse ++ taken) localRules remoteRules keybindings' := by
  induction commands generalizing taken content keybindings with
  | nil => exact ⟨keybindings, hcontent, h⟩
  | cons command commands ih =>
    obtain ⟨hnot, hnodup⟩ := List.nodup_cons.mp hnodup
    have hlocal := h.rulesOf_eq (hdisjoint command (List.mem_cons_self))
    obtain ⟨keybindings', hholds, hcommand, hothers⟩ :=
      hstep command List.mem_cons_self content keybindings hcontent hlocal
    rw [List.foldl_cons, List.reverse_cons, List.append_assoc, List.singleton_append]
    apply ih _ hnodup _ hholds (h.cons hcommand hothers)
    · intro c hc
      exact hstep c (List.mem_cons_of_mem _ hc)
    · intro c hc hmem
      rcases List.mem_cons.mp hmem with heq | hmem
      · exact hnot (heq ▸ hc)
      · exact hdisjoint c (List.mem_cons_of_mem _ hc) hmem

theorem filter_not_isOfCommand {command : Str} (hcommand : command.head? ≠ some dash)
    (keybindings : List (IUserFriendlyKeybinding A)) :
    keybindings.filter (fun keybinding => !isOfCommand command keybinding) =
      keybindings.filter fun keybinding => commandOf keybinding ≠ command := by
  apply List.filter_congr
  intro keybinding _
  rw [isOfCommand_eq hcommand]
  simp

@[simp] theorem rulesOf_filter_ne (command : Str)
    (keybindings : List (IUserFriendlyKeybinding A)) :
    rulesOf commandOf command
      (keybindings.filter fun keybinding => commandOf keybinding ≠ command) = [] := by
  unfold rulesOf
  rw [List.filter_filter, List.filter_eq_nil_iff]
  simp

@[simp] theorem rulesOf_rulesOf (command : Str) (keybindings : List (IUserFriendlyKeybinding A)) :
    rulesOf commandOf command (rulesOf commandOf command keybindings) =
      rulesOf commandOf command keybindings := by
  unfold rulesOf
  rw [List.filter_filter]
  simp

@[simp] theorem filter_ne_rulesOf (command : Str)
    (keybindings : List (IUserFriendlyKeybinding A)) :
    (rulesOf commandOf command keybindings).filter
      (fun keybinding => commandOf keybinding ≠ command) = [] := by
  unfold rulesOf
  rw [List.filter_filter, List.filter_eq_nil_iff]
  simp

theorem rulesOf_append (command : Str) (one other : List (IUserFriendlyKeybinding A)) :
    rulesOf commandOf command (one ++ other) =
      rulesOf commandOf command one ++ rulesOf commandOf command other := by
  unfold rulesOf
  rw [List.filter_append]

variable (edits : EditsArrays platform IsArray)
include edits

theorem removeKeybindings_takes {command : Str} (hcommand : command.head? ≠ some dash)
    (hremote : rulesOf commandOf command remoteRules = []) {content : C}
    (h : Holds platform IsArray content keybindings) :
    TakesOne platform IsArray remoteRules keybindings command
      (removeKeybindings platform content command) := by
  have hholds := removeKeybindings_holds edits command h
  rw [filter_not_isOfCommand hcommand] at hholds
  refine ⟨_, hholds, ?_, ?_⟩
  · rw [rulesOf_filter_ne, hremote]
  · rw [List.filter_filter]
    simp

theorem addKeybindings_takes {command : Str}
    (hlocal : rulesOf commandOf command keybindings = []) {content : C}
    (h : Holds platform IsArray content keybindings) :
    TakesOne platform IsArray remoteRules keybindings command
      (addKeybindings platform content (rulesOf commandOf command remoteRules)) := by
  refine ⟨_, addKeybindings_holds edits _ h, ?_, ?_⟩
  · rw [rulesOf_append, hlocal, rulesOf_rulesOf, List.nil_append]
  · rw [List.filter_append, filter_ne_rulesOf, List.append_nil]

theorem updateKeybindings_takes {command : Str} (hcommand : command.head? ≠ some dash)
    (hlocal : rulesOf commandOf command keybindings ≠ []) {content : C}
    (h : Holds platform IsArray content keybindings) :
    TakesOne platform IsArray remoteRules keybindings command
      (updateKeybindings platform content command (rulesOf commandOf command remoteRules)) := by
  obtain ⟨first, hfind⟩ : ∃ first, keybindings.find? (isOfCommand command) = some first := by
    rw [← Option.isSome_iff_exists, List.find?_isSome]
    obtain ⟨first, hmem⟩ := List.exists_mem_of_ne_nil _ hlocal
    unfold rulesOf at hmem
    rw [List.mem_filter, decide_eq_true_eq] at hmem
    refine ⟨first, hmem.1, ?_⟩
    rw [isOfCommand_eq hcommand]
    simpa using hmem.2
  obtain ⟨hfirst, front, back, rfl, hfront⟩ := List.find?_eq_some_iff_append.mp hfind
  have hnone : ∀ keybinding ∈ front, isOfCommand command keybinding = false := by
    intro keybinding hmem
    simpa using hfront keybinding hmem
  have hholds := updateKeybindings_holds edits command (rulesOf commandOf command remoteRules)
    hnone hfirst h
  rw [filter_not_isOfCommand hcommand] at hholds
  rw [isOfCommand_eq hcommand, decide_eq_true_eq] at hfirst
  have hfrontRules : rulesOf commandOf command front = [] := by
    unfold rulesOf
    rw [List.filter_eq_nil_iff]
    intro keybinding hmem
    have := hnone keybinding hmem
    rw [isOfCommand_eq hcommand] at this
    simpa using this
  refine ⟨_, hholds, ?_, ?_⟩
  · rw [rulesOf_append, rulesOf_append, hfrontRules, rulesOf_rulesOf, rulesOf_filter_ne]
    simp
  · rw [List.filter_append, List.filter_append, filter_ne_rulesOf, List.filter_filter,
      List.filter_append, List.filter_cons]
    simp [hfirst]

end Taking

section Merge

variable {platform : Platform A E C}

/-- A loop that ends without conflicts has taken the rules of all its commands. -/
theorem takeLoop_eq_foldl {keyConflicts : List Str} {normalizedKeys : Str → Str}
    {remoteByCommand : RuleMap A} {take : C → Str → List (IUserFriendlyKeybinding A) → C}
    {commands : List Str} {s : C × List Str}
    (h : (takeLoop keyConflicts normalizedKeys remoteByCommand take commands s).2 = []) :
    s.2 = [] ∧ (takeLoop keyConflicts normalizedKeys remoteByCommand take commands s).1 =
      commands.foldl (fun content command =>
        take content command ((remoteByCommand.get command).getD [])) s.1 := by
  unfold takeLoop at *
  induction commands generalizing s with
  | nil => exact ⟨h, rfl⟩
  | cons command commands ih =>
    rw [List.foldl_cons] at h ⊢
    obtain ⟨hbefore, hrest⟩ := ih h
    rw [hrest]
    dsimp only at hbefore hrest ⊢
    split_ifs at hbefore hrest ⊢ with hcontains hconflict
    · simp [hbefore] at hcontains
    · have hmem : command ∈ addTo s.2 command := (mem_addTo _ _ _).mpr (Or.inr rfl)
      change addTo s.2 command = [] at hbefore
      simp [hbefore] at hmem
    · exact ⟨hbefore, rfl⟩

theorem sameRules_of_isEmpty {keys : Str → Str} {before after : List (IUserFriendlyKeybinding A)}
    {result : ICompareResult} (h : Compares (fun r => keys r.key) (fun value1 value2 =>
      equalRules platform (withKeys keys value1) (withKeys keys value2)) before after result)
    (hempty : result.isEmpty = true) (command : Str) :
    SameRules platform keys (rulesOf commandOf command before) (rulesOf commandOf command after) := by
  apply sameRules_of_keys
  exact h.same_of_isEmpty rfl hempty

theorem sameRules_of_not_mem {keys : Str → Str} {before after : List (IUserFriendlyKeybinding A)}
    {result : ICompareResult} (h : Compares commandOf (fun value1 value2 =>
      areSameKeybindingsWithSameCommand platform (withKeys keys value1) (withKeys keys value2))
      before after result) {command : Str} (hadded : command ∉ result.added)
    (hremoved : command ∉ result.removed) (hupdated : command ∉ result.updated) :
    SameRules platform keys (rulesOf commandOf command before) (rulesOf commandOf command after) := by
  apply sameRules_of_command
  exact h.same_of_not_mem rfl command hadded hremoved hupdated

/-- Where a side has not moved forward, its rules are those of the base. -/
theorem computeMergeResultByKeybinding_same (platform : Platform A E C) (localRules remoteRules :
    List (IUserFriendlyKeybinding A)) (baseRules : Option (List (IUserFriendlyKeybinding A)))
    (normalizedKeys : Str → Str) (command : Str) {result : KeybindingsResult}
    (hresult : computeMergeResultByKeybinding platform localRules remoteRules baseRules
      normalizedKeys = result) :
    (result.hasLocalForwarded = false → result.hasRemoteForwarded = false →
      SameRules platform normalizedKeys (rulesOf commandOf command localRules)
        (rulesOf commandOf command remoteRules)) ∧
    (result.hasLocalForwarded = false → result.hasRemoteForwarded = true →
      SameRules platform normalizedKeys (rulesOf commandOf command (baseRules.getD []))
        (rulesOf commandOf command localRules)) ∧
    (result.hasLocalForwarded = true → result.hasRemoteForwarded = false →
      SameRules platform normalizedKeys (rulesOf commandOf command (baseRules.getD []))
        (rulesOf commandOf command remoteRules)) := by
  unfold computeMergeResultByKeybinding at hresult
  unfold compareByKeybinding byKeybinding at hresult
  dsimp only at hresult
  split_ifs at hresult with hsame hlocal hremote
  · subst hresult
    refine ⟨fun _ _ => ?_, by simp, by simp⟩
    exact sameRules_of_isEmpty (compareBy_compares localRules remoteRules) hsame command
  · subst hresult
    refine ⟨by simp, fun _ _ => ?_, by simp⟩
    exact sameRules_of_isEmpty (elim_compares baseRules localRules) hlocal command
  · subst hresult
    refine ⟨by simp, by simp, fun _ _ => ?_⟩
    exact sameRules_of_isEmpty (elim_compares baseRules remoteRules) hremote command
  · subst hresult
    simp

theorem SameRules.nil {keys : Str → Str} : SameRules platform keys [] [] := by
  intro key negated
  exact List.Forall₂.nil

/-- The changes that are found when both sides are compared with the base, and resolved -/
structure Changes (platform : Platform A E C) (keys : Str → Str) (baseRules localRules remoteRules :
    List (IUserFriendlyKeybinding A)) (result : MergeResult) : Prop where
  removed : ∀ command ∈ result.removed, rulesOf commandOf command baseRules ≠ [] ∧
    rulesOf commandOf command remoteRules = []
  added : ∀ command ∈ result.added, rulesOf commandOf command baseRules = [] ∧
    rulesOf commandOf command localRules = [] ∧ rulesOf commandOf command remoteRules ≠ []
  updated : ∀ command ∈ result.updated, rulesOf commandOf command baseRules ≠ [] ∧
    rulesOf commandOf command localRules ≠ [] ∧ rulesOf commandOf command remoteRules ≠ []
  taken : ∀ command, command ∈ result.removed ∨ command ∈ result.added ∨ command ∈ result.updated →
    SameRules platform keys (rulesOf commandOf command baseRules)
      (rulesOf commandOf command localRules) ∨
    SameRules platform keys (rulesOf commandOf command localRules)
      (rulesOf commandOf command remoteRules)
  kept : ∀ command, command ∉ result.removed → command ∉ result.added → command ∉ result.updated →
    SameRules platform keys (rulesOf commandOf command baseRules)
      (rulesOf commandOf command remoteRules) ∨
    SameRules platform keys (rulesOf commandOf command localRules)
      (rulesOf commandOf command remoteRules)
  changed : ∀ command, command ∈ result.removed ∨ command ∈ result.added ∨
    command ∈ result.updated → ¬ List.Forall₂ (Same platform keys)
      (rulesOf commandOf command baseRules) (rulesOf commandOf command remoteRules)
  nodup_removed : result.removed.Nodup
  nodup_added : result.added.Nodup
  nodup_updated : result.updated.Nodup

theorem Resolves.changes {keys : Str → Str} {baseRules localRules remoteRules :
      List (IUserFriendlyKeybinding A)} {localToRemote baseToLocal baseToRemote : ICompareResult}
    {result : MergeResult} (h : Resolves localToRemote baseToLocal baseToRemote result)
    (hlr : Compares commandOf (fun value1 value2 => areSameKeybindingsWithSameCommand platform
      (withKeys keys value1) (withKeys keys value2)) localRules remoteRules localToRemote)
    (hbl : Compares commandOf (fun value1 value2 => areSameKeybindingsWithSameCommand platform
      (withKeys keys value1) (withKeys keys value2)) baseRules localRules baseToLocal)
    (hbr : Compares commandOf (fun value1 value2 => areSameKeybindingsWithSameCommand platform
      (withKeys keys value1) (withKeys keys value2)) baseRules remoteRules baseToRemote) :
    Changes platform keys baseRules localRules remoteRules result where
  removed command hmem := (hbr.removed command).mp ((h.removed command).mp hmem)
  added command hmem := by
    obtain ⟨hremote, hlocal⟩ := (h.added command).mp hmem
    rw [hbr.added] at hremote
    rw [hbl.added] at hlocal
    grind
  updated command hmem := by
    obtain ⟨hremote, hlocal⟩ := (h.updated command).mp hmem
    have hremoved : command ∉ baseToLocal.removed := fun hmem => h.removedLocal command hmem hremote
    rw [hbr.updated] at hremote
    rw [hbl.removed] at hremoved
    grind
  taken command hmem := by
    rcases hmem with hmem | hmem | hmem
    · rw [h.removed] at hmem
      have hupdated := h.removedRemote command hmem
      rw [hbr.removed] at hmem
      by_cases hlocal : rulesOf commandOf command localRules = []
      · right
        rw [hlocal, hmem.2]
        exact SameRules.nil
      · left
        apply sameRules_of_not_mem hbl _ _ hupdated
        · simp [hbl.added, hmem.1]
        · simp [hbl.removed, hlocal]
    · left
      obtain ⟨hremote, hlocal⟩ := (h.added command).mp hmem
      rw [hbr.added] at hremote
      apply sameRules_of_not_mem hbl hlocal
      · simp [hbl.removed, hremote.1]
      · simp [hbl.updated, hremote.1]
    · left
      obtain ⟨hremote, hlocal⟩ := (h.updated command).mp hmem
      have hremoved : command ∉ baseToLocal.removed :=
        fun hmem => h.removedLocal command hmem hremote
      rw [hbr.updated] at hremote
      apply sameRules_of_not_mem hbl _ hremoved hlocal
      simp [hbl.added, hremote.1]
  kept command hremoved hadded hupdated := by
    rw [h.removed] at hremoved
    rw [h.added] at hadded
    rw [h.updated] at hupdated
    by_cases haddedBoth : command ∈ baseToRemote.added
    · right
      have hlocal : command ∈ baseToLocal.added := by simpa [haddedBoth] using hadded
      have hsame := h.addedBoth command hlocal haddedBoth
      rw [hbl.added] at hlocal
      rw [hbr.added] at haddedBoth
      apply sameRules_of_not_mem hlr _ _ hsame
      · simp [hlr.added, hlocal.2]
      · simp [hlr.removed, haddedBoth.2]
    by_cases hupdatedBoth : command ∈ baseToRemote.updated
    · right
      have hlocal : command ∈ baseToLocal.updated := by simpa [hupdatedBoth] using hupdated
      have hsame := h.updatedBoth command hlocal hupdatedBoth
      rw [hbl.updated] at hlocal
      rw [hbr.updated] at hupdatedBoth
      apply sameRules_of_not_mem hlr _ _ hsame
      · simp [hlr.added, hlocal.2.1]
      · simp [hlr.removed, hupdatedBoth.2.1]
    · left
      exact sameRules_of_not_mem hbr haddedBoth hremoved hupdatedBoth
  changed command hmem hforall := by
    have hsame := areSame_of_forall₂ hforall
    have hlength := hforall.length_eq
    rw [h.removed, h.added, h.updated, hbr.removed, hbr.added, hbr.updated] at hmem
    rcases hmem with ⟨hbase, hremote⟩ | ⟨⟨hbase, hremote⟩, _⟩ | ⟨⟨_, _, hdiffer⟩, _⟩
    · rw [hremote] at hlength
      exact hbase (List.length_eq_zero_iff.mp hlength)
    · rw [hbase] at hlength
      exact hremote (List.length_eq_zero_iff.mp hlength.symm)
    · rw [hsame] at hdiffer
      cases hdiffer
  nodup_removed := h.nodup_removed
  nodup_added := h.nodup_added
  nodup_updated := h.nodup_updated

variable {IsArray : C → Prop} {localRules remoteRules : List (IUserFriendlyKeybinding A)}

theorem head_ne_of_rulesOf {keybindings : List (IUserFriendlyKeybinding A)}
    (hnames : ∀ keybinding ∈ keybindings, (commandOf keybinding).head? ≠ some dash) {command : Str}
    (h : rulesOf commandOf command keybindings ≠ []) : command.head? ≠ some dash := by
  obtain ⟨keybinding, hmem⟩ := List.exists_mem_of_ne_nil _ h
  unfold rulesOf at hmem
  rw [List.mem_filter, decide_eq_true_eq] at hmem
  rw [← hmem.2]
  exact hnames keybinding hmem.1

/-- Removed, then added, then updated commands take the rules of the remote side. -/
theorem Changes.takes (edits : EditsArrays platform IsArray) {keys : Str → Str}
    {baseRules : List (IUserFriendlyKeybinding A)} {result : MergeResult}
    (h : Changes platform keys baseRules localRules remoteRules result)
    (hnames : ∀ keybinding ∈ baseRules, (commandOf keybinding).head? ≠ some dash)
    {localContent : C} (hlocal : Holds platform IsArray localContent localRules) :
    ∃ merged, Holds platform IsArray (result.updated.foldl (fun content command =>
        updateKeybindings platform content command (rulesOf commandOf command remoteRules))
      (result.added.foldl (fun content command =>
          addKeybindings platform content (rulesOf commandOf command remoteRules))
        (result.removed.foldl (removeKeybindings platform) localContent))) merged ∧
      Takes (result.updated.reverse ++ (result.added.reverse ++ (result.removed.reverse ++ [])))
        localRules remoteRules merged := by
  have hremoved : ∀ command ∈ result.removed, ∀ content keybindings,
      Holds platform IsArray content keybindings →
      rulesOf commandOf command keybindings = rulesOf commandOf command localRules →
      TakesOne platform IsArray remoteRules keybindings command
        (removeKeybindings platform content command) := by
    intro command hmem content keybindings hholds _
    obtain ⟨hbase, hremote⟩ := h.removed command hmem
    exact removeKeybindings_takes edits (head_ne_of_rulesOf hnames hbase) hremote hholds
  have hadded : ∀ command ∈ result.added, ∀ content keybindings,
      Holds platform IsArray content keybindings →
      rulesOf commandOf command keybindings = rulesOf commandOf command localRules →
      TakesOne platform IsArray remoteRules keybindings command
        (addKeybindings platform content (rulesOf commandOf command remoteRules)) := by
    intro command hmem content keybindings hholds hsame
    rw [(h.added command hmem).2.1] at hsame
    exact addKeybindings_takes edits hsame hholds
  have hupdated : ∀ command ∈ result.updated, ∀ content keybindings,
      Holds platform IsArray content keybindings →
      rulesOf commandOf command keybindings = rulesOf commandOf command localRules →
      TakesOne platform IsArray remoteRules keybindings command
        (updateKeybindings platform content command (rulesOf commandOf command remoteRules)) := by
    intro command hmem content keybindings hholds hsame
    obtain ⟨hbase, hrules, _⟩ := h.updated command hmem
    rw [← hsame] at hrules
    exact updateKeybindings_takes edits (head_ne_of_rulesOf hnames hbase) hrules hholds
  obtain ⟨_, hholds, htakes⟩ := foldl_takes hremoved h.nodup_removed (by simp) hlocal takes_nil
  obtain ⟨_, hholds, htakes⟩ := foldl_takes hadded h.nodup_added (by
    intro command hmem htaken
    have hbase := (h.removed command (by simpa using htaken)).1
    exact hbase (h.added command hmem).1) hholds htakes
  exact foldl_takes hupdated h.nodup_updated (by
    intro command hmem htaken
    obtain ⟨hbase, _, hremote⟩ := h.updated command hmem
    rw [List.append_nil, List.mem_append, List.mem_reverse, List.mem_reverse] at htaken
    rcases htaken with htaken | htaken
    · exact hbase (h.added command htaken).1
    · exact hremote (h.removed command htaken).2) hholds htakes

/-- The commands that remote has changed are taken, where local has the rules of the base or of
remote, and all others are kept, where remote has the rules of the base or of local. -/
structure Merged (platform : Platform A E C) (IsArray : C → Prop) (keys : Str → Str)
    (baseRules localRules remoteRules : List (IUserFriendlyKeybinding A)) (taken : List Str)
    (content : C) : Prop where
  array : IsArray content
  takes : Takes taken localRules remoteRules (platform.parse content)
  changed : ∀ command ∈ taken, ¬ List.Forall₂ (Same platform keys)
    (rulesOf commandOf command baseRules) (rulesOf commandOf command remoteRules)
  same_taken : ∀ command ∈ taken,
    SameRules platform keys (rulesOf commandOf command baseRules)
      (rulesOf commandOf command localRules) ∨
    SameRules platform keys (rulesOf commandOf command localRules)
      (rulesOf commandOf command remoteRules)
  same_kept : ∀ command ∉ taken,
    SameRules platform keys (rulesOf commandOf command baseRules)
      (rulesOf commandOf command remoteRules) ∨
    SameRules platform keys (rulesOf commandOf command localRules)
      (rulesOf commandOf command remoteRules)

theorem mergeByCommand_merged (edits : EditsArrays platform IsArray) {keys : Str → Str}
    {keyConflicts : List Str} {baseRules : Option (List (IUserFriendlyKeybinding A))}
    (hnames : ∀ keybinding ∈ baseRules.getD [], (commandOf keybinding).head? ≠ some dash)
    {localContent : C} (hlocal : Holds platform IsArray localContent localRules)
    (h : (mergeByCommand platform keys keyConflicts localRules remoteRules baseRules
      localContent).hasConflicts = false) :
    ∃ taken, Merged platform IsArray keys (baseRules.getD []) localRules remoteRules taken
      (mergeByCommand platform keys keyConflicts localRules remoteRules baseRules
        localContent).mergeContent := by
  unfold mergeByCommand at h ⊢
  dsimp only at h ⊢
  rw [Bool.not_eq_false', List.isEmpty_iff] at h
  obtain ⟨hadded, hupdatedContent⟩ := takeLoop_eq_foldl h
  obtain ⟨hresult, haddedContent⟩ := takeLoop_eq_foldl hadded
  have hchanges := (computeMergeResult_resolves hresult).changes
    (compareBy_compares localRules remoteRules) (elim_compares baseRules localRules)
    (elim_compares baseRules remoteRules)
  rw [hupdatedContent, haddedContent]
  clear h hadded hupdatedContent haddedContent
  generalize computeMergeResult _ _ _ = result at *
  have hget : ∀ command, ((byCommand remoteRules).get command).getD [] =
      rulesOf commandOf command remoteRules := getD_get_groupBy commandOf remoteRules
  change result.conflicts = [] at hresult
  simp only [hget, hresult, List.contains_nil, Bool.false_eq_true, if_false]
  obtain ⟨merged, hholds, htakes⟩ := hchanges.takes edits hnames hlocal
  rw [← hholds.2] at htakes
  have hmem : ∀ command, command ∈ result.updated.reverse ++ (result.added.reverse ++
      (result.removed.reverse ++ [])) ↔
      command ∈ result.removed ∨ command ∈ result.added ∨ command ∈ result.updated := by
    intro command
    rw [List.append_nil, List.mem_append, List.mem_append, List.mem_reverse, List.mem_reverse,
      List.mem_reverse]
    grind
  refine ⟨_, hholds.1, htakes, ?_, ?_, ?_⟩
  · intro command htaken
    exact hchanges.changed command ((hmem command).mp htaken)
  · intro command htaken
    exact hchanges.taken command ((hmem command).mp htaken)
  · intro command htaken
    rw [hmem] at htaken
    push Not at htaken
    exact hchanges.kept command htaken.1 htaken.2.1 htaken.2.2

end Merge

section Arrays

/-- Contents that are arrays of rules without arguments -/
def arrayPlatform : Platform Unit Str (List (IUserFriendlyKeybinding Unit)) where
  deserialize := id
  exprEquals a b := a = b
  argsEquals _ _ := true
  parse := id
  edit content index keybinding :=
    match keybinding with
    | some keybinding =>
      if index < 0 then content ++ [keybinding] else content.insertIdx index.toNat keybinding
    | none => content.eraseIdx index.toNat

theorem arrayPlatform_edits : EditsArrays arrayPlatform fun _ => True where
  remove content index _ _ := ⟨trivial, rfl⟩
  append content keybinding _ := ⟨trivial, rfl⟩
  insert content index keybinding _ _ := ⟨trivial, by simp [arrayPlatform]⟩

def rule (key : CodeUnit) (command : Str) : IUserFriendlyKeybinding Unit :=
  ⟨[key], command, (), none⟩

end Arrays

end NexgileIde.UserDataSync.Keybindings
