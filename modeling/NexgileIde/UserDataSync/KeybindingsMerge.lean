import NexgileIde.Text.CodeUnits

/-!
# Merging keybindings

The rules of two devices are compared by their keys first. Where both devices have changed rules, they
are merged command by command, and the local content is edited rule by rule.
-/

namespace NexgileIde.UserDataSync.Keybindings

open Text

structure IUserFriendlyKeybinding (A : Type) where
  key : Str
  command : Str
  args : A
  when : Option Str
  deriving DecidableEq

variable {A E C : Type}

/-- What the merge uses of other modules: context key expressions, the equality of arguments, and
contents that are parsed and edited at an index of their array. -/
structure Platform (A E C : Type) where
  deserialize : Option Str → Option E
  exprEquals : E → E → Bool
  argsEquals : A → A → Bool
  parse : C → List (IUserFriendlyKeybinding A)
  /-- An index of minus one is behind the last rule; without a rule, the one at the index is
  removed. -/
  edit : C → ℤ → Option (IUserFriendlyKeybinding A) → C

/-- `-` -/
def dash : CodeUnit := 45

section Compare

structure ICompareResult where
  added : List Str
  removed : List Str
  updated : List Str

def ICompareResult.isEmpty (c : ICompareResult) : Bool :=
  c.added.isEmpty && c.removed.isEmpty && c.updated.isEmpty

/-- A map from strings to the rules that were pushed under them, in the order of its keys -/
abbrev RuleMap (A : Type) := List (Str × List (IUserFriendlyKeybinding A))

def RuleMap.keys (map : RuleMap A) : List Str := map.map Prod.fst

def RuleMap.get (map : RuleMap A) (key : Str) : Option (List (IUserFriendlyKeybinding A)) :=
  map.lookup key

def RuleMap.push (map : RuleMap A) (key : Str) (keybinding : IUserFriendlyKeybinding A) :
    RuleMap A :=
  if (map.get key).isSome then
    map.map fun entry => if entry.1 = key then (key, entry.2 ++ [keybinding]) else entry
  else map ++ [(key, [keybinding])]

def groupBy (group : IUserFriendlyKeybinding A → Str)
    (keybindings : List (IUserFriendlyKeybinding A)) : RuleMap A :=
  keybindings.foldl (fun map keybinding => map.push (group keybinding) keybinding) []

def byKeybinding (keybindings : List (IUserFriendlyKeybinding A)) (keys : Str → Str) : RuleMap A :=
  groupBy (fun keybinding => keys keybinding.key) keybindings

def commandOf (keybinding : IUserFriendlyKeybinding A) : Str :=
  if keybinding.command.head? = some dash then keybinding.command.tail else keybinding.command

def byCommand (keybindings : List (IUserFriendlyKeybinding A)) : RuleMap A :=
  groupBy commandOf keybindings

variable (platform : Platform A E C)

def isSameKeybinding (a b : IUserFriendlyKeybinding A) : Bool :=
  if a.command ≠ b.command then false
  else if a.key ≠ b.key then false
  else
    match platform.deserialize a.when, platform.deserialize b.when with
    | some _, none | none, some _ => false
    | some whenA, some whenB =>
      if !platform.exprEquals whenA whenB then false else platform.argsEquals a.args b.args
    | none, none => platform.argsEquals a.args b.args

/-- `equals` of arrays, with the items compared as rules -/
def equalRules : List (IUserFriendlyKeybinding A) → List (IUserFriendlyKeybinding A) → Bool
  | [], [] => true
  | a :: one, b :: other => isSameKeybinding platform a b && equalRules one other
  | _, _ => false

def isNegated (keybinding : IUserFriendlyKeybinding A) : Bool :=
  keybinding.command.head? = some dash

def areSameKeybindingsWithSameCommand (value1 value2 : List (IUserFriendlyKeybinding A)) : Bool :=
  -- Compare entries adding keybindings
  equalRules platform (value1.filter fun k => !isNegated k) (value2.filter fun k => !isNegated k) &&
    -- Compare entries removing keybindings
    equalRules platform (value1.filter isNegated) (value2.filter isNegated)

/-- The comparison of two maps, by a comparison of the rules of a key -/
def compareBy (isSame : List (IUserFriendlyKeybinding A) → List (IUserFriendlyKeybinding A) → Bool)
    (before after : RuleMap A) : ICompareResult :=
  let removed := before.keys.filter fun key => !after.keys.contains key
  { added := after.keys.filter fun key => !before.keys.contains key
    removed := removed
    updated := before.keys.filter fun key =>
      !removed.contains key && !isSame ((before.get key).getD []) ((after.get key).getD []) }

/-- The rules with normalized keys -/
def withKeys (keys : Str → Str) (keybindings : List (IUserFriendlyKeybinding A)) :
    List (IUserFriendlyKeybinding A) :=
  keybindings.map fun keybinding => { keybinding with key := keys keybinding.key }

/-- The rules of a key all have this key when it is normalized. -/
def compareByKeybinding (before after : RuleMap A) (keys : Str → Str) : ICompareResult :=
  compareBy (fun value1 value2 =>
    equalRules platform (withKeys keys value1) (withKeys keys value2)) before after

def compareByCommand (before after : RuleMap A) (normalizedKeys : Str → Str) : ICompareResult :=
  compareBy (fun value1 value2 => areSameKeybindingsWithSameCommand platform
    (withKeys normalizedKeys value1) (withKeys normalizedKeys value2)) before after

/-- Without a base all keys are added. -/
def allAdded (map : RuleMap A) : ICompareResult := ⟨map.keys, [], []⟩

end Compare

section Result

def addTo (set : List Str) (key : Str) : List Str := if set.contains key then set else set ++ [key]

/-- A loop over keys that skips conflicts and finds further ones; the others may be taken. -/
def mergeLoop (isConflict isTaken : Str → Bool) (keys : List Str)
    (s : List Str × List Str) : List Str × List Str :=
  keys.foldl (fun s key =>
    if s.2.contains key then s
    else if isConflict key then (s.1, addTo s.2 key)
    else if isTaken key then (addTo s.1 key, s.2)
    else s) s

structure MergeResult where
  added : List Str
  removed : List Str
  updated : List Str
  conflicts : List Str

def computeMergeResult (localToRemote baseToLocal baseToRemote : ICompareResult) : MergeResult :=
  -- Removed keys in Local
  let (_, conflicts) := mergeLoop (fun key => baseToRemote.updated.contains key) (fun _ => false)
    baseToLocal.removed ([], [])
  -- Removed keys in Remote
  let (removed, conflicts) := mergeLoop (fun key => baseToLocal.updated.contains key)
    (fun _ => true) baseToRemote.removed ([], conflicts)
  -- Added keys in Local
  let (_, conflicts) := mergeLoop
    (fun key => baseToRemote.added.contains key && localToRemote.updated.contains key)
    (fun _ => false) baseToLocal.added ([], conflicts)
  -- Added keys in remote
  let (added, conflicts) := mergeLoop
    (fun key => baseToLocal.added.contains key && localToRemote.updated.contains key)
    (fun key => !baseToLocal.added.contains key) baseToRemote.added ([], conflicts)
  -- Updated keys in Local
  let (_, conflicts) := mergeLoop
    (fun key => baseToRemote.updated.contains key && localToRemote.updated.contains key)
    (fun _ => false) baseToLocal.updated ([], conflicts)
  -- Updated keys in Remote
  let (updated, conflicts) := mergeLoop
    (fun key => baseToLocal.updated.contains key && localToRemote.updated.contains key)
    (fun key => !baseToLocal.updated.contains key) baseToRemote.updated ([], conflicts)
  ⟨added, removed, updated, conflicts⟩

structure KeybindingsResult where
  hasLocalForwarded : Bool
  hasRemoteForwarded : Bool
  conflicts : List Str

def computeMergeResultByKeybinding (platform : Platform A E C)
    (localRules remoteRules : List (IUserFriendlyKeybinding A))
    (baseRules : Option (List (IUserFriendlyKeybinding A))) (normalizedKeys : Str → Str) :
    KeybindingsResult :=
  let localByKeybinding := byKeybinding localRules normalizedKeys
  let remoteByKeybinding := byKeybinding remoteRules normalizedKeys
  let baseByKeybinding := baseRules.map fun baseRules => byKeybinding baseRules normalizedKeys
  let localToRemote := compareByKeybinding platform localByKeybinding remoteByKeybinding
    normalizedKeys
  if localToRemote.isEmpty then ⟨false, false, []⟩
  else
    let baseToLocal := baseByKeybinding.elim (allAdded localByKeybinding) fun baseByKeybinding =>
      compareByKeybinding platform baseByKeybinding localByKeybinding normalizedKeys
    -- Remote has moved forward and local has not.
    if baseToLocal.isEmpty then ⟨false, true, []⟩
    else
      let baseToRemote := baseByKeybinding.elim (allAdded remoteByKeybinding)
        fun baseByKeybinding =>
          compareByKeybinding platform baseByKeybinding remoteByKeybinding normalizedKeys
      if baseToRemote.isEmpty then ⟨true, false, []⟩
      else ⟨true, true, (computeMergeResult localToRemote baseToLocal baseToRemote).conflicts⟩

end Result

section Merge

variable (platform : Platform A E C)

/-- The rule is one of a command, or of its negation. -/
def isOfCommand (command : Str) (keybinding : IUserFriendlyKeybinding A) : Bool :=
  keybinding.command = command || keybinding.command = dash :: command

def addKeybindings (content : C) (keybindings : List (IUserFriendlyKeybinding A)) : C :=
  keybindings.foldl (fun content keybinding => platform.edit content (-1) (some keybinding)) content

/-- Removes the rules of a command, from the last index on. -/
def removeFrom (keybindings : List (IUserFriendlyKeybinding A)) (command : Str) (content : C) : C :=
  (List.range keybindings.length).reverse.foldl (fun content (index : ℕ) =>
    if keybindings[index]?.any (isOfCommand command) then platform.edit content index none
    else content) content

def removeKeybindings (content : C) (command : Str) : C :=
  removeFrom platform (platform.parse content) command content

def updateKeybindings (content : C) (command : Str)
    (keybindings : List (IUserFriendlyKeybinding A)) : C :=
  let allKeybindings := platform.parse content
  let location : ℤ := (allKeybindings.findIdx? (isOfCommand command)).elim (-1) fun i => i
  -- Remove all entries with this command
  let content := removeFrom platform allKeybindings command content
  -- add all entries at the same location where the entry with this command was located.
  keybindings.reverse.foldl (fun content keybinding =>
    platform.edit content location (some keybinding)) content

structure MergeOutcome (C : Type) where
  mergeContent : C
  hasChanges : Bool
  hasConflicts : Bool

/-- A loop over the commands that remote has added or updated: one whose keys are in conflict becomes
a conflict. -/
def takeLoop (keyConflicts : List Str) (normalizedKeys : Str → Str) (remoteByCommand : RuleMap A)
    (take : C → Str → List (IUserFriendlyKeybinding A) → C) (commands : List Str)
    (s : C × List Str) : C × List Str :=
  commands.foldl (fun s command =>
    if s.2.contains command then s
    else
      let keybindings := (remoteByCommand.get command).getD []
      -- Ignore negated commands
      if keybindings.any (fun keybinding => keybinding.command ≠ dash :: command &&
          keyConflicts.contains (normalizedKeys keybinding.key)) then (s.1, addTo s.2 command)
      else (take s.1 command keybindings, s.2)) s

/-- Both local and remote have moved forward. -/
def mergeByCommand (normalizedKeys : Str → Str) (keyConflicts : List Str)
    (localRules remoteRules : List (IUserFriendlyKeybinding A))
    (baseRules : Option (List (IUserFriendlyKeybinding A))) (localContent : C) : MergeOutcome C :=
  let localByCommand := byCommand localRules
  let remoteByCommand := byCommand remoteRules
  let baseByCommand := baseRules.map byCommand
  let localToRemote := compareByCommand platform localByCommand remoteByCommand normalizedKeys
  let baseToLocal := baseByCommand.elim (allAdded localByCommand) fun baseByCommand =>
    compareByCommand platform baseByCommand localByCommand normalizedKeys
  let baseToRemote := baseByCommand.elim (allAdded remoteByCommand) fun baseByCommand =>
    compareByCommand platform baseByCommand remoteByCommand normalizedKeys
  let result := computeMergeResult localToRemote baseToLocal baseToRemote
  -- Removed commands in Remote
  let mergeContent := result.removed.foldl (fun content command =>
    if result.conflicts.contains command then content
    else removeKeybindings platform content command) localContent
  -- Added commands in remote
  let s := takeLoop keyConflicts normalizedKeys remoteByCommand
    (fun content _ keybindings => addKeybindings platform content keybindings) result.added
    (mergeContent, result.conflicts)
  -- Updated commands in Remote
  let s := takeLoop keyConflicts normalizedKeys remoteByCommand (updateKeybindings platform)
    result.updated s
  ⟨s.1, true, !s.2.isEmpty⟩

/-- A base that is not there, or empty, is none. -/
def merge (normalizedKeys : Str → Str) (localContent remoteContent : C)
    (baseContent : Option C) : MergeOutcome C :=
  let localRules := platform.parse localContent
  let remoteRules := platform.parse remoteContent
  let baseRules := baseContent.map platform.parse
  let keybindingsMergeResult := computeMergeResultByKeybinding platform localRules remoteRules
    baseRules normalizedKeys
  match keybindingsMergeResult.hasLocalForwarded, keybindingsMergeResult.hasRemoteForwarded with
  -- No changes found between local and remote.
  | false, false => ⟨localContent, false, false⟩
  | false, true => ⟨remoteContent, true, false⟩
  -- Local has moved forward and remote has not. Return local.
  | true, false => ⟨localContent, true, false⟩
  | true, true =>
    mergeByCommand platform normalizedKeys keybindingsMergeResult.conflicts localRules remoteRules
      baseRules localContent

end Merge

end NexgileIde.UserDataSync.Keybindings
