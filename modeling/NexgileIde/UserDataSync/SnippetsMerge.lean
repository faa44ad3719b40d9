import NexgileIde.Library.ThreeWayMerge

/-!
# Merging snippets and prompts

The local files, the remote ones and those of the last sync are dictionaries from
file names to contents. Six loops over what has changed since the last sync decide
what each side has to take over. All names end in a file extension, so a dictionary
has no names but its own.
-/
namespace NexgileIde.UserDataSync

abbrev StringDictionary : Type := AList fun _ : String => String

/-- `compare`: the names that the second dictionary adds, lacks or changes. -/
structure Comparison where
  added : List String
  removed : List String
  updated : List String
  deriving DecidableEq, Repr

/-- `Object.keys`, none for null. -/
def keysOf : Option StringDictionary → List String
  | none => []
  | some d => d.keys

def valueOf (d : Option StringDictionary) (name : String) : Option String :=
  d.bind (·.lookup name)

def compare (before after : Option StringDictionary) : Comparison :=
  let removed := (keysOf before).filter fun key => !(keysOf after).contains key
  { added := (keysOf after).filter fun key => !(keysOf before).contains key
    removed := removed
    updated := (keysOf before).filter fun key =>
      !removed.contains key && valueOf before key != valueOf after key }

def Comparison.isEmpty (c : Comparison) : Bool :=
  c.added.isEmpty && c.removed.isEmpty && c.updated.isEmpty

/-- What one side has to take over. -/
structure Changes where
  added : StringDictionary
  updated : StringDictionary
  removed : List String

structure MergeResult where
  localChanges : Changes
  remoteChanges : Changes
  conflicts : List String

def Changes.empty : Changes := ⟨∅, ∅, []⟩

/-- `Set.add` -/
def setAdd (s : List String) (key : String) : List String := if key ∈ s then s else s ++ [key]

/-- `target[key] = source[key]`, for a name that the source has. -/
def assign (target source : StringDictionary) (key : String) : StringDictionary :=
  match source.lookup key with
  | none => target
  | some content => target.insert key content

/-- The comparisons that the loops look at. -/
structure MergeInput where
  locals : StringDictionary
  remotes : StringDictionary
  localToRemote : Comparison
  baseToLocal : Comparison
  baseToRemote : Comparison

structure MergeState where
  localAdded : StringDictionary
  localUpdated : StringDictionary
  localRemoved : List String
  remoteAdded : StringDictionary
  remoteUpdated : StringDictionary
  remoteRemoved : List String
  conflicts : List String

namespace MergeState

variable (input : MergeInput)

def initial : MergeState := ⟨∅, ∅, [], ∅, ∅, [], []⟩

def removedInLocal (s : MergeState) (key : String) : MergeState :=
  if input.baseToRemote.updated.contains key then
    { s with localAdded := assign s.localAdded input.remotes key }
  else { s with remoteRemoved := setAdd s.remoteRemoved key }

def removedInRemote (s : MergeState) (key : String) : MergeState :=
  if s.conflicts.contains key then s
  else if input.baseToLocal.updated.contains key then
    { s with conflicts := setAdd s.conflicts key }
  else { s with localRemoved := setAdd s.localRemoved key }

def updatedInLocal (s : MergeState) (key : String) : MergeState :=
  if s.conflicts.contains key then s
  else if input.baseToRemote.updated.contains key then
    if input.localToRemote.updated.contains key then
      { s with conflicts := setAdd s.conflicts key }
    else s
  else { s with remoteUpdated := assign s.remoteUpdated input.locals key }

def updatedInRemote (s : MergeState) (key : String) : MergeState :=
  if s.conflicts.contains key then s
  else if input.baseToLocal.updated.contains key then
    if input.localToRemote.updated.contains key then
      { s with conflicts := setAdd s.conflicts key }
    else s
  else if (input.locals.lookup key).isSome then
    { s with localUpdated := assign s.localUpdated input.remotes key }
  else s

def addedInLocal (s : MergeState) (key : String) : MergeState :=
  if s.conflicts.contains key then s
  else if input.baseToRemote.added.contains key then
    if input.localToRemote.updated.contains key then
      { s with conflicts := setAdd s.conflicts key }
    else s
  else { s with remoteAdded := assign s.remoteAdded input.locals key }

def addedInRemote (s : MergeState) (key : String) : MergeState :=
  if s.conflicts.contains key then s
  else if input.baseToLocal.added.contains key then
    if input.localToRemote.updated.contains key then
      { s with conflicts := setAdd s.conflicts key }
    else s
  else { s with localAdded := assign s.localAdded input.remotes key }

/-- The six loops. -/
def loops : MergeState :=
  let s := input.baseToLocal.removed.foldl (removedInLocal input) initial
  let s := input.baseToRemote.removed.foldl (removedInRemote input) s
  let s := input.baseToLocal.updated.foldl (updatedInLocal input) s
  let s := input.baseToRemote.updated.foldl (updatedInRemote input) s
  let s := input.baseToLocal.added.foldl (addedInLocal input) s
  input.baseToRemote.added.foldl (addedInRemote input) s

def result (s : MergeState) : MergeResult where
  localChanges := ⟨s.localAdded, s.localUpdated, s.localRemoved⟩
  remoteChanges := ⟨s.remoteAdded, s.remoteUpdated, s.remoteRemoved⟩
  conflicts := s.conflicts

end MergeState

/-- The type of a merge: local, remote and base. -/
abbrev Merge : Type :=
  StringDictionary → Option StringDictionary → Option StringDictionary → MergeResult

namespace SnippetsMerge

def merge : Merge := fun locals remote base =>
  match remote with
  | none => ⟨Changes.empty, ⟨locals, ∅, []⟩, []⟩
  | some remotes =>
    let localToRemote := compare (some locals) (some remotes)
    if localToRemote.isEmpty then ⟨Changes.empty, Changes.empty, []⟩
    else (MergeState.loops ⟨locals, remotes, localToRemote, compare base (some locals),
      compare base (some remotes)⟩).result

end SnippetsMerge

/-- The merge of prompts is a copy of the merge of snippets. -/
def PromptsMerge.merge : Merge := SnippetsMerge.merge

/-- The changes are applied to a side. -/
def Changes.apply (c : Changes) (d : StringDictionary) : StringDictionary :=
  c.removed.foldl (fun d name => d.erase name) (c.updated ∪ (c.added ∪ d))

end NexgileIde.UserDataSync
