import NexgileIde.Edits.StringEdit
import NexgileIde.InlineEdits.LruCache

/-!
# The cache of next edits

Suggestions are held in one cache for all documents, under their document and its content
when they were made. Those that are kept up with the user's edits are also in a list of their
document.
-/
namespace NexgileIde.InlineEdits

open Text Edits

/-- A suggestion. Its edits in detail are filled in when it is rebased. -/
structure CachedEdit (D : Type) where
  docId : String
  targetDocId : Option String
  documentBeforeEdit : Str
  editWindow : Option OffsetRange
  originalEditWindow : Option OffsetRange
  edit : Option StringReplacement
  edits : Option (List StringReplacement)
  detailedEdits : D
  userEditSince : Option StringEdit
  rebaseFailed : Bool
  rejected : Bool
  subsequentN : Option ℕ
  cursorOffsetAtCacheTime : Option ℤ

namespace CachedEdit

variable {D : Type}

/-- `cachedEdit.edits || (cachedEdit.edit ? [cachedEdit.edit] : [])` -/
def originalEdits (cachedEdit : CachedEdit D) : List StringReplacement :=
  cachedEdit.edits.getD cachedEdit.edit.toList

/-- `_getKey`, a text made of the two. -/
def key (cachedEdit : CachedEdit D) : String × Str :=
  (cachedEdit.docId, cachedEdit.documentBeforeEdit)

end CachedEdit

/-- What `tryRebase` answers. -/
inductive RebaseOutcome
  | outsideEditWindow
  | rebaseFailed
  | error
  | inconsistentEdits
  | edits (rebased : List (StringReplacement × ℕ))

inductive Resolution
  | strict
  | lenient

/-- What the cache calls: how edits are rebased, which fills in the edits in detail, and what
is asked of a text. -/
structure Rebasing (D C : Type) where
  tryRebase : Str → Option OffsetRange → List StringReplacement → D → StringEdit → Str →
    List OffsetRange → Resolution → Option C → RebaseOutcome × D
  noDetails : D
  tryReanchorContentAfterIndentation : List StringReplacement → Str → Str → List OffsetRange →
    Option StringReplacement
  reanchorContentOnIndentationMismatch : C → Bool
  /-- Two edits are the same without the text that they share with the document. -/
  sameEdit : Str → StringReplacement → StringReplacement → Bool
  lineNumber : Str → ℤ → ℤ

structure DocumentEditCache where
  /-- The content of the document. -/
  value : Str
  trackedCachedEdits : List ℕ

/-- All suggestions ever made are kept, and their index is their identity. -/
structure NextEditCache (D : Type) where
  cachedEdits : List (CachedEdit D)
  sharedCache : LRUCache (String × Str) ℕ
  documentCaches : String → Option DocumentEditCache

/-- What is found for a document: a suggestion, or a rebased view of one. -/
structure CachedOrRebasedEdit where
  cachedEdit : ℕ
  rebasedEdit : Option (StringReplacement × ℕ)
  deriving DecidableEq

namespace NextEditCache

variable {D C : Type}

def initial : NextEditCache D := ⟨[], .new 50, fun _ => none⟩

def modifyEdit (cache : NextEditCache D) (id : ℕ) (f : CachedEdit D → CachedEdit D) :
    NextEditCache D :=
  { cache with cachedEdits := cache.cachedEdits.modify id f }

def setTracked (cache : NextEditCache D) (docId : String) (tracked : List ℕ) : NextEditCache D :=
  { cache with
    documentCaches := Function.update cache.documentCaches docId
      ((cache.documentCaches docId).map fun docCache =>
        { docCache with trackedCachedEdits := tracked }) }

/-- `evictedCachedEdit` of the cache of a document. -/
def evictedFrom (cache : NextEditCache D) (docId : String) (id : ℕ) : NextEditCache D :=
  match cache.documentCaches docId with
  | none => cache
  | some docCache => cache.setTracked docId (docCache.trackedCachedEdits.erase id)

def evictedCachedEdit (cache : NextEditCache D) (id : ℕ) : NextEditCache D :=
  match cache.cachedEdits[id]? with
  | none => cache
  | some cachedEdit => cache.evictedFrom cachedEdit.docId id

def clear (cache : NextEditCache D) : NextEditCache D :=
  { cache with
    sharedCache := cache.sharedCache.clear
    documentCaches := fun docId => (cache.documentCaches docId).map fun docCache =>
      { docCache with trackedCachedEdits := [] } }

/-! ## Edits of documents -/

/-- `handleEdit`, where `none` means that composing has failed. -/
def handleEdit (edit : StringEdit) (cache : NextEditCache D) : List ℕ → Option (NextEditCache D)
  | [] => some cache
  | id :: tracked =>
    match (cache.cachedEdits[id]?).bind fun cachedEdit => cachedEdit.userEditSince with
    | none => handleEdit edit cache tracked
    | some userEditSince =>
      match userEditSince.compose edit with
      | .error _ => none
      | .ok composed =>
        handleEdit edit (cache.modifyEdit id fun cachedEdit =>
          { cachedEdit with userEditSince := some composed, rebaseFailed := false }) tracked

/-- The loop over the changes of a document. -/
def handleChanges (tracked : List ℕ) (cache : NextEditCache D) :
    List StringEdit → Option (NextEditCache D)
  | [] => some cache
  | edit :: changes =>
    if edit.isEmpty then handleChanges tracked cache changes
    else
      match cache.handleEdit edit tracked with
      | none => none
      | some cache => handleChanges tracked cache changes

/-- The suggestions for other documents are dropped from the cache. -/
def dropOthers (cache : NextEditCache D) (docId : String) : NextEditCache D :=
  cache.sharedCache.nodes.foldl (fun cache node =>
    match cache.cachedEdits[node.2]? with
    | none => cache
    | some cachedEdit =>
      if cachedEdit.docId ≠ docId then
        { cache with sharedCache := cache.sharedCache.deleteKey node.1 }
      else cache) cache

/-- The change of a document, and what the autorun does with it. -/
def documentChanged (cache : NextEditCache D) (docId : String) (changes : List StringEdit)
    (triggerOnEditorChange : Bool) : Option (NextEditCache D) :=
  match cache.documentCaches docId with
  | none => none
  | some docCache =>
    let value := changes.foldl (fun value edit => edit.apply value) docCache.value
    let cache := { cache with
      documentCaches := Function.update cache.documentCaches docId (some { docCache with value }) }
    match handleChanges docCache.trackedCachedEdits cache changes with
    | none => none
    | some cache => some (if triggerOnEditorChange then cache.dropOthers docId else cache)

/-- A document is opened, and the autorun runs for the first time. -/
def openDocument (cache : NextEditCache D) (docId : String) (value : Str)
    (triggerOnEditorChange : Bool) : NextEditCache D :=
  let cache := { cache with
    documentCaches := Function.update cache.documentCaches docId (some ⟨value, []⟩) }
  if triggerOnEditorChange then cache.dropOthers docId else cache

def closeDocument (cache : NextEditCache D) (docId : String) : NextEditCache D :=
  { cache with documentCaches := Function.update cache.documentCaches docId none }

/-! ## New suggestions -/

/-- What both ways of adding a suggestion do with the shared cache: the suggestion that had
the key, and the one that is evicted, are not tracked any more. -/
def share (cache : NextEditCache D) (docId : String) (key : String × Str) (id : ℕ) :
    NextEditCache D :=
  let (existing, sharedCache) := cache.sharedCache.get key
  let cache := { cache with sharedCache }
  let cache :=
    match existing with
    | none => cache
    | some existing => cache.evictedFrom docId existing
  let (sharedCache, evicted) := cache.sharedCache.put key id
  let cache := { cache with sharedCache }
  match evicted with
  | none => cache
  | some evicted => cache.evictedCachedEdit evicted.2

/-- `setKthNextEdit`. The edit consistency is not checked, as troubleshooting is off. -/
def setKthNextEdit (rebasing : Rebasing D C) (cache : NextEditCache D) (docId : String)
    (documentContents : Str) (editWindow : Option OffsetRange) (nextEdit : StringReplacement)
    (subsequentN : ℕ) (nextEdits : Option (List StringReplacement))
    (userEditSince : Option StringEdit) (targetDocId : Option String)
    (originalEditWindow : Option OffsetRange) (cursorOffset : Option ℤ) : NextEditCache D :=
  match cache.documentCaches docId with
  | none => cache
  | some docCache =>
    let cachedEdit : CachedEdit D := {
      docId, targetDocId, documentBeforeEdit := documentContents, editWindow, originalEditWindow,
      edit := some nextEdit, edits := nextEdits, detailedEdits := rebasing.noDetails, userEditSince,
      rebaseFailed := false, rejected := false, subsequentN := some subsequentN,
      cursorOffsetAtCacheTime := cursorOffset }
    let id := cache.cachedEdits.length
    let cache := { cache with cachedEdits := cache.cachedEdits ++ [cachedEdit] }
    let cache :=
      if userEditSince.isSome then cache.setTracked docId (id :: docCache.trackedCachedEdits)
      else cache
    cache.share docId cachedEdit.key id

def setNoNextEdit (rebasing : Rebasing D C) (cache : NextEditCache D) (docId : String)
    (documentContents : Str) (editWindow : Option OffsetRange) : NextEditCache D :=
  match cache.documentCaches docId with
  | none => cache
  | some _ =>
    let cachedEdit : CachedEdit D := {
      docId, targetDocId := none, documentBeforeEdit := documentContents, editWindow,
      originalEditWindow := none, edit := none, edits := some [],
      detailedEdits := rebasing.noDetails, userEditSince := none, rebaseFailed := false,
      rejected := false, subsequentN := none, cursorOffsetAtCacheTime := none }
    let id := cache.cachedEdits.length
    { cache with cachedEdits := cache.cachedEdits ++ [cachedEdit] }.share docId cachedEdit.key id

/-! ## Looking up -/

/-- The loop of `isRejectedNextEdit` over the rejected suggestions. -/
def isRejectedLoop (rebasing : Rebasing D C) (currentDocumentContents : Str)
    (edit : StringReplacement) (cache : NextEditCache D) : List ℕ → Bool × NextEditCache D
  | [] => (false, cache)
  | id :: rejected =>
    match cache.cachedEdits[id]? with
    | none => isRejectedLoop rebasing currentDocumentContents edit cache rejected
    | some rejectedEdit =>
      match rejectedEdit.userEditSince with
      | none => isRejectedLoop rebasing currentDocumentContents edit cache rejected
      | some userEditSince =>
        if rejectedEdit.originalEdits.isEmpty then
          isRejectedLoop rebasing currentDocumentContents edit cache rejected
        else
          let (outcome, detailedEdits) := rebasing.tryRebase rejectedEdit.documentBeforeEdit none
            rejectedEdit.originalEdits rejectedEdit.detailedEdits userEditSince
            currentDocumentContents [] .lenient none
          let cache := cache.modifyEdit id fun cachedEdit => { cachedEdit with detailedEdits }
          match outcome with
          | .edits rebased =>
            if rebased.any fun entry => rebasing.sameEdit currentDocumentContents entry.1 edit then
              (true, cache)
            else isRejectedLoop rebasing currentDocumentContents edit cache rejected
          | _ => isRejectedLoop rebasing currentDocumentContents edit cache rejected

def isRejectedNextEdit (rebasing : Rebasing D C) (cache : NextEditCache D) (tracked : List ℕ)
    (currentDocumentContents : Str) (edit : StringReplacement) : Bool × NextEditCache D :=
  cache.isRejectedLoop rebasing currentDocumentContents edit <|
    tracked.filter fun id => ((cache.cachedEdits[id]?).map CachedEdit.rejected).getD false

/-- A suggestion is found by rebasing: it is rejected if the rebased edit is. -/
def foundRebased (rebasing : Rebasing D C) (cache : NextEditCache D) (tracked : List ℕ) (id : ℕ)
    (cachedEdit : CachedEdit D) (currentDocumentContents : Str)
    (rebased : StringReplacement × ℕ) : Option CachedOrRebasedEdit × NextEditCache D :=
  let cache :=
    if cachedEdit.rejected then cache
    else
      let (rejected, cache) :=
        cache.isRejectedNextEdit rebasing tracked currentDocumentContents rebased.1
      if rejected then cache.modifyEdit id fun cachedEdit => { cachedEdit with rejected := true }
      else cache
  (some ⟨id, some rebased⟩, cache)

/-- The loop over the edit windows that are tried. -/
def rebaseWindows (rebasing : Rebasing D C) (tracked : List ℕ) (id : ℕ)
    (cachedEdit : CachedEdit D) (userEditSince : StringEdit) (currentDocumentContents : Str)
    (currentSelection : List OffsetRange) (nesRebaseConfigs : C) (cache : NextEditCache D)
    (detailedEdits : D) : List (Option OffsetRange) → Option CachedOrRebasedEdit × NextEditCache D
  | [] => (none, cache)
  | window :: windows =>
    let (outcome, detailedEdits) := rebasing.tryRebase cachedEdit.documentBeforeEdit window
      cachedEdit.originalEdits detailedEdits userEditSince currentDocumentContents
      currentSelection .strict (some nesRebaseConfigs)
    let cache := cache.modifyEdit id fun cachedEdit => { cachedEdit with detailedEdits }
    match outcome with
    | .rebaseFailed =>
      let reanchored :=
        if rebasing.reanchorContentOnIndentationMismatch nesRebaseConfigs then
          rebasing.tryReanchorContentAfterIndentation cachedEdit.originalEdits
            cachedEdit.documentBeforeEdit currentDocumentContents currentSelection
        else none
      match reanchored with
      | some reanchored =>
        cache.foundRebased rebasing tracked id cachedEdit currentDocumentContents (reanchored, 0)
      | none =>
        (none, cache.modifyEdit id fun cachedEdit => { cachedEdit with rebaseFailed := true })
    | .inconsistentEdits | .error =>
      (none, cache.modifyEdit id fun cachedEdit => { cachedEdit with userEditSince := none })
    | .outsideEditWindow =>
      rebaseWindows rebasing tracked id cachedEdit userEditSince currentDocumentContents
        currentSelection nesRebaseConfigs cache detailedEdits windows
    | .edits (rebased :: _) =>
      cache.foundRebased rebasing tracked id cachedEdit currentDocumentContents rebased
    | .edits [] =>
      if cachedEdit.originalEdits.isEmpty then (some ⟨id, none⟩, cache)
      else
        rebaseWindows rebasing tracked id cachedEdit userEditSince currentDocumentContents
          currentSelection nesRebaseConfigs cache detailedEdits windows

def tryRebaseCacheEntry (rebasing : Rebasing D C) (cache : NextEditCache D) (tracked : List ℕ)
    (id : ℕ) (currentDocumentContents : Str) (currentSelection : List OffsetRange)
    (nesRebaseConfigs : C) : Option CachedOrRebasedEdit × NextEditCache D :=
  match cache.cachedEdits[id]? with
  | none => (none, cache)
  | some cachedEdit =>
    match cachedEdit.userEditSince with
    | none => (none, cache)
    | some userEditSince =>
      if cachedEdit.rebaseFailed then (none, cache)
      else
        cache.rebaseWindows rebasing tracked id cachedEdit userEditSince currentDocumentContents
          currentSelection nesRebaseConfigs cachedEdit.detailedEdits <|
            match cachedEdit.originalEditWindow with
            | none => [cachedEdit.editWindow]
            | some original => [cachedEdit.editWindow, some original]

/-- The loop over the tracked suggestions. -/
def rebaseTracked (rebasing : Rebasing D C) (tracked : List ℕ) (currentDocumentContents : Str)
    (currentSelection : List OffsetRange) (nesRebaseConfigs : C) (cache : NextEditCache D) :
    List ℕ → Option CachedOrRebasedEdit × NextEditCache D
  | [] => (none, cache)
  | id :: rest =>
    match cache.tryRebaseCacheEntry rebasing tracked id currentDocumentContents currentSelection
      nesRebaseConfigs with
    | (some found, cache) => (some found, cache)
    | (none, cache) =>
      rebaseTracked rebasing tracked currentDocumentContents currentSelection nesRebaseConfigs cache
        rest

def containsRange (range other : OffsetRange) : Bool :=
  range.start ≤ other.start && other.endExclusive ≤ range.endExclusive

/-- The cursor has moved farther away from the line of the edit. -/
def isFarther (rebasing : Rebasing D C) (cachedEdit : CachedEdit D) (currentDocumentContents : Str)
    (cursorRange : Option OffsetRange) : Bool :=
  match cachedEdit.targetDocId, cachedEdit.edit, cachedEdit.cursorOffsetAtCacheTime, cursorRange with
  | none, some edit, some cursorOffset, some cursorRange =>
    (cachedEdit.subsequentN = none || cachedEdit.subsequentN = some 0) &&
      (let lineNumber := rebasing.lineNumber currentDocumentContents
      let editStartLine := lineNumber edit.replaceRange.start
      |lineNumber cursorRange.start - editStartLine| > |lineNumber cursorOffset - editStartLine|)
  | _, _, _, _ => false

/-- A suggestion for exactly this content. An edit window cannot be compared with a cursor
that is not there: then nothing is answered. -/
def lookupExact (rebasing : Rebasing D C) (cache : NextEditCache D) (id : ℕ)
    (cachedEdit : CachedEdit D) (currentDocumentContents : Str)
    (currentSelection : List OffsetRange) (cacheCursorDistanceCheck : Bool) :
    Option CachedOrRebasedEdit × NextEditCache D :=
  let cursorRange := currentSelection.head?
  let isIn (window : Option OffsetRange) : Bool :=
    (window.bind fun window => cursorRange.map (containsRange window)).getD false
  if cachedEdit.editWindow.isSome && !isIn cachedEdit.editWindow &&
      !isIn cachedEdit.originalEditWindow then (none, cache)
  else if cursorRange.isNone && cachedEdit.originalEditWindow.isSome then (none, cache)
  else if cacheCursorDistanceCheck &&
      isFarther rebasing cachedEdit currentDocumentContents cursorRange then
    (some ⟨id, none⟩, cache.modifyEdit id fun cachedEdit => { cachedEdit with rejected := true })
  else (some ⟨id, none⟩, cache)

def lookupNextEdit (rebasing : Rebasing D C) (cache : NextEditCache D) (docId : String)
    (currentDocumentContents : Str) (currentSelection : List OffsetRange) (nesRebaseConfigs : C)
    (cacheCursorDistanceCheck : Bool) : Option CachedOrRebasedEdit × NextEditCache D :=
  match cache.documentCaches docId with
  | none => (none, cache)
  | some docCache =>
    let (found, sharedCache) := cache.sharedCache.get (docId, currentDocumentContents)
    let cache := { cache with sharedCache }
    match found.bind fun id => (cache.cachedEdits[id]?).map fun cachedEdit => (id, cachedEdit) with
    | some (id, cachedEdit) =>
      cache.lookupExact rebasing id cachedEdit currentDocumentContents currentSelection
        cacheCursorDistanceCheck
    | none =>
      cache.rebaseTracked rebasing docCache.trackedCachedEdits currentDocumentContents
        currentSelection nesRebaseConfigs docCache.trackedCachedEdits

end NextEditCache

/-- What happens to the cache. The setting about editor changes is read when it is used. -/
inductive CacheEvent (C : Type)
  | openDocument (docId : String) (value : Str) (triggerOnEditorChange : Bool)
  | closeDocument (docId : String)
  | documentChanged (docId : String) (changes : List StringEdit) (triggerOnEditorChange : Bool)
  | setKthNextEdit (docId : String) (documentContents : Str) (editWindow : Option OffsetRange)
      (nextEdit : StringReplacement) (subsequentN : ℕ)
      (nextEdits : Option (List StringReplacement)) (userEditSince : Option StringEdit)
      (targetDocId : Option String) (originalEditWindow : Option OffsetRange)
      (cursorOffset : Option ℤ)
  | setNoNextEdit (docId : String) (documentContents : Str) (editWindow : Option OffsetRange)
  | lookupNextEdit (docId : String) (currentDocumentContents : Str)
      (currentSelection : List OffsetRange) (nesRebaseConfigs : C) (cacheCursorDistanceCheck : Bool)
  | clear

/-- One event, where `none` is an exception. -/
def NextEditCache.step {D C : Type} (rebasing : Rebasing D C) (cache : NextEditCache D) :
    CacheEvent C → Option (NextEditCache D)
  | .openDocument docId value trigger => some (cache.openDocument docId value trigger)
  | .closeDocument docId => some (cache.closeDocument docId)
  | .documentChanged docId changes trigger => cache.documentChanged docId changes trigger
  | .setKthNextEdit docId documentContents editWindow nextEdit subsequentN nextEdits userEditSince
      targetDocId originalEditWindow cursorOffset =>
    some (cache.setKthNextEdit rebasing docId documentContents editWindow nextEdit subsequentN
      nextEdits userEditSince targetDocId originalEditWindow cursorOffset)
  | .setNoNextEdit docId documentContents editWindow =>
    some (cache.setNoNextEdit rebasing docId documentContents editWindow)
  | .lookupNextEdit docId currentDocumentContents currentSelection nesRebaseConfigs check =>
    some (cache.lookupNextEdit rebasing docId currentDocumentContents currentSelection
      nesRebaseConfigs check).2
  | .clear => some cache.clear

end NexgileIde.InlineEdits
