import NexgileIde.InlineEdits.NextEditCache

/-!
# Tracked suggestions

A tracked suggestion is the one that the shared cache holds under its key, and its edit since
leads to the content of its document. Looking up changes at most the flags of suggestions and
forgets edits since.
-/
namespace NexgileIde.InlineEdits

open Text Edits Library

variable {D C : Type}

/-- The edit since a suggestion was made leads to a content. -/
def CachedEdit.Leads (cachedEdit : CachedEdit D) (value : Str) : Prop :=
  ∀ userEditSince, cachedEdit.userEditSince = some userEditSince →
    userEditSince.Within cachedEdit.documentBeforeEdit.length ∧
      userEditSince.apply cachedEdit.documentBeforeEdit = value

namespace NextEditCache

variable {cache next : NextEditCache D}

/-- The shared cache holds a suggestion. -/
def Holds (cache : NextEditCache D) (id : ℕ) : Prop :=
  ∃ key, (key, id) ∈ cache.sharedCache.nodes

structure Coherent (cache : NextEditCache D) : Prop where
  bounded : cache.sharedCache.Bounded
  capacity : 0 < cache.sharedCache.capacity
  keyed : ∀ key id, (key, id) ∈ cache.sharedCache.nodes →
    (cache.cachedEdits[id]?).map CachedEdit.key = some key
  nodup : ∀ docId docCache, cache.documentCaches docId = some docCache →
    docCache.trackedCachedEdits.Nodup
  /-- What a document tracks is its own and held. -/
  tracked : ∀ docId docCache, cache.documentCaches docId = some docCache →
    ∀ id ∈ docCache.trackedCachedEdits, ∃ cachedEdit, cache.cachedEdits[id]? = some cachedEdit ∧
      cachedEdit.docId = docId ∧ (cachedEdit.key, id) ∈ cache.sharedCache.nodes
  current : ∀ docId docCache, cache.documentCaches docId = some docCache →
    ∀ id ∈ docCache.trackedCachedEdits, ∀ cachedEdit, cache.cachedEdits[id]? = some cachedEdit →
      cachedEdit.Leads docCache.value

theorem coherent_initial : (initial : NextEditCache D).Coherent where
  bounded := ⟨List.nodup_nil, Nat.zero_le _⟩
  capacity := Nat.succ_pos 49
  keyed := nofun
  nodup := nofun
  tracked := nofun
  current := nofun

/-! ## Changes of suggestions -/

/-- Suggestions changed, but not their keys, and their edits since at most vanished. -/
structure Touched (cache next : NextEditCache D) : Prop where
  shared : next.sharedCache = cache.sharedCache
  documents : next.documentCaches = cache.documentCaches
  keys : ∀ id : ℕ, (next.cachedEdits[id]?).map CachedEdit.key =
    (cache.cachedEdits[id]?).map CachedEdit.key
  since : ∀ (id : ℕ) cachedEdit, cache.cachedEdits[id]? = some cachedEdit →
    ∀ value, cachedEdit.Leads value →
      ∀ cachedEdit', next.cachedEdits[id]? = some cachedEdit' → cachedEdit'.Leads value

theorem Touched.refl (cache : NextEditCache D) : Touched cache cache where
  shared := rfl
  documents := rfl
  keys _ := rfl
  since id cachedEdit h value hleads cachedEdit' h' := by
    obtain rfl := Option.some.inj (h.symm.trans h')
    exact hleads

theorem exists_of_key {id : ℕ} (h : (next.cachedEdits[id]?).map CachedEdit.key =
    (cache.cachedEdits[id]?).map CachedEdit.key) {cachedEdit : CachedEdit D}
    (hedit : cache.cachedEdits[id]? = some cachedEdit) :
    ∃ cachedEdit', next.cachedEdits[id]? = some cachedEdit' ∧ cachedEdit'.key = cachedEdit.key := by
  rw [hedit] at h
  exact Option.map_eq_some_iff.1 h

theorem Touched.trans {mid : NextEditCache D} (h : Touched cache mid) (h' : Touched mid next) :
    Touched cache next where
  shared := h'.shared.trans h.shared
  documents := h'.documents.trans h.documents
  keys id := (h'.keys id).trans (h.keys id)
  since id cachedEdit hedit value hleads cachedEdit' hedit' := by
    obtain ⟨cachedEdit'', hmid, -⟩ := exists_of_key (h.keys id) hedit
    exact h'.since id cachedEdit'' hmid value (h.since id cachedEdit hedit value hleads _ hmid)
      cachedEdit' hedit'

theorem touched_modifyEdit (cache : NextEditCache D) (id : ℕ) {f : CachedEdit D → CachedEdit D}
    (hkey : ∀ cachedEdit, (f cachedEdit).key = cachedEdit.key)
    (hleads : ∀ cachedEdit value, CachedEdit.Leads cachedEdit value →
      (f cachedEdit).Leads value) : Touched cache (cache.modifyEdit id f) where
  shared := rfl
  documents := rfl
  keys id' := by
    unfold modifyEdit
    rw [List.getElem?_modify]
    split <;> simp [Function.comp_def, hkey]
  since id' cachedEdit hedit value hvalue cachedEdit' hedit' := by
    unfold modifyEdit at hedit'
    rw [List.getElem?_modify, hedit] at hedit'
    split at hedit' <;> cases hedit'
    · exact hleads cachedEdit value hvalue
    · exact hvalue

theorem Coherent.touched (h : cache.Coherent) (htouched : Touched cache next) : next.Coherent where
  bounded := htouched.shared ▸ h.bounded
  capacity := htouched.shared ▸ h.capacity
  keyed key id hmem := by
    rw [htouched.shared] at hmem
    rw [htouched.keys]
    exact h.keyed key id hmem
  nodup docId docCache hdoc := by
    rw [htouched.documents] at hdoc
    exact h.nodup docId docCache hdoc
  tracked docId docCache hdoc id hid := by
    rw [htouched.documents] at hdoc
    obtain ⟨cachedEdit, hedit, hdocId, hmem⟩ := h.tracked docId docCache hdoc id hid
    obtain ⟨cachedEdit', hedit', hkey⟩ := exists_of_key (htouched.keys id) hedit
    refine ⟨cachedEdit', hedit', ?_, ?_⟩
    · rw [← hdocId]
      exact (Prod.mk.inj hkey).1
    · rw [htouched.shared, hkey]
      exact hmem
  current docId docCache hdoc id hid cachedEdit' hedit' := by
    rw [htouched.documents] at hdoc
    obtain ⟨cachedEdit, hedit, -, -⟩ := h.tracked docId docCache hdoc id hid
    exact htouched.since id cachedEdit hedit _
      (h.current docId docCache hdoc id hid cachedEdit hedit) cachedEdit' hedit'

/-- The suggestions that were there are held only if they were. -/
structure Grown (cache next : NextEditCache D) : Prop where
  length_le : cache.cachedEdits.length ≤ next.cachedEdits.length
  holds : ∀ id < cache.cachedEdits.length, next.Holds id → cache.Holds id

theorem Grown.refl (cache : NextEditCache D) : Grown cache cache :=
  ⟨le_refl _, fun _ _ h => h⟩

theorem Grown.trans {mid : NextEditCache D} (h : Grown cache mid) (h' : Grown mid next) :
    Grown cache next where
  length_le := h.length_le.trans h'.length_le
  holds id hid hholds := h.holds id hid (h'.holds id (hid.trans_le h.length_le) hholds)

/-- Nothing new is held. -/
theorem grown_of_subset (hedits : cache.cachedEdits.length ≤ next.cachedEdits.length)
    (hnodes : ∀ entry ∈ next.sharedCache.nodes, entry ∈ cache.sharedCache.nodes) :
    Grown cache next :=
  ⟨hedits, fun _ _ ⟨key, hmem⟩ => ⟨key, hnodes _ hmem⟩⟩

theorem length_eq_of_keys (h : ∀ id : ℕ, (next.cachedEdits[id]?).map CachedEdit.key =
    (cache.cachedEdits[id]?).map CachedEdit.key) :
    next.cachedEdits.length = cache.cachedEdits.length := by
  have hlist : next.cachedEdits.map CachedEdit.key = cache.cachedEdits.map CachedEdit.key :=
    List.ext_getElem? fun id => by simpa using h id
  simpa using congrArg List.length hlist

theorem Touched.grown (h : Touched cache next) : Grown cache next :=
  grown_of_subset (length_eq_of_keys h.keys).ge fun _ hmem => h.shared ▸ hmem

/-! ## Looking up -/

section

variable {rebasing : Rebasing D C} {tracked : List ℕ} {contents : Str}
  {selection : List OffsetRange} {configs : C}

theorem touched_details (cache : NextEditCache D) (id : ℕ) (details : D) :
    Touched cache (cache.modifyEdit id fun cachedEdit =>
      { cachedEdit with detailedEdits := details }) :=
  touched_modifyEdit cache id (fun _ => rfl) fun _ _ h => h

/-- A suggestion whose edit since is forgotten leads anywhere. -/
theorem touched_vanish (cache : NextEditCache D) (id : ℕ) :
    Touched cache (cache.modifyEdit id fun cachedEdit =>
      { cachedEdit with userEditSince := none }) := by
  refine touched_modifyEdit cache id (fun _ => rfl) ?_
  intro cachedEdit value _ userEditSince h
  cases h

theorem isRejectedLoop_touched (edit : StringReplacement) (rejected : List ℕ) :
    Touched cache (cache.isRejectedLoop rebasing contents edit rejected).2 := by
  induction rejected generalizing cache with
  | nil => exact .refl cache
  | cons id rejected ih =>
    unfold isRejectedLoop
    split
    · exact ih
    · split
      · exact ih
      · split
        · exact ih
        · dsimp only
          split
          · split
            · exact touched_details cache id _
            · exact (touched_details cache id _).trans ih
          · exact (touched_details cache id _).trans ih

theorem foundRebased_touched (id : ℕ) (cachedEdit : CachedEdit D)
    (rebased : StringReplacement × ℕ) :
    (cache.foundRebased rebasing tracked id cachedEdit contents rebased).1 =
        some ⟨id, some rebased⟩ ∧
      Touched cache (cache.foundRebased rebasing tracked id cachedEdit contents rebased).2 := by
  refine ⟨rfl, ?_⟩
  unfold foundRebased
  dsimp only
  split
  · exact .refl cache
  · split
    · exact (isRejectedLoop_touched rebased.1 _).trans
        (touched_modifyEdit _ id (fun _ => rfl) fun _ _ h => h)
    · exact isRejectedLoop_touched rebased.1 _

theorem rebaseWindows_touched {id : ℕ} {cachedEdit : CachedEdit D} {userEditSince : StringEdit}
    (details : D) (windows : List (Option OffsetRange)) :
    (∀ found, (cache.rebaseWindows rebasing tracked id cachedEdit userEditSince contents selection
        configs details windows).1 = some found → found.cachedEdit = id) ∧
      Touched cache (cache.rebaseWindows rebasing tracked id cachedEdit userEditSince contents
        selection configs details windows).2 := by
  induction windows generalizing cache details with
  | nil => exact ⟨nofun, .refl cache⟩
  | cons window windows ih =>
    unfold rebaseWindows
    generalize rebasing.tryRebase cachedEdit.documentBeforeEdit window cachedEdit.originalEdits
      details userEditSince contents selection .strict (some configs) = answer
    obtain ⟨outcome, details'⟩ := answer
    have hdetails := touched_details cache id details'
    have hfound : ∀ rebased, (∀ found, ((cache.modifyEdit id fun cachedEdit =>
        { cachedEdit with detailedEdits := details' }).foundRebased rebasing tracked id cachedEdit
          contents rebased).1 = some found → found.cachedEdit = id) ∧
        Touched cache ((cache.modifyEdit id fun cachedEdit =>
          { cachedEdit with detailedEdits := details' }).foundRebased rebasing tracked id
            cachedEdit contents rebased).2 := by
      intro rebased
      obtain ⟨hresult, htouched⟩ := @foundRebased_touched D C (cache.modifyEdit id fun cachedEdit =>
        { cachedEdit with detailedEdits := details' }) rebasing tracked contents id cachedEdit
        rebased
      refine ⟨fun found h => ?_, hdetails.trans htouched⟩
      rw [hresult, Option.some.injEq] at h
      rw [← h]
    have hvanish := hdetails.trans (touched_vanish _ id)
    cases outcome with
    | outsideEditWindow => exact ⟨(ih details').1, hdetails.trans (ih details').2⟩
    | rebaseFailed =>
      dsimp only
      split
      · exact hfound _
      · exact ⟨nofun, hdetails.trans (touched_modifyEdit _ id (fun _ => rfl) fun _ _ h => h)⟩
    | error => exact ⟨nofun, hvanish⟩
    | inconsistentEdits => exact ⟨nofun, hvanish⟩
    | edits rebased =>
      cases rebased with
      | cons rebased rest => exact hfound rebased
      | nil =>
        dsimp only
        split
        · exact ⟨fun found h => by rw [← Option.some.inj h], hdetails⟩
        · exact ⟨(ih details').1, hdetails.trans (ih details').2⟩

theorem tryRebaseCacheEntry_touched (id : ℕ) :
    (∀ found, (cache.tryRebaseCacheEntry rebasing tracked id contents selection configs).1 =
        some found → found.cachedEdit = id) ∧
      Touched cache
        (cache.tryRebaseCacheEntry rebasing tracked id contents selection configs).2 := by
  unfold tryRebaseCacheEntry
  split
  · exact ⟨nofun, .refl cache⟩
  · split
    · exact ⟨nofun, .refl cache⟩
    · split
      · exact ⟨nofun, .refl cache⟩
      · exact rebaseWindows_touched _ _

/-- What is found by rebasing is tracked. -/
theorem rebaseTracked_touched (ids : List ℕ) :
    (∀ found, (cache.rebaseTracked rebasing tracked contents selection configs ids).1 =
        some found → found.cachedEdit ∈ ids) ∧
      Touched cache (cache.rebaseTracked rebasing tracked contents selection configs ids).2 := by
  induction ids generalizing cache with
  | nil => exact ⟨nofun, .refl cache⟩
  | cons id ids ih =>
    unfold rebaseTracked
    obtain ⟨hid, htouched⟩ := @tryRebaseCacheEntry_touched D C cache rebasing tracked contents
      selection configs id
    split
    · next found mid heq =>
      rw [heq] at hid htouched
      refine ⟨fun found' h => ?_, htouched⟩
      rw [← Option.some.inj h, hid found rfl]
      exact List.mem_cons_self
    · next mid heq =>
      rw [heq] at htouched
      exact ⟨fun found h => List.mem_cons_of_mem _ (ih.1 found h), htouched.trans ih.2⟩

end

end NextEditCache

end NexgileIde.InlineEdits

/-!
## Edits of documents with tracked suggestions

The edits since of the tracked suggestions are composed with what the user does. The editor-change
trigger drops the suggestions for other documents, which may still track them.
-/
namespace NexgileIde.InlineEdits

open Text Edits Library

variable {D C : Type}

namespace NextEditCache

variable {cache next : NextEditCache D}

/-! ## Composing -/

theorem modifyEdit_ne {id one : ℕ} (h : one ≠ id) (f : CachedEdit D → CachedEdit D) :
    (cache.modifyEdit id f).cachedEdits[one]? = cache.cachedEdits[one]? :=
  List.getElem?_modify_ne f cache.cachedEdits (Ne.symm h)

theorem modifyEdit_self {id : ℕ} {cachedEdit : CachedEdit D}
    (h : cache.cachedEdits[id]? = some cachedEdit) (f : CachedEdit D → CachedEdit D) :
    (cache.modifyEdit id f).cachedEdits[id]? = some (f cachedEdit) := by
  rw [modifyEdit, List.getElem?_modify_eq, h]
  rfl

/-- Suggestions with these indices now lead to a content, and nothing else has changed. -/
structure Moved (ids : List ℕ) (value : Str) (cache next : NextEditCache D) : Prop where
  shared : next.sharedCache = cache.sharedCache
  documents : next.documentCaches = cache.documentCaches
  keys : ∀ id : ℕ, (next.cachedEdits[id]?).map CachedEdit.key =
    (cache.cachedEdits[id]?).map CachedEdit.key
  leads : ∀ id ∈ ids, ∀ cachedEdit, next.cachedEdits[id]? = some cachedEdit →
    cachedEdit.Leads value
  others : ∀ id, id ∉ ids → next.cachedEdits[id]? = cache.cachedEdits[id]?

/-- The suggestions with these indices lead to a content. -/
def AllLead (cache : NextEditCache D) (ids : List ℕ) (value : Str) : Prop :=
  ∀ id ∈ ids, ∀ cachedEdit, cache.cachedEdits[id]? = some cachedEdit → cachedEdit.Leads value

theorem handleEdit_moved {edit : StringEdit} {value : Str} (hedit : edit.Within value.length)
    {ids : List ℕ} (hnodup : ids.Nodup) (hleads : cache.AllLead ids value) :
    ∃ next, cache.handleEdit edit ids = some next ∧ Moved ids (edit.apply value) cache next := by
  induction ids generalizing cache with
  | nil => exact ⟨cache, rfl, rfl, rfl, fun _ => rfl, nofun, fun _ _ => rfl⟩
  | cons id rest ih =>
    obtain ⟨hid, hrest⟩ := List.nodup_cons.1 hnodup
    unfold handleEdit
    cases hsince : (cache.cachedEdits[id]?).bind fun cachedEdit => cachedEdit.userEditSince with
    | none =>
      obtain ⟨next, hnext, hmoved⟩ := ih hrest fun id hid => hleads id (List.mem_cons_of_mem _ hid)
      refine ⟨next, hnext, hmoved.shared, hmoved.documents, hmoved.keys, ?_, ?_⟩
      · intro one hone cachedEdit hedit
        rcases List.mem_cons.1 hone with rfl | hone
        · rw [hmoved.others one hid] at hedit
          intro userEditSince hsome
          simp [hedit, hsome] at hsince
        · exact hmoved.leads one hone cachedEdit hedit
      · intro one hone
        exact hmoved.others one fun hmem => hone (List.mem_cons_of_mem _ hmem)
    | some userEditSince =>
      obtain ⟨cachedEdit, hcached, hsome⟩ := Option.bind_eq_some_iff.1 hsince
      obtain ⟨hwithin, happly⟩ := hleads id List.mem_cons_self cachedEdit hcached _ hsome
      obtain ⟨composed, hcomposed, hcomposedWithin, hcomposedApply, -⟩ :=
        StringEdit.compose_spec cachedEdit.documentBeforeEdit userEditSince edit hwithin
          (happly ▸ hedit)
      simp only [hcomposed]
      have hself := modifyEdit_self hcached fun cachedEdit =>
        { cachedEdit with userEditSince := some composed, rebaseFailed := false }
      have hother : ∀ one, one ≠ id → (cache.modifyEdit id fun cachedEdit =>
          { cachedEdit with userEditSince := some composed, rebaseFailed := false }).cachedEdits[one]?
            = cache.cachedEdits[one]? := fun one hone => modifyEdit_ne hone _
      obtain ⟨next, hnext, hmoved⟩ := @ih (cache.modifyEdit id fun cachedEdit =>
          { cachedEdit with userEditSince := some composed, rebaseFailed := false }) hrest
        fun one hone => by
          rw [hother one fun heq => hid (heq ▸ hone)]
          exact hleads one (List.mem_cons_of_mem _ hone)
      refine ⟨next, hnext, hmoved.shared, hmoved.documents, ?_, ?_, ?_⟩
      · intro one
        rw [hmoved.keys]
        by_cases hone : one = id
        · rw [hone, hself, hcached]
          rfl
        · rw [hother one hone]
      · intro one hone found hfound
        rcases List.mem_cons.1 hone with rfl | hone
        · rw [hmoved.others one hid, hself] at hfound
          cases hfound
          intro since hsince
          cases hsince
          exact ⟨hcomposedWithin, by rw [hcomposedApply, happly]⟩
        · exact hmoved.leads one hone found hfound
      · intro one hone
        rw [hmoved.others one fun hmem => hone (List.mem_cons_of_mem _ hmem)]
        exact hother one fun heq => hone (heq ▸ List.mem_cons_self)

theorem Moved.trans {mid : NextEditCache D} {ids : List ℕ} {value value' : Str}
    (h : Moved ids value cache mid) (h' : Moved ids value' mid next) :
    Moved ids value' cache next where
  shared := h'.shared.trans h.shared
  documents := h'.documents.trans h.documents
  keys id := (h'.keys id).trans (h.keys id)
  leads := h'.leads
  others id hid := (h'.others id hid).trans (h.others id hid)

/-- Changes of a document, each one within what the ones before have left. -/
def ChangesWithin : List StringEdit → Str → Prop
  | [], _ => True
  | edit :: changes, value => edit.Within value.length ∧ ChangesWithin changes (edit.apply value)

theorem apply_of_isEmpty {edit : StringEdit} (h : edit.isEmpty = true) (value : Str) :
    edit.apply value = value := by
  have hnil : edit.replacements = [] := List.isEmpty_iff.1 h
  rw [StringEdit.apply, hnil]
  simp [applyFrom, substringFrom]

theorem handleChanges_moved {changes : List StringEdit} {value : Str}
    (hchanges : ChangesWithin changes value) {ids : List ℕ} (hnodup : ids.Nodup)
    (hleads : cache.AllLead ids value) :
    ∃ next, cache.handleChanges ids changes = some next ∧
      Moved ids (changes.foldl (fun value edit => edit.apply value) value) cache next := by
  induction changes generalizing cache value with
  | nil => exact ⟨cache, rfl, rfl, rfl, fun _ => rfl, hleads, fun _ _ => rfl⟩
  | cons edit changes ih =>
    obtain ⟨hedit, hrest⟩ := hchanges
    rw [List.foldl_cons]
    unfold handleChanges
    split_ifs with hempty
    · rw [apply_of_isEmpty hempty] at hrest ⊢
      exact ih hrest hleads
    · obtain ⟨mid, hmid, hmoved⟩ := handleEdit_moved hedit hnodup hleads
      obtain ⟨next, hnext, hmoved'⟩ := ih hrest hmoved.leads
      simp only [hmid]
      exact ⟨next, hnext, hmoved.trans hmoved'⟩

/-! ## Dropping the suggestions for other documents -/

/-- No other document tracks a suggestion. -/
def TracksAlone (cache : NextEditCache D) (docId : String) : Prop :=
  ∀ other, other ≠ docId → ∀ docCache, cache.documentCaches other = some docCache →
    docCache.trackedCachedEdits = []

/-- What the loop over the entries leaves. -/
theorem mem_foldl_drop {docId : String} {nodes : List ((String × Str) × ℕ)}
    {entry : (String × Str) × ℕ} :
    let dropped := nodes.foldl (fun cache node =>
      match cache.cachedEdits[node.2]? with
      | none => cache
      | some cachedEdit =>
        if cachedEdit.docId ≠ docId then
          { cache with sharedCache := cache.sharedCache.deleteKey node.1 }
        else cache) cache
    (dropped.cachedEdits = cache.cachedEdits ∧ dropped.documentCaches = cache.documentCaches ∧
      dropped.sharedCache.capacity = cache.sharedCache.capacity ∧
      (cache.sharedCache.Bounded → dropped.sharedCache.Bounded)) ∧
      (entry ∈ dropped.sharedCache.nodes ↔ entry ∈ cache.sharedCache.nodes ∧
        ∀ node ∈ nodes, node.1 = entry.1 →
          ∀ cachedEdit, cache.cachedEdits[node.2]? = some cachedEdit → cachedEdit.docId = docId) := by
  induction nodes generalizing cache with
  | nil => simp
  | cons node nodes ih =>
    simp only [List.foldl_cons]
    cases hedit : cache.cachedEdits[node.2]? with
    | none =>
      obtain ⟨hsame, hmem⟩ := @ih cache
      refine ⟨hsame, hmem.trans (and_congr_right fun _ => ?_)⟩
      simp [hedit]
    | some cachedEdit =>
      by_cases hdoc : cachedEdit.docId = docId
      · obtain ⟨hsame, hmem⟩ := @ih cache
        simp only [hdoc, ne_eq, not_true_eq_false, if_false]
        refine ⟨hsame, hmem.trans (and_congr_right fun _ => ?_)⟩
        simp [hedit, hdoc]
      · obtain ⟨⟨hedits, hdocuments, hcapacity, hbounded⟩, hmem⟩ :=
          @ih { cache with sharedCache := cache.sharedCache.deleteKey node.1 }
        simp only [hdoc, ne_eq, not_false_eq_true, if_true]
        refine ⟨⟨hedits, hdocuments, hcapacity, fun h => hbounded (h.deleteKey node.1)⟩,
          hmem.trans ?_⟩
        simp only [LRUCache.deleteKey, Recency.mem_remove]
        constructor
        · rintro ⟨⟨hentry, hne⟩, hall⟩
          refine ⟨hentry, fun one hone hkey => ?_⟩
          rcases List.mem_cons.1 hone with rfl | hone
          · exact absurd hkey.symm hne
          · exact hall one hone hkey
        · rintro ⟨hentry, hall⟩
          refine ⟨⟨hentry, fun hkey => ?_⟩, fun one hone => hall one (List.mem_cons_of_mem _ hone)⟩
          exact hdoc (hall node List.mem_cons_self hkey.symm cachedEdit hedit)

/-- A suggestion stays held when its document is the one that has changed. -/
theorem Coherent.mem_dropOthers (h : cache.Coherent) {docId : String}
    {entry : (String × Str) × ℕ} :
    entry ∈ (cache.dropOthers docId).sharedCache.nodes ↔
      entry ∈ cache.sharedCache.nodes ∧ entry.1.1 = docId := by
  refine mem_foldl_drop.2.trans (and_congr_right fun hentry => ?_)
  constructor
  · intro hall
    have hkey := h.keyed entry.1 entry.2 hentry
    obtain ⟨cachedEdit, hedit, hcached⟩ := Option.map_eq_some_iff.1 hkey
    rw [← hcached]
    exact hall entry hentry rfl cachedEdit hedit
  · intro hdoc node hnode hsame cachedEdit hedit
    have hkey := h.keyed node.1 node.2 hnode
    rw [hedit, Option.map_some, Option.some.injEq] at hkey
    rw [← hdoc, ← hsame, ← hkey]
    rfl

theorem Coherent.dropOthers (h : cache.Coherent) {docId : String}
    (halone : cache.TracksAlone docId) : (cache.dropOthers docId).Coherent := by
  obtain ⟨⟨hedits, hdocuments, hcapacity, hbounded⟩, -⟩ :=
    @mem_foldl_drop D cache docId cache.sharedCache.nodes (("", []), 0)
  change (cache.dropOthers docId).cachedEdits = _ at hedits
  change (cache.dropOthers docId).documentCaches = _ at hdocuments
  constructor
  · exact hbounded h.bounded
  · exact hcapacity.symm ▸ h.capacity
  · intro key id hmem
    rw [hedits]
    exact h.keyed key id (h.mem_dropOthers.1 hmem).1
  · intro doc docCache hdoc
    exact h.nodup doc docCache (hdocuments ▸ hdoc)
  · intro doc docCache hdoc id hid
    rw [hdocuments] at hdoc
    obtain ⟨cachedEdit, hedit, howner, hmem⟩ := h.tracked doc docCache hdoc id hid
    refine ⟨cachedEdit, hedits ▸ hedit, howner, h.mem_dropOthers.2 ⟨hmem, ?_⟩⟩
    by_contra hne
    have hother : doc ≠ docId := fun heq => hne (howner.trans heq)
    simp [halone doc hother docCache hdoc] at hid
  · intro doc docCache hdoc id hid cachedEdit hedit
    exact h.current doc docCache (hdocuments ▸ hdoc) id hid cachedEdit (hedits ▸ hedit)

theorem Coherent.grown_dropOthers (h : cache.Coherent) (docId : String) :
    Grown cache (cache.dropOthers docId) := by
  refine grown_of_subset ?_ fun entry hentry => (h.mem_dropOthers.1 hentry).1
  obtain ⟨⟨hedits, -⟩, -⟩ :=
    @mem_foldl_drop D cache docId cache.sharedCache.nodes (("", []), 0)
  exact (congrArg List.length hedits).ge

/-- A document changes, with the suggestions that it tracks. -/
theorem Coherent.changed (h : cache.Coherent) {docId : String} {docCache : DocumentEditCache}
    (hdoc : cache.documentCaches docId = some docCache) {value : Str}
    (hmoved : Moved docCache.trackedCachedEdits value
      { cache with
        documentCaches := Function.update cache.documentCaches docId (some { docCache with value }) }
      next) : next.Coherent := by
  have hdocuments : ∀ doc found, next.documentCaches doc = some found →
      ∃ old, cache.documentCaches doc = some old ∧
        found.trackedCachedEdits = old.trackedCachedEdits ∧
        found.value = if doc = docId then value else old.value := by
    intro doc found hfound
    rw [hmoved.documents] at hfound
    by_cases heq : doc = docId
    · subst heq
      simp only [Function.update_self, Option.some.injEq] at hfound
      exact ⟨docCache, hdoc, hfound ▸ rfl, by simp [← hfound]⟩
    · simp only [Function.update_of_ne heq] at hfound
      exact ⟨found, hfound, rfl, by simp [heq]⟩
  constructor
  · exact hmoved.shared ▸ h.bounded
  · exact hmoved.shared ▸ h.capacity
  · intro key id hmem
    rw [hmoved.shared] at hmem
    rw [hmoved.keys]
    exact h.keyed key id hmem
  · intro doc found hfound
    obtain ⟨old, hold, htracked, -⟩ := hdocuments doc found hfound
    exact htracked ▸ h.nodup doc old hold
  · intro doc found hfound id hid
    obtain ⟨old, hold, htracked, -⟩ := hdocuments doc found hfound
    obtain ⟨cachedEdit, hedit, howner, hmem⟩ := h.tracked doc old hold id (htracked ▸ hid)
    obtain ⟨cachedEdit', hedit', hkey⟩ := exists_of_key (hmoved.keys id) hedit
    refine ⟨cachedEdit', hedit', (Prod.mk.inj hkey).1.trans howner, ?_⟩
    rw [hmoved.shared, hkey]
    exact hmem
  · intro doc found hfound id hid cachedEdit hedit
    obtain ⟨old, hold, htracked, hvalue⟩ := hdocuments doc found hfound
    rw [htracked] at hid
    rw [hvalue]
    split_ifs with heq
    · subst heq
      obtain rfl : old = docCache := Option.some.inj (hold.symm.trans hdoc)
      exact hmoved.leads id hid cachedEdit hedit
    · have hother : id ∉ docCache.trackedCachedEdits := by
        intro hmem
        obtain ⟨one, hone, howner, -⟩ := h.tracked docId docCache hdoc id hmem
        obtain ⟨two, htwo, howner', -⟩ := h.tracked doc old hold id hid
        obtain rfl : one = two := Option.some.inj (hone.symm.trans htwo)
        exact heq (howner'.symm.trans howner)
      rw [hmoved.others id hother] at hedit
      exact h.current doc old hold id hid cachedEdit hedit

theorem Coherent.documentChanged (h : cache.Coherent) {docId : String}
    {docCache : DocumentEditCache} (hdoc : cache.documentCaches docId = some docCache)
    {changes : List StringEdit} (hchanges : ChangesWithin changes docCache.value) (trigger : Bool)
    (halone : trigger = true → cache.TracksAlone docId) :
    ∃ next, cache.documentChanged docId changes trigger = some next ∧ next.Coherent ∧
      Grown cache next := by
  unfold NextEditCache.documentChanged
  simp only [hdoc]
  obtain ⟨mid, hmid, hmoved⟩ := @handleChanges_moved D
    { cache with
      documentCaches := Function.update cache.documentCaches docId
        (some { docCache with
          value := changes.foldl (fun value edit => edit.apply value) docCache.value }) }
    changes docCache.value hchanges docCache.trackedCachedEdits (h.nodup docId docCache hdoc)
    fun id hid => h.current docId docCache hdoc id hid
  have hcoherent := h.changed hdoc hmoved
  have hgrown : Grown cache mid :=
    grown_of_subset (length_eq_of_keys hmoved.keys).ge fun _ hentry => hmoved.shared ▸ hentry
  rw [hmid]
  refine ⟨_, rfl, ?_⟩
  split_ifs with htrigger
  · refine ⟨hcoherent.dropOthers fun other hother found hfound => ?_,
      hgrown.trans (hcoherent.grown_dropOthers docId)⟩
    rw [hmoved.documents] at hfound
    simp only [Function.update_of_ne hother] at hfound
    exact halone htrigger other hother found hfound
  · exact ⟨hcoherent, hgrown⟩

end NextEditCache

end NexgileIde.InlineEdits
