import NexgileIde.Edits.SequentialReplacements
import NexgileIde.InlineEdits.TrackedEdits

/-!
# Suggestions in the shared cache

A new suggestion takes the place of the one that had its key, and may evict another one. Neither
is tracked afterwards.
-/
namespace NexgileIde.InlineEdits

open Text Edits Library

variable {D C : Type}

namespace NextEditCache

variable {cache next : NextEditCache D} {docId : String} {key : String × Str} {id : ℕ}

/-- Documents stopped tracking some suggestions. -/
structure Untracked (gone : String → ℕ → Prop) (cache next : NextEditCache D) : Prop where
  edits : next.cachedEdits = cache.cachedEdits
  shared : next.sharedCache = cache.sharedCache
  documents : ∀ doc found, next.documentCaches doc = some found →
    ∃ old, cache.documentCaches doc = some old ∧ found.value = old.value ∧
      found.trackedCachedEdits.Sublist old.trackedCachedEdits ∧
      ∀ one ∈ found.trackedCachedEdits, ¬ gone doc one

/-- No document tracks a suggestion twice. -/
def TracksOnce (cache : NextEditCache D) : Prop :=
  ∀ doc docCache, cache.documentCaches doc = some docCache → docCache.trackedCachedEdits.Nodup

theorem untracked_nothing (cache : NextEditCache D) : Untracked (fun _ _ => False) cache cache where
  edits := rfl
  shared := rfl
  documents _ found h := ⟨found, h, rfl, List.Sublist.refl _, fun _ _ => id⟩

theorem evictedFrom_untracked (hnodup : cache.TracksOnce) (docId : String) (id : ℕ) :
    Untracked (fun doc one => doc = docId ∧ one = id) cache (cache.evictedFrom docId id) := by
  unfold evictedFrom
  cases hdoc : cache.documentCaches docId with
  | none =>
    refine ⟨rfl, rfl, fun doc found hfound => ⟨found, hfound, rfl, List.Sublist.refl _, ?_⟩⟩
    rintro one - ⟨rfl, -⟩
    simp [hdoc] at hfound
  | some docCache =>
    refine ⟨rfl, rfl, fun doc found hfound => ?_⟩
    by_cases heq : doc = docId
    · subst heq
      simp only [setTracked, Function.update_self, hdoc, Option.map_some,
        Option.some.injEq] at hfound
      subst hfound
      refine ⟨docCache, hdoc, rfl, List.erase_sublist, ?_⟩
      rintro one hone ⟨-, rfl⟩
      exact (hnodup doc docCache hdoc).not_mem_erase hone
    · simp only [setTracked, Function.update_of_ne heq] at hfound
      refine ⟨found, hfound, rfl, List.Sublist.refl _, ?_⟩
      rintro one - ⟨hsame, -⟩
      exact heq hsame

theorem evictedCachedEdit_untracked (hnodup : cache.TracksOnce) (id : ℕ) :
    Untracked (fun doc one => one = id ∧
      (cache.cachedEdits[id]?).map CachedEdit.docId = some doc) cache
        (cache.evictedCachedEdit id) := by
  unfold evictedCachedEdit
  cases hedit : cache.cachedEdits[id]? with
  | none =>
    refine ⟨rfl, rfl, fun doc found hfound => ⟨found, hfound, rfl, List.Sublist.refl _, ?_⟩⟩
    rintro one - ⟨-, hnone⟩
    cases hnone
  | some cachedEdit =>
    obtain ⟨hedits, hshared, hdocuments⟩ := evictedFrom_untracked hnodup cachedEdit.docId id
    refine ⟨hedits, hshared, fun doc found hfound => ?_⟩
    obtain ⟨old, hold, hvalue, hsublist, hgone⟩ := hdocuments doc found hfound
    refine ⟨old, hold, hvalue, hsublist, ?_⟩
    rintro one hone ⟨rfl, howner⟩
    exact hgone one hone ⟨(Option.some.inj howner).symm, rfl⟩

theorem Untracked.tracksOnce {gone : String → ℕ → Prop} (h : Untracked gone cache next)
    (hnodup : cache.TracksOnce) : next.TracksOnce := by
  intro doc found hfound
  obtain ⟨old, hold, -, hsublist, -⟩ := h.documents doc found hfound
  exact (hnodup doc old hold).sublist hsublist

theorem Untracked.mono {gone gone' : String → ℕ → Prop} (h : Untracked gone cache next)
    (hgone : ∀ doc one, gone' doc one → gone doc one) : Untracked gone' cache next where
  edits := h.edits
  shared := h.shared
  documents doc found hfound := by
    obtain ⟨old, hold, hvalue, hsublist, hnot⟩ := h.documents doc found hfound
    exact ⟨old, hold, hvalue, hsublist, fun one hone hone' => hnot one hone (hgone doc one hone')⟩

theorem replaced_untracked (hnodup : cache.TracksOnce) (docId : String) (existing : Option ℕ) :
    Untracked (fun doc one => doc = docId ∧ existing = some one) cache
      (match existing with
        | none => cache
        | some existing => cache.evictedFrom docId existing) := by
  cases existing with
  | none => exact (untracked_nothing cache).mono fun _ _ h => nomatch h.2
  | some existing =>
    refine (evictedFrom_untracked hnodup docId existing).mono ?_
    rintro doc one ⟨hdoc, hone⟩
    exact ⟨hdoc, (Option.some.inj hone).symm⟩

theorem evicted_untracked (hnodup : cache.TracksOnce)
    (evicted : Option ((String × Str) × ℕ)) :
    Untracked (fun doc one => evicted.map Prod.snd = some one ∧
      (cache.cachedEdits[one]?).map CachedEdit.docId = some doc) cache
      (match evicted with
        | none => cache
        | some evicted => cache.evictedCachedEdit evicted.2) := by
  cases evicted with
  | none => exact (untracked_nothing cache).mono fun _ _ h => nomatch h.1
  | some evicted =>
    refine (evictedCachedEdit_untracked hnodup evicted.2).mono ?_
    rintro doc one ⟨hone, howner⟩
    obtain rfl : evicted.2 = one := Option.some.inj hone
    exact ⟨rfl, howner⟩

/-- The entries of the shared cache and the tracked suggestions after a suggestion was put. -/
structure Shared (key : String × Str) (id : ℕ) (evicted : Option ((String × Str) × ℕ))
    (cache next : NextEditCache D) : Prop where
  edits : next.cachedEdits = cache.cachedEdits
  bounded : next.sharedCache.Bounded
  capacity : next.sharedCache.capacity = cache.sharedCache.capacity
  mem : ∀ entry, entry ∈ next.sharedCache.nodes ↔
    (entry = (key, id) ∨ entry ∈ cache.sharedCache.nodes ∧ entry.1 ≠ key) ∧ evicted ≠ some entry
  evicted_ne : ∀ entry, evicted = some entry → entry.1 ≠ key
  documents : ∀ doc found, next.documentCaches doc = some found →
    ∃ old, cache.documentCaches doc = some old ∧ found.value = old.value ∧
      found.trackedCachedEdits.Sublist old.trackedCachedEdits ∧
      ∀ one ∈ found.trackedCachedEdits,
        ¬ (doc = key.1 ∧ cache.sharedCache.node key = some one) ∧
        ¬ (evicted.map Prod.snd = some one ∧
          (cache.cachedEdits[one]?).map CachedEdit.docId = some doc)

theorem share_shared (hbounded : cache.sharedCache.Bounded)
    (hcapacity : 0 < cache.sharedCache.capacity) (hnodup : cache.TracksOnce)
    (key : String × Str) (id : ℕ) :
    ∃ evicted, Shared key id evicted cache (cache.share key.1 key id) := by
  obtain ⟨hgetBounded, hgetMem, hget⟩ := hbounded.get key
  have hgetCapacity : (cache.sharedCache.get key).2.capacity = cache.sharedCache.capacity := by
    unfold LRUCache.get
    split <;> rfl
  obtain ⟨replaced, hreplaced, hshare⟩ : ∃ replaced,
      Untracked (fun doc one => doc = key.1 ∧ (cache.sharedCache.get key).1 = some one)
        { cache with sharedCache := (cache.sharedCache.get key).2 } replaced ∧
      cache.share key.1 key id =
        match (replaced.sharedCache.put key id).2 with
        | none => { replaced with sharedCache := (replaced.sharedCache.put key id).1 }
        | some evicted =>
          { replaced with
            sharedCache := (replaced.sharedCache.put key id).1 }.evictedCachedEdit evicted.2 :=
    ⟨_, @replaced_untracked D { cache with sharedCache := (cache.sharedCache.get key).2 } hnodup
      key.1 (cache.sharedCache.get key).1, rfl⟩
  have hput := hreplaced.shared
  dsimp only at hput
  rw [← hput] at hgetBounded hgetMem hgetCapacity
  obtain ⟨hputBounded, hputMem, hevicted⟩ := hgetBounded.put (hgetCapacity ▸ hcapacity) key id
  have hfinal : Untracked (fun doc one =>
      (replaced.sharedCache.put key id).2.map Prod.snd = some one ∧
        (replaced.cachedEdits[one]?).map CachedEdit.docId = some doc)
      { replaced with sharedCache := (replaced.sharedCache.put key id).1 }
      (cache.share key.1 key id) := by
    rw [hshare]
    exact @evicted_untracked D
      { replaced with sharedCache := (replaced.sharedCache.put key id).1 }
      (hreplaced.tracksOnce hnodup) (replaced.sharedCache.put key id).2
  refine ⟨(replaced.sharedCache.put key id).2, ?_, ?_, ?_, ?_, ?_, ?_⟩
  · exact hfinal.edits.trans hreplaced.edits
  · exact hfinal.shared ▸ hputBounded
  · rw [hfinal.shared, ← hgetCapacity]
    unfold LRUCache.put
    dsimp only
    split
    · rfl
    · split <;> rfl
  · intro entry
    rw [hfinal.shared, hputMem, hgetMem]
  · intro entry hentry
    exact (hevicted entry hentry).2
  · intro doc found hfound
    obtain ⟨mid, hmid, hvalue, hsublist, hgone⟩ := hfinal.documents doc found hfound
    obtain ⟨old, hold, hvalue', hsublist', hgone'⟩ := hreplaced.documents doc mid hmid
    refine ⟨old, hold, hvalue.trans hvalue', hsublist.trans hsublist', fun one hone => ⟨?_, ?_⟩⟩
    · rw [← hget]
      exact hgone' one (hsublist.mem hone)
    · have hedits : replaced.cachedEdits = cache.cachedEdits := hreplaced.edits
      rw [← hedits]
      exact hgone one hone

/-- A cache with one more suggestion, which is not held yet. -/
structure Extends (cachedEdit : CachedEdit D) (cache next : NextEditCache D) : Prop where
  edits : next.cachedEdits = cache.cachedEdits ++ [cachedEdit]
  shared : next.sharedCache = cache.sharedCache
  documents : ∀ doc found, next.documentCaches doc = some found →
    ∃ old, cache.documentCaches doc = some old ∧ found.value = old.value ∧
      (found.trackedCachedEdits = old.trackedCachedEdits ∨
        doc = cachedEdit.docId ∧ cachedEdit.Leads old.value ∧
          found.trackedCachedEdits = cache.cachedEdits.length :: old.trackedCachedEdits)

theorem Coherent.lt_length (h : cache.Coherent) {docCache : DocumentEditCache}
    (hdoc : cache.documentCaches docId = some docCache) (hid : id ∈ docCache.trackedCachedEdits) :
    id < cache.cachedEdits.length := by
  obtain ⟨cachedEdit, hedit, -, -⟩ := h.tracked docId docCache hdoc id hid
  exact (List.getElem?_eq_some_iff.1 hedit).1

theorem Coherent.held_lt_length (h : cache.Coherent) (hholds : cache.Holds id) :
    id < cache.cachedEdits.length := by
  obtain ⟨key, hmem⟩ := hholds
  obtain ⟨cachedEdit, hedit, -⟩ := Option.map_eq_some_iff.1 (h.keyed key id hmem)
  exact (List.getElem?_eq_some_iff.1 hedit).1

section

variable {cachedEdit : CachedEdit D}

theorem Extends.old (h : Extends cachedEdit cache next) (hid : id < cache.cachedEdits.length) :
    next.cachedEdits[id]? = cache.cachedEdits[id]? := by
  rw [h.edits, List.getElem?_append_left hid]

theorem Extends.new (h : Extends cachedEdit cache next) :
    next.cachedEdits[cache.cachedEdits.length]? = some cachedEdit := by
  simp [h.edits]

theorem Extends.tracksOnce (h : Extends cachedEdit cache next) (hcoherent : cache.Coherent) :
    next.TracksOnce := by
  intro doc found hfound
  obtain ⟨old, hold, -, htracked⟩ := h.documents doc found hfound
  have hnodup := hcoherent.nodup doc old hold
  rcases htracked with htracked | ⟨-, -, htracked⟩
  · exact htracked ▸ hnodup
  · rw [htracked, List.nodup_cons]
    refine ⟨fun hmem => ?_, hnodup⟩
    exact Nat.lt_irrefl _ (hcoherent.lt_length hold hmem)

/-- A new suggestion is shared under its key. -/
theorem Coherent.share (hcoherent : cache.Coherent) (h : Extends cachedEdit cache next) :
    (next.share cachedEdit.docId cachedEdit.key cache.cachedEdits.length).Coherent ∧
      (next.share cachedEdit.docId cachedEdit.key cache.cachedEdits.length).cachedEdits =
        next.cachedEdits ∧
      ∀ entry ∈ (next.share cachedEdit.docId cachedEdit.key
        cache.cachedEdits.length).sharedCache.nodes,
        entry = (cachedEdit.key, cache.cachedEdits.length) ∨ entry ∈ cache.sharedCache.nodes := by
  obtain ⟨evicted, hshared⟩ := share_shared (h.shared ▸ hcoherent.bounded)
    (h.shared ▸ hcoherent.capacity) (h.tracksOnce hcoherent) cachedEdit.key cache.cachedEdits.length
  change Shared _ _ evicted next
    (next.share cachedEdit.docId cachedEdit.key cache.cachedEdits.length) at hshared
  generalize next.share cachedEdit.docId cachedEdit.key cache.cachedEdits.length = last at hshared ⊢
  have hmem := hshared.mem
  rw [h.shared] at hmem
  refine ⟨⟨hshared.bounded, ?_, ?_, ?_, ?_, ?_⟩, hshared.edits, fun entry hentry => ?_⟩
  · rw [hshared.capacity, h.shared]
    exact hcoherent.capacity
  · intro key id hentry
    rw [hshared.edits]
    rcases ((hmem (key, id)).1 hentry).1 with heq | ⟨hentry, -⟩
    · obtain ⟨rfl, rfl⟩ := Prod.mk.inj heq
      rw [h.new]
      rfl
    · rw [h.old (hcoherent.held_lt_length ⟨key, hentry⟩)]
      exact hcoherent.keyed key id hentry
  · intro doc found hfound
    obtain ⟨mid, hmid, -, hsublist, -⟩ := hshared.documents doc found hfound
    exact (h.tracksOnce hcoherent doc mid hmid).sublist hsublist
  · intro doc found hfound id hid
    obtain ⟨mid, hmid, -, hsublist, hgone⟩ := hshared.documents doc found hfound
    obtain ⟨old, hold, -, htracked⟩ := h.documents doc mid hmid
    rw [hshared.edits]
    have hnew : ((cachedEdit.key, cache.cachedEdits.length) : _ × ℕ) ∈ last.sharedCache.nodes := by
      rw [hmem]
      exact ⟨.inl rfl, fun hevicted => hshared.evicted_ne _ hevicted rfl⟩
    have hkept : id ∈ old.trackedCachedEdits → ∃ one, next.cachedEdits[id]? = some one ∧
        one.docId = doc ∧ (one.key, id) ∈ last.sharedCache.nodes := by
      intro hid'
      obtain ⟨one, hone, howner, hentry⟩ := hcoherent.tracked doc old hold id hid'
      have hone' : next.cachedEdits[id]? = some one :=
        (h.old (hcoherent.lt_length hold hid')).trans hone
      obtain ⟨hreplaced, hevicted⟩ := hgone id hid
      refine ⟨one, hone', howner, (hmem _).2 ⟨.inr ⟨hentry, fun hkey => hreplaced ?_⟩, fun heq => ?_⟩⟩
      · dsimp only at hkey
        refine ⟨?_, ?_⟩
        · rw [← hkey]
          exact howner.symm
        · rw [h.shared, ← hkey]
          exact hcoherent.bounded.node_of_mem hentry
      · apply hevicted
        rw [heq, hone']
        exact ⟨rfl, congrArg some howner⟩
    have hid' := hsublist.mem hid
    rcases htracked with htracked | ⟨howner, -, htracked⟩
    · exact hkept (htracked ▸ hid')
    · rw [htracked, List.mem_cons] at hid'
      rcases hid' with rfl | hid'
      · exact ⟨cachedEdit, h.new, howner.symm, hnew⟩
      · exact hkept hid'
  · intro doc found hfound id hid one hone
    obtain ⟨mid, hmid, hvalue, hsublist, -⟩ := hshared.documents doc found hfound
    obtain ⟨old, hold, hvalue', htracked⟩ := h.documents doc mid hmid
    rw [hshared.edits] at hone
    rw [hvalue, hvalue']
    have hkept : id ∈ old.trackedCachedEdits → one.Leads old.value := by
      intro hid'
      rw [h.old (hcoherent.lt_length hold hid')] at hone
      exact hcoherent.current doc old hold id hid' one hone
    have hid' := hsublist.mem hid
    rcases htracked with htracked | ⟨-, hleads, htracked⟩
    · exact hkept (htracked ▸ hid')
    · rw [htracked, List.mem_cons] at hid'
      rcases hid' with rfl | hid'
      · rw [h.new, Option.some.injEq] at hone
        exact hone ▸ hleads
      · exact hkept hid'
  · exact ((hmem entry).1 hentry).1.imp_right And.left

end

end NextEditCache

end NexgileIde.InlineEdits

/-!
## Only suggestions that are held are served

Every event keeps the tracked suggestions among those that the shared cache holds, but for one:
when suggestions for other documents are dropped, their documents still track them. A suggestion
that is not held any more is never held again.
-/
namespace NexgileIde.InlineEdits

open Text Edits Library

variable {D C : Type}

namespace NextEditCache

variable {cache next : NextEditCache D} {rebasing : Rebasing D C} {docId : String} {id : ℕ}

/-! ## Each event -/

theorem Coherent.openDocument (h : cache.Coherent) (docId : String) (value : Str) (trigger : Bool)
    (halone : trigger = true → cache.TracksAlone docId) :
    (cache.openDocument docId value trigger).Coherent ∧
      Grown cache (cache.openDocument docId value trigger) := by
  have hdocuments : ∀ doc found, Function.update cache.documentCaches docId
      (some ⟨value, []⟩) doc = some found →
      found.trackedCachedEdits = [] ∨ cache.documentCaches doc = some found := by
    intro doc found hfound
    by_cases heq : doc = docId
    · subst heq
      rw [Function.update_self, Option.some.injEq] at hfound
      exact .inl (hfound ▸ rfl)
    · exact .inr (by rwa [Function.update_of_ne heq] at hfound)
  have hopened : ({ cache with
      documentCaches := Function.update cache.documentCaches docId
        (some ⟨value, []⟩) } : NextEditCache D).Coherent := by
    refine ⟨h.bounded, h.capacity, h.keyed, ?_, ?_, ?_⟩
    · intro doc found hfound
      rcases hdocuments doc found hfound with hnil | hold
      · exact hnil ▸ List.nodup_nil
      · exact h.nodup doc found hold
    · intro doc found hfound id hid
      rcases hdocuments doc found hfound with hnil | hold
      · simp [hnil] at hid
      · exact h.tracked doc found hold id hid
    · intro doc found hfound id hid
      rcases hdocuments doc found hfound with hnil | hold
      · simp [hnil] at hid
      · exact h.current doc found hold id hid
  unfold NextEditCache.openDocument
  dsimp only
  split_ifs with htrigger
  · refine ⟨hopened.dropOthers fun other hother found hfound => ?_, ?_⟩
    · dsimp only at hfound
      rw [Function.update_of_ne hother] at hfound
      exact halone htrigger other hother found hfound
    · obtain ⟨hlength, hholds⟩ := hopened.grown_dropOthers docId
      exact ⟨hlength, hholds⟩
  · exact ⟨hopened, grown_of_subset (le_refl _) fun _ hentry => hentry⟩

theorem Coherent.closeDocument (h : cache.Coherent) (docId : String) :
    (cache.closeDocument docId).Coherent := by
  have hdocuments : ∀ doc found, (cache.closeDocument docId).documentCaches doc = some found →
      cache.documentCaches doc = some found := by
    intro doc found hfound
    unfold NextEditCache.closeDocument at hfound
    dsimp only at hfound
    by_cases heq : doc = docId
    · simp [heq] at hfound
    · rwa [Function.update_of_ne heq] at hfound
  refine ⟨h.bounded, h.capacity, h.keyed, ?_, ?_, ?_⟩
  · intro doc found hfound
    exact h.nodup doc found (hdocuments doc found hfound)
  · intro doc found hfound
    exact h.tracked doc found (hdocuments doc found hfound)
  · intro doc found hfound
    exact h.current doc found (hdocuments doc found hfound)

theorem Coherent.clear (h : cache.Coherent) : cache.clear.Coherent := by
  have htracked : ∀ doc found, cache.clear.documentCaches doc = some found →
      found.trackedCachedEdits = [] := by
    intro doc found hfound
    obtain ⟨old, -, rfl⟩ := Option.map_eq_some_iff.1 hfound
    rfl
  refine ⟨⟨List.nodup_nil, Nat.zero_le _⟩, h.capacity, nofun, ?_, ?_, ?_⟩
  · intro doc found hfound
    exact htracked doc found hfound ▸ List.nodup_nil
  · intro doc found hfound id hid
    simp [htracked doc found hfound] at hid
  · intro doc found hfound id hid
    simp [htracked doc found hfound] at hid

/-- A new suggestion is put into the shared cache. -/
theorem Coherent.extend (h : cache.Coherent) {cachedEdit : CachedEdit D}
    (hextends : Extends cachedEdit cache next) :
    (next.share cachedEdit.docId cachedEdit.key cache.cachedEdits.length).Coherent ∧
      Grown cache (next.share cachedEdit.docId cachedEdit.key cache.cachedEdits.length) := by
  obtain ⟨hcoherent, hedits, hmem⟩ := h.share hextends
  refine ⟨hcoherent, ?_, ?_⟩
  · rw [hedits, hextends.edits, List.length_append]
    exact Nat.le_add_right _ _
  · rintro id hid ⟨key, hentry⟩
    rcases hmem _ hentry with heq | hentry
    · obtain ⟨-, rfl⟩ := Prod.mk.inj heq
      exact absurd hid (Nat.lt_irrefl _)
    · exact ⟨key, hentry⟩

theorem Coherent.setNoNextEdit (h : cache.Coherent) (docId : String) (documentContents : Str)
    (editWindow : Option OffsetRange) :
    (cache.setNoNextEdit rebasing docId documentContents editWindow).Coherent ∧
      Grown cache (cache.setNoNextEdit rebasing docId documentContents editWindow) := by
  unfold NextEditCache.setNoNextEdit
  split
  · exact ⟨h, .refl cache⟩
  · exact h.extend ⟨rfl, rfl, fun doc found hfound => ⟨found, hfound, rfl, .inl rfl⟩⟩

theorem Coherent.setKthNextEdit (h : cache.Coherent) (docId : String) (documentContents : Str)
    (editWindow : Option OffsetRange) (nextEdit : StringReplacement) (subsequentN : ℕ)
    (nextEdits : Option (List StringReplacement)) (userEditSince : Option StringEdit)
    (targetDocId : Option String) (originalEditWindow : Option OffsetRange)
    (cursorOffset : Option ℤ)
    (hsince : ∀ since, userEditSince = some since → ∀ docCache,
      cache.documentCaches docId = some docCache →
        since.Within documentContents.length ∧ since.apply documentContents = docCache.value) :
    (cache.setKthNextEdit rebasing docId documentContents editWindow nextEdit subsequentN
      nextEdits userEditSince targetDocId originalEditWindow cursorOffset).Coherent ∧
      Grown cache (cache.setKthNextEdit rebasing docId documentContents editWindow nextEdit
        subsequentN nextEdits userEditSince targetDocId originalEditWindow cursorOffset) := by
  unfold NextEditCache.setKthNextEdit
  split
  · exact ⟨h, .refl cache⟩
  · next docCache hdoc =>
    apply h.extend
    split_ifs with htracked
    · refine ⟨rfl, rfl, fun doc found hfound => ?_⟩
      by_cases heq : doc = docId
      · subst heq
        simp only [setTracked, Function.update_self, hdoc, Option.map_some,
          Option.some.injEq] at hfound
        subst hfound
        exact ⟨docCache, hdoc, rfl, .inr ⟨rfl, fun since hsome => hsince since hsome docCache hdoc,
          rfl⟩⟩
      · simp only [setTracked, Function.update_of_ne heq] at hfound
        exact ⟨found, hfound, rfl, .inl rfl⟩
    · exact ⟨rfl, rfl, fun doc found hfound => ⟨found, hfound, rfl, .inl rfl⟩⟩

/-! ## Looking up -/

theorem lookupExact_touched {contents : Str} {selection : List OffsetRange} {check : Bool}
    (cachedEdit : CachedEdit D) :
    (∀ found, (cache.lookupExact rebasing id cachedEdit contents selection check).1 = some found →
      found.cachedEdit = id) ∧
      Touched cache (cache.lookupExact rebasing id cachedEdit contents selection check).2 := by
  have hself : ∀ found, some (⟨id, none⟩ : CachedOrRebasedEdit) = some found →
      found.cachedEdit = id := fun found h => by rw [← Option.some.inj h]
  unfold lookupExact
  dsimp only
  split
  · exact ⟨nofun, .refl cache⟩
  · split
    · exact ⟨nofun, .refl cache⟩
    · split
      · exact ⟨hself, touched_modifyEdit cache id (fun _ => rfl) fun _ _ h => h⟩
      · exact ⟨hself, .refl cache⟩

/-- Looking up finds a suggestion that is held. -/
theorem Coherent.lookupNextEdit (h : cache.Coherent) (docId : String) (contents : Str)
    (selection : List OffsetRange) (configs : C) (check : Bool) :
    (∀ found, (cache.lookupNextEdit rebasing docId contents selection configs check).1 =
        some found → cache.Holds found.cachedEdit) ∧
      (cache.lookupNextEdit rebasing docId contents selection configs check).2.Coherent ∧
      Grown cache (cache.lookupNextEdit rebasing docId contents selection configs check).2 := by
  unfold NextEditCache.lookupNextEdit
  split
  · exact ⟨nofun, h, .refl cache⟩
  · next docCache hdoc =>
    obtain ⟨hbounded, hmem, hget⟩ := h.bounded.get (docId, contents)
    have hcapacity : (cache.sharedCache.get (docId, contents)).2.capacity =
        cache.sharedCache.capacity := by
      unfold LRUCache.get
      split <;> rfl
    generalize cache.sharedCache.get (docId, contents) = got at hbounded hmem hget hcapacity ⊢
    obtain ⟨first, sharedCache⟩ := got
    dsimp only at hbounded hmem hget hcapacity ⊢
    have hread : ({ cache with sharedCache } : NextEditCache D).Coherent := by
      refine ⟨hbounded, hcapacity ▸ h.capacity, ?_, h.nodup, ?_, h.current⟩
      · intro key id hentry
        exact h.keyed key id ((hmem _).1 hentry)
      · intro doc found hfound id hid
        obtain ⟨cachedEdit, hedit, howner, hentry⟩ := h.tracked doc found hfound id hid
        exact ⟨cachedEdit, hedit, howner, (hmem _).2 hentry⟩
    have hgrown : Grown cache { cache with sharedCache } :=
      grown_of_subset (le_refl _) fun entry hentry => (hmem entry).1 hentry
    split
    · next id cachedEdit hfirst =>
      obtain ⟨hfound, htouched⟩ := @lookupExact_touched D C { cache with sharedCache } rebasing id
        contents selection check cachedEdit
      refine ⟨fun found hserved => ?_, hread.touched htouched, hgrown.trans htouched.grown⟩
      obtain ⟨one, hone, hedit⟩ := Option.bind_eq_some_iff.1 hfirst
      obtain ⟨_, -, heq⟩ := Option.map_eq_some_iff.1 hedit
      obtain ⟨rfl, -⟩ := Prod.mk.inj heq
      rw [hfound found hserved]
      exact ⟨_, LRUCache.mem_of_node (hget.symm.trans hone)⟩
    · obtain ⟨hfound, htouched⟩ := @rebaseTracked_touched D C { cache with sharedCache } rebasing
        docCache.trackedCachedEdits contents selection configs docCache.trackedCachedEdits
      refine ⟨fun found hserved => ?_, hread.touched htouched, hgrown.trans htouched.grown⟩
      obtain ⟨cachedEdit, -, -, hentry⟩ :=
        h.tracked docId docCache hdoc _ (hfound found hserved)
      exact ⟨_, hentry⟩

/-! ## Runs -/

/-- What can happen: documents that are open change, and the edits since that come with a
suggestion lead to the content. -/
def Admissible (cache : NextEditCache D) : CacheEvent C → Prop
  | .openDocument docId _ _ => cache.documentCaches docId = none
  | .documentChanged docId changes _ => ∃ docCache, cache.documentCaches docId = some docCache ∧
      ChangesWithin changes docCache.value
  | .setKthNextEdit docId documentContents _ _ _ _ userEditSince _ _ _ =>
      ∀ since, userEditSince = some since → ∀ docCache,
        cache.documentCaches docId = some docCache →
          since.Within documentContents.length ∧ since.apply documentContents = docCache.value
  | _ => True

/-- When the trigger drops the suggestions for other documents, these track none. -/
def Untroubled (cache : NextEditCache D) : CacheEvent C → Prop
  | .openDocument docId _ trigger => trigger = true → cache.TracksAlone docId
  | .documentChanged docId _ trigger => trigger = true → cache.TracksAlone docId
  | _ => True

theorem Coherent.step (h : cache.Coherent) {event : CacheEvent C}
    (hadmissible : cache.Admissible event) (huntroubled : cache.Untroubled event) :
    ∃ next, cache.step rebasing event = some next ∧ next.Coherent ∧ Grown cache next := by
  cases event with
  | openDocument docId value trigger =>
    exact ⟨_, rfl, h.openDocument docId value trigger huntroubled⟩
  | closeDocument docId =>
    exact ⟨_, rfl, h.closeDocument docId, grown_of_subset (le_refl _) fun _ hentry => hentry⟩
  | documentChanged docId changes trigger =>
    obtain ⟨docCache, hdoc, hchanges⟩ := hadmissible
    exact h.documentChanged hdoc hchanges trigger huntroubled
  | setKthNextEdit docId documentContents editWindow nextEdit subsequentN nextEdits userEditSince
      targetDocId originalEditWindow cursorOffset =>
    exact ⟨_, rfl, h.setKthNextEdit docId documentContents editWindow nextEdit subsequentN
      nextEdits userEditSince targetDocId originalEditWindow cursorOffset hadmissible⟩
  | setNoNextEdit docId documentContents editWindow =>
    exact ⟨_, rfl, h.setNoNextEdit docId documentContents editWindow⟩
  | lookupNextEdit docId contents selection configs check =>
    exact ⟨_, rfl, (h.lookupNextEdit docId contents selection configs check).2⟩
  | clear => exact ⟨_, rfl, h.clear, grown_of_subset (Nat.le_refl _) nofun⟩

/-- One event that can happen. -/
def Happens (rebasing : Rebasing D C) (cache next : NextEditCache D) : Prop :=
  ∃ event, cache.Admissible event ∧ cache.step rebasing event = some next

def UntroubledStep (rebasing : Rebasing D C) (cache next : NextEditCache D) : Prop :=
  ∃ event, cache.Admissible event ∧ cache.Untroubled event ∧
    cache.step rebasing event = some next

/-- What is served is held, and what is tracked is held and up to date. -/
structure ServesLive (rebasing : Rebasing D C) (cache : NextEditCache D) : Prop where
  tracked : ∀ docId docCache, cache.documentCaches docId = some docCache →
    ∀ id ∈ docCache.trackedCachedEdits, ∃ cachedEdit, cache.cachedEdits[id]? = some cachedEdit ∧
      cache.sharedCache.node cachedEdit.key = some id ∧ cachedEdit.Leads docCache.value
  served : ∀ docId contents selection configs check found,
    (cache.lookupNextEdit rebasing docId contents selection configs check).1 = some found →
      cache.Holds found.cachedEdit

theorem Coherent.servesLive (h : cache.Coherent) : cache.ServesLive rebasing where
  tracked docId docCache hdoc id hid := by
    obtain ⟨cachedEdit, hedit, -, hentry⟩ := h.tracked docId docCache hdoc id hid
    exact ⟨cachedEdit, hedit, h.bounded.node_of_mem hentry,
      h.current docId docCache hdoc id hid cachedEdit hedit⟩
  served docId contents selection configs check found :=
    (h.lookupNextEdit docId contents selection configs check).1 found

/-- Untroubled events keep a cache coherent and do not bring back a suggestion. -/
theorem Coherent.run (h : cache.Coherent)
    (hrun : Relation.ReflTransGen (UntroubledStep rebasing) cache next) :
    next.Coherent ∧ Grown cache next := by
  induction hrun with
  | refl => exact ⟨h, .refl cache⟩
  | tail _ hstep ih =>
    obtain ⟨hcoherent, hgrown⟩ := ih
    obtain ⟨event, hadmissible, huntroubled, hnext⟩ := hstep
    obtain ⟨last, hlast, hcoherent', hgrown'⟩ :=
      @Coherent.step D C _ rebasing hcoherent event hadmissible huntroubled
    obtain rfl := Option.some.inj (hlast.symm.trans hnext)
    exact ⟨hcoherent', hgrown.trans hgrown'⟩

/-- In an untroubled run nothing throws, what is tracked is held and up to date, and a suggestion
that was made but is not held is never served afterwards. -/
theorem live_served (rebasing : Rebasing D C)
    (hrun : Relation.ReflTransGen (UntroubledStep rebasing) initial cache) :
    cache.ServesLive rebasing ∧
    (∀ event, cache.Admissible event → cache.Untroubled event →
      ∃ next, cache.step rebasing event = some next) ∧
    ∀ next, Relation.ReflTransGen (UntroubledStep rebasing) cache next →
      ∀ docId contents selection configs check found,
        (next.lookupNextEdit rebasing docId contents selection configs check).1 = some found →
          found.cachedEdit < cache.cachedEdits.length → cache.Holds found.cachedEdit := by
  obtain ⟨hcoherent, -⟩ := coherent_initial.run hrun
  refine ⟨hcoherent.servesLive, fun event hadmissible huntroubled => ?_, ?_⟩
  · obtain ⟨next, hnext, -⟩ :=
      @Coherent.step D C cache rebasing hcoherent event hadmissible huntroubled
    exact ⟨next, hnext⟩
  · intro next hafter docId contents selection configs check found hfound hold
    obtain ⟨hnext, hgrown⟩ := hcoherent.run hafter
    exact hgrown.holds _ hold (hnext.servesLive.served docId contents selection configs check
      found hfound)

/-- Edits are rebased only when nothing was edited since. -/
def unchangedRebasing : Rebasing Unit Unit where
  tryRebase _ _ edits details userEditSince _ _ _ _ :=
    if userEditSince.replacements.isEmpty then (.edits (edits.zipIdx), details)
    else (.rebaseFailed, details)
  noDetails := ()
  tryReanchorContentAfterIndentation _ _ _ _ := none
  reanchorContentOnIndentationMismatch _ := false
  sameEdit _ edit other := edit = other
  lineNumber _ _ := 1

/-- A suggestion for the text `"b"` of a document, to replace it by `"c"`. -/
def suggestion (docId : String) : CacheEvent Unit :=
  .setKthNextEdit docId (ascii "b") none ⟨⟨0, 1, Int.one_nonneg⟩, ascii "c"⟩ 0 none (some .empty)
    none none none

/-- What is served for the text `"b"` of a document. -/
def servedFor (cache : NextEditCache Unit) (docId : String) : Option CachedOrRebasedEdit :=
  (cache.lookupNextEdit unchangedRebasing docId (ascii "b") [] () false).1

/-- A document with a suggestion. -/
def suggested : NextEditCache Unit :=
  (initial.openDocument "b" (ascii "b") false).setKthNextEdit unchangedRebasing "b" (ascii "b")
    none ⟨⟨0, 1, Int.one_nonneg⟩, ascii "c"⟩ 0 none (some .empty) none none none

theorem suggested_current {docId : String} : ∀ since : StringEdit, some (⟨[], rfl⟩ : StringEdit) = some since →
    ∀ docCache, (initial.openDocument docId (ascii "b") false : NextEditCache Unit).documentCaches
      docId = some docCache →
        since.Within (ascii "b").length ∧ since.apply (ascii "b") = docCache.value := by
  intro since hsince docCache hdoc
  cases hsince
  simp only [NextEditCache.openDocument, Bool.false_eq_true, if_false, Function.update_self,
    Option.some.injEq] at hdoc
  subst hdoc
  exact ⟨by decide, by decide⟩

theorem suggested_run : Relation.ReflTransGen (UntroubledStep unchangedRebasing) initial
    suggested := by
  have hopen : UntroubledStep unchangedRebasing initial
      (initial.openDocument "b" (ascii "b") false) :=
    ⟨.openDocument "b" (ascii "b") false, rfl, nofun, rfl⟩
  exact (Relation.ReflTransGen.single hopen).tail
    ⟨suggestion "b", suggested_current, trivial, rfl⟩

/-- The suggestion is served, as it is the one that is held. -/
theorem live_served_suggested : suggested.servedFor "b" = some ⟨0, none⟩ ∧ suggested.Holds 0 :=
  ⟨by decide +kernel,
    (live_served unchangedRebasing suggested_run).1.served "b" (ascii "b") [] () false ⟨0, none⟩
      (by decide +kernel)⟩

/-- Another document is opened and edited, which drops the suggestion from the shared cache. -/
def dropped : NextEditCache Unit :=
  (((suggested.openDocument "a" (ascii "a") false).documentChanged "a" [.empty] true).getD initial)

/-- The dropped suggestion is still tracked, and served. -/
theorem live_served_dropped : ¬ ∀ (D C : Type) (rebasing : Rebasing D C) (cache : NextEditCache D),
    Relation.ReflTransGen (Happens rebasing) initial cache → cache.ServesLive rebasing := by
  intro hlive
  have hrun : Relation.ReflTransGen (Happens unchangedRebasing) initial suggested :=
    Relation.ReflTransGen.mono
      (fun _ _ ⟨event, hadmissible, _, hnext⟩ => ⟨event, hadmissible, hnext⟩) _ _ suggested_run
  have hopen : Happens unchangedRebasing suggested
      (suggested.openDocument "a" (ascii "a") false) :=
    ⟨.openDocument "a" (ascii "a") false, rfl, rfl⟩
  have hchange : Happens unchangedRebasing (suggested.openDocument "a" (ascii "a") false)
      dropped := by
    refine ⟨.documentChanged "a" [⟨[], rfl⟩] true, ⟨⟨ascii "a", []⟩, rfl, ?_, trivial⟩, rfl⟩
    decide
  have hserved : dropped.servedFor "b" = some ⟨0, some (⟨⟨0, 1, by decide⟩, ascii "c"⟩, 0)⟩ := by
    decide +kernel
  obtain ⟨key, hentry⟩ := (hlive Unit Unit unchangedRebasing dropped
    ((hrun.tail hopen).tail hchange)).served "b" (ascii "b") [] () false _ hserved
  have hnone : dropped.sharedCache.nodes = [] := by decide +kernel
  rw [hnone] at hentry
  cases hentry

end NextEditCache

end NexgileIde.InlineEdits
