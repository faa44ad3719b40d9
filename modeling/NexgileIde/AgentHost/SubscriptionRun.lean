import NexgileIde.AgentHost.SubscriptionLifecycle

/-!
# Runs of the subscription manager

Acquiring and disposing references keeps the invariant, so every event does, and
so does every run. A subscribe answer is matched with the version of its entry,
which only grows.
-/
namespace NexgileIde.AgentHost.SubscriptionManager

variable {S A : Type} {m : SubscriptionManager S A}

/-! ## References -/

theorem holdersOf_push (m next : SubscriptionManager S A) (r : SubscriptionReference)
    (hreferences : next.references = m.references ++ [r]) (hdisposed : r.isDisposed = false)
    (i : ℕ) :
    next.holdersOf i = m.holdersOf i ++ if r.entry = i then [(r.ownerId, r.owner)] else [] := by
  unfold holdersOf
  rw [hreferences, List.filter_append, List.map_append]
  split_ifs with hi <;> simp [hi, hdisposed]

/-- One more reference to an entry that already counts it. -/
theorem ManagerOk.acquireReference (h : ManagerOk m) {id : ℕ} {resource : String}
    {e : ManagedSubscriptionEntry S A} (he : m.entries[id]? = some e)
    (hresource : e.resource = resource) (hcount : e.refCount = e.holders.length + 1)
    (hcounts : ∀ i ≠ id, CountOk m i) (owner : String) :
    Advances m (m.acquireReference resource id owner) := by
  have hreferences : (m.acquireReference resource id owner).references =
      m.references ++ [⟨resource, id, m.referenceOwnerIds + 1, owner, false⟩] := rfl
  have hholders := holdersOf_push m (m.acquireReference resource id owner) _ hreferences rfl
  have hkept : Kept m (m.acquireReference resource id owner) := by
    intro i e' he'
    refine ⟨_, modify_of_eq_some _ _ he', ?_, ?_⟩
    · split_ifs <;> rfl
    · split_ifs <;> exact le_rfl
  refine ⟨⟨?_, fun key i hkey => hkept.located (h.registered key i hkey), ?_, ?_, ?_,
    fun t ht => hkept.located (h.teardowns t ht), fun r hr => hkept.versioned (h.requests r hr)⟩, ?_,
    ⟨hkept, fun _ _ _ hremoved => hremoved, fun _ r hr => ⟨r, hr, rfl, rfl, rfl⟩⟩⟩
  · intro i e' he'
    obtain ⟨old, hold, rfl⟩ := modify_eq_some he'
    have hok := h.entries i old hold
    by_cases hi : id = i
    · rw [if_pos hi]
      refine ⟨?_, hok.tornDown⟩
      rw [hholders i, if_pos hi, hok.holders]
    · rw [if_neg hi]
      refine ⟨?_, hok.tornDown⟩
      rw [hholders i, if_neg hi, hok.holders, List.append_nil]
  · intro r hr
    rcases List.mem_append.mp hr with hin | hin
    · exact hkept.located (h.references r hin)
    · rw [List.mem_singleton.mp hin]
      exact hkept.located ⟨e, he, hresource⟩
  · intro r hr
    rcases List.mem_append.mp hr with hin | hin
    · exact Nat.le_succ_of_le (h.ownerIds r hin)
    · rw [List.mem_singleton.mp hin]
      exact le_rfl
  · refine List.pairwise_append.mpr ⟨h.distinct, List.pairwise_singleton _ _, ?_⟩
    intro r hr r' hr'
    rw [List.mem_singleton.mp hr']
    exact Nat.ne_of_lt (Nat.lt_succ_of_le (h.ownerIds r hr))
  · intro i e' he' hregistered
    obtain ⟨old, hold, rfl⟩ := modify_eq_some he'
    by_cases hi : id = i
    · subst hi
      obtain rfl := Option.some.inj (he.symm.trans hold)
      rw [if_pos rfl]
      exact ⟨by simp [hcount], by simp⟩
    · rw [if_neg hi] at hregistered ⊢
      exact hcounts i (Ne.symm hi) old hold hregistered

theorem ManagerOk.createEntry (h : ManagerOk m) (hcounts : ∀ id, CountOk m id)
    (kind : StateComponents) {resource : String} (owner : String)
    (hlookup : m.subscriptions.lookup resource = none) :
    Advances m (m.createEntry kind resource owner) := by
  unfold SubscriptionManager.createEntry
  split_ifs with hroot
  · exact h.refl hcounts
  · let e : ManagedSubscriptionEntry S A :=
      ⟨resource, .initial, kind, 1, [], some m.requests.length, 1⟩
    obtain ⟨hok, hcounts', hgrows⟩ := h.pushEntry (e := e) hcounts hlookup rfl
    have hnew : (m.entries ++ [e])[m.entries.length]? = some e := List.getElem?_concat_length
    have hacquired := hok.acquireReference hnew rfl rfl hcounts' owner
    have hrequested := fun phase => hacquired.ok.pushRequest
      (r := ⟨resource, m.entries.length, 1, true, phase⟩) hacquired.counts
      (hacquired.grows.entries.versioned ⟨e, hnew, rfl, le_rfl⟩)
    exact ⟨(hrequested _).ok, (hrequested _).counts,
      hgrows.trans (hacquired.grows.trans (hrequested _).grows)⟩

theorem ManagerOk.getSubscription (h : ManagerOk m) (hcounts : ∀ id, CountOk m id)
    (kind : StateComponents) (resource owner : String) :
    Advances m (m.getSubscription kind resource owner) := by
  unfold SubscriptionManager.getSubscription
  cases hlookup : m.subscriptions.lookup resource with
  | none => exact h.createEntry hcounts kind owner hlookup
  | some id =>
    obtain ⟨e, he, rfl⟩ := h.registered resource id hlookup
    simp only [he]
    split_ifs with hfailed
    · have hremoved := h.removeEntry hlookup fun i _ => hcounts i
      have hgone : (m.removeEntry e.resource id).subscriptions.lookup e.resource = none :=
        AList.lookup_erase e.resource m.subscriptions
      exact hremoved.trans (hremoved.ok.createEntry hremoved.counts kind owner hgone)
    · have hsame : ∀ e : ManagedSubscriptionEntry S A,
          SameEntry e { e with refCount := e.refCount + 1 } := fun _ => ⟨rfl, rfl, le_rfl⟩
      obtain ⟨hok, hgrows⟩ := h.modifyEntry_ok id hsame
      have hcount := (hcounts id e he hlookup).1
      have hcounted := modify_of_eq_some id (fun e => { e with refCount := e.refCount + 1 }) he
      rw [if_pos rfl] at hcounted
      have hacquired := hok.acquireReference hcounted rfl (by rw [hcount])
        (fun i hi => (hcounts i).modifyEntry hsame (.inl hi.symm)) owner
      exact ⟨hacquired.ok, hacquired.counts, hgrows.trans hacquired.grows⟩

/-- A disposed reference no longer holds its entry. -/
theorem holdersOf_dispose (m next : SubscriptionManager S A) (ownerId : ℕ)
    (hreferences : next.references = m.references.map fun r =>
      if r.ownerId = ownerId then { r with isDisposed := true } else r) (i : ℕ) :
    next.holdersOf i = (m.holdersOf i).filter (·.1 ≠ ownerId) := by
  unfold holdersOf
  rw [hreferences]
  induction m.references with
  | nil => rfl
  | cons r rs ih =>
    rw [List.map_cons]
    by_cases howner : r.ownerId = ownerId
    · rw [if_pos howner, List.filter_cons_of_neg (by simp), ih]
      by_cases hheld : r.entry = i ∧ r.isDisposed = false
      · rw [List.filter_cons_of_pos (by simpa using hheld), List.map_cons,
          List.filter_cons_of_neg (by simpa using howner)]
      · rw [List.filter_cons_of_neg (by simpa using hheld)]
    · rw [if_neg howner]
      by_cases hheld : r.entry = i ∧ r.isDisposed = false
      · rw [List.filter_cons_of_pos (by simpa using hheld), List.map_cons, ih,
          List.filter_cons_of_pos (by simpa using hheld), List.map_cons,
          List.filter_cons_of_pos (by simpa using howner)]
      · rw [List.filter_cons_of_neg (by simpa using hheld), ih,
          List.filter_cons_of_neg (by simpa using hheld)]

theorem mem_holdersOf {i : ℕ} {holder : ℕ × String} :
    holder ∈ m.holdersOf i ↔
      ∃ r ∈ m.references, r.entry = i ∧ r.isDisposed = false ∧ (r.ownerId, r.owner) = holder := by
  simp [holdersOf, and_assoc]

/-- Owner ids tell the references apart. -/
theorem ManagerOk.eq_of_ownerId (h : ManagerOk m) {r r' : SubscriptionReference}
    (hr : r ∈ m.references) (hr' : r' ∈ m.references) (heq : r.ownerId = r'.ownerId) : r = r' := by
  have hnodup : (m.references.map (·.ownerId)).Nodup := List.pairwise_map.mpr h.distinct
  exact List.inj_on_of_nodup_map hnodup hr hr' heq

/-- The holders of an entry have one place for each owner id. -/
theorem ManagerOk.holdersOf_nodup (h : ManagerOk m) (i : ℕ) :
    ((m.holdersOf i).map Prod.fst).Nodup := by
  unfold holdersOf
  rw [List.map_map, List.Nodup, List.pairwise_map]
  exact h.distinct.filter _

/-- The holder of a reference that is still held goes, and the others stay. -/
theorem ManagerOk.length_filter_holdersOf (h : ManagerOk m) {r : SubscriptionReference}
    (hr : r ∈ m.references) (hheld : r.isDisposed = false) :
    ((m.holdersOf r.entry).filter (·.1 ≠ r.ownerId)).length + 1 = (m.holdersOf r.entry).length := by
  have hmem : r.ownerId ∈ (m.holdersOf r.entry).map Prod.fst :=
    List.mem_map.mpr ⟨(r.ownerId, r.owner), mem_holdersOf.mpr ⟨r, hr, rfl, hheld, rfl⟩, rfl⟩
  have herase := (h.holdersOf_nodup r.entry).erase_eq_filter r.ownerId
  have hlength := List.length_erase_of_mem hmem
  rw [herase, List.filter_map, List.length_map, List.length_map] at hlength
  have hpos : 0 < (m.holdersOf r.entry).length := by
    have := List.length_pos_of_mem hmem
    rwa [List.length_map] at this
  have hsame : (m.holdersOf r.entry).filter (·.1 ≠ r.ownerId) =
      (m.holdersOf r.entry).filter ((fun o => o != r.ownerId) ∘ Prod.fst) := by
    congr 1
    funext holder
    simp [bne, beq_eq_decide]
  rw [hsame, hlength]
  omega

theorem ManagerOk.filter_holdersOf_of_ne (h : ManagerOk m) {r : SubscriptionReference}
    (hr : r ∈ m.references) {i : ℕ} (hi : i ≠ r.entry) :
    (m.holdersOf i).filter (·.1 ≠ r.ownerId) = m.holdersOf i := by
  apply List.filter_eq_self.mpr
  intro holder hholder
  obtain ⟨r', hr', hentry, -, rfl⟩ := mem_holdersOf.mp hholder
  simp only [ne_eq, decide_not, Bool.not_eq_true', decide_eq_false_iff_not]
  intro heq
  rw [← hentry, h.eq_of_ownerId hr' hr heq] at hi
  exact hi rfl

/-- The state in which a reference has let go of its entry, before the release. -/
def letGo (m : SubscriptionManager S A) (r : SubscriptionReference) : SubscriptionManager S A :=
  { m with
    references := m.references.map fun r' =>
      if r'.ownerId = r.ownerId then { r' with isDisposed := true } else r'
    entries := m.entries.modify r.entry fun e =>
      { e with holders := e.holders.filter (·.1 ≠ r.ownerId) } }

theorem disposeReference_eq {r : SubscriptionReference} {ownerId : ℕ}
    (hfind : m.references.find? (·.ownerId = ownerId) = some r) (hheld : r.isDisposed = false) :
    m.disposeReference ownerId = (m.letGo r).releaseSubscription r.resource r.entry := by
  have howner : r.ownerId = ownerId := by simpa using List.find?_some hfind
  subst howner
  simp only [disposeReference, hfind, hheld, Bool.false_eq_true, if_false, letGo]

theorem ManagerOk.letGo (h : ManagerOk m) {r : SubscriptionReference} (hr : r ∈ m.references) :
    ManagerOk (m.letGo r) ∧ Grows m (m.letGo r) := by
  have hholders := holdersOf_dispose m (m.letGo r) r.ownerId rfl
  have hkept : Kept m (m.letGo r) := by
    intro i e he
    refine ⟨_, modify_of_eq_some _ _ he, ?_, ?_⟩
    · split_ifs <;> rfl
    · split_ifs <;> exact le_rfl
  have hback : ∀ r' ∈ (m.letGo r).references, ∃ old ∈ m.references,
      r'.entry = old.entry ∧ r'.resource = old.resource ∧ r'.ownerId = old.ownerId := by
    intro r' hr'
    obtain ⟨old, hold, rfl⟩ := List.mem_map.mp hr'
    refine ⟨old, hold, ?_⟩
    split_ifs <;> exact ⟨rfl, rfl, rfl⟩
  refine ⟨⟨?_, fun key i hkey => hkept.located (h.registered key i hkey), ?_, ?_, ?_,
    fun t ht => hkept.located (h.teardowns t ht),
    fun r hr => hkept.versioned (h.requests r hr)⟩,
    ⟨hkept, fun _ _ _ hremoved => hremoved, fun _ r hr => ⟨r, hr, rfl, rfl, rfl⟩⟩⟩
  · intro i e' he'
    obtain ⟨e, he, rfl⟩ := modify_eq_some he'
    have hok := h.entries i e he
    by_cases hi : r.entry = i
    · rw [if_pos hi]
      refine ⟨?_, hok.tornDown⟩
      rw [hholders i, hok.holders]
    · rw [if_neg hi]
      refine ⟨?_, hok.tornDown⟩
      rw [hholders i, hok.holders, h.filter_holdersOf_of_ne hr (Ne.symm hi)]
  · intro r' hr'
    obtain ⟨old, hold, hentry, hresource, -⟩ := hback r' hr'
    rw [hentry, hresource]
    exact hkept.located (h.references old hold)
  · intro r' hr'
    obtain ⟨old, hold, -, -, howner⟩ := hback r' hr'
    rw [howner]
    exact h.ownerIds old hold
  · show (m.references.map _).Pairwise _
    rw [List.pairwise_map]
    refine h.distinct.imp ?_
    intro a b hab
    have hid : ∀ a : SubscriptionReference,
        (if a.ownerId = r.ownerId then { a with isDisposed := true } else a).ownerId =
          a.ownerId := by
      intro a
      split_ifs <;> rfl
    rw [hid, hid]
    exact hab

theorem ManagerOk.disposeReference (h : ManagerOk m) (hcounts : ∀ id, CountOk m id)
    (ownerId : ℕ) : Advances m (m.disposeReference ownerId) := by
  cases hfind : m.references.find? (·.ownerId = ownerId) with
  | none =>
    simp only [SubscriptionManager.disposeReference, hfind]
    exact h.refl hcounts
  | some r =>
    cases hheld : r.isDisposed with
    | true =>
      simp only [SubscriptionManager.disposeReference, hfind, hheld, if_true]
      exact h.refl hcounts
    | false =>
      have hr : r ∈ m.references := List.mem_of_find?_eq_some hfind
      rw [disposeReference_eq hfind hheld]
      obtain ⟨hok, hgrows⟩ := h.letGo hr
      obtain ⟨e, he, hresource⟩ := h.references r hr
      have hlength := h.length_filter_holdersOf hr hheld
      rw [← (h.entries r.entry e he).holders] at hlength
      have hothers : ∀ i ≠ r.entry, CountOk (m.letGo r) i := by
        intro i hi e' he' hregistered
        obtain ⟨old, hold, rfl⟩ := modify_eq_some he'
        rw [if_neg (Ne.symm hi)] at hregistered ⊢
        exact hcounts i old hold hregistered
      have hlet := modify_of_eq_some r.entry
        (fun e => { e with holders := e.holders.filter (·.1 ≠ r.ownerId) }) he
      rw [if_pos rfl] at hlet
      unfold SubscriptionManager.releaseSubscription
      split_ifs with hlookup
      · have hregistered : m.subscriptions.lookup e.resource = some r.entry := hresource ▸ hlookup
        obtain ⟨hcount, -⟩ := hcounts r.entry e he hregistered
        have hsame : ∀ e : ManagedSubscriptionEntry S A,
            SameEntry e { e with refCount := e.refCount - 1 } := fun _ => ⟨rfl, rfl, le_rfl⟩
        obtain ⟨hok', hgrows'⟩ := hok.modifyEntry_ok r.entry hsame
        have hothers' := fun i (hi : i ≠ r.entry) =>
          (hothers i hi).modifyEntry hsame (.inl hi.symm)
        have hreleased := modify_of_eq_some r.entry
          (fun e => { e with refCount := e.refCount - 1 }) hlet
        rw [if_pos rfl] at hreleased
        have hentry : ((m.letGo r).modifyEntry r.entry fun e =>
            { e with refCount := e.refCount - 1 }).entries[r.entry]? = some _ := hreleased
        simp only [hentry]
        split_ifs with hzero
        · have hremoved := hok'.removeEntry hlookup hothers'
          exact ⟨hremoved.ok, hremoved.counts, hgrows.trans (hgrows'.trans hremoved.grows)⟩
        · refine ⟨hok', ?_, hgrows.trans hgrows'⟩
          intro i
          by_cases hi : i = r.entry
          · subst hi
            intro e' he' _
            obtain rfl := Option.some.inj (hentry.symm.trans he')
            refine ⟨?_, ?_⟩
            · show e.refCount - 1 = _
              rw [hcount]
              push_cast [← hlength]
              ring
            · intro hnone
              dsimp only at hzero hnone
              rw [hnone] at hlength
              rw [hcount, ← hlength] at hzero
              simp at hzero
          · exact hothers' i hi
      · refine ⟨hok, ?_, hgrows⟩
        intro i
        by_cases hi : i = r.entry
        · subst hi
          intro e' he' hregistered
          rw [show (m.letGo r).entries[r.entry]? = _ from hlet] at he'
          obtain rfl := Option.some.inj he'
          exact absurd (hresource ▸ hregistered) hlookup
        · exact hothers i hi

/-! ## Every event -/

variable (setting : ManagerSetting S A)

theorem ManagerOk.refreshSubscription (h : ManagerOk m) (hcounts : ∀ id, CountOk m id)
    (resource : String) : Advances m (m.refreshSubscription resource) := by
  unfold SubscriptionManager.refreshSubscription
  cases hlookup : m.subscriptions.lookup resource with
  | none => exact h.refl hcounts
  | some id =>
    obtain ⟨e, he, hresource⟩ := h.registered resource id hlookup
    simp only [he]
    split_ifs
    · exact h.refl hcounts
    · have hbumped := h.modifyEntry hcounts id
        (f := fun e => { e with
          snapshotVersion := e.snapshotVersion + 1
          sub := e.sub.beginSnapshotRefresh
          refresh := some m.requests.length })
        (fun e => ⟨rfl, rfl, Nat.le_succ _⟩) (fun _ => rfl)
      refine hbumped.trans (hbumped.ok.pushRequest hbumped.counts ?_)
      refine ⟨_, modify_of_eq_some _ _ he, ?_⟩
      rw [if_pos rfl]
      exact ⟨hresource, le_rfl⟩

theorem sameEntry_afterResponse (r : SubscriptionRequest) (response : Except String (S × ℕ))
    (e : ManagedSubscriptionEntry S A) : SameEntry e (afterResponse setting r response e) := by
  unfold afterResponse
  cases response with
  | ok snapshot => exact ⟨rfl, rfl, le_rfl⟩
  | error error => split_ifs <;> exact ⟨rfl, rfl, le_rfl⟩

theorem afterResponse_refCount (r : SubscriptionRequest) (response : Except String (S × ℕ))
    (e : ManagedSubscriptionEntry S A) :
    (afterResponse setting r response e).refCount = e.refCount := by
  unfold afterResponse
  cases response with
  | ok snapshot => rfl
  | error error => split_ifs <;> rfl

theorem ManagerOk.clearRefresh (h : ManagerOk m) (hcounts : ∀ id, CountOk m id) (id : ℕ) :
    Advances m (m.clearRefresh id) :=
  h.modifyEntry hcounts _ (fun _ => ⟨rfl, rfl, le_rfl⟩) (fun _ => rfl)

theorem ManagerOk.respond (h : ManagerOk m) (hcounts : ∀ id, CountOk m id) (index : ℕ)
    (response : Except String (S × ℕ)) : Advances m (m.respond setting index response) := by
  unfold SubscriptionManager.respond
  cases m.requests[index]? with
  | none => exact h.refl hcounts
  | some r =>
    dsimp only
    have hprocessed : Advances m (if m.isCurrent r then
        m.modifyEntry r.entry (afterResponse setting r response) else m) := by
      split_ifs
      · exact h.modifyEntry hcounts _ (sameEntry_afterResponse setting r response)
          (afterResponse_refCount setting r response)
      · exact h.refl hcounts
    generalize (if m.isCurrent r then m.modifyEntry r.entry (afterResponse setting r response)
      else m) = processed at hprocessed ⊢
    have hphase := fun phase => hprocessed.ok.setPhase hprocessed.counts index phase
    split_ifs
    · exact hprocessed.trans (hphase _)
    · exact hprocessed.trans ((hphase _).trans ((hphase _).ok.clearRefresh (hphase _).counts _))
    · exact h.refl hcounts

theorem ManagerOk.finish (h : ManagerOk m) (hcounts : ∀ id, CountOk m id) (index : ℕ) :
    Advances m (m.finish index) := by
  unfold SubscriptionManager.finish
  cases m.requests[index]? with
  | none => exact h.refl hcounts
  | some r =>
    have hphase := h.setPhase hcounts index .finished
    dsimp only
    split_ifs
    · exact hphase.trans (hphase.ok.clearRefresh hphase.counts _)
    · exact h.refl hcounts

/-- Every event keeps the invariant. -/
theorem ManagerOk.step (h : ManagerOk m) (hcounts : ∀ id, CountOk m id) (event : Event S A) :
    Advances m (m.step setting event) := by
  cases event with
  | getSubscription kind resource owner => exact h.getSubscription hcounts kind resource owner
  | disposeReference ownerId => exact h.disposeReference hcounts ownerId
  | refreshSubscription resource => exact h.refreshSubscription hcounts resource
  | beginSnapshotRefresh resource =>
    exact h.modifyRegistered hcounts (fun _ => ⟨rfl, rfl, Nat.le_succ _⟩) (fun _ => rfl)
  | cancelSnapshotRefresh resource =>
    exact h.modifyRegistered hcounts (fun _ => ⟨rfl, rfl, le_rfl⟩) (fun _ => rfl)
  | applyReconnectSnapshot resource state fromSeq preservePending =>
    show Advances m (m.applyReconnectSnapshot setting resource state fromSeq preservePending)
    unfold SubscriptionManager.applyReconnectSnapshot
    split_ifs with hroot hpreserve
    · exact h.refl hcounts
    · exact h.modifyRegistered hcounts (fun _ => ⟨rfl, rfl, Nat.le_succ _⟩) (fun _ => rfl)
    · refine h.modifyRegistered hcounts (fun e => ?_) (fun _ => clearPending_refCount _)
      have hsame := sameEntry_clearPending { e with snapshotVersion := e.snapshotVersion + 1 }
      exact ⟨hsame.resource, hsame.holders, (Nat.le_succ _).trans hsame.snapshotVersion⟩
  | markSubscriptionsMissing missing =>
    refine h.foldl_modifyRegistered hcounts (f := fun resource e => e.markMissing resource)
      (fun _ e => ?_) (fun _ e => clearPending_refCount e) missing
    have hsame := sameEntry_clearPending e
    exact ⟨hsame.resource, hsame.holders, hsame.snapshotVersion⟩
  | respond index response => exact h.respond setting hcounts index response
  | finish index => exact h.finish hcounts index
  | trackSessionCreate resource => exact h.creates hcounts _ _
  | settleCreate create => exact h.creates hcounts _ _
  | evictCreate resource create =>
    show Advances m (m.evictCreate resource create)
    unfold SubscriptionManager.evictCreate
    split_ifs
    · exact h.creates hcounts _ _
    · exact h.refl hcounts
  | resume index =>
    show Advances m (m.resume index)
    unfold SubscriptionManager.resume
    split
    · exact h.refl hcounts
    · split
      · split_ifs
        · exact h.setPhase hcounts index .subscribing
        · exact h.refl hcounts
      · exact h.refl hcounts
  | receiveEnvelope envelope =>
    exact h.foldl_modifyRegistered hcounts
      (f := fun resource e =>
        { e with sub := (setting.cls e.kind resource).receiveEnvelope e.sub envelope })
      (fun _ _ => ⟨rfl, rfl, le_rfl⟩) (fun _ _ => rfl) _
  | dispatchOptimistic channel action clientSeq =>
    refine h.modifyRegistered hcounts (fun e => ?_) (fun e => ?_)
    · split_ifs <;> exact ⟨rfl, rfl, le_rfl⟩
    · split_ifs <;> rfl
  | dropPendingAction resource clientSeq =>
    refine h.modifyRegistered hcounts (fun e => ?_) (fun e => ?_)
    · split_ifs <;> exact ⟨rfl, rfl, le_rfl⟩
    · split_ifs <;> rfl

/-- Every run keeps the invariant. -/
theorem ManagerOk.run (h : ManagerOk m) (hcounts : ∀ id, CountOk m id) (events : List (Event S A)) :
    Advances m (m.run setting events) := by
  induction events generalizing m with
  | nil => exact h.refl hcounts
  | cons event events ih =>
    have hstep := h.step setting hcounts event
    exact hstep.trans (ih hstep.ok hstep.counts)

theorem managerOk_initial : ManagerOk (initial : SubscriptionManager S A) := by
  constructor <;> simp [initial]

theorem countOk_initial (id : ℕ) : CountOk (initial : SubscriptionManager S A) id := by
  simp [CountOk, initial]

/-! ## Stale references and answers -/

/-- The disposal of a reference whose entry is no longer registered touches nothing
but that entry. -/
theorem disposeReference_stale {r : SubscriptionReference}
    (hstale : m.subscriptions.lookup r.resource ≠ some r.entry)
    (hfind : m.references.find? (·.ownerId = r.ownerId) = some r) :
    (m.disposeReference r.ownerId).subscriptions = m.subscriptions ∧
      (m.disposeReference r.ownerId).teardowns = m.teardowns ∧
      ∀ id ≠ r.entry, (m.disposeReference r.ownerId).entries[id]? = m.entries[id]? := by
  cases hheld : r.isDisposed with
  | true =>
    simp [disposeReference, hfind, hheld]
  | false =>
    rw [disposeReference_eq hfind hheld, releaseSubscription,
      if_neg (show (m.letGo r).subscriptions.lookup r.resource ≠ some r.entry from hstale)]
    refine ⟨rfl, rfl, ?_⟩
    intro id hid
    simp [letGo, Ne.symm hid]

/-- The subscription of an entry, with its state and its error. -/
def subscriptionAt (m : SubscriptionManager S A) (id : ℕ) : Option (Subscription S A) :=
  m.entries[id]?.map (·.sub)

/-- The event starts or installs a snapshot of a registered entry. -/
def StartsSnapshot (m : SubscriptionManager S A) (id : ℕ) : Event S A → Prop
  | .refreshSubscription resource => m.subscriptions.lookup resource = some id ∧
    m.entries[id]?.bind (·.refresh) = none
  | .beginSnapshotRefresh resource => m.subscriptions.lookup resource = some id
  | .applyReconnectSnapshot resource _ _ _ => m.subscriptions.lookup resource = some id ∧
    setting.isAhpRootChannel resource = false
  | _ => False

theorem StartsSnapshot.version_lt {id : ℕ} {event : Event S A}
    (h : m.StartsSnapshot setting id event) {e : ManagedSubscriptionEntry S A}
    (he : m.entries[id]? = some e) :
    ∃ e', (m.step setting event).entries[id]? = some e' ∧
      e.snapshotVersion < e'.snapshotVersion := by
  have hmodify : ∀ {resource : String} {f : ManagedSubscriptionEntry S A →
      ManagedSubscriptionEntry S A}, m.subscriptions.lookup resource = some id →
      (m.modifyRegistered resource f).entries[id]? = some (f e) := by
    intro resource f hlookup
    have hsome := modify_of_eq_some id f he
    rw [if_pos rfl] at hsome
    simp only [modifyRegistered, hlookup]
    exact hsome
  cases event with
  | refreshSubscription resource =>
    obtain ⟨hlookup, hrefresh⟩ := h
    rw [he, Option.bind_some] at hrefresh
    simp only [step, refreshSubscription, hlookup, he, hrefresh, Option.isSome_none,
      Bool.false_eq_true, if_false]
    refine ⟨_, modify_of_eq_some _ _ he, ?_⟩
    rw [if_pos rfl]
    exact Nat.lt_succ_self _
  | beginSnapshotRefresh resource => exact ⟨_, hmodify h, Nat.lt_succ_self _⟩
  | applyReconnectSnapshot resource state fromSeq preservePending =>
    obtain ⟨hlookup, hroot⟩ := h
    simp only [step, applyReconnectSnapshot, hroot, Bool.false_eq_true, if_false]
    refine ⟨_, hmodify hlookup, ?_⟩
    dsimp only
    split_ifs
    · exact Nat.lt_succ_self _
    · exact (Nat.lt_succ_self _).trans_le
        (sameEntry_clearPending { e with snapshotVersion := e.snapshotVersion + 1 }).snapshotVersion
  | _ => exact h.elim

theorem respond_of_not_current {index : ℕ} {r : SubscriptionRequest}
    (hr : m.requests[index]? = some r) (hstale : m.isCurrent r = false)
    (response : Except String (S × ℕ)) (id : ℕ) :
    (m.respond setting index response).subscriptionAt id = m.subscriptionAt id := by
  unfold subscriptionAt
  simp only [respond, hr, hstale, Bool.false_eq_true, if_false]
  split_ifs
  · rfl
  · simp only [clearRefresh, modifyEntry, setPhase, List.getElem?_modify, Option.map_eq_map,
      Option.map_map]
    congr 1
    funext e
    simp only [Function.comp_apply]
    split_ifs <;> rfl
  · rfl

/-- After the entry of a request was removed, or a snapshot of it was started or
installed, no answer to the request is current. -/
theorem Grows.not_current {later : SubscriptionManager S A} (h : Grows m later) {index : ℕ}
    {r : SubscriptionRequest} (hr : m.requests[index]? = some r) {e : ManagedSubscriptionEntry S A}
    (he : m.entries[r.entry]? = some e) (hresource : e.resource = r.resource)
    (hsuperseded : r.snapshotVersion < e.snapshotVersion ∨
      m.subscriptions.lookup r.resource ≠ some r.entry) :
    ∃ r', later.requests[index]? = some r' ∧ later.isCurrent r' = false := by
  obtain ⟨r', hr', hresource', hentry', hversion'⟩ := h.requests index r hr
  obtain ⟨e', he', -, hversion⟩ := h.entries r.entry e he
  refine ⟨r', hr', ?_⟩
  rw [isCurrent, hresource', hentry', hversion', he']
  rcases hsuperseded with hlt | hremoved
  · have hne : e'.snapshotVersion ≠ r.snapshotVersion := Nat.ne_of_gt (hlt.trans_le hversion)
    simp [hne]
  · rw [← hresource] at hremoved ⊢
    simp [h.removed r.entry e he hremoved]

end NexgileIde.AgentHost.SubscriptionManager
