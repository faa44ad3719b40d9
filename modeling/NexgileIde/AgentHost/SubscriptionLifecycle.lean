import NexgileIde.AgentHost.SubscriptionManager

/-!
# The lifecycle of managed subscriptions

In every run a registered entry is held by as many references as it counts, an
entry is torn down once when it is no longer registered, and an answer to a
subscribe call does nothing where a later snapshot was started or installed.
-/
namespace NexgileIde.AgentHost.SubscriptionManager

variable {S A : Type}

/-! ## The invariant -/

/-- What the references that are not disposed hold of an entry. -/
def holdersOf (m : SubscriptionManager S A) (id : ℕ) : List (ℕ × String) :=
  (m.references.filter fun r => r.entry = id ∧ r.isDisposed = false).map
    fun r => (r.ownerId, r.owner)

structure EntryOk (m : SubscriptionManager S A) (id : ℕ) (e : ManagedSubscriptionEntry S A) :
    Prop where
  holders : e.holders = m.holdersOf id
  tornDown : m.teardowns.count (e.resource, id) =
    if m.subscriptions.lookup e.resource = some id then 0 else 1

theorem EntryOk.congr {m next : SubscriptionManager S A} {id : ℕ}
    {e : ManagedSubscriptionEntry S A} (h : EntryOk m id e)
    (hsubscriptions : next.subscriptions = m.subscriptions)
    (hreferences : next.references = m.references) (hteardowns : next.teardowns = m.teardowns) :
    EntryOk next id e := by
  refine ⟨?_, ?_⟩
  · rw [h.holders, holdersOf, holdersOf, hreferences]
  · rw [hteardowns, hsubscriptions]
    exact h.tornDown

/-- The registered entry counts its holders. -/
def CountOk (m : SubscriptionManager S A) (id : ℕ) : Prop :=
  ∀ e, m.entries[id]? = some e → m.subscriptions.lookup e.resource = some id →
    e.refCount = e.holders.length ∧ e.holders ≠ []

structure ManagerOk (m : SubscriptionManager S A) : Prop where
  entries : ∀ id e, m.entries[id]? = some e → EntryOk m id e
  registered : ∀ resource id, m.subscriptions.lookup resource = some id →
    ∃ e, m.entries[id]? = some e ∧ e.resource = resource
  references : ∀ r ∈ m.references, ∃ e, m.entries[r.entry]? = some e ∧ e.resource = r.resource
  ownerIds : ∀ r ∈ m.references, r.ownerId ≤ m.referenceOwnerIds
  distinct : m.references.Pairwise fun r r' => r.ownerId ≠ r'.ownerId
  teardowns : ∀ t ∈ m.teardowns, ∃ e, m.entries[t.2]? = some e ∧ e.resource = t.1
  requests : ∀ r ∈ m.requests, ∃ e, m.entries[r.entry]? = some e ∧ e.resource = r.resource ∧
    r.snapshotVersion ≤ e.snapshotVersion

/-- Entries stay where they are, and their versions do not go back. -/
def Kept (m next : SubscriptionManager S A) : Prop :=
  ∀ (id : ℕ) e, m.entries[id]? = some e → ∃ e', next.entries[id]? = some e' ∧
    e'.resource = e.resource ∧ e.snapshotVersion ≤ e'.snapshotVersion

theorem Kept.located {m next : SubscriptionManager S A} (h : Kept m next) {id : ℕ}
    {resource : String} (hlocated : ∃ e, m.entries[id]? = some e ∧ e.resource = resource) :
    ∃ e, next.entries[id]? = some e ∧ e.resource = resource := by
  obtain ⟨e, he, hresource⟩ := hlocated
  obtain ⟨e', he', hresource', -⟩ := h id e he
  exact ⟨e', he', hresource'.trans hresource⟩

theorem Kept.versioned {m next : SubscriptionManager S A} (h : Kept m next) {id version : ℕ}
    {resource : String} (hversioned : ∃ e, m.entries[id]? = some e ∧ e.resource = resource ∧
      version ≤ e.snapshotVersion) :
    ∃ e, next.entries[id]? = some e ∧ e.resource = resource ∧ version ≤ e.snapshotVersion := by
  obtain ⟨e, he, hresource, hversion⟩ := hversioned
  obtain ⟨e', he', hresource', hversion'⟩ := h id e he
  exact ⟨e', he', hresource'.trans hresource, hversion.trans hversion'⟩

/-- Entries and requests stay, and what has left the map does not return. -/
structure Grows (m next : SubscriptionManager S A) : Prop where
  entries : Kept m next
  removed : ∀ (id : ℕ) e, m.entries[id]? = some e → m.subscriptions.lookup e.resource ≠ some id →
    next.subscriptions.lookup e.resource ≠ some id
  requests : ∀ (i : ℕ) r, m.requests[i]? = some r → ∃ r', next.requests[i]? = some r' ∧
    r'.resource = r.resource ∧ r'.entry = r.entry ∧ r'.snapshotVersion = r.snapshotVersion

theorem Grows.refl (m : SubscriptionManager S A) : Grows m m :=
  ⟨fun _ e he => ⟨e, he, rfl, le_rfl⟩, fun _ _ _ h => h, fun _ r hr => ⟨r, hr, rfl, rfl, rfl⟩⟩

theorem Grows.trans {m next last : SubscriptionManager S A} (h : Grows m next)
    (h' : Grows next last) : Grows m last := by
  constructor
  · intro id e he
    obtain ⟨e', he', hresource, hversion⟩ := h.entries id e he
    obtain ⟨e'', he'', hresource', hversion'⟩ := h'.entries id e' he'
    exact ⟨e'', he'', hresource'.trans hresource, hversion.trans hversion'⟩
  · intro id e he hremoved
    obtain ⟨e', he', hresource, -⟩ := h.entries id e he
    have hnext := h.removed id e he hremoved
    rw [← hresource] at hnext ⊢
    exact h'.removed id e' he' hnext
  · intro i r hr
    obtain ⟨r', hr', hresource, hentry, hversion⟩ := h.requests i r hr
    obtain ⟨r'', hr'', hresource', hentry', hversion'⟩ := h'.requests i r' hr'
    exact ⟨r'', hr'', hresource'.trans hresource, hentry'.trans hentry, hversion'.trans hversion⟩

/-- The invariant holds, and holds again behind a step. -/
structure Advances (m next : SubscriptionManager S A) : Prop where
  ok : ManagerOk next
  counts : ∀ id, CountOk next id
  grows : Grows m next

/-! ## Changes of one entry -/

/-- The entry keeps its place and its holders, and its version does not go back. -/
structure SameEntry (e e' : ManagedSubscriptionEntry S A) : Prop where
  resource : e'.resource = e.resource
  holders : e'.holders = e.holders
  snapshotVersion : e.snapshotVersion ≤ e'.snapshotVersion

theorem modify_eq_some {l : List (ManagedSubscriptionEntry S A)} {id i : ℕ}
    {f : ManagedSubscriptionEntry S A → ManagedSubscriptionEntry S A}
    {e' : ManagedSubscriptionEntry S A} (h : (l.modify id f)[i]? = some e') :
    ∃ e, l[i]? = some e ∧ e' = if id = i then f e else e := by
  rw [List.getElem?_modify] at h
  obtain ⟨e, he, heq⟩ := Option.map_eq_some_iff.mp h
  exact ⟨e, he, heq.symm⟩

theorem modify_of_eq_some {l : List (ManagedSubscriptionEntry S A)} {i : ℕ} (id : ℕ)
    (f : ManagedSubscriptionEntry S A → ManagedSubscriptionEntry S A)
    {e : ManagedSubscriptionEntry S A} (h : l[i]? = some e) :
    (l.modify id f)[i]? = some (if id = i then f e else e) := by
  rw [List.getElem?_modify, h]
  rfl

variable {m : SubscriptionManager S A}

theorem sameEntry_ite {id i : ℕ} {f : ManagedSubscriptionEntry S A → ManagedSubscriptionEntry S A}
    (hf : ∀ e, SameEntry e (f e)) (e : ManagedSubscriptionEntry S A) :
    SameEntry e (if id = i then f e else e) := by
  split_ifs
  · exact hf e
  · exact ⟨rfl, rfl, le_rfl⟩

theorem kept_modify (id : ℕ) {f : ManagedSubscriptionEntry S A → ManagedSubscriptionEntry S A}
    (hf : ∀ e, SameEntry e (f e)) {next : SubscriptionManager S A}
    (hnext : next.entries = m.entries.modify id f) : Kept m next := by
  intro i e he
  have hsame : SameEntry e (if id = i then f e else e) := sameEntry_ite hf e
  rw [hnext]
  exact ⟨_, modify_of_eq_some _ f he, hsame.resource, hsame.snapshotVersion⟩

theorem ManagerOk.modifyEntry_ok (h : ManagerOk m) (id : ℕ)
    {f : ManagedSubscriptionEntry S A → ManagedSubscriptionEntry S A}
    (hf : ∀ e, SameEntry e (f e)) :
    ManagerOk (m.modifyEntry id f) ∧ Grows m (m.modifyEntry id f) := by
  have hkept : Kept m (m.modifyEntry id f) := kept_modify id hf rfl
  refine ⟨⟨?_, fun resource i hlookup => hkept.located (h.registered resource i hlookup),
    fun r hr => hkept.located (h.references r hr), h.ownerIds, h.distinct,
    fun t ht => hkept.located (h.teardowns t ht), fun r hr => hkept.versioned (h.requests r hr)⟩,
    ⟨hkept, fun _ _ _ hremoved => hremoved, fun _ r hr => ⟨r, hr, rfl, rfl, rfl⟩⟩⟩
  intro i e' he'
  obtain ⟨e, he, rfl⟩ := modify_eq_some he'
  have hsame : SameEntry e (if id = i then f e else e) := sameEntry_ite hf e
  have hok := h.entries i e he
  refine ⟨hsame.holders.trans hok.holders, ?_⟩
  rw [hsame.resource]
  exact hok.tornDown

theorem CountOk.modifyEntry {id i : ℕ} (h : CountOk m i)
    {f : ManagedSubscriptionEntry S A → ManagedSubscriptionEntry S A}
    (hf : ∀ e, SameEntry e (f e)) (hcount : id ≠ i ∨ ∀ e, (f e).refCount = e.refCount) :
    CountOk (m.modifyEntry id f) i := by
  intro e' he' hregistered
  obtain ⟨e, he, rfl⟩ := modify_eq_some he'
  have hsame : SameEntry e (if id = i then f e else e) := sameEntry_ite hf e
  have hsameCount : (if id = i then f e else e).refCount = e.refCount := by
    split_ifs with hi
    · exact hcount.resolve_left (fun hne => hne hi) e
    · rfl
  rw [hsame.resource] at hregistered
  rw [hsameCount, hsame.holders]
  exact h e he hregistered

theorem ManagerOk.modifyEntry (h : ManagerOk m) (hcounts : ∀ id, CountOk m id) (id : ℕ)
    {f : ManagedSubscriptionEntry S A → ManagedSubscriptionEntry S A}
    (hf : ∀ e, SameEntry e (f e)) (hcount : ∀ e, (f e).refCount = e.refCount) :
    Advances m (m.modifyEntry id f) := by
  obtain ⟨hok, hgrows⟩ := h.modifyEntry_ok id hf
  exact ⟨hok, fun i => (hcounts i).modifyEntry hf (.inr hcount), hgrows⟩

theorem ManagerOk.refl (h : ManagerOk m) (hcounts : ∀ id, CountOk m id) : Advances m m :=
  ⟨h, hcounts, Grows.refl m⟩

theorem Advances.trans {next last : SubscriptionManager S A} (h : Advances m next)
    (h' : Advances next last) : Advances m last :=
  ⟨h'.ok, h'.counts, h.grows.trans h'.grows⟩

theorem ManagerOk.modifyRegistered (h : ManagerOk m) (hcounts : ∀ id, CountOk m id)
    {resource : String} {f : ManagedSubscriptionEntry S A → ManagedSubscriptionEntry S A}
    (hf : ∀ e, SameEntry e (f e)) (hcount : ∀ e, (f e).refCount = e.refCount) :
    Advances m (m.modifyRegistered resource f) := by
  unfold SubscriptionManager.modifyRegistered
  cases m.subscriptions.lookup resource with
  | none => exact h.refl hcounts
  | some id => exact h.modifyEntry hcounts id hf hcount

theorem sameEntry_clearPending (e : ManagedSubscriptionEntry S A) :
    SameEntry e e.clearPending := by
  unfold ManagedSubscriptionEntry.clearPending
  split_ifs <;> exact ⟨rfl, rfl, le_rfl⟩

@[simp] theorem clearPending_refCount (e : ManagedSubscriptionEntry S A) :
    e.clearPending.refCount = e.refCount := by
  unfold ManagedSubscriptionEntry.clearPending
  split_ifs <;> rfl

/-- The registered entries of some resources are changed one after the other. -/
theorem ManagerOk.foldl_modifyRegistered (h : ManagerOk m) (hcounts : ∀ id, CountOk m id)
    {f : String → ManagedSubscriptionEntry S A → ManagedSubscriptionEntry S A}
    (hf : ∀ resource e, SameEntry e (f resource e))
    (hcount : ∀ resource e, (f resource e).refCount = e.refCount) (resources : List String) :
    Advances m (resources.foldl (fun m resource => m.modifyRegistered resource (f resource)) m) := by
  induction resources generalizing m with
  | nil => exact h.refl hcounts
  | cons resource resources ih =>
    have hfirst : Advances m (m.modifyRegistered resource (f resource)) :=
      h.modifyRegistered hcounts (hf resource) (hcount resource)
    exact hfirst.trans (ih hfirst.ok hfirst.counts)

/-! ## Requests -/

theorem ManagerOk.setPhase (h : ManagerOk m) (hcounts : ∀ id, CountOk m id) (index : ℕ)
    (phase : RequestPhase) : Advances m (m.setPhase index phase) := by
  refine ⟨⟨fun id e he => (h.entries id e he).congr rfl rfl rfl, h.registered, h.references,
    h.ownerIds, h.distinct, h.teardowns, ?_⟩, hcounts, ⟨fun _ e he => ⟨e, he, rfl, le_rfl⟩,
    fun _ _ _ hremoved => hremoved, ?_⟩⟩
  · intro r' hr'
    obtain ⟨i, hi⟩ := List.mem_iff_getElem?.mp hr'
    rw [show (m.setPhase index phase).requests = m.requests.modify index _ from rfl,
      List.getElem?_modify] at hi
    obtain ⟨r, hr, rfl⟩ := Option.map_eq_some_iff.mp hi
    have hok := h.requests r (List.mem_of_getElem? hr)
    split_ifs <;> exact hok
  · intro i r hr
    refine ⟨if index = i then { r with phase := phase } else r, ?_, ?_⟩
    · rw [show (m.setPhase index phase).requests = m.requests.modify index _ from rfl,
        List.getElem?_modify, hr]
      rfl
    · split_ifs <;> exact ⟨rfl, rfl, rfl⟩

theorem ManagerOk.pushRequest (h : ManagerOk m) (hcounts : ∀ id, CountOk m id)
    {r : SubscriptionRequest} (hr : ∃ e, m.entries[r.entry]? = some e ∧
      e.resource = r.resource ∧ r.snapshotVersion ≤ e.snapshotVersion) :
    Advances m { m with requests := m.requests ++ [r] } := by
  refine ⟨⟨fun id e he => (h.entries id e he).congr rfl rfl rfl, h.registered, h.references,
    h.ownerIds, h.distinct, h.teardowns, ?_⟩, hcounts, ⟨fun _ e he => ⟨e, he, rfl, le_rfl⟩,
    fun _ _ _ hremoved => hremoved, ?_⟩⟩
  · intro r' hr'
    rcases List.mem_append.mp hr' with hin | hin
    · exact h.requests r' hin
    · rw [List.mem_singleton.mp hin]
      exact hr
  · intro i r' hr'
    obtain ⟨hi, -⟩ := List.getElem?_eq_some_iff.mp hr'
    exact ⟨r', (List.getElem?_append_left hi).trans hr', rfl, rfl, rfl⟩

theorem ManagerOk.creates (h : ManagerOk m) (hcounts : ∀ id, CountOk m id)
    (inflightCreates : AList fun _ : String => ℕ) (creates : List Bool) :
    Advances m { m with inflightCreates := inflightCreates, creates := creates } :=
  ⟨⟨fun id e he => (h.entries id e he).congr rfl rfl rfl, h.registered, h.references, h.ownerIds,
    h.distinct, h.teardowns, h.requests⟩, hcounts, ⟨fun _ e he => ⟨e, he, rfl, le_rfl⟩,
    fun _ _ _ hremoved => hremoved, fun _ r hr => ⟨r, hr, rfl, rfl, rfl⟩⟩⟩

/-! ## Entries that come and go -/

theorem ManagerOk.count_eq (h : ManagerOk m) {id : ℕ} {e : ManagedSubscriptionEntry S A}
    (he : m.entries[id]? = some e) (hregistered : m.subscriptions.lookup e.resource = some id) :
    m.teardowns.count (e.resource, id) = 0 := by
  rw [(h.entries id e he).tornDown, if_pos hregistered]

/-- The registered entry is torn down. -/
theorem ManagerOk.removeEntry (h : ManagerOk m) {resource : String} {id : ℕ}
    (hlookup : m.subscriptions.lookup resource = some id)
    (hcounts : ∀ i ≠ id, CountOk m i) : Advances m (m.removeEntry resource id) := by
  obtain ⟨gone, hgone, hresource⟩ := h.registered resource id hlookup
  have hsame : ∀ (i : ℕ) (e : ManagedSubscriptionEntry S A),
      SameEntry e (if id = i then e.clearPending else e) :=
    fun i e => sameEntry_ite sameEntry_clearPending e
  have hkept : Kept m (m.removeEntry resource id) := kept_modify id sameEntry_clearPending rfl
  -- what is registered behind the removal was registered before, under another resource
  have hstill : ∀ {key : String} {i : ℕ}, (m.removeEntry resource id).subscriptions.lookup key = some i ↔
      key ≠ resource ∧ m.subscriptions.lookup key = some i := by
    intro key i
    show (m.subscriptions.erase resource).lookup key = some i ↔ _
    by_cases hkey : key = resource
    · subst hkey
      simp
    · simp [hkey]
  have hother : ∀ {i : ℕ} {e : ManagedSubscriptionEntry S A}, m.entries[i]? = some e → i ≠ id →
      ((m.removeEntry resource id).subscriptions.lookup e.resource = some i ↔
        m.subscriptions.lookup e.resource = some i) := by
    intro i e he hne
    rw [hstill]
    refine ⟨And.right, fun hi => ⟨?_, hi⟩⟩
    intro hkey
    rw [hkey, hlookup] at hi
    exact hne (Option.some.inj hi).symm
  refine ⟨⟨?_, fun key i hkey => hkept.located (h.registered key i (hstill.mp hkey).2),
    fun r hr => hkept.located (h.references r hr), h.ownerIds, h.distinct, ?_,
    fun r hr => hkept.versioned (h.requests r hr)⟩, ?_,
    ⟨hkept, fun _ _ _ hremoved hkey => hremoved (hstill.mp hkey).2,
    fun _ r hr => ⟨r, hr, rfl, rfl, rfl⟩⟩⟩
  · intro i e' he'
    obtain ⟨e, he, rfl⟩ := modify_eq_some he'
    have hok := h.entries i e he
    refine ⟨(hsame i e).holders.trans hok.holders, ?_⟩
    rw [(hsame i e).resource]
    show (m.teardowns ++ [(resource, id)]).count (e.resource, i) = _
    rw [List.count_append]
    by_cases hi : i = id
    · subst hi
      obtain rfl := Option.some.inj (hgone.symm.trans he)
      have hleft : (m.removeEntry resource i).subscriptions.lookup gone.resource ≠ some i := by
        rw [Ne, hstill]
        exact fun hboth => hboth.1 hresource
      rw [if_neg hleft, h.count_eq hgone (hresource ▸ hlookup), hresource]
      simp
    · have hnot : [(resource, id)].count (e.resource, i) = 0 := by
        rw [List.count_eq_zero]
        simp [hi]
      rw [hnot, hok.tornDown]
      simp only [hother he hi, Nat.add_zero]
  · intro t ht
    rcases List.mem_append.mp ht with hin | hin
    · exact hkept.located (h.teardowns t hin)
    · rw [List.mem_singleton.mp hin]
      exact hkept.located ⟨gone, hgone, hresource⟩
  · intro i e' he' hregistered
    obtain ⟨e, he, rfl⟩ := modify_eq_some he'
    rw [(hsame i e).resource] at hregistered
    have hi : i ≠ id := by
      rintro rfl
      obtain rfl := Option.some.inj (hgone.symm.trans he)
      exact (hstill.mp hregistered).1 hresource
    rw [if_neg (Ne.symm hi)]
    exact hcounts i hi e he ((hother he hi).mp hregistered)

/-- A new entry, which nothing holds yet. -/
theorem ManagerOk.pushEntry (h : ManagerOk m) (hcounts : ∀ id, CountOk m id)
    {e : ManagedSubscriptionEntry S A} (hlookup : m.subscriptions.lookup e.resource = none)
    (hholders : e.holders = []) :
    let next := { m with
      entries := m.entries ++ [e]
      subscriptions := m.subscriptions.insert e.resource m.entries.length }
    ManagerOk next ∧ (∀ i ≠ m.entries.length, CountOk next i) ∧ Grows m next := by
  intro next
  have hlt : ∀ {i : ℕ} {e' : ManagedSubscriptionEntry S A}, m.entries[i]? = some e' →
      i < m.entries.length :=
    fun he' => (List.getElem?_eq_some_iff.mp he').1
  have hkept : Kept m next :=
    fun i e' he' => ⟨e', (List.getElem?_append_left (hlt he')).trans he', rfl, le_rfl⟩
  have hnew : next.entries[m.entries.length]? = some e := List.getElem?_concat_length
  have hback : ∀ {i : ℕ} {e' : ManagedSubscriptionEntry S A}, next.entries[i]? = some e' →
      m.entries[i]? = some e' ∨ i = m.entries.length ∧ e' = e := by
    intro i e' he'
    rcases Nat.lt_trichotomy i m.entries.length with hi | hi | hi
    · rw [show next.entries = m.entries ++ [e] from rfl, List.getElem?_append_left hi] at he'
      exact .inl he'
    · subst hi
      exact .inr ⟨rfl, (Option.some.inj (hnew.symm.trans he')).symm⟩
    · rw [List.getElem?_eq_none (by simp [next]; omega)] at he'
      cases he'
  have hstill : ∀ {i : ℕ} {e' : ManagedSubscriptionEntry S A}, m.entries[i]? = some e' →
      (next.subscriptions.lookup e'.resource = some i ↔
        m.subscriptions.lookup e'.resource = some i) := by
    intro i e' he'
    show (m.subscriptions.insert e.resource m.entries.length).lookup e'.resource = some i ↔ _
    by_cases hkey : e'.resource = e.resource
    · rw [hkey, AList.lookup_insert, hlookup]
      constructor
      · intro hi
        exact absurd (hlt he') (by simp [Option.some.inj hi])
      · intro hi
        cases hi
    · rw [AList.lookup_insert_ne hkey]
  refine ⟨⟨?_, ?_, fun r hr => hkept.located (h.references r hr), h.ownerIds, h.distinct,
    fun t ht => hkept.located (h.teardowns t ht), fun r hr => hkept.versioned (h.requests r hr)⟩, ?_,
    ⟨hkept, fun i e' he' hremoved hi => hremoved ((hstill he').mp hi),
      fun _ r hr => ⟨r, hr, rfl, rfl, rfl⟩⟩⟩
  · intro i e' he'
    rcases hback he' with hold | ⟨rfl, rfl⟩
    · have hok := h.entries i e' hold
      refine ⟨hok.holders, ?_⟩
      rw [show next.teardowns = m.teardowns from rfl, hok.tornDown]
      simp only [hstill hold]
    · refine ⟨?_, ?_⟩
      · have hnone : m.references.filter
            (fun r => r.entry = m.entries.length ∧ r.isDisposed = false) = [] := by
          apply List.filter_eq_nil_iff.mpr
          intro r hr
          obtain ⟨e', he', -⟩ := h.references r hr
          have := hlt he'
          simp only [decide_eq_true_eq, not_and]
          intro heq
          omega
        rw [hholders, holdersOf, show next.references = m.references from rfl, hnone]
        rfl
      · have hregistered : next.subscriptions.lookup e'.resource = some m.entries.length :=
          AList.lookup_insert _
        rw [if_pos hregistered, List.count_eq_zero]
        intro ht
        obtain ⟨e'', he'', -⟩ := h.teardowns _ ht
        exact absurd (hlt he'') (Nat.lt_irrefl _)
  · intro resource i hi
    by_cases hkey : resource = e.resource
    · subst hkey
      rw [show next.subscriptions = m.subscriptions.insert e.resource m.entries.length from rfl,
        AList.lookup_insert] at hi
      obtain rfl := Option.some.inj hi
      exact ⟨e, hnew, rfl⟩
    · rw [show next.subscriptions = m.subscriptions.insert e.resource m.entries.length from rfl,
        AList.lookup_insert_ne hkey] at hi
      exact hkept.located (h.registered resource i hi)
  · intro i hi e' he' hregistered
    rcases hback he' with hold | ⟨hi', -⟩
    · exact hcounts i e' hold ((hstill hold).mp hregistered)
    · exact absurd hi' hi

end NexgileIde.AgentHost.SubscriptionManager
