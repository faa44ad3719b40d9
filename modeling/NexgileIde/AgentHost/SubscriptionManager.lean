import NexgileIde.AgentHost.AgentSubscription
import Mathlib.Data.List.AList

/-!
# The subscription manager

Subscriptions are shared by reference count. An entry is created when its resource
is first asked for and torn down when its last reference goes, or when it has
failed and the resource is asked for again. Subscribe calls are answered at any
later time, and an answer looks at the identity and the version of its entry.
-/
namespace NexgileIde.AgentHost

variable {S A : Type}

inductive StateComponents
  | root
  | session
  | chat
  | terminal
  | changeset
  | annotations
  | automationCatalog
  | automationRun
  | canvas
  deriving DecidableEq, Repr

/-- The kinds whose pending actions the manager knows of. -/
def StateComponents.hasClearPending : StateComponents → Bool
  | .session | .chat | .annotations => true
  | _ => false

structure ManagedSubscriptionEntry (S A : Type) where
  /-- The resource that the entry was created for. -/
  resource : String
  sub : Subscription S A
  kind : StateComponents
  refCount : ℤ
  /-- The owners of the references, by owner id. -/
  holders : List (ℕ × String)
  /-- The request whose promise the entry holds. -/
  refresh : Option ℕ
  snapshotVersion : ℕ
  deriving DecidableEq, Repr

/-- A reference that `getSubscription` has returned, known by its owner id. -/
structure SubscriptionReference where
  resource : String
  entry : ℕ
  ownerId : ℕ
  owner : String
  isDisposed : Bool
  deriving DecidableEq, Repr

inductive RequestPhase
  /-- The request waits for a session that is being created. -/
  | inflight (create : ℕ)
  | subscribing
  /-- The answer is processed, and the entry still holds the promise. -/
  | settled
  | finished
  deriving DecidableEq, Repr

/-- A call of `_subscribe`, and what its continuation has captured. -/
structure SubscriptionRequest where
  resource : String
  entry : ℕ
  snapshotVersion : ℕ
  isInitial : Bool
  phase : RequestPhase
  deriving DecidableEq, Repr

/-- What the manager calls: the subscription class of a kind, and the kind of
subscription that an action is dispatched to. -/
structure ManagerSetting (S A : Type) where
  cls : StateComponents → String → SubscriptionClass S A
  actionKind : A → Option StateComponents
  isAhpRootChannel : String → Bool

/-- Entries are kept for good, and the index of an entry is its identity. -/
structure SubscriptionManager (S A : Type) where
  subscriptions : AList (fun _ : String => ℕ)
  entries : List (ManagedSubscriptionEntry S A)
  references : List SubscriptionReference
  referenceOwnerIds : ℕ
  requests : List SubscriptionRequest
  inflightCreates : AList (fun _ : String => ℕ)
  /-- Every promise of a session, and whether it has settled. -/
  creates : List Bool
  /-- The unsubscribed resources and the disposed entries, in this order. -/
  teardowns : List (String × ℕ)

namespace SubscriptionManager

def initial : SubscriptionManager S A := ⟨∅, [], [], 0, [], ∅, [], []⟩

def modifyEntry (m : SubscriptionManager S A) (id : ℕ)
    (f : ManagedSubscriptionEntry S A → ManagedSubscriptionEntry S A) : SubscriptionManager S A :=
  { m with entries := m.entries.modify id f }

/-- The registered entry of a resource is changed, if there is one. -/
def modifyRegistered (m : SubscriptionManager S A) (resource : String)
    (f : ManagedSubscriptionEntry S A → ManagedSubscriptionEntry S A) : SubscriptionManager S A :=
  match m.subscriptions.lookup resource with
  | none => m
  | some id => m.modifyEntry id f

end SubscriptionManager

namespace ManagedSubscriptionEntry

def clearPending (e : ManagedSubscriptionEntry S A) : ManagedSubscriptionEntry S A :=
  if e.kind.hasClearPending then { e with sub := e.sub.clearPending } else e

def markMissing (e : ManagedSubscriptionEntry S A) (resource : String) :
    ManagedSubscriptionEntry S A :=
  let error := s!"Subscription no longer available after reconnect: {resource}"
  { e.clearPending with sub := e.clearPending.sub.setError error }

/-- `existing.sub.value instanceof Error` -/
def isFailed (e : ManagedSubscriptionEntry S A) : Bool := e.sub.error.isSome

end ManagedSubscriptionEntry

namespace SubscriptionManager

/-! ## References -/

def acquireReference (m : SubscriptionManager S A) (resource : String) (id : ℕ) (owner : String) :
    SubscriptionManager S A :=
  let ownerId := m.referenceOwnerIds + 1
  { m with
    referenceOwnerIds := ownerId
    entries := m.entries.modify id fun e => { e with holders := e.holders ++ [(ownerId, owner)] }
    references := m.references ++ [⟨resource, id, ownerId, owner, false⟩] }

/-- `_tryUnsubscribe`, and the disposal of the subscription. -/
def disposeSubscriptionEntry (m : SubscriptionManager S A) (resource : String) (id : ℕ) :
    SubscriptionManager S A :=
  { m with
    entries := m.entries.modify id (·.clearPending)
    teardowns := m.teardowns ++ [(resource, id)] }

/-- The entry leaves the map and is torn down. -/
def removeEntry (m : SubscriptionManager S A) (resource : String) (id : ℕ) :
    SubscriptionManager S A :=
  let next : SubscriptionManager S A := { m with subscriptions := m.subscriptions.erase resource }
  next.disposeSubscriptionEntry resource id

/-- A new entry with its first reference and its subscribe call. A root kind throws. -/
def createEntry (m : SubscriptionManager S A) (kind : StateComponents) (resource owner : String) :
    SubscriptionManager S A :=
  if kind = .root then m
  else
    let id := m.entries.length
    let phase : RequestPhase := match m.inflightCreates.lookup resource with
      | none => .subscribing
      | some create => .inflight create
    let next : SubscriptionManager S A := { m with
      entries := m.entries ++ [⟨resource, .initial, kind, 1, [], some m.requests.length, 1⟩]
      subscriptions := m.subscriptions.insert resource id
      requests := m.requests ++ [⟨resource, id, 1, true, phase⟩] }
    next.acquireReference resource id owner

def getSubscription (m : SubscriptionManager S A) (kind : StateComponents)
    (resource owner : String) : SubscriptionManager S A :=
  match m.subscriptions.lookup resource with
  | none => m.createEntry kind resource owner
  | some id =>
    match m.entries[id]? with
    | none => m
    | some existing =>
      -- a failed subscription does not poison the resource forever
      if existing.isFailed then (m.removeEntry resource id).createEntry kind resource owner
      else (m.modifyEntry id fun e => { e with refCount := e.refCount + 1 }).acquireReference
        resource id owner

def releaseSubscription (m : SubscriptionManager S A) (resource : String) (expected : ℕ) :
    SubscriptionManager S A :=
  if m.subscriptions.lookup resource = some expected then
    let next := m.modifyEntry expected fun e => { e with refCount := e.refCount - 1 }
    match next.entries[expected]? with
    | none => next
    | some entry => if entry.refCount ≤ 0 then next.removeEntry resource expected else next
  else m

/-- `dispose` of a reference. -/
def disposeReference (m : SubscriptionManager S A) (ownerId : ℕ) : SubscriptionManager S A :=
  match m.references.find? (·.ownerId = ownerId) with
  | none => m
  | some r =>
    if r.isDisposed then m
    else
      let next : SubscriptionManager S A := { m with
        references := m.references.map fun r =>
          if r.ownerId = ownerId then { r with isDisposed := true } else r
        entries := m.entries.modify r.entry fun e =>
          { e with holders := e.holders.filter (·.1 ≠ ownerId) } }
      next.releaseSubscription r.resource r.entry

/-! ## Snapshots -/

variable (setting : ManagerSetting S A)

def refreshSubscription (m : SubscriptionManager S A) (resource : String) :
    SubscriptionManager S A :=
  match m.subscriptions.lookup resource with
  | none => m
  | some id =>
    match m.entries[id]? with
    | none => m
    | some entry =>
      if entry.refresh.isSome then m
      else { m with
        entries := m.entries.modify id fun e => { e with
          snapshotVersion := e.snapshotVersion + 1
          sub := e.sub.beginSnapshotRefresh
          refresh := some m.requests.length }
        requests :=
          m.requests ++ [⟨resource, id, entry.snapshotVersion + 1, false, .subscribing⟩] }

def applyReconnectSnapshot (m : SubscriptionManager S A) (resource : String) (state : S)
    (fromSeq : ℕ) (preservePending : Bool) : SubscriptionManager S A :=
  if setting.isAhpRootChannel resource then m
  else m.modifyRegistered resource fun e =>
    let bumped := { e with snapshotVersion := e.snapshotVersion + 1 }
    let cleared := if preservePending then bumped else bumped.clearPending
    { cleared with
      sub := (setting.cls cleared.kind resource).handleSnapshot cleared.sub state fromSeq }

def beginSnapshotRefresh (m : SubscriptionManager S A) (resource : String) :
    SubscriptionManager S A :=
  m.modifyRegistered resource fun e =>
    { e with snapshotVersion := e.snapshotVersion + 1, sub := e.sub.beginSnapshotRefresh }

def cancelSnapshotRefresh (m : SubscriptionManager S A) (resource : String) :
    SubscriptionManager S A :=
  m.modifyRegistered resource fun e =>
    { e with sub := (setting.cls e.kind resource).cancelSnapshotRefresh e.sub }

def markSubscriptionsMissing (m : SubscriptionManager S A) (missing : List String) :
    SubscriptionManager S A :=
  missing.foldl (fun m resource => m.modifyRegistered resource (·.markMissing resource)) m

/-- What the continuation of a subscribe call does to its entry. -/
def afterResponse (r : SubscriptionRequest) (response : Except String (S × ℕ))
    (e : ManagedSubscriptionEntry S A) : ManagedSubscriptionEntry S A :=
  match response with
  | .ok (state, fromSeq) =>
    { e with sub := (setting.cls e.kind r.resource).handleSnapshot e.sub state fromSeq }
  | .error error =>
    if r.isInitial then { e with sub := e.sub.setError error }
    else { e with sub := (setting.cls e.kind r.resource).cancelSnapshotRefresh e.sub }

/-- The entry is still registered, and no later version was started. -/
def isCurrent (m : SubscriptionManager S A) (r : SubscriptionRequest) : Bool :=
  m.subscriptions.lookup r.resource = some r.entry &&
    (m.entries[r.entry]?.map (·.snapshotVersion)) = some r.snapshotVersion

def setPhase (m : SubscriptionManager S A) (index : ℕ) (phase : RequestPhase) :
    SubscriptionManager S A :=
  { m with requests := m.requests.modify index fun r => { r with phase := phase } }

def clearRefresh (m : SubscriptionManager S A) (id : ℕ) : SubscriptionManager S A :=
  m.modifyEntry id fun e => { e with refresh := none }

/-- A subscribe call succeeds or fails. The promise of a first call is cleared in a
step of its own. -/
def respond (m : SubscriptionManager S A) (index : ℕ) (response : Except String (S × ℕ)) :
    SubscriptionManager S A :=
  match m.requests[index]? with
  | none => m
  | some r =>
    if r.phase = .subscribing then
      let processed := if m.isCurrent r then m.modifyEntry r.entry (afterResponse setting r response)
        else m
      if r.isInitial then processed.setPhase index .settled
      else (processed.setPhase index .finished).clearRefresh r.entry
    else m

def finish (m : SubscriptionManager S A) (index : ℕ) : SubscriptionManager S A :=
  match m.requests[index]? with
  | none => m
  | some r =>
    if r.phase = .settled then (m.setPhase index .finished).clearRefresh r.entry else m

/-! ## Sessions that are being created -/

def trackSessionCreate (m : SubscriptionManager S A) (resource : String) :
    SubscriptionManager S A :=
  { m with
    inflightCreates := m.inflightCreates.insert resource m.creates.length
    creates := m.creates ++ [false] }

def settleCreate (m : SubscriptionManager S A) (create : ℕ) : SubscriptionManager S A :=
  { m with creates := m.creates.set create true }

/-- The `finally` of a promise that has settled. -/
def evictCreate (m : SubscriptionManager S A) (resource : String) (create : ℕ) :
    SubscriptionManager S A :=
  if m.creates[create]? = some true ∧ m.inflightCreates.lookup resource = some create then
    { m with inflightCreates := m.inflightCreates.erase resource }
  else m

/-- A request goes on after the session was created, or could not be. -/
def resume (m : SubscriptionManager S A) (index : ℕ) : SubscriptionManager S A :=
  match m.requests[index]? with
  | none => m
  | some r =>
    match r.phase with
    | .inflight create =>
      if m.creates[create]? = some true then m.setPhase index .subscribing else m
    | _ => m

/-! ## Actions -/

def receiveEnvelope (m : SubscriptionManager S A) (envelope : ActionEnvelope A) :
    SubscriptionManager S A :=
  m.subscriptions.keys.foldl (fun m resource => m.modifyRegistered resource fun e =>
    { e with sub := (setting.cls e.kind resource).receiveEnvelope e.sub envelope }) m

/-- `clientSeq` is the number that the allocator gives out. -/
def dispatchOptimistic (m : SubscriptionManager S A) (channel : String) (action : A)
    (clientSeq : ℕ) : SubscriptionManager S A :=
  m.modifyRegistered channel fun e =>
    if setting.actionKind action = some e.kind then
      { e with sub := (setting.cls e.kind channel).applyOptimistic e.sub clientSeq action }
    else e

def dropPendingAction (m : SubscriptionManager S A) (resource : String) (clientSeq : ℕ) :
    SubscriptionManager S A :=
  m.modifyRegistered resource fun e =>
    if e.kind.hasClearPending then { e with sub := e.sub.dropPendingByClientSeq clientSeq } else e

inductive Event (S A : Type)
  | getSubscription (kind : StateComponents) (resource owner : String)
  | disposeReference (ownerId : ℕ)
  | refreshSubscription (resource : String)
  | beginSnapshotRefresh (resource : String)
  | cancelSnapshotRefresh (resource : String)
  | applyReconnectSnapshot (resource : String) (state : S) (fromSeq : ℕ) (preservePending : Bool)
  | markSubscriptionsMissing (missing : List String)
  | respond (index : ℕ) (response : Except String (S × ℕ))
  | finish (index : ℕ)
  | trackSessionCreate (resource : String)
  | settleCreate (create : ℕ)
  | evictCreate (resource : String) (create : ℕ)
  | resume (index : ℕ)
  | receiveEnvelope (envelope : ActionEnvelope A)
  | dispatchOptimistic (channel : String) (action : A) (clientSeq : ℕ)
  | dropPendingAction (resource : String) (clientSeq : ℕ)

def step (m : SubscriptionManager S A) : Event S A → SubscriptionManager S A
  | .getSubscription kind resource owner => m.getSubscription kind resource owner
  | .disposeReference ownerId => m.disposeReference ownerId
  | .refreshSubscription resource => m.refreshSubscription resource
  | .beginSnapshotRefresh resource => m.beginSnapshotRefresh resource
  | .cancelSnapshotRefresh resource => m.cancelSnapshotRefresh setting resource
  | .applyReconnectSnapshot resource state fromSeq preservePending =>
    m.applyReconnectSnapshot setting resource state fromSeq preservePending
  | .markSubscriptionsMissing missing => m.markSubscriptionsMissing missing
  | .respond index response => m.respond setting index response
  | .finish index => m.finish index
  | .trackSessionCreate resource => m.trackSessionCreate resource
  | .settleCreate create => m.settleCreate create
  | .evictCreate resource create => m.evictCreate resource create
  | .resume index => m.resume index
  | .receiveEnvelope envelope => m.receiveEnvelope setting envelope
  | .dispatchOptimistic channel action clientSeq =>
    m.dispatchOptimistic setting channel action clientSeq
  | .dropPendingAction resource clientSeq => m.dropPendingAction resource clientSeq

def run (m : SubscriptionManager S A) (events : List (Event S A)) : SubscriptionManager S A :=
  events.foldl (step setting) m

end SubscriptionManager

end NexgileIde.AgentHost
