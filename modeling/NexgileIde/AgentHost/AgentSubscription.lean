import Mathlib.Data.List.Basic
import Mathlib.Tactic

/-!
# Subscriptions to agent host state

A subscription holds the state that the server has confirmed. The write-ahead
kinds also hold the client's own actions that the server has not answered, and
the optimistic state that these actions lead to. Envelopes that arrive before a
snapshot are buffered and replayed behind it.
-/
namespace NexgileIde.AgentHost

variable {S A : Type}

structure ActionOrigin where
  clientId : String
  clientSeq : ℕ
  deriving DecidableEq, Repr

structure ActionEnvelope (A : Type) where
  channel : String
  action : A
  serverSeq : ℕ
  origin : Option ActionOrigin
  rejectionReason : Option String
  deriving DecidableEq, Repr

namespace ActionEnvelope

/-- `if (envelope.rejectionReason)`: an empty reason counts as none. -/
def isRejected (envelope : ActionEnvelope A) : Bool :=
  match envelope.rejectionReason with
  | none => false
  | some reason => reason ≠ ""

/-- `envelope.origin?.clientId === clientId` -/
def isOwn (envelope : ActionEnvelope A) (clientId : String) : Bool :=
  match envelope.origin with
  | none => false
  | some origin => origin.clientId = clientId

end ActionEnvelope

structure PendingAction (A : Type) where
  clientSeq : ℕ
  action : A
  deriving DecidableEq, Repr

structure Subscription (S A : Type) where
  confirmedState : Option S
  error : Option String
  bufferedEnvelopes : Option (List (ActionEnvelope A))
  awaitingSnapshotRefresh : Bool
  pendingActions : List (PendingAction A)
  optimisticState : Option S
  deriving DecidableEq, Repr

namespace Subscription

def initial : Subscription S A := ⟨none, none, none, false, [], none⟩

/-- The optimistic state where there is one, else the confirmed state, unless an
error is set. -/
def value (sub : Subscription S A) : Option (Except String S) :=
  match sub.error with
  | some error => some (.error error)
  | none => (sub.optimisticState <|> sub.confirmedState).map .ok

def verifiedValue (sub : Subscription S A) : Option S := sub.confirmedState

def beginSnapshotRefresh (sub : Subscription S A) : Subscription S A :=
  { sub with awaitingSnapshotRefresh := true }

def setError (sub : Subscription S A) (error : String) : Subscription S A :=
  { sub with error := some error }

def clearPending (sub : Subscription S A) : Subscription S A :=
  { sub with pendingActions := [], optimisticState := none }

/-- The first pending action with this number is removed. -/
def dropPendingByClientSeq (sub : Subscription S A) (clientSeq : ℕ) : Subscription S A :=
  { sub with pendingActions := sub.pendingActions.eraseP (·.clientSeq = clientSeq) }

/-- The pending action that a relevant own envelope answers. -/
def hasPending (sub : Subscription S A) (clientSeq : ℕ) : Bool :=
  sub.pendingActions.any (·.clientSeq = clientSeq)

def applyOptimistic (reducer : S → A → S) (sub : Subscription S A) (clientSeq : ℕ) (action : A) :
    Subscription S A :=
  { sub with
    pendingActions := sub.pendingActions ++ [⟨clientSeq, action⟩]
    optimisticState := match sub.optimisticState <|> sub.verifiedValue with
      | none => sub.optimisticState
      | some base => some (reducer base action) }

def confirmedApply (applyReducer : S → A → S) (sub : Subscription S A) (action : A) :
    Subscription S A :=
  { sub with confirmedState := sub.confirmedState.map (applyReducer · action) }

/-- The pending actions are replayed on the confirmed state. -/
def recomputeOptimistic (reducer : S → A → S) (sub : Subscription S A) : Subscription S A :=
  { sub with
    optimisticState := match sub.confirmedState with
      | none => none
      | some confirmed =>
        if sub.pendingActions = [] then none
        else some (sub.pendingActions.foldl (fun s p => reducer s p.action) confirmed) }

@[simp] theorem confirmedApply_pendingActions (reducer : S → A → S) (sub : Subscription S A)
    (action : A) : (sub.confirmedApply reducer action).pendingActions = sub.pendingActions := rfl
@[simp] theorem confirmedApply_confirmedState (reducer : S → A → S) (sub : Subscription S A)
    (action : A) : (sub.confirmedApply reducer action).confirmedState =
      sub.confirmedState.map (reducer · action) := rfl
@[simp] theorem dropPendingByClientSeq_confirmedState (sub : Subscription S A) (clientSeq : ℕ) :
    (sub.dropPendingByClientSeq clientSeq).confirmedState = sub.confirmedState := rfl
@[simp] theorem dropPendingByClientSeq_pendingActions (sub : Subscription S A) (clientSeq : ℕ) :
    (sub.dropPendingByClientSeq clientSeq).pendingActions =
      sub.pendingActions.eraseP (·.clientSeq = clientSeq) := rfl
@[simp] theorem recomputeOptimistic_confirmedState (reducer : S → A → S)
    (sub : Subscription S A) :
    (sub.recomputeOptimistic reducer).confirmedState = sub.confirmedState := rfl
@[simp] theorem recomputeOptimistic_pendingActions (reducer : S → A → S)
    (sub : Subscription S A) :
    (sub.recomputeOptimistic reducer).pendingActions = sub.pendingActions := rfl
@[simp] theorem recomputeOptimistic_awaitingSnapshotRefresh (reducer : S → A → S)
    (sub : Subscription S A) :
    (sub.recomputeOptimistic reducer).awaitingSnapshotRefresh = sub.awaitingSnapshotRefresh := rfl
@[simp] theorem recomputeOptimistic_bufferedEnvelopes (reducer : S → A → S)
    (sub : Subscription S A) :
    (sub.recomputeOptimistic reducer).bufferedEnvelopes = sub.bufferedEnvelopes := rfl

end Subscription

/-- The methods in which the subscription classes differ. -/
structure SubscriptionClass (S A : Type) where
  clientId : String
  /-- The reducer that pending actions are replayed with. -/
  reducer : S → A → S
  isRelevantEnvelope : ActionEnvelope A → Bool
  reconcile : Subscription S A → ActionEnvelope A → Bool → Subscription S A
  acknowledgeSnapshotAction : Subscription S A → ℕ → Subscription S A
  /-- What the class does to a snapshot before it installs it. -/
  snapshotState : S → S
  /-- What `_onSnapshotApplied` does before and after the replay. -/
  beforeReplay : Subscription S A → Subscription S A
  afterReplay : Subscription S A → Subscription S A

namespace SubscriptionClass

variable (cls : SubscriptionClass S A)

def applyOptimistic (sub : Subscription S A) (clientSeq : ℕ) (action : A) : Subscription S A :=
  sub.applyOptimistic cls.reducer clientSeq action

/-- One buffered envelope behind a snapshot that covers everything up to `fromSeq`. -/
def replay (fromSeq : ℕ) (sub : Subscription S A) (envelope : ActionEnvelope A) :
    Subscription S A :=
  if envelope.serverSeq > fromSeq then
    cls.reconcile sub envelope (envelope.isOwn cls.clientId)
  else match envelope.origin with
    | none => sub
    | some origin =>
      if origin.clientId = cls.clientId then cls.acknowledgeSnapshotAction sub origin.clientSeq
      else sub

/-- `BaseAgentSubscription._onSnapshotApplied` -/
def replayBuffered (sub : Subscription S A) (fromSeq : ℕ) : Subscription S A :=
  match sub.bufferedEnvelopes with
  | none => sub
  | some buffered => buffered.foldl (cls.replay fromSeq) { sub with bufferedEnvelopes := none }

/-- The state that the replay starts from. -/
def installSnapshot (sub : Subscription S A) (state : S) : Subscription S A :=
  cls.beforeReplay { sub with
    awaitingSnapshotRefresh := false
    confirmedState := some (cls.snapshotState state)
    error := none }

def handleSnapshot (sub : Subscription S A) (state : S) (fromSeq : ℕ) : Subscription S A :=
  cls.afterReplay (cls.replayBuffered (cls.installSnapshot sub state) fromSeq)

/-- One buffered envelope after a refresh was given up. -/
def replayAll (sub : Subscription S A) (envelope : ActionEnvelope A) : Subscription S A :=
  cls.reconcile sub envelope (envelope.isOwn cls.clientId)

def cancelSnapshotRefresh (sub : Subscription S A) : Subscription S A :=
  if sub.awaitingSnapshotRefresh then
    match sub.bufferedEnvelopes, sub.confirmedState with
    | some buffered, some _ =>
      buffered.foldl cls.replayAll
        { sub with awaitingSnapshotRefresh := false, bufferedEnvelopes := none }
    | _, _ => { sub with awaitingSnapshotRefresh := false }
  else sub

def receiveEnvelope (sub : Subscription S A) (envelope : ActionEnvelope A) : Subscription S A :=
  if cls.isRelevantEnvelope envelope then
    if sub.confirmedState.isNone || sub.awaitingSnapshotRefresh then
      { sub with bufferedEnvelopes := some (sub.bufferedEnvelopes.getD [] ++ [envelope]) }
    else cls.reconcile sub envelope (envelope.isOwn cls.clientId)
  else sub

theorem replayBuffered_eq (sub : Subscription S A) (fromSeq : ℕ) :
    cls.replayBuffered sub fromSeq = (sub.bufferedEnvelopes.getD []).foldl (cls.replay fromSeq)
      { sub with bufferedEnvelopes := none } := by
  obtain ⟨confirmed, error, buffered, awaiting, pending, optimistic⟩ := sub
  cases buffered <;> rfl

/-- Giving up a refresh replays the buffer, or only resets the flag. -/
theorem cancelSnapshotRefresh_cases (sub : Subscription S A) :
    (∃ buffered, sub.awaitingSnapshotRefresh = true ∧ sub.bufferedEnvelopes = some buffered ∧
      sub.confirmedState ≠ none ∧ cls.cancelSnapshotRefresh sub = buffered.foldl cls.replayAll
        { sub with awaitingSnapshotRefresh := false, bufferedEnvelopes := none }) ∨
    (sub.awaitingSnapshotRefresh = true → sub.confirmedState ≠ none →
      sub.bufferedEnvelopes = none) ∧
      cls.cancelSnapshotRefresh sub = { sub with awaitingSnapshotRefresh := false } := by
  obtain ⟨confirmed, error, buffered, awaiting, pending, optimistic⟩ := sub
  cases awaiting with
  | false => exact .inr ⟨fun h => absurd h Bool.false_ne_true, rfl⟩
  | true =>
    cases buffered with
    | none => exact .inr ⟨fun _ _ => rfl, by cases confirmed <;> rfl⟩
    | some buffered =>
      cases confirmed with
      | none => exact .inr ⟨fun _ h => absurd rfl h, rfl⟩
      | some confirmed => exact .inl ⟨buffered, rfl, rfl, by simp, rfl⟩

end SubscriptionClass

/-! ## The write-ahead classes -/

/-- `SessionStateSubscription._reconcile`: every branch that applies the action looks
at the rejection first. -/
def SessionStateSubscription.reconcile (reducer : S → A → S) (sub : Subscription S A)
    (envelope : ActionEnvelope A) (isOwnAction : Bool) : Subscription S A :=
  let applied := if envelope.isRejected then sub else sub.confirmedApply reducer envelope.action
  let dropped := match isOwnAction, envelope.origin with
    | true, some origin =>
      if sub.hasPending origin.clientSeq then applied.dropPendingByClientSeq origin.clientSeq
      else applied
    | _, _ => applied
  dropped.recomputeOptimistic reducer

def sessionStateSubscription (clientId sessionUri : String) (isSessionAction : A → Bool)
    (sessionReducer : S → A → S) : SubscriptionClass S A where
  clientId := clientId
  reducer := sessionReducer
  isRelevantEnvelope envelope := isSessionAction envelope.action && envelope.channel = sessionUri
  reconcile := SessionStateSubscription.reconcile sessionReducer
  acknowledgeSnapshotAction := Subscription.dropPendingByClientSeq
  snapshotState := id
  beforeReplay := id
  afterReplay := Subscription.recomputeOptimistic sessionReducer

/-- What the chat subscription reads of chat states and actions. -/
structure ChatProtocol (S A : Type) where
  chatReducer : S → A → S
  isChatAction : A → Bool
  /-- The turn that an action of type `ChatTurnStarted` starts. -/
  turnStarted : A → Option String
  /-- The turn that a `ChatTurnComplete`, `ChatTurnCancelled` or `ChatError` ends. -/
  turnEnded : A → Option String
  /-- The chat that a `SessionChatUpdated` is about. -/
  chatUpdated : A → Option String
  /-- `{ ...state, ...changes }`, without the changed resource. -/
  withChanges : S → A → S
  /-- `state.activeTurn?.id` -/
  activeTurn : S → Option String
  /-- The ids of `state.turns`. -/
  turns : S → List String
  normalizeLegacyChatStateErrors : S → S

namespace ChatStateSubscription

variable (chat : ChatProtocol S A)

def applyReducer (chatUri : String) (state : S) (action : A) : S :=
  if chat.chatUpdated action = some chatUri then chat.withChanges state action
  else chat.chatReducer state action

/-- The pending turn start that a terminal action of the same turn promotes. -/
def pendingTurnStart (sub : Subscription S A) (turnId : String) : Option (PendingAction A) :=
  sub.pendingActions.find? fun p => chat.turnStarted p.action = some turnId

def promotePendingTurnStartIfTerminal (chatUri : String) (sub : Subscription S A) (action : A) :
    Subscription S A :=
  match (if chat.isChatAction action then chat.turnEnded action else none) with
  | none => sub
  | some turnId =>
    match pendingTurnStart chat sub turnId with
    | none => sub
    | some pending =>
      { sub with
        pendingActions := sub.pendingActions.eraseP fun p =>
          chat.turnStarted p.action = some turnId
        confirmedState := sub.confirmedState.map fun confirmed =>
          if chat.activeTurn confirmed = some turnId then confirmed
          else applyReducer chat chatUri confirmed pending.action }

def reconcile (chatUri : String) (sub : Subscription S A) (envelope : ActionEnvelope A)
    (isOwnAction : Bool) : Subscription S A :=
  let reconciled := match isOwnAction, envelope.origin with
    | true, some origin =>
      let applied := if envelope.isRejected then sub
        else sub.confirmedApply (applyReducer chat chatUri) envelope.action
      if sub.hasPending origin.clientSeq then applied.dropPendingByClientSeq origin.clientSeq
      else applied
    | _, _ =>
      if envelope.isRejected then sub
      else (promotePendingTurnStartIfTerminal chat chatUri sub envelope.action).confirmedApply
        (applyReducer chat chatUri) envelope.action
  reconciled.recomputeOptimistic chat.chatReducer

/-- Turn starts that the snapshot already confirms are no longer pending. -/
def dropConfirmedTurnStarts (sub : Subscription S A) : Subscription S A :=
  { sub with
    pendingActions := sub.pendingActions.filter fun p =>
      match chat.turnStarted p.action, sub.confirmedState with
      | some turnId, some state =>
        !(chat.activeTurn state = some turnId || (chat.turns state).contains turnId)
      | _, _ => true }

end ChatStateSubscription

def chatStateSubscription (clientId chatUri : String) (chat : ChatProtocol S A) :
    SubscriptionClass S A where
  clientId := clientId
  reducer := chat.chatReducer
  isRelevantEnvelope envelope :=
    chat.isChatAction envelope.action && envelope.channel = chatUri ||
      chat.chatUpdated envelope.action = some chatUri
  reconcile := ChatStateSubscription.reconcile chat chatUri
  acknowledgeSnapshotAction := Subscription.dropPendingByClientSeq
  snapshotState := chat.normalizeLegacyChatStateErrors
  beforeReplay := ChatStateSubscription.dropConfirmedTurnStarts chat
  afterReplay := Subscription.recomputeOptimistic chat.chatReducer

/-- `ChangesetStateSubscription._reconcile`: only the branch of a matching pending
action looks at the rejection. -/
def ChangesetStateSubscription.reconcile (reducer : S → A → S) (sub : Subscription S A)
    (envelope : ActionEnvelope A) (isOwnAction : Bool) : Subscription S A :=
  let reconciled := match isOwnAction, envelope.origin with
    | true, some origin =>
      if sub.hasPending origin.clientSeq then
        (if envelope.isRejected then sub else sub.confirmedApply reducer envelope.action)
          |>.dropPendingByClientSeq origin.clientSeq
      else sub.confirmedApply reducer envelope.action
    | _, _ => sub.confirmedApply reducer envelope.action
  reconciled.recomputeOptimistic reducer

/-- The class has no `_acknowledgeSnapshotAction` of its own. -/
def changesetStateSubscription (clientId changesetUri : String) (isChangesetAction : A → Bool)
    (changesetReducer : S → A → S) : SubscriptionClass S A where
  clientId := clientId
  reducer := changesetReducer
  isRelevantEnvelope envelope :=
    isChangesetAction envelope.action && envelope.channel = changesetUri
  reconcile := ChangesetStateSubscription.reconcile changesetReducer
  acknowledgeSnapshotAction sub _ := sub
  snapshotState := id
  beforeReplay := id
  afterReplay := Subscription.recomputeOptimistic changesetReducer

/-- `AnnotationsStateSubscription._reconcile` is a copy of the changeset's. -/
def AnnotationsStateSubscription.reconcile (reducer : S → A → S) :
    Subscription S A → ActionEnvelope A → Bool → Subscription S A :=
  ChangesetStateSubscription.reconcile reducer

def annotationsStateSubscription (clientId annotationsUri : String)
    (isAnnotationsAction : A → Bool) (annotationsReducer : S → A → S) : SubscriptionClass S A where
  clientId := clientId
  reducer := annotationsReducer
  isRelevantEnvelope envelope :=
    isAnnotationsAction envelope.action && envelope.channel = annotationsUri
  reconcile := AnnotationsStateSubscription.reconcile annotationsReducer
  acknowledgeSnapshotAction := Subscription.dropPendingByClientSeq
  snapshotState := id
  beforeReplay := id
  afterReplay := Subscription.recomputeOptimistic annotationsReducer

end NexgileIde.AgentHost
