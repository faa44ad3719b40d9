import NexgileIde.AgentHost.AgentSubscription

/-!
# The changeset state and its reducer

What a file, an operation or an error carries beside the fields that the reducer
reads is kept as a value of an arbitrary type.
-/
namespace NexgileIde.AgentHost

variable {Edit Info Verb : Type}

inductive ChangesetStatus
  | computing
  | recomputing
  | ready
  | error
  deriving DecidableEq, Repr

inductive ChangesetOperationStatus
  | idle
  | running
  | error
  | disabled
  deriving DecidableEq, Repr

/-- `edit` stands for the file edit and the metadata. -/
structure ChangesetFile (Edit : Type) where
  id : String
  edit : Edit
  reviewed : Option Bool
  deriving DecidableEq, Repr

/-- `verb` stands for the label, the scopes and the other display fields. -/
structure ChangesetOperation (Info Verb : Type) where
  id : String
  verb : Verb
  status : ChangesetOperationStatus
  error : Option Info
  deriving DecidableEq, Repr

structure ChangesetState (Edit Info Verb : Type) where
  status : ChangesetStatus
  error : Option Info
  files : List (ChangesetFile Edit)
  operations : Option (List (ChangesetOperation Info Verb))
  deriving DecidableEq, Repr

inductive ChangesetAction (Edit Info Verb : Type)
  | statusChanged (status : ChangesetStatus) (error : Option Info)
  | fileSet (file : ChangesetFile Edit)
  | fileRemoved (fileId : String)
  | filesReviewChanged (files : List String) (reviewed : Bool)
  | contentChanged (files : List (ChangesetFile Edit))
      (operations : Option (List (ChangesetOperation Info Verb)))
  | operationsChanged (operations : Option (List (ChangesetOperation Info Verb)))
  | operationStatusChanged (operationId : String) (status : ChangesetOperationStatus)
      (error : Option Info)
  | cleared
  deriving DecidableEq, Repr

/-- The file is to get a review flag that it does not have. -/
def ChangesetFile.reviewChanges (ids : List String) (reviewed : Bool) (f : ChangesetFile Edit) :
    Bool :=
  ids.contains f.id && f.reviewed ≠ some reviewed

def changesetReducer (state : ChangesetState Edit Info Verb) :
    ChangesetAction Edit Info Verb → ChangesetState Edit Info Verb
  | .statusChanged status error =>
    -- an error is only carried while the status is `error`
    if status = .error then { state with status := status, error := error }
    else { state with status := status, error := none }
  | .fileSet file =>
    match state.files.findIdx? (·.id = file.id) with
    | none => { state with files := state.files ++ [file] }
    | some idx => { state with files := state.files.set idx file }
  | .fileRemoved fileId =>
    match state.files.findIdx? (·.id = fileId) with
    | none => state
    | some idx => { state with files := state.files.eraseIdx idx }
  | .filesReviewChanged ids reviewed =>
    if state.files.any (·.reviewChanges ids reviewed) then
      { state with
        files := state.files.map fun f =>
          if f.reviewChanges ids reviewed then { f with reviewed := some reviewed } else f }
    else state
  | .contentChanged files operations =>
    match operations with
    | none => { state with files := files }
    | some operations => { state with files := files, operations := some operations }
  | .operationsChanged operations => { state with operations := operations }
  | .operationStatusChanged operationId status error =>
    match state.operations with
    | none => state
    | some operations =>
      match operations.findIdx? (·.id = operationId), operations.find? (·.id = operationId) with
      | some idx, some current =>
        let nextOp := if status = .error then { current with status := status, error := error }
          else { current with status := status, error := none }
        { state with operations := some (operations.set idx nextOp) }
      | _, _ => state
  | .cleared => if state.files = [] then state else { state with files := [] }

end NexgileIde.AgentHost

/-!
## Rejected envelopes

What an envelope with a rejection reason does to a write-ahead subscription: the
confirmed state must stay, and at most the client's own action that the envelope
answers goes. The session and the chat subscription keep to this; the changeset
and the annotations subscription apply a rejected action unless it answers a
pending one.
-/
namespace NexgileIde.AgentHost

variable {S A : Type}

inductive SubscriptionOp (S A : Type)
  | applyOptimistic (clientSeq : ℕ) (action : A)
  | receiveEnvelope (envelope : ActionEnvelope A)
  | beginSnapshotRefresh
  | cancelSnapshotRefresh
  | handleSnapshot (state : S) (fromSeq : ℕ)
  | setError (error : String)
  | clearPending
  | dropPendingByClientSeq (clientSeq : ℕ)

/-- How an envelope comes to be processed. -/
inductive Arrival
  | received
  | cancelled
  | replayed (fromSeq : ℕ)

namespace SubscriptionClass

variable (cls : SubscriptionClass S A)

def perform (sub : Subscription S A) : SubscriptionOp S A → Subscription S A
  | .applyOptimistic clientSeq action => cls.applyOptimistic sub clientSeq action
  | .receiveEnvelope envelope => cls.receiveEnvelope sub envelope
  | .beginSnapshotRefresh => sub.beginSnapshotRefresh
  | .cancelSnapshotRefresh => cls.cancelSnapshotRefresh sub
  | .handleSnapshot state fromSeq => cls.handleSnapshot sub state fromSeq
  | .setError error => sub.setError error
  | .clearPending => sub.clearPending
  | .dropPendingByClientSeq clientSeq => sub.dropPendingByClientSeq clientSeq

def run (ops : List (SubscriptionOp S A)) : Subscription S A := ops.foldl cls.perform .initial

/-- One step from `sub` processes the envelope and thereby leads from `before` to
`after`: it is received, or it is taken out of the buffer. -/
inductive Processes (sub : Subscription S A) (envelope : ActionEnvelope A) :
    Arrival → Subscription S A → Subscription S A → Prop
  | received : Processes sub envelope .received sub (cls.receiveEnvelope sub envelope)
  | cancelled {earlier later : List (ActionEnvelope A)} {before : Subscription S A} :
      sub.awaitingSnapshotRefresh = true → sub.confirmedState ≠ none →
      sub.bufferedEnvelopes = some (earlier ++ envelope :: later) →
      before = earlier.foldl cls.replayAll
        { sub with awaitingSnapshotRefresh := false, bufferedEnvelopes := none } →
      Processes sub envelope .cancelled before (cls.replayAll before envelope)
  | replayed {earlier later : List (ActionEnvelope A)} {before : Subscription S A} (state : S)
      (fromSeq : ℕ) :
      (cls.installSnapshot sub state).bufferedEnvelopes = some (earlier ++ envelope :: later) →
      before = earlier.foldl (cls.replay fromSeq)
        { cls.installSnapshot sub state with bufferedEnvelopes := none } →
      Processes sub envelope (.replayed fromSeq) before (cls.replay fromSeq before envelope)

/-- The confirmed state stays, and at most the own action that the envelope answers
is no longer pending. -/
def Kept (envelope : ActionEnvelope A) (before after : Subscription S A) : Prop :=
  after.verifiedValue = before.verifiedValue ∧
    (after.pendingActions = before.pendingActions ∨
      ∃ origin, envelope.origin = some origin ∧ origin.clientId = cls.clientId ∧
        after.pendingActions =
          before.pendingActions.eraseP (·.clientSeq = origin.clientSeq))

/-- The envelope is ignored, buffered, or already covered by the snapshot. -/
def SetAside (envelope : ActionEnvelope A) (before : Subscription S A) : Arrival → Prop
  | .received => cls.isRelevantEnvelope envelope = false ∨ before.confirmedState = none ∨
      before.awaitingSnapshotRefresh = true
  | .cancelled => False
  | .replayed fromSeq => envelope.serverSeq ≤ fromSeq

/-- The envelope answers a pending action of the client itself. -/
def AnswersPending (envelope : ActionEnvelope A) (before : Subscription S A) : Prop :=
  ∃ origin, envelope.origin = some origin ∧ origin.clientId = cls.clientId ∧
    before.hasPending origin.clientSeq = true

end SubscriptionClass

/-- The write-ahead classes, whether each branch of `_reconcile` looks at the
rejection, and the reducer of the confirmed state. -/
inductive WriteAheadClass : Bool → (S → A → S) → SubscriptionClass S A → Prop
  | session (clientId uri : String) (isSessionAction : A → Bool) (sessionReducer : S → A → S) :
      WriteAheadClass true sessionReducer
        (sessionStateSubscription clientId uri isSessionAction sessionReducer)
  | chat (clientId uri : String) (chat : ChatProtocol S A) :
      WriteAheadClass true (ChatStateSubscription.applyReducer chat uri)
        (chatStateSubscription clientId uri chat)
  | changeset (clientId uri : String) (isChangesetAction : A → Bool)
      (changesetReducer : S → A → S) :
      WriteAheadClass false changesetReducer
        (changesetStateSubscription clientId uri isChangesetAction changesetReducer)
  | annotations (clientId uri : String) (isAnnotationsAction : A → Bool)
      (annotationsReducer : S → A → S) :
      WriteAheadClass false annotationsReducer
        (annotationsStateSubscription clientId uri isAnnotationsAction annotationsReducer)

/-- When a rejected envelope does no harm. -/
def RejectionHeeded (guards : Bool) (applyReducer : S → A → S) (cls : SubscriptionClass S A)
    (envelope : ActionEnvelope A) (before : Subscription S A) (arrival : Arrival) : Prop :=
  cls.SetAside envelope before arrival ∨
    envelope.isRejected = true ∧
      (guards = true ∨ cls.AnswersPending envelope before ∨
        ∀ s, before.confirmedState = some s → applyReducer s envelope.action = s)

/-! ## What reconciling a rejected envelope does -/

section Reconciling

variable {guards : Bool} {applyReducer : S → A → S} {cls : SubscriptionClass S A}
variable {envelope : ActionEnvelope A} {before : Subscription S A}

theorem ActionEnvelope.isOwn_iff {clientId : String} :
    envelope.isOwn clientId = true ↔
      ∃ origin, envelope.origin = some origin ∧ origin.clientId = clientId := by
  unfold ActionEnvelope.isOwn
  cases envelope.origin <;> simp

/-- A rejected envelope with its own action pending only drops that action. -/
theorem WriteAheadClass.reconcile_pending (h : WriteAheadClass guards applyReducer cls)
    (hrejected : envelope.isRejected = true) {origin : ActionOrigin}
    (horigin : envelope.origin = some origin) (hown : origin.clientId = cls.clientId)
    (hpending : before.hasPending origin.clientSeq = true) :
    let after := cls.replayAll before envelope
    after.confirmedState = before.confirmedState ∧
      after.pendingActions = before.pendingActions.eraseP (·.clientSeq = origin.clientSeq) := by
  have hisOwn : envelope.isOwn cls.clientId = true :=
    ActionEnvelope.isOwn_iff.mpr ⟨origin, horigin, hown⟩
  unfold SubscriptionClass.replayAll
  rw [hisOwn]
  cases h with
  | session =>
    unfold sessionStateSubscription SessionStateSubscription.reconcile
    simp [*]
  | chat =>
    unfold chatStateSubscription ChatStateSubscription.reconcile
    simp [*]
  | changeset =>
    unfold changesetStateSubscription ChangesetStateSubscription.reconcile
    simp [*]
  | annotations =>
    unfold annotationsStateSubscription AnnotationsStateSubscription.reconcile
      ChangesetStateSubscription.reconcile
    simp [*]

/-- An own envelope that answers nothing finds no pending action. -/
theorem SubscriptionClass.hasPending_eq_false (hpending : ¬ cls.AnswersPending envelope before)
    {origin : ActionOrigin} (horigin : envelope.origin = some origin)
    (hown : origin.clientId = cls.clientId) : before.hasPending origin.clientSeq = false :=
  Bool.eq_false_of_not_eq_true fun hhas => hpending ⟨origin, horigin, hown, hhas⟩

/-- The session and the chat subscription ignore every other rejected envelope. -/
theorem WriteAheadClass.reconcile_guarded (h : WriteAheadClass true applyReducer cls)
    (hrejected : envelope.isRejected = true) (hpending : ¬ cls.AnswersPending envelope before) :
    let after := cls.replayAll before envelope
    after.confirmedState = before.confirmedState ∧
      after.pendingActions = before.pendingActions := by
  unfold SubscriptionClass.replayAll
  by_cases hisOwn : envelope.isOwn cls.clientId = true
  · obtain ⟨origin, horigin, hown⟩ := ActionEnvelope.isOwn_iff.mp hisOwn
    have hnone := SubscriptionClass.hasPending_eq_false hpending horigin hown
    rw [hisOwn]
    cases h with
    | session =>
      unfold sessionStateSubscription SessionStateSubscription.reconcile
      simp [*]
    | chat =>
      unfold chatStateSubscription ChatStateSubscription.reconcile
      simp [*]
  · rw [Bool.eq_false_of_not_eq_true hisOwn]
    cases h with
    | session =>
      unfold sessionStateSubscription SessionStateSubscription.reconcile
      simp [*]
    | chat =>
      unfold chatStateSubscription ChatStateSubscription.reconcile
      simp [*]

theorem ChangesetStateSubscription.reconcile_unmatched
    (hpending : ∀ origin, envelope.origin = some origin → envelope.isOwn cls.clientId = true →
      before.hasPending origin.clientSeq = false) :
    let after := ChangesetStateSubscription.reconcile applyReducer before envelope
      (envelope.isOwn cls.clientId)
    after.confirmedState = before.confirmedState.map (applyReducer · envelope.action) ∧
      after.pendingActions = before.pendingActions := by
  unfold ChangesetStateSubscription.reconcile
  cases hisOwn : envelope.isOwn cls.clientId with
  | false => simp
  | true =>
    obtain ⟨origin, horigin, -⟩ := ActionEnvelope.isOwn_iff.mp hisOwn
    have hnone := hpending origin horigin hisOwn
    simp [*]

/-- The changeset and the annotations subscription apply it. -/
theorem WriteAheadClass.reconcile_unguarded (h : WriteAheadClass false applyReducer cls)
    (hpending : ¬ cls.AnswersPending envelope before) :
    let after := cls.replayAll before envelope
    after.confirmedState = before.confirmedState.map (applyReducer · envelope.action) ∧
      after.pendingActions = before.pendingActions := by
  have hnone : ∀ origin, envelope.origin = some origin → envelope.isOwn cls.clientId = true →
      before.hasPending origin.clientSeq = false := by
    intro origin horigin hisOwn
    obtain ⟨origin', horigin', hown⟩ := ActionEnvelope.isOwn_iff.mp hisOwn
    obtain rfl := Option.some.inj (horigin.symm.trans horigin')
    exact SubscriptionClass.hasPending_eq_false hpending horigin hown
  cases h with
  | changeset => exact ChangesetStateSubscription.reconcile_unmatched hnone
  | annotations => exact ChangesetStateSubscription.reconcile_unmatched hnone

/-- Reconciling a rejected envelope is harmless exactly if the class looks at the
rejection, the envelope answers a pending action, or the action changes nothing. -/
theorem WriteAheadClass.kept_reconcile_iff (h : WriteAheadClass guards applyReducer cls)
    (hrejected : envelope.isRejected = true) :
    cls.Kept envelope before (cls.replayAll before envelope) ↔
      guards = true ∨ cls.AnswersPending envelope before ∨
        ∀ s, before.confirmedState = some s → applyReducer s envelope.action = s := by
  by_cases hpending : cls.AnswersPending envelope before
  · obtain ⟨origin, horigin, hown, hhas⟩ := hpending
    obtain ⟨hconfirmed, hactions⟩ := h.reconcile_pending hrejected horigin hown hhas
    constructor
    · intro _
      exact .inr (.inl ⟨origin, horigin, hown, hhas⟩)
    · intro _
      exact ⟨hconfirmed, .inr ⟨origin, horigin, hown, hactions⟩⟩
  · cases guards with
    | true =>
      obtain ⟨hconfirmed, hactions⟩ := h.reconcile_guarded hrejected hpending
      exact iff_of_true ⟨hconfirmed, .inl hactions⟩ (.inl rfl)
    | false =>
      obtain ⟨hconfirmed, hactions⟩ := h.reconcile_unguarded hpending
      simp only [SubscriptionClass.Kept, Subscription.verifiedValue, hconfirmed, hactions,
        hpending, true_or, and_true, Bool.false_eq_true, false_or]
      cases before.confirmedState with
      | none => simp
      | some s => simp

/-- An envelope that the snapshot covers at most retires the own action. -/
theorem WriteAheadClass.kept_covered (h : WriteAheadClass guards applyReducer cls) {fromSeq : ℕ}
    (hseq : envelope.serverSeq ≤ fromSeq) :
    cls.Kept envelope before (cls.replay fromSeq before envelope) := by
  unfold SubscriptionClass.replay
  rw [if_neg (by omega)]
  cases horigin : envelope.origin with
  | none => exact ⟨rfl, .inl rfl⟩
  | some origin =>
    dsimp only
    split_ifs with hown
    · cases h with
      | changeset => exact ⟨rfl, .inl rfl⟩
      | _ => exact ⟨rfl, .inr ⟨origin, horigin, hown, rfl⟩⟩
    · exact ⟨rfl, .inl rfl⟩

end Reconciling

/-- A run that leads to `sub`, and one more step that processes an envelope with a
rejection reason. Where the rejection is heeded the confirmed state and the other
pending actions stay; with a reason that is not empty, only there. -/
theorem WriteAheadClass.rejection_kept_iff {guards : Bool} {applyReducer : S → A → S}
    {cls : SubscriptionClass S A} (h : WriteAheadClass guards applyReducer cls)
    (ops : List (SubscriptionOp S A)) {envelope : ActionEnvelope A} {reason : String}
    (hreason : envelope.rejectionReason = some reason) {arrival : Arrival}
    {before after : Subscription S A}
    (hprocesses : cls.Processes (cls.run ops) envelope arrival before after) :
    (RejectionHeeded guards applyReducer cls envelope before arrival →
        cls.Kept envelope before after) ∧
      (reason ≠ "" → cls.Kept envelope before after →
        RejectionHeeded guards applyReducer cls envelope before arrival) := by
  have hrejected : reason ≠ "" → envelope.isRejected = true := by
    intro hne
    simp [ActionEnvelope.isRejected, hreason, hne]
  have hreconciled : (RejectionHeeded guards applyReducer cls envelope before arrival →
      cls.SetAside envelope before arrival → cls.Kept envelope before after) →
      (¬ cls.SetAside envelope before arrival → after = cls.replayAll before envelope) →
      (RejectionHeeded guards applyReducer cls envelope before arrival →
        cls.Kept envelope before after) ∧
      (reason ≠ "" → cls.Kept envelope before after →
        RejectionHeeded guards applyReducer cls envelope before arrival) := by
    intro haside hafter
    by_cases hset : cls.SetAside envelope before arrival
    · exact ⟨fun hheeded => haside hheeded hset, fun _ _ => .inl hset⟩
    · obtain rfl := hafter hset
      constructor
      · rintro (hset' | ⟨hrej, hheeded⟩)
        · exact absurd hset' hset
        · exact (h.kept_reconcile_iff hrej).mpr hheeded
      · intro hne hkept
        exact .inr ⟨hrejected hne, (h.kept_reconcile_iff (hrejected hne)).mp hkept⟩
  apply hreconciled
  · intro _ hset
    cases hprocesses with
    | received =>
      unfold SubscriptionClass.receiveEnvelope
      rcases hset with hirrelevant | hnone | hawaiting
      · rw [if_neg (by rw [hirrelevant]; decide)]
        exact ⟨rfl, .inl rfl⟩
      · split_ifs with hrelevant hbuffers
        · exact ⟨rfl, .inl rfl⟩
        · simp [hnone] at hbuffers
        · exact ⟨rfl, .inl rfl⟩
      · split_ifs with hrelevant hbuffers
        · exact ⟨rfl, .inl rfl⟩
        · simp [hawaiting] at hbuffers
        · exact ⟨rfl, .inl rfl⟩
    | cancelled => exact hset.elim
    | replayed => exact h.kept_covered hset
  · intro hset
    cases hprocesses with
    | received =>
      simp only [SubscriptionClass.SetAside, not_or, Bool.not_eq_false, Bool.not_eq_true] at hset
      obtain ⟨hrelevant, hconfirmed, hawaiting⟩ := hset
      unfold SubscriptionClass.receiveEnvelope
      rw [if_pos hrelevant, if_neg (by simp [hconfirmed, hawaiting])]
      rfl
    | cancelled => rfl
    | replayed state fromSeq =>
      simp only [SubscriptionClass.SetAside, not_le] at hset
      unfold SubscriptionClass.replay
      rw [if_pos hset]
      rfl

/-- A review of file `a`, toggled by client `me`. -/
def reviewSubscription :
    SubscriptionClass (ChangesetState Unit Unit Unit) (ChangesetAction Unit Unit Unit) :=
  changesetStateSubscription "me" "changeset:/1" (fun _ => true) changesetReducer

def unreviewed : ChangesetState Unit Unit Unit := ⟨.ready, none, [⟨"a", (), none⟩], none⟩

/-- The server rejects the client's own toggle, which is rolled back. -/
theorem WriteAheadClass.rejection_kept_own :
    let sub := reviewSubscription.run
      [.handleSnapshot unreviewed 0, .applyOptimistic 1 (.filesReviewChanged ["a"] true)]
    let envelope : ActionEnvelope (ChangesetAction Unit Unit Unit) :=
      ⟨"changeset:/1", .filesReviewChanged ["a"] true, 1, some ⟨"me", 1⟩, some "denied"⟩
    reviewSubscription.Kept envelope sub (reviewSubscription.receiveEnvelope sub envelope) :=
  ((WriteAheadClass.changeset "me" "changeset:/1" (fun _ => true)
    changesetReducer).rejection_kept_iff
      [.handleSnapshot unreviewed 0, .applyOptimistic 1 (.filesReviewChanged ["a"] true)]
      (show _ = some "denied" from rfl) .received).1
    (.inr ⟨by decide, .inr (.inl ⟨⟨"me", 1⟩, rfl, rfl, by decide⟩)⟩)

/-- The server rejects another client's toggle, and the file counts as reviewed. -/
theorem changeset_rejection_leaks :
    ∃ (ops : List (SubscriptionOp (ChangesetState Unit Unit Unit) (ChangesetAction Unit Unit Unit)))
      (envelope : ActionEnvelope (ChangesetAction Unit Unit Unit)) (before after :
        Subscription (ChangesetState Unit Unit Unit) (ChangesetAction Unit Unit Unit)),
      envelope.rejectionReason = some "denied" ∧
        reviewSubscription.Processes (reviewSubscription.run ops) envelope .received before after ∧
        ¬ reviewSubscription.Kept envelope before after := by
  refine ⟨[.handleSnapshot unreviewed 0],
    ⟨"changeset:/1", .filesReviewChanged ["a"] true, 1, some ⟨"other", 1⟩, some "denied"⟩,
    _, _, rfl, .received, ?_⟩
  rintro ⟨hverified, -⟩
  exact absurd hverified (by decide)

end NexgileIde.AgentHost

/-!
## A server, a channel and a subscription

The server answers the client's actions, emits those of others, and answers
subscribe requests with the state up to some sequence number. Everything reaches
the client through one queue. A response may be overtaken by envelopes; then it
was requested while the subscription was already buffering.
-/
namespace NexgileIde.AgentHost

variable {S A : Type}

inductive Message (S A : Type)
  | envelope (envelope : ActionEnvelope A)
  /-- A subscribe response. It carries the request it answers, or none where the
  server reseats the client on its own. -/
  | snapshot (request : Option ℕ) (state : S) (fromSeq : ℕ)
  | failed (request : ℕ)
  deriving DecidableEq, Repr

def Message.toEnvelope? : Message S A → Option (ActionEnvelope A)
  | .envelope e => some e
  | _ => none

/-- The envelopes in a queue. -/
def envelopes (channel : List (Message S A)) : List (ActionEnvelope A) :=
  channel.filterMap Message.toEnvelope?

/-- A subscribe call that the client waits for, and what the server has computed for it. -/
structure SubscribeRequest (S : Type) where
  id : ℕ
  answer : Option (S × ℕ)
  deriving DecidableEq, Repr

structure System (S A : Type) where
  /-- The last sequence number the server has given out, on any channel. -/
  serverSeq : ℕ
  /-- What the server has emitted on this channel. -/
  log : List (ActionEnvelope A)
  /-- The client's actions on their way to the server. -/
  unanswered : List (PendingAction A)
  channel : List (Message S A)
  delivered : List (ActionEnvelope A)
  /-- The actions the client has applied optimistically, in this order. -/
  dispatched : List (PendingAction A)
  nextClientSeq : ℕ
  refresh : Option (SubscribeRequest S)
  nextRequest : ℕ
  client : Subscription S A
  deriving DecidableEq, Repr

inductive Event (A : Type)
  | applyOptimistic (action : A)
  /-- An action of this client that the subscription does not know of. -/
  | dispatchElsewhere (action : A)
  | accept (index : ℕ)
  | reject (index : ℕ) (reason : String)
  /-- An action of another client or of the server itself. -/
  | emit (origin : Option ActionOrigin) (action : A) (rejectionReason : Option String)
  /-- The server gives out a number on another channel. -/
  | skip
  | beginSnapshotRefresh
  | cancelSnapshotRefresh
  | subscribe
  | compute
  | respond
  | fail
  | reseat
  | deliver
  deriving DecidableEq, Repr

/-- A rejected action does not count. -/
def applyEntry (reducer : S → A → S) (state : S) (e : ActionEnvelope A) : S :=
  if e.isRejected then state else reducer state e.action

/-- The state after the accepted actions of a log. -/
def foldLog (reducer : S → A → S) (state : S) (log : List (ActionEnvelope A)) : S :=
  log.foldl (applyEntry reducer) state

/-- The envelope accepts or rejects the client's action. -/
def answers (clientId : String) (e : ActionEnvelope A) (p : PendingAction A) : Bool :=
  e.origin = some ⟨clientId, p.clientSeq⟩

def isAnsweredIn (clientId : String) (log : List (ActionEnvelope A)) (p : PendingAction A) : Bool :=
  log.any (answers clientId · p)

/-- The log up to a sequence number. -/
def upTo (log : List (ActionEnvelope A)) (fromSeq : ℕ) : List (ActionEnvelope A) :=
  log.filter (·.serverSeq ≤ fromSeq)

/-- What stays the same in a run: the class, the channel, and the state that the
server starts from. -/
structure Setting (S A : Type) where
  cls : SubscriptionClass S A
  uri : String
  start : S

namespace System

variable (setting : Setting S A)

def initial (serverSeq : ℕ) : System S A :=
  ⟨serverSeq, [], [], [], [], [], 1, none, 0, .initial⟩

def serverState (σ : System S A) : S := foldLog setting.cls.reducer setting.start σ.log

/-- The server gives out the next number for an envelope and sends it. The log has
the envelopes that the subscription is about. -/
def emit (σ : System S A) (origin : Option ActionOrigin) (action : A)
    (rejectionReason : Option String) : Option (System S A) :=
  let envelope : ActionEnvelope A :=
    ⟨setting.uri, action, σ.serverSeq + 1, origin, rejectionReason⟩
  if setting.cls.isRelevantEnvelope envelope then
    some { σ with
      serverSeq := σ.serverSeq + 1
      log := σ.log ++ [envelope]
      channel := σ.channel ++ [.envelope envelope] }
  else none

/-- The server answers one of the client's actions. -/
def answer (σ : System S A) (index : ℕ) (rejectionReason : Option String) :
    Option (System S A) :=
  match σ.unanswered[index]? with
  | none => none
  | some p =>
    { σ with unanswered := σ.unanswered.eraseIdx index }.emit setting
      (some ⟨setting.cls.clientId, p.clientSeq⟩) p.action rejectionReason

/-- Envelopes do not reach the confirmed state at the moment. -/
def isBuffering (σ : System S A) : Bool :=
  σ.client.confirmedState.isNone || σ.client.awaitingSnapshotRefresh

/-- The head of the queue reaches the client. The answer to a request that is no
longer waited for is dropped. -/
def deliver (σ : System S A) : Option (System S A) :=
  match σ.channel with
  | [] => none
  | .envelope e :: rest => some { σ with
      channel := rest
      delivered := σ.delivered ++ [e]
      client := setting.cls.receiveEnvelope σ.client e }
  | .snapshot request state fromSeq :: rest =>
    if request = none ∨ request = σ.refresh.map (·.id) then
      some { σ with
        channel := rest
        refresh := none
        client := setting.cls.handleSnapshot σ.client state fromSeq }
    else some { σ with channel := rest }
  | .failed request :: rest =>
    if σ.refresh.map (·.id) = some request then
      some { σ with
        channel := rest
        refresh := none
        client := setting.cls.cancelSnapshotRefresh σ.client }
    else some { σ with channel := rest }

/-- `none` where the event cannot happen. -/
def step (σ : System S A) : Event A → Option (System S A)
  | .applyOptimistic action => some { σ with
      unanswered := σ.unanswered ++ [⟨σ.nextClientSeq, action⟩]
      dispatched := σ.dispatched ++ [⟨σ.nextClientSeq, action⟩]
      nextClientSeq := σ.nextClientSeq + 1
      client := setting.cls.applyOptimistic σ.client σ.nextClientSeq action }
  | .dispatchElsewhere action => some { σ with
      unanswered := σ.unanswered ++ [⟨σ.nextClientSeq, action⟩]
      nextClientSeq := σ.nextClientSeq + 1 }
  | .accept index => σ.answer setting index none
  | .reject index reason => if reason = "" then none else σ.answer setting index (some reason)
  | .emit origin action rejectionReason =>
    if origin.map (·.clientId) = some setting.cls.clientId then none
    else σ.emit setting origin action rejectionReason
  | .skip => some { σ with serverSeq := σ.serverSeq + 1 }
  | .beginSnapshotRefresh => some { σ with client := σ.client.beginSnapshotRefresh }
  -- a refresh is given up when its snapshot never arrives
  | .cancelSnapshotRefresh => some { σ with
      refresh := none
      client := setting.cls.cancelSnapshotRefresh σ.client }
  | .subscribe =>
    if σ.isBuffering && σ.refresh.isNone then
      some { σ with refresh := some ⟨σ.nextRequest, none⟩, nextRequest := σ.nextRequest + 1 }
    else none
  | .compute => σ.refresh.map fun request =>
      { σ with refresh := some { request with answer := some (σ.serverState setting, σ.serverSeq) } }
  | .respond =>
    match σ.refresh with
    | some ⟨id, some (state, fromSeq)⟩ =>
      some { σ with channel := σ.channel ++ [.snapshot (some id) state fromSeq] }
    | _ => none
  | .fail => σ.refresh.map fun request => { σ with channel := σ.channel ++ [.failed request.id] }
  | .reseat => some { σ with
      channel := σ.channel ++ [.snapshot none (σ.serverState setting) σ.serverSeq] }
  | .deliver => σ.deliver setting

/-- Envelopes that wait in the subscription's buffer. -/
def buffered (σ : System S A) : List (ActionEnvelope A) := σ.client.bufferedEnvelopes.getD []

/-- Delivered envelopes that no longer wait in the buffer. -/
def processed (σ : System S A) : List (ActionEnvelope A) :=
  σ.delivered.take (σ.delivered.length - σ.buffered.length)

def lastDelivered (σ : System S A) : ℕ := (σ.delivered.getLast?.map (·.serverSeq)).getD 0

def run (σ : System S A) : List (Event A) → Option (System S A)
  | [] => some σ
  | event :: events => (σ.step setting event).bind (·.run events)

end System

end NexgileIde.AgentHost
