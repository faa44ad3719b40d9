import NexgileIde.AgentHost.SessionRun

/-!
# A changeset subscription, and the echo that a snapshot covers

A changeset subscription does what a session subscription does, but for one step:
an own envelope that waits in the buffer and that the snapshot covers is not
taken as the answer to its action. In a run without that step the two are the
same, and the changeset converges as well.
-/
namespace NexgileIde.AgentHost

variable {S A : Type}

section Changeset

variable (clientId uri : String) (isChangesetAction : A → Bool) (reducer : S → A → S) (start : S)

def changesetSetting : Setting S A :=
  ⟨changesetStateSubscription clientId uri isChangesetAction reducer, uri, start⟩

/-- The event does not reject an action. -/
def Event.isAccepting : Event A → Bool
  | .reject _ _ => false
  | .emit _ _ rejectionReason => rejectionReason = none
  | _ => true

/-- A snapshot is about to be installed, and the buffer holds an envelope that it
covers and that answers a pending action. -/
def System.meetsEcho (clientId : String) (σ : System S A) (event : Event A) : Bool :=
  match event, σ.channel with
  | .deliver, .snapshot request _ fromSeq :: _ =>
    (request = none ∨ request = σ.refresh.map (·.id)) ∧
      σ.buffered.any fun e => e.serverSeq ≤ fromSeq ∧
        σ.client.pendingActions.any (answers clientId e ·)
  | _, _ => false

/-- No step of the run meets an echo. -/
def System.avoidsEcho (setting : Setting S A) (σ : System S A) : List (Event A) → Bool
  | [] => true
  | event :: events =>
    !σ.meetsEcho setting.cls.clientId event &&
      match σ.step setting event with
      | none => true
      | some next => next.avoidsEcho setting events

/-! ## The same step -/

variable {clientId uri isChangesetAction reducer start}

theorem changeset_reconcile_eq (sub : Subscription S A) {e : ActionEnvelope A}
    (h : e.isRejected = false) (isOwnAction : Bool) :
    ChangesetStateSubscription.reconcile reducer sub e isOwnAction =
      SessionStateSubscription.reconcile reducer sub e isOwnAction := by
  unfold ChangesetStateSubscription.reconcile SessionStateSubscription.reconcile
  simp only [h]
  cases isOwnAction with
  | false => rfl
  | true =>
    cases horigin : e.origin with
    | none => rfl
    | some origin => cases hpending : sub.hasPending origin.clientSeq <;> rfl

theorem changeset_replayAll_eq (sub : Subscription S A) {e : ActionEnvelope A}
    (h : e.isRejected = false) :
    (changesetStateSubscription clientId uri isChangesetAction reducer).replayAll sub e =
      (sessionStateSubscription clientId uri isChangesetAction reducer).replayAll sub e :=
  changeset_reconcile_eq sub h (e.isOwn clientId)

theorem dropPendingByClientSeq_of_not_answers {sub : Subscription S A} {e : ActionEnvelope A}
    {origin : ActionOrigin} (horigin : e.origin = some origin) (hown : origin.clientId = clientId)
    (h : ∀ p ∈ sub.pendingActions, answers clientId e p = false) :
    sub.dropPendingByClientSeq origin.clientSeq = sub := by
  have hkept : sub.pendingActions.eraseP (·.clientSeq = origin.clientSeq) = sub.pendingActions := by
    apply List.eraseP_of_forall_not
    intro p hp hseq
    have hno := h p hp
    rw [answers, horigin] at hno
    apply of_decide_eq_false hno
    rw [← hown, of_decide_eq_true hseq]
  unfold Subscription.dropPendingByClientSeq
  rw [hkept]

theorem changeset_replay_eq {fromSeq : ℕ} {sub : Subscription S A} {e : ActionEnvelope A}
    (h : e.isRejected = false)
    (hecho : e.serverSeq ≤ fromSeq → ∀ p ∈ sub.pendingActions, answers clientId e p = false) :
    (changesetStateSubscription clientId uri isChangesetAction reducer).replay fromSeq sub e =
      (sessionStateSubscription clientId uri isChangesetAction reducer).replay fromSeq sub e := by
  unfold SubscriptionClass.replay
  by_cases hseq : e.serverSeq > fromSeq
  · rw [if_pos hseq, if_pos hseq]
    exact changeset_replayAll_eq sub h
  · rw [if_neg hseq, if_neg hseq]
    cases horigin : e.origin with
    | none => rfl
    | some origin =>
      show (if origin.clientId = clientId then sub else sub) =
        if origin.clientId = clientId then sub.dropPendingByClientSeq origin.clientSeq else sub
      by_cases hown : origin.clientId = clientId
      · rw [if_pos hown, if_pos hown,
          dropPendingByClientSeq_of_not_answers horigin hown (hecho (by omega))]
      · rw [if_neg hown, if_neg hown]

theorem retire_sublist (pending : List (PendingAction A)) (e : ActionEnvelope A) :
    (retire clientId pending e).Sublist pending := by
  unfold retire
  cases e.origin with
  | none => exact List.Sublist.refl _
  | some origin =>
    dsimp only
    split_ifs
    · exact List.eraseP_sublist
    · exact List.Sublist.refl _

/-- The replay behind a snapshot that meets no echo. -/
theorem changeset_foldl_replay_eq {fromSeq : ℕ} (es : List (ActionEnvelope A))
    {sub : Subscription S A} (h : ∀ e ∈ es, e.isRejected = false)
    (hecho : ∀ e ∈ es, e.serverSeq ≤ fromSeq →
      ∀ p ∈ sub.pendingActions, answers clientId e p = false) :
    es.foldl ((changesetStateSubscription clientId uri isChangesetAction reducer).replay fromSeq)
        sub =
      es.foldl ((sessionStateSubscription clientId uri isChangesetAction reducer).replay fromSeq)
        sub := by
  induction es generalizing sub with
  | nil => rfl
  | cons e es ih =>
    rw [List.foldl_cons, List.foldl_cons,
      changeset_replay_eq (h e List.mem_cons_self) (hecho e List.mem_cons_self)]
    apply ih
    · intro e' he'
      exact h e' (List.mem_cons_of_mem _ he')
    · intro e' he' hseq p hp
      have hprogress := session_replay clientId uri isChangesetAction reducer fromSeq sub e
      rw [hprogress.pending] at hp
      exact hecho e' (List.mem_cons_of_mem _ he') hseq p ((retire_sublist _ e).subset hp)

theorem changeset_foldl_replayAll_eq (es : List (ActionEnvelope A)) (sub : Subscription S A)
    (h : ∀ e ∈ es, e.isRejected = false) :
    es.foldl (changesetStateSubscription clientId uri isChangesetAction reducer).replayAll sub =
      es.foldl (sessionStateSubscription clientId uri isChangesetAction reducer).replayAll sub := by
  induction es generalizing sub with
  | nil => rfl
  | cons e es ih =>
    rw [List.foldl_cons, List.foldl_cons, changeset_replayAll_eq sub (h e List.mem_cons_self)]
    exact ih _ fun e' he' => h e' (List.mem_cons_of_mem _ he')

theorem changeset_handleSnapshot_eq {sub : Subscription S A} (state : S) {fromSeq : ℕ}
    (h : ∀ e ∈ sub.bufferedEnvelopes.getD [], e.isRejected = false)
    (hecho : ∀ e ∈ sub.bufferedEnvelopes.getD [], e.serverSeq ≤ fromSeq →
      ∀ p ∈ sub.pendingActions, answers clientId e p = false) :
    (changesetStateSubscription clientId uri isChangesetAction reducer).handleSnapshot sub state
        fromSeq =
      (sessionStateSubscription clientId uri isChangesetAction reducer).handleSnapshot sub state
        fromSeq := by
  unfold SubscriptionClass.handleSnapshot
  rw [SubscriptionClass.replayBuffered_eq, SubscriptionClass.replayBuffered_eq]
  exact congrArg (Subscription.recomputeOptimistic reducer) (changeset_foldl_replay_eq _ h hecho)

theorem changeset_cancelSnapshotRefresh_eq {sub : Subscription S A}
    (h : ∀ e ∈ sub.bufferedEnvelopes.getD [], e.isRejected = false) :
    (changesetStateSubscription clientId uri isChangesetAction reducer).cancelSnapshotRefresh sub =
      (sessionStateSubscription clientId uri isChangesetAction reducer).cancelSnapshotRefresh
        sub := by
  unfold SubscriptionClass.cancelSnapshotRefresh
  split_ifs
  · split
    · rename_i buffered confirmed hbuffered hconfirmed
      rw [hbuffered] at h
      exact changeset_foldl_replayAll_eq buffered _ h
    · rfl
  · rfl

theorem changeset_receiveEnvelope_eq (sub : Subscription S A) {e : ActionEnvelope A}
    (h : e.isRejected = false) :
    (changesetStateSubscription clientId uri isChangesetAction reducer).receiveEnvelope sub e =
      (sessionStateSubscription clientId uri isChangesetAction reducer).receiveEnvelope sub e := by
  unfold SubscriptionClass.receiveEnvelope
  exact if_congr Iff.rfl (if_congr Iff.rfl rfl (changeset_replayAll_eq sub h)) rfl

/-! ## The same run -/

/-- A step only adds an accepted envelope to the log. -/
theorem System.log_of_step {setting : Setting S A} {σ σ' : System S A} {event : Event A}
    (haccepting : event.isAccepting = true) (hstep : σ.step setting event = some σ') :
    ∀ e ∈ σ'.log, e ∈ σ.log ∨ e.isRejected = false := by
  have hsame : σ'.log = σ.log → ∀ e ∈ σ'.log, e ∈ σ.log ∨ e.isRejected = false :=
    fun hlog _ he => .inl (hlog ▸ he)
  have hemit : ∀ {τ : System S A} {origin action},
      τ.emit setting origin action none = some σ' → τ.log = σ.log →
      ∀ e ∈ σ'.log, e ∈ σ.log ∨ e.isRejected = false := by
    intro τ origin action hemit hlog e he
    unfold System.emit at hemit
    dsimp only at hemit
    split at hemit
    · obtain rfl := Option.some.inj hemit
      rcases List.mem_append.mp he with hin | hin
      · exact .inl (hlog ▸ hin)
      · rw [List.mem_singleton.mp hin]
        exact .inr rfl
    · cases hemit
  cases event with
  | applyOptimistic => exact hsame (by rw [← Option.some.inj hstep])
  | dispatchElsewhere => exact hsame (by rw [← Option.some.inj hstep])
  | skip => exact hsame (by rw [← Option.some.inj hstep])
  | beginSnapshotRefresh => exact hsame (by rw [← Option.some.inj hstep])
  | cancelSnapshotRefresh => exact hsame (by rw [← Option.some.inj hstep])
  | reseat => exact hsame (by rw [← Option.some.inj hstep])
  | reject => cases haccepting
  | accept index =>
    simp only [System.step, System.answer] at hstep
    split at hstep
    · cases hstep
    · exact hemit hstep rfl
  | emit origin action rejectionReason =>
    obtain rfl : rejectionReason = none := of_decide_eq_true haccepting
    simp only [System.step] at hstep
    split at hstep
    · cases hstep
    · exact hemit hstep rfl
  | subscribe =>
    simp only [System.step] at hstep
    split at hstep
    · exact hsame (by rw [← Option.some.inj hstep])
    · cases hstep
  | compute =>
    obtain ⟨request, -, rfl⟩ := Option.map_eq_some_iff.mp hstep
    exact hsame rfl
  | fail =>
    obtain ⟨request, -, rfl⟩ := Option.map_eq_some_iff.mp hstep
    exact hsame rfl
  | respond =>
    simp only [System.step] at hstep
    split at hstep
    · exact hsame (by rw [← Option.some.inj hstep])
    · cases hstep
  | deliver =>
    simp only [System.step, System.deliver] at hstep
    split at hstep
    · cases hstep
    · exact hsame (by rw [← Option.some.inj hstep])
    · split at hstep <;> exact hsame (by rw [← Option.some.inj hstep])
    · split at hstep <;> exact hsame (by rw [← Option.some.inj hstep])

/-- Where no rejection is around and no echo is met a step is that of a session. -/
theorem System.changeset_step_eq {σ : System S A} {event : Event A}
    (hchannel : ∀ e ∈ envelopes σ.channel, e.isRejected = false)
    (hbuffered : ∀ e ∈ σ.buffered, e.isRejected = false)
    (hecho : σ.meetsEcho clientId event = false) :
    σ.step (changesetSetting clientId uri isChangesetAction reducer start) event =
      σ.step (sessionSetting clientId uri isChangesetAction reducer start) event := by
  have hcancel :
      (changesetStateSubscription clientId uri isChangesetAction reducer).cancelSnapshotRefresh
          σ.client =
        (sessionStateSubscription clientId uri isChangesetAction reducer).cancelSnapshotRefresh
          σ.client :=
    changeset_cancelSnapshotRefresh_eq hbuffered
  cases event with
  | deliver =>
    show σ.deliver _ = σ.deliver _
    unfold System.deliver
    cases hhead : σ.channel with
    | nil => rfl
    | cons m rest =>
      rw [hhead] at hchannel
      cases m with
      | envelope e =>
        have hrejected := hchannel e (by simp [envelopes, Message.toEnvelope?])
        simp only [changesetSetting, sessionSetting, changeset_receiveEnvelope_eq _ hrejected]
      | snapshot request state fromSeq =>
        dsimp only
        split_ifs with hrequest
        · have hcovered : ∀ e ∈ σ.client.bufferedEnvelopes.getD [], e.serverSeq ≤ fromSeq →
              ∀ p ∈ σ.client.pendingActions, answers clientId e p = false := by
            intro e he hseq p hp
            simp only [System.meetsEcho, hhead, decide_eq_false_iff_not, not_and,
              Bool.not_eq_true] at hecho
            have hnone := List.any_eq_false.mp (hecho hrequest) e he
            simp only [decide_eq_true_eq, not_and, Bool.not_eq_true] at hnone
            simpa using List.any_eq_false.mp (hnone hseq) p hp
          simp only [changesetSetting, sessionSetting,
            changeset_handleSnapshot_eq state hbuffered hcovered]
        · rfl
      | failed request =>
        simp only [changesetSetting, sessionSetting, hcancel]
  | cancelSnapshotRefresh =>
    simp only [System.step, changesetSetting, sessionSetting, hcancel]
  | _ => rfl

/-- A run that meets no echo keeps the invariant of a session's run. -/
theorem Converging.changeset_run {σ σ' : System S A} {applied : List (ActionEnvelope A)}
    {events : List (Event A)}
    (h : Converging clientId uri isChangesetAction reducer start σ applied)
    (haccepted : ∀ e ∈ σ.log, e.isRejected = false)
    (haccepting : ∀ event ∈ events, event.isAccepting = true)
    (havoids : σ.avoidsEcho (changesetSetting clientId uri isChangesetAction reducer start)
      events = true)
    (hrun : σ.run (changesetSetting clientId uri isChangesetAction reducer start) events =
      some σ') :
    ∃ applied', Converging clientId uri isChangesetAction reducer start σ' applied' := by
  induction events generalizing σ applied with
  | nil =>
    obtain rfl := Option.some.inj hrun
    exact ⟨applied, h⟩
  | cons event events ih =>
    obtain ⟨middle, hstep, hrest⟩ := Option.bind_eq_some_iff.mp hrun
    simp only [System.avoidsEcho, hstep, Bool.and_eq_true, Bool.not_eq_true'] at havoids
    have hlog := h.server.log
    have hsame : σ.step (changesetSetting clientId uri isChangesetAction reducer start) event =
        σ.step (sessionSetting clientId uri isChangesetAction reducer start) event := by
      apply System.changeset_step_eq _ _ havoids.1
      · intro e he
        exact haccepted e (hlog ▸ List.mem_append_right _ he)
      · intro e he
        apply haccepted e
        rw [hlog, h.client.delivered]
        exact List.mem_append_left _ (List.mem_append_right _ he)
    obtain ⟨applied', hmiddle⟩ := h.step (hsame ▸ hstep)
    refine ih hmiddle ?_ (fun e he => haccepting e (List.mem_cons_of_mem _ he)) havoids.2 hrest
    intro e he
    have hnew := System.log_of_step (haccepting event List.mem_cons_self) hstep e he
    exact hnew.elim (haccepted e) id

/-- In a run of a changeset subscription in which no action is rejected and no step
meets an echo: after the envelopes of all own actions were delivered, and where no
refresh is awaited, nothing is pending and the value is the verified state, which is
that of the server. -/
theorem changeset_converges {serverSeq : ℕ} {events : List (Event A)} {σ : System S A} {s : S}
    (haccepting : ∀ event ∈ events, event.isAccepting = true)
    (havoids : (System.initial serverSeq).avoidsEcho
      (changesetSetting clientId uri isChangesetAction reducer start) events = true)
    (hrun : (System.initial serverSeq).run
      (changesetSetting clientId uri isChangesetAction reducer start) events = some σ)
    (hdelivered : ∀ p ∈ σ.dispatched, isAnsweredIn clientId σ.delivered p = true)
    (hawaiting : σ.client.awaitingSnapshotRefresh = false)
    (hverified : σ.client.verifiedValue = some s) :
    σ.client.pendingActions = [] ∧ σ.client.value = some (.ok s) ∧
      s = foldLog reducer start (upTo σ.log σ.lastDelivered) ∧
      (σ.channel = [] → s = σ.serverState
        (changesetSetting clientId uri isChangesetAction reducer start)) := by
  obtain ⟨applied, h⟩ :=
    (converging_initial clientId uri isChangesetAction reducer start serverSeq).changeset_run
      (by simp [System.initial]) haccepting havoids hrun
  have happlied := h.settled (by simp [hverified]) hawaiting
  have hpending : σ.client.pendingActions = [] := by
    rw [h.client.pending, happlied]
    apply List.filter_eq_nil_iff.mpr
    intro p hp
    simp [hdelivered p hp]
  have hstate := h.client.verified s hverified
  refine ⟨hpending, ?_, ?_, ?_⟩
  · rw [h.client.optimistic.value h.client.error hverified, hpending]
    rfl
  · rw [upTo_lastDelivered h.server, ← happlied]
    exact hstate
  · intro hchannel
    have hlog := h.server.log
    rw [hchannel, ← happlied] at hlog
    rw [System.serverState, hlog, hstate]
    simp [envelopes, changesetSetting, changesetStateSubscription]

end Changeset

/-- The channel of a changeset with one file, which nobody has reviewed. -/
def reviewSetting : Setting (ChangesetState Unit Unit Unit) (ChangesetAction Unit Unit Unit) :=
  changesetSetting "me" "changeset:/1" (fun _ => true) changesetReducer unreviewed

/-- The client reviews the file during a refresh. The snapshot is computed before the
server accepts the review. -/
def reviewBehindSnapshot : List (Event (ChangesetAction Unit Unit Unit)) :=
  [.subscribe, .compute, .respond, .deliver, .applyOptimistic (.filesReviewChanged ["a"] true),
    .beginSnapshotRefresh, .subscribe, .compute, .accept 0, .respond, .deliver, .deliver]

theorem changeset_converges_review : ∃ σ, (System.initial 0).run reviewSetting
      reviewBehindSnapshot = some σ ∧ σ.client.pendingActions = [] := by
  obtain ⟨σ, hrun⟩ := Option.isSome_iff_exists.mp
    (show ((System.initial 0).run reviewSetting reviewBehindSnapshot).isSome = true by decide)
  have hend : ((System.initial 0).run reviewSetting reviewBehindSnapshot).map
      (fun σ => (σ.dispatched.all (isAnsweredIn "me" σ.delivered),
        σ.client.awaitingSnapshotRefresh, σ.client.verifiedValue)) =
      some (true, false, some ⟨.ready, none, [⟨"a", (), some true⟩], none⟩) := by decide
  rw [hrun, Option.map_some, Option.some_inj, Prod.mk.injEq, Prod.mk.injEq] at hend
  obtain ⟨hdelivered, hawaiting, hverified⟩ := hend
  exact ⟨σ, hrun, (changeset_converges (by decide) (by decide) hrun
    (List.all_eq_true.mp hdelivered) hawaiting hverified).1⟩

/-- The same review, and a snapshot that is computed after it was accepted. Then
another client takes the review back. -/
def reviewUnderSnapshot : List (Event (ChangesetAction Unit Unit Unit)) :=
  [.subscribe, .compute, .respond, .deliver, .applyOptimistic (.filesReviewChanged ["a"] true),
    .beginSnapshotRefresh, .subscribe, .accept 0, .compute, .respond, .deliver, .deliver,
    .emit (some ⟨"other", 1⟩) (.filesReviewChanged ["a"] false) none, .deliver]

/-- The review stays pending for good and covers what the server has. -/
theorem changeset_echo_lost : ∃ σ, (∀ event ∈ reviewUnderSnapshot, event.isAccepting = true) ∧
    (System.initial 0).run reviewSetting reviewUnderSnapshot = some σ ∧
    (∀ p ∈ σ.dispatched, isAnsweredIn "me" σ.delivered p = true) ∧
    σ.client.awaitingSnapshotRefresh = false ∧ σ.channel = [] ∧
    σ.client.pendingActions ≠ [] ∧ σ.client.value ≠ σ.client.verifiedValue.map .ok := by
  obtain ⟨σ, hrun⟩ := Option.isSome_iff_exists.mp
    (show ((System.initial 0).run reviewSetting reviewUnderSnapshot).isSome = true by decide)
  have hend : ((System.initial 0).run reviewSetting reviewUnderSnapshot).map
      (fun σ => (σ.dispatched.all (isAnsweredIn "me" σ.delivered), σ.channel, σ.client)) =
      some (true, [], {
        confirmedState := some ⟨.ready, none, [⟨"a", (), some false⟩], none⟩
        error := none
        bufferedEnvelopes := none
        awaitingSnapshotRefresh := false
        pendingActions := [⟨1, .filesReviewChanged ["a"] true⟩]
        optimisticState := some ⟨.ready, none, [⟨"a", (), some true⟩], none⟩ }) := by rfl
  rw [hrun, Option.map_some, Option.some_inj, Prod.mk.injEq, Prod.mk.injEq] at hend
  obtain ⟨hdelivered, hchannel, hclient⟩ := hend
  refine ⟨σ, by decide, hrun, List.all_eq_true.mp hdelivered, ?_, hchannel, ?_, ?_⟩
  · rw [hclient]
  · rw [hclient]
    decide
  · rw [hclient]
    simp [Subscription.value, Subscription.verifiedValue]

end NexgileIde.AgentHost
