import NexgileIde.AgentHost.Changeset

/-!
# What a session subscription does with the envelopes of a log

The confirmed state is that of the envelopes that have gone into it, and the
pending actions are those that none of these envelopes answers. Each method of
the subscription keeps this.
-/
namespace NexgileIde.AgentHost

variable {S A : Type}

/-! ## Retiring pending actions -/

section Retiring

variable {clientId : String}

/-- The own action that an envelope answers is no longer pending. -/
def retire (clientId : String) (pending : List (PendingAction A)) (e : ActionEnvelope A) :
    List (PendingAction A) :=
  match e.origin with
  | none => pending
  | some origin =>
    if origin.clientId = clientId then pending.eraseP (·.clientSeq = origin.clientSeq)
    else pending

theorem eraseP_eq_filter {pending : List (PendingAction A)}
    (h : pending.Pairwise fun p q => p.clientSeq ≠ q.clientSeq) (clientSeq : ℕ) :
    pending.eraseP (·.clientSeq = clientSeq) = pending.filter (·.clientSeq ≠ clientSeq) := by
  induction pending with
  | nil => rfl
  | cons p pending ih =>
    obtain ⟨hp, hrest⟩ := List.pairwise_cons.mp h
    by_cases heq : p.clientSeq = clientSeq
    · have hall : pending.filter (·.clientSeq ≠ clientSeq) = pending := by
        apply List.filter_eq_self.mpr
        intro q hq
        have hne := hp q hq
        rw [heq] at hne
        simpa using hne.symm
      rw [List.eraseP_cons_of_pos (by simpa using heq), List.filter_cons_of_neg (by simpa using heq),
        hall]
    · rw [List.eraseP_cons_of_neg (by simpa using heq), List.filter_cons_of_pos (by simpa using heq),
        ih hrest]

theorem isAnsweredIn_concat (log : List (ActionEnvelope A)) (e : ActionEnvelope A)
    (p : PendingAction A) :
    isAnsweredIn clientId (log ++ [e]) p = (isAnsweredIn clientId log p || answers clientId e p) := by
  simp [isAnsweredIn]

/-- One more envelope retires the action that it answers. -/
theorem retire_filter {dispatched : List (PendingAction A)}
    (h : dispatched.Pairwise fun p q => p.clientSeq ≠ q.clientSeq)
    (log : List (ActionEnvelope A)) (e : ActionEnvelope A) :
    retire clientId (dispatched.filter (!isAnsweredIn clientId log ·)) e =
      dispatched.filter (!isAnsweredIn clientId (log ++ [e]) ·) := by
  simp only [isAnsweredIn_concat, Bool.not_or]
  rw [← List.filter_filter]
  unfold retire
  cases horigin : e.origin with
  | none => simp [answers, horigin]
  | some origin =>
    obtain ⟨originClient, clientSeq⟩ := origin
    by_cases hown : originClient = clientId
    · subst hown
      simp only [if_true, answers, horigin]
      rw [eraseP_eq_filter (h.filter _), List.filter_filter, List.filter_filter]
      congr 1
      funext p
      simp [Bool.and_comm, eq_comm]
    · simp [answers, horigin, hown]

theorem foldl_retire {dispatched : List (PendingAction A)}
    (h : dispatched.Pairwise fun p q => p.clientSeq ≠ q.clientSeq)
    (log more : List (ActionEnvelope A)) :
    more.foldl (retire clientId) (dispatched.filter (!isAnsweredIn clientId log ·)) =
      dispatched.filter (!isAnsweredIn clientId (log ++ more) ·) := by
  induction more generalizing log with
  | nil => rw [List.append_nil, List.foldl_nil]
  | cons e more ih => rw [List.foldl_cons, retire_filter h, ih, List.append_assoc]; rfl

end Retiring

/-! ## What the subscription does -/

/-- The optimistic state is the pending actions on top of the confirmed state. -/
def OptimisticExact (reducer : S → A → S) (sub : Subscription S A) : Prop :=
  match sub.confirmedState with
  | none => sub.optimisticState = none
  | some confirmed => sub.optimisticState.getD confirmed =
      sub.pendingActions.foldl (fun s p => reducer s p.action) confirmed

theorem optimisticExact_recompute (reducer : S → A → S) (sub : Subscription S A) :
    OptimisticExact reducer (sub.recomputeOptimistic reducer) := by
  unfold OptimisticExact
  simp only [Subscription.recomputeOptimistic_confirmedState,
    Subscription.recomputeOptimistic_pendingActions]
  cases hconfirmed : sub.confirmedState with
  | none => simp [Subscription.recomputeOptimistic, hconfirmed]
  | some confirmed =>
    by_cases hpending : sub.pendingActions = []
    · simp [Subscription.recomputeOptimistic, hconfirmed, hpending]
    · simp [Subscription.recomputeOptimistic, hconfirmed, hpending]

theorem OptimisticExact.value {reducer : S → A → S} {sub : Subscription S A}
    (h : OptimisticExact reducer sub) (herror : sub.error = none) {confirmed : S}
    (hconfirmed : sub.confirmedState = some confirmed) :
    sub.value =
      some (.ok (sub.pendingActions.foldl (fun s p => reducer s p.action) confirmed)) := by
  simp only [OptimisticExact, hconfirmed] at h
  rw [Subscription.value, herror, ← h, hconfirmed]
  cases sub.optimisticState <;> rfl

/-- `applied` went into the confirmed state, and `seen` were taken as answers. -/
structure Progress (reducer : S → A → S) (clientId : String)
    (applied seen : List (ActionEnvelope A)) (before after : Subscription S A) : Prop where
  confirmed : after.confirmedState = before.confirmedState.map (foldLog reducer · applied)
  pending : after.pendingActions = seen.foldl (retire clientId) before.pendingActions
  awaiting : after.awaitingSnapshotRefresh = before.awaitingSnapshotRefresh
  buffered : after.bufferedEnvelopes = before.bufferedEnvelopes
  error : after.error = before.error

theorem Progress.refl (reducer : S → A → S) (clientId : String) (sub : Subscription S A) :
    Progress reducer clientId [] [] sub sub :=
  ⟨by cases h : sub.confirmedState <;> rfl, rfl, rfl, rfl, rfl⟩

theorem Progress.trans {reducer : S → A → S} {clientId : String}
    {applied seen applied' seen' : List (ActionEnvelope A)} {before middle after : Subscription S A}
    (h : Progress reducer clientId applied seen before middle)
    (h' : Progress reducer clientId applied' seen' middle after) :
    Progress reducer clientId (applied ++ applied') (seen ++ seen') before after := by
  refine ⟨?_, ?_, h'.awaiting.trans h.awaiting, h'.buffered.trans h.buffered,
    h'.error.trans h.error⟩
  · rw [h'.confirmed, h.confirmed, Option.map_map]
    congr 1
    funext s
    simp [foldLog]
  · rw [h'.pending, h.pending, List.foldl_append]

section Session

variable (clientId uri : String) (isSessionAction : A → Bool) (reducer : S → A → S)

theorem eraseP_of_hasPending_eq_false {sub : Subscription S A} {clientSeq : ℕ}
    (h : sub.hasPending clientSeq = false) :
    sub.pendingActions.eraseP (·.clientSeq = clientSeq) = sub.pendingActions := by
  apply List.eraseP_of_forall_not
  intro p hp
  exact List.any_eq_false.mp h p hp

theorem progress_applied (sub : Subscription S A) (e : ActionEnvelope A) :
    Progress reducer clientId [e] [] sub
      (if e.isRejected then sub else sub.confirmedApply reducer e.action) := by
  cases hrejected : e.isRejected
  · refine ⟨?_, rfl, rfl, rfl, rfl⟩
    simp [foldLog, applyEntry, hrejected]
  · refine ⟨?_, rfl, rfl, rfl, rfl⟩
    cases hconfirmed : sub.confirmedState <;> simp [foldLog, applyEntry, hrejected, hconfirmed]

/-- Reconciling an envelope applies it if it is accepted, and retires what it answers. -/
theorem session_replayAll (sub : Subscription S A) (e : ActionEnvelope A) :
    let after := (sessionStateSubscription clientId uri isSessionAction reducer).replayAll sub e
    Progress reducer clientId [e] [e] sub after ∧ OptimisticExact reducer after := by
  refine ⟨?_, optimisticExact_recompute reducer _⟩
  obtain ⟨hconfirmed, hpending, hawaiting, hbuffered, herror⟩ :=
    progress_applied clientId reducer sub e
  unfold SubscriptionClass.replayAll
  simp only [sessionStateSubscription, SessionStateSubscription.reconcile]
  cases horigin : e.origin with
  | none =>
    have hown : e.isOwn clientId = false := by simp [ActionEnvelope.isOwn, horigin]
    have hretire : retire clientId sub.pendingActions e = sub.pendingActions := by
      simp [retire, horigin]
    simp only [hown]
    exact ⟨hconfirmed, hpending.trans hretire.symm, hawaiting, hbuffered, herror⟩
  | some origin =>
    by_cases howner : origin.clientId = clientId
    · have hown : e.isOwn clientId = true := by simp [ActionEnvelope.isOwn, horigin, howner]
      have hretire : retire clientId sub.pendingActions e =
          sub.pendingActions.eraseP (·.clientSeq = origin.clientSeq) := by
        simp [retire, horigin, howner]
      simp only [hown]
      cases hhas : sub.hasPending origin.clientSeq with
      | true =>
        refine ⟨hconfirmed, ?_, hawaiting, hbuffered, herror⟩
        simp only [List.foldl_cons, List.foldl_nil, hretire]
        simpa using congrArg (List.eraseP (·.clientSeq = origin.clientSeq)) hpending
      | false =>
        refine ⟨hconfirmed, ?_, hawaiting, hbuffered, herror⟩
        simp only [List.foldl_cons, List.foldl_nil, hretire, eraseP_of_hasPending_eq_false hhas]
        simpa using hpending
    · have hown : e.isOwn clientId = false := by simp [ActionEnvelope.isOwn, horigin, howner]
      have hretire : retire clientId sub.pendingActions e = sub.pendingActions := by
        simp [retire, horigin, howner]
      simp only [hown]
      exact ⟨hconfirmed, hpending.trans hretire.symm, hawaiting, hbuffered, herror⟩

theorem session_replay (fromSeq : ℕ) (sub : Subscription S A) (e : ActionEnvelope A) :
    Progress reducer clientId ([e].filter (fromSeq < ·.serverSeq)) [e] sub
      ((sessionStateSubscription clientId uri isSessionAction reducer).replay fromSeq sub e) := by
  unfold SubscriptionClass.replay
  by_cases hseq : e.serverSeq > fromSeq
  · rw [if_pos hseq, List.filter_cons_of_pos (by simpa using hseq)]
    exact (session_replayAll clientId uri isSessionAction reducer sub e).1
  · rw [if_neg hseq, List.filter_cons_of_neg (by simpa using hseq)]
    have hrefl := Progress.refl reducer clientId sub
    cases horigin : e.origin with
    | none => exact ⟨hrefl.confirmed, by simp [retire, horigin], rfl, rfl, rfl⟩
    | some origin =>
      show Progress reducer clientId _ [e] sub
        (if origin.clientId = clientId then sub.dropPendingByClientSeq origin.clientSeq else sub)
      by_cases howner : origin.clientId = clientId
      · rw [if_pos howner]
        exact ⟨hrefl.confirmed, by simp [retire, horigin, howner], rfl, rfl, rfl⟩
      · rw [if_neg howner]
        exact ⟨hrefl.confirmed, by simp [retire, horigin, howner], rfl, rfl, rfl⟩

/-- The replay behind a snapshot. -/
theorem session_foldl_replay (fromSeq : ℕ) (es : List (ActionEnvelope A)) (sub : Subscription S A) :
    Progress reducer clientId (es.filter (fromSeq < ·.serverSeq)) es sub
      (es.foldl ((sessionStateSubscription clientId uri isSessionAction reducer).replay fromSeq)
        sub) := by
  induction es generalizing sub with
  | nil => exact Progress.refl reducer clientId sub
  | cons e es ih =>
    have htrans :=
      (session_replay clientId uri isSessionAction reducer fromSeq sub e).trans (ih _)
    rwa [← List.filter_append, List.singleton_append] at htrans

/-- The replay after a refresh was given up. -/
theorem session_foldl_replayAll (es : List (ActionEnvelope A)) (sub : Subscription S A)
    (hexact : OptimisticExact reducer sub) :
    let after :=
      es.foldl (sessionStateSubscription clientId uri isSessionAction reducer).replayAll sub
    Progress reducer clientId es es sub after ∧ OptimisticExact reducer after := by
  induction es generalizing sub with
  | nil => exact ⟨Progress.refl reducer clientId sub, hexact⟩
  | cons e es ih =>
    obtain ⟨hfirst, hexact'⟩ := session_replayAll clientId uri isSessionAction reducer sub e
    obtain ⟨hrest, hexact''⟩ := ih _ hexact'
    exact ⟨hfirst.trans hrest, hexact''⟩

/-- How the subscription stands to the envelopes that were delivered to it. -/
structure ClientOk (start : S) (sub : Subscription S A) (dispatched : List (PendingAction A))
    (delivered applied : List (ActionEnvelope A)) : Prop where
  delivered : delivered = applied ++ sub.bufferedEnvelopes.getD []
  unbuffered : sub.confirmedState ≠ none → sub.awaitingSnapshotRefresh = false →
    sub.bufferedEnvelopes = none
  fresh : sub.confirmedState = none → applied = []
  error : sub.error = none
  verified : ∀ s, sub.confirmedState = some s → s = foldLog reducer start applied
  optimistic : OptimisticExact reducer sub
  pending : sub.pendingActions = dispatched.filter (!isAnsweredIn clientId applied ·)
  distinct : dispatched.Pairwise fun p q => p.clientSeq ≠ q.clientSeq

variable {clientId reducer} {start : S} {sub : Subscription S A}
variable {dispatched : List (PendingAction A)} {delivered applied : List (ActionEnvelope A)}

theorem ClientOk.beginSnapshotRefresh
    (h : ClientOk clientId reducer start sub dispatched delivered applied) :
    ClientOk clientId reducer start sub.beginSnapshotRefresh dispatched delivered applied :=
  ⟨h.delivered, fun _ hawaiting => absurd hawaiting (by simp [Subscription.beginSnapshotRefresh]),
    h.fresh, h.error, h.verified, h.optimistic, h.pending, h.distinct⟩

theorem ClientOk.applyOptimistic
    (h : ClientOk clientId reducer start sub dispatched delivered applied) {p : PendingAction A}
    (hnew : ∀ q ∈ dispatched, q.clientSeq ≠ p.clientSeq)
    (hunanswered : isAnsweredIn clientId applied p = false) :
    ClientOk clientId reducer start (sub.applyOptimistic reducer p.clientSeq p.action)
      (dispatched ++ [p]) delivered applied := by
  refine ⟨h.delivered, h.unbuffered, h.fresh, h.error, h.verified, ?_, ?_, ?_⟩
  · have hexact := h.optimistic
    unfold OptimisticExact at hexact ⊢
    simp only [Subscription.applyOptimistic, Subscription.verifiedValue]
    cases hconfirmed : sub.confirmedState with
    | none =>
      rw [hconfirmed] at hexact
      simp [hexact]
    | some confirmed =>
      rw [hconfirmed] at hexact
      dsimp only at hexact
      cases hoptimistic : sub.optimisticState with
      | none =>
        rw [hoptimistic, Option.getD_none] at hexact
        simp [← hexact]
      | some optimistic =>
        rw [hoptimistic, Option.getD_some] at hexact
        simp [← hexact]
  · simp only [Subscription.applyOptimistic]
    rw [h.pending, List.filter_append, List.filter_singleton, hunanswered]
    rfl
  · rw [List.pairwise_append]
    exact ⟨h.distinct, List.pairwise_singleton _ _, fun q hq r hr => by
      rw [List.mem_singleton.mp hr]
      exact hnew q hq⟩

/-- `es` reached the confirmed state behind what was applied before. -/
theorem ClientOk.advance {after : Subscription S A} {es : List (ActionEnvelope A)}
    (h : ClientOk clientId reducer start sub dispatched delivered applied)
    (hprogress : Progress reducer clientId es es sub after) (hexact : OptimisticExact reducer after)
    (hconfirmed : sub.confirmedState ≠ none) (hbuffered : after.bufferedEnvelopes = none) :
    ClientOk clientId reducer start after dispatched (applied ++ es) (applied ++ es) := by
  obtain ⟨s, hs⟩ := Option.ne_none_iff_exists'.mp hconfirmed
  have hafter : after.confirmedState = some (foldLog reducer s es) := by
    rw [hprogress.confirmed, hs]
    rfl
  refine ⟨by simp [hbuffered], fun _ _ => hbuffered, ?_, hprogress.error.trans h.error, ?_, hexact,
    ?_, h.distinct⟩
  · intro hnone
    rw [hafter] at hnone
    cases hnone
  · intro s' hs'
    rw [hafter] at hs'
    obtain rfl := Option.some.inj hs'
    rw [h.verified s hs, foldLog, foldLog, foldLog, List.foldl_append]
  · rw [hprogress.pending, h.pending, foldl_retire h.distinct]

theorem ClientOk.receiveEnvelope {e : ActionEnvelope A}
    (h : ClientOk clientId reducer start sub dispatched delivered applied)
    (hrelevant : (sessionStateSubscription clientId uri isSessionAction reducer).isRelevantEnvelope
      e = true) :
    let after :=
      (sessionStateSubscription clientId uri isSessionAction reducer).receiveEnvelope sub e
    (sub.confirmedState = none ∨ sub.awaitingSnapshotRefresh = true) ∧
        after = { sub with bufferedEnvelopes := some (sub.bufferedEnvelopes.getD [] ++ [e]) } ∧
        ClientOk clientId reducer start after dispatched (delivered ++ [e]) applied ∨
      sub.confirmedState ≠ none ∧ sub.awaitingSnapshotRefresh = false ∧
        ClientOk clientId reducer start after dispatched (delivered ++ [e]) (delivered ++ [e]) := by
  unfold SubscriptionClass.receiveEnvelope
  rw [if_pos hrelevant]
  by_cases hbuffers : (sub.confirmedState.isNone || sub.awaitingSnapshotRefresh) = true
  · rw [if_pos hbuffers]
    have hwaits : sub.confirmedState = none ∨ sub.awaitingSnapshotRefresh = true := by
      simpa using hbuffers
    refine .inl ⟨hwaits, rfl, ?_, ?_, h.fresh, h.error, h.verified, h.optimistic, h.pending,
      h.distinct⟩
    · rw [h.delivered]
      simp
    · intro hconfirmed hawaiting
      rcases hwaits with hnone | htrue
      · exact absurd hnone hconfirmed
      · exact absurd htrue (by
          have hfalse : sub.awaitingSnapshotRefresh = false := hawaiting
          simp [hfalse])
  · rw [if_neg hbuffers]
    simp only [Bool.or_eq_true, not_or, Bool.not_eq_true, Option.isNone_eq_false_iff] at hbuffers
    have hconfirmed : sub.confirmedState ≠ none := by
      intro hnone
      simp [hnone] at hbuffers
    have hnone := h.unbuffered hconfirmed hbuffers.2
    obtain ⟨hprogress, hexact⟩ := session_replayAll clientId uri isSessionAction reducer sub e
    have hadvance := h.advance hprogress hexact hconfirmed (hprogress.buffered.trans hnone)
    have hdelivered := h.delivered
    rw [hnone, Option.getD_none, List.append_nil] at hdelivered
    rw [← hdelivered] at hadvance
    exact .inr ⟨hconfirmed, hbuffers.2, hadvance⟩

theorem ClientOk.cancelSnapshotRefresh
    (h : ClientOk clientId reducer start sub dispatched delivered applied) :
    ∃ applied', ClientOk clientId reducer start
      ((sessionStateSubscription clientId uri isSessionAction reducer).cancelSnapshotRefresh sub)
      dispatched delivered applied' := by
  rcases (sessionStateSubscription clientId uri isSessionAction
      reducer).cancelSnapshotRefresh_cases sub with
    ⟨buffered, -, hbuffered, hconfirmed, hcancel⟩ | ⟨hnone, hcancel⟩
  · have hcleared : ClientOk clientId reducer start
        { sub with awaitingSnapshotRefresh := false, bufferedEnvelopes := none } dispatched applied
        applied :=
      ⟨by simp, fun _ _ => rfl, h.fresh, h.error, h.verified, h.optimistic, h.pending, h.distinct⟩
    obtain ⟨hprogress, hexact⟩ := session_foldl_replayAll clientId uri isSessionAction reducer
      buffered _ hcleared.optimistic
    have hadvance := hcleared.advance hprogress hexact hconfirmed hprogress.buffered
    have hdelivered := h.delivered
    rw [hbuffered, Option.getD_some] at hdelivered
    rw [← hdelivered] at hadvance
    exact ⟨delivered, hcancel ▸ hadvance⟩
  · refine ⟨applied, hcancel ▸ ⟨h.delivered, ?_, h.fresh, h.error, h.verified, h.optimistic,
      h.pending, h.distinct⟩⟩
    intro hconfirmed _
    cases hawaiting : sub.awaitingSnapshotRefresh with
    | true => exact hnone hawaiting hconfirmed
    | false => exact h.unbuffered hconfirmed hawaiting

/-- In a log that ascends, the entries up to a number stand before the others. -/
theorem upTo_append_filter {log : List (ActionEnvelope A)}
    (h : log.Pairwise fun e e' => e.serverSeq < e'.serverSeq) (fromSeq : ℕ) :
    upTo log fromSeq ++ log.filter (fromSeq < ·.serverSeq) = log := by
  induction log with
  | nil => rfl
  | cons e log ih =>
    obtain ⟨hfirst, hrest⟩ := List.pairwise_cons.mp h
    by_cases hseq : e.serverSeq ≤ fromSeq
    · rw [upTo, List.filter_cons_of_pos (by simpa using hseq),
        List.filter_cons_of_neg (by simpa using hseq), List.cons_append]
      exact congrArg (e :: ·) (ih hrest)
    · have hnone : upTo log fromSeq = [] := by
        apply List.filter_eq_nil_iff.mpr
        intro e' he'
        have := hfirst e' he'
        simp only [decide_eq_true_eq]
        omega
      have hall := ih hrest
      rw [hnone, List.nil_append] at hall
      have hskip : upTo (e :: log) fromSeq = [] := by
        rw [upTo, List.filter_cons_of_neg (by simpa using hseq)]
        exact hnone
      rw [hskip, List.nil_append, List.filter_cons_of_pos (by simpa using hseq), hall]

theorem session_handleSnapshot (state : S) (fromSeq : ℕ) :
    (sessionStateSubscription clientId uri isSessionAction reducer).handleSnapshot sub state
      fromSeq = ((sub.bufferedEnvelopes.getD []).foldl
        ((sessionStateSubscription clientId uri isSessionAction reducer).replay fromSeq)
        { sub with
          awaitingSnapshotRefresh := false
          confirmedState := some state
          error := none
          bufferedEnvelopes := none }).recomputeOptimistic reducer := by
  unfold SubscriptionClass.handleSnapshot
  rw [SubscriptionClass.replayBuffered_eq]
  rfl

/-- A snapshot that is not older than what was applied catches up with everything
that was delivered. -/
theorem ClientOk.handleSnapshot {fromSeq : ℕ}
    (h : ClientOk clientId reducer start sub dispatched delivered applied)
    (hsorted : delivered.Pairwise fun e e' => e.serverSeq < e'.serverSeq)
    (happlied : ∀ e ∈ applied, e.serverSeq ≤ fromSeq) :
    let after := (sessionStateSubscription clientId uri isSessionAction reducer).handleSnapshot sub
      (foldLog reducer start (upTo delivered fromSeq)) fromSeq
    ClientOk clientId reducer start after dispatched delivered delivered ∧
      after.confirmedState ≠ none ∧ after.awaitingSnapshotRefresh = false := by
  rw [session_handleSnapshot]
  obtain ⟨buffered, hbuffered⟩ : ∃ buffered, buffered = sub.bufferedEnvelopes.getD [] := ⟨_, rfl⟩
  have hprogress := session_foldl_replay clientId uri isSessionAction reducer fromSeq buffered
    { sub with
      awaitingSnapshotRefresh := false
      confirmedState := some (foldLog reducer start (upTo delivered fromSeq))
      error := none
      bufferedEnvelopes := none }
  have hdelivered := h.delivered
  rw [← hbuffered] at hdelivered
  have hbehind : delivered.filter (fromSeq < ·.serverSeq) =
      buffered.filter (fromSeq < ·.serverSeq) := by
    rw [hdelivered, List.filter_append, List.filter_eq_nil_iff.mpr, List.nil_append]
    intro e he
    have := happlied e he
    simp only [decide_eq_true_eq]
    omega
  have hconfirmed := hprogress.confirmed
  simp only [Option.map_some] at hconfirmed
  have hall : foldLog reducer (foldLog reducer start (upTo delivered fromSeq))
      (buffered.filter (fromSeq < ·.serverSeq)) = foldLog reducer start delivered := by
    rw [← hbehind, foldLog, foldLog, ← List.foldl_append, upTo_append_filter hsorted]
    rfl
  rw [hall] at hconfirmed
  have hretired : buffered.foldl (retire clientId) sub.pendingActions =
      dispatched.filter (!isAnsweredIn clientId delivered ·) := by
    rw [h.pending, foldl_retire h.distinct, ← hdelivered]
  have hpending := hprogress.pending.trans hretired
  rw [← hbuffered]
  refine ⟨⟨?_, fun _ _ => hprogress.buffered, ?_, hprogress.error, ?_,
    optimisticExact_recompute reducer _, hpending, h.distinct⟩, ?_, hprogress.awaiting⟩
  · exact (List.append_nil delivered).symm.trans
      (congrArg (fun b => delivered ++ b.getD []) hprogress.buffered).symm
  · intro hnone
    cases hconfirmed.symm.trans hnone
  · intro s hs
    exact (Option.some.inj (hconfirmed.symm.trans hs)).symm
  · intro hnone
    cases hconfirmed.symm.trans hnone

end Session

end NexgileIde.AgentHost
