import NexgileIde.AgentHost.RestoreRun
import Mathlib.Data.List.DropRight

/-!
# What a reconnecting client receives

The kept envelopes are the last ones recorded. So an envelope that is owed to a client arrives
exactly once unless it was dropped before the answer was made, or was dispatched while the
server released the client from other sessions.
-/
namespace NexgileIde.AgentHost

variable {σ A : Type}

/-! ## The kept envelopes -/

theorem tail_concat_rtake {α : Type} (xs : List α) (x : α) (n : ℕ) :
    (if (xs.rtake (n + 1) ++ [x]).length > n + 1 then (xs.rtake (n + 1) ++ [x]).tail
      else xs.rtake (n + 1) ++ [x]) = (xs ++ [x]).rtake (n + 1) := by
  rw [List.rtake_concat_succ]
  unfold List.rtake
  rcases Nat.lt_or_ge n xs.length with hlt | hle
  · have hdrop : xs.length - n = xs.length - (n + 1) + 1 := by omega
    have hcons := List.drop_eq_getElem_cons (l := xs) (i := xs.length - (n + 1)) (by omega)
    rw [if_pos (by simp; omega), hdrop, hcons, List.cons_append, List.tail_cons]
  · have hall : xs.length - (n + 1) = 0 := by omega
    have hall' : xs.length - n = 0 := by omega
    rw [if_neg (by simp; omega), hall, hall']

namespace ProtocolServer

variable {names : ChannelNames} {server : ProtocolServer A} {recorded : List (ActionEnvelope A)}

/-- The server has recorded these envelopes. -/
def Recorded (server : ProtocolServer A) (recorded : List (ActionEnvelope A)) : Prop :=
  server.replayBuffer = recorded.rtake REPLAY_BUFFER_CAPACITY

theorem Recorded.record (h : server.Recorded recorded) (envelope : ActionEnvelope A) :
    (server.recordAndBroadcastAction names envelope).Recorded (recorded ++ [envelope]) := by
  unfold Recorded recordAndBroadcastAction broadcastAction at *
  dsimp only
  rw [h]
  exact tail_concat_rtake recorded envelope 999

theorem Recorded.recordAll (h : server.Recorded recorded) (envelopes : List (ActionEnvelope A)) :
    (envelopes.foldl (recordAndBroadcastAction names) server).Recorded (recorded ++ envelopes) := by
  induction envelopes generalizing server recorded with
  | nil => simpa using h
  | cons envelope envelopes ih => simpa using ih (h.record envelope)

/-- What is sent to a client whose subscriptions stay as they are. -/
theorem client_recordAll {client : ConnectedClient A} (envelopes : List (ActionEnvelope A))
    (h : server.client = some client) :
    (envelopes.foldl (recordAndBroadcastAction names) server).client =
      some { client with
        sent := client.sent ++ envelopes.filter (isRelevantToClient names client) } := by
  induction envelopes generalizing server client with
  | nil => simpa using h
  | cons envelope envelopes ih =>
    have hclient : (server.recordAndBroadcastAction names envelope).client =
        some (if isRelevantToClient names client envelope then
          { client with sent := client.sent ++ [envelope] } else client) := by
      unfold recordAndBroadcastAction broadcastAction
      simp [h]
    rw [List.foldl_cons, ih hclient]
    by_cases hrelevant : isRelevantToClient names client envelope
    · have hsame : isRelevantToClient names { client with sent := client.sent ++ [envelope] } =
          isRelevantToClient names client := rfl
      simp [hrelevant, hsame]
    · simp [hrelevant]

theorem phase_recordAll (envelopes : List (ActionEnvelope A)) :
    (envelopes.foldl (recordAndBroadcastAction names) server).phase = server.phase := by
  induction envelopes generalizing server with
  | nil => rfl
  | cons envelope envelopes ih => exact ih.trans rfl

end ProtocolServer

/-! ## Runs -/

/-- The envelopes that a run records, apart from those that the server dispatches itself. -/
def recordedIn (events : List (ServerEvent σ A)) : List (ActionEnvelope A) :=
  events.filterMap fun event => match event with
    | .record envelope => some envelope
    | _ => none

/-- What the server dispatches itself, once all restores have settled. -/
def cleanup (names : ChannelNames) (manager : StateManager σ A) (params : ReconnectParams)
    (missing : List String) (m : σ) : List (ActionEnvelope A) :=
  manager.reconcileActiveClients
    ((restoredSubscriptions names params.subscriptions missing).filterMap
      ChannelSubscription.stateUri).contains params.clientId m

namespace ProtocolServer

variable {names : ChannelNames} {manager : StateManager σ A} {server : ProtocolServer A}
  {recorded : List (ActionEnvelope A)} {params : ReconnectParams}

/-- The request is being handled. Only an answer that replays needs to be known about. -/
def Restoring (names : ChannelNames) (params : ReconnectParams)
    (recorded : List (ActionEnvelope A)) (server : ProtocolServer A) : Prop :=
  server.Recorded recorded ∧ ∃ client restore, server.client = some client ∧
    server.phase = .restoring params restore ∧ client.clientId = params.clientId ∧
      (restore.canReplay = true → client.sent = [] ∧ ∃ begun,
        params.subscriptions = begun ++ restore.remaining ∧
          Begun names begun client.subscriptions restore)

theorem Restoring.record (h : server.Restoring names params recorded)
    (envelope : ActionEnvelope A) :
    (server.recordAndBroadcastAction names envelope).Restoring names params
      (recorded ++ [envelope]) := by
  obtain ⟨hrecorded, client, restore, hclient, hphase, hid, hreplay⟩ := h
  refine ⟨hrecorded.record envelope, _, restore, client_recordAll [envelope] hclient, ?_, hid, ?_⟩
  · exact (phase_recordAll [envelope]).trans hphase
  · intro hcan
    obtain ⟨hsent, begun, hsubs, hbegun⟩ := hreplay hcan
    refine ⟨?_, begun, hsubs, hbegun⟩
    simp [hsent, hbegun.isRelevantToClient_eq_false envelope]

theorem Restoring.beginRestore (h : server.Restoring names params recorded)
    {otlpLogEmitter watchParses : Bool} {next : ProtocolServer A}
    (hstep : server.step names manager (.beginRestore otlpLogEmitter watchParses) = some next) :
    next.Restoring names params recorded := by
  obtain ⟨hrecorded, client, restore, hclient, hphase, hid, hreplay⟩ := h
  unfold step at hstep
  rw [hclient, hphase] at hstep
  dsimp only at hstep
  split at hstep
  · cases hstep
  next sub remaining hremaining =>
  cases hstep
  have hbegan : restore.canReplay = true → client.sent = [] ∧ ∃ begun,
      params.subscriptions = (begun ++ [sub]) ++ remaining ∧
        Begun names begun client.subscriptions { restore with remaining } := by
    intro hcan
    obtain ⟨hsent, begun, hsubs, hbegun⟩ := hreplay hcan
    rw [hremaining] at hsubs
    exact ⟨hsent, begun, by simpa using hsubs, { hbegun with }⟩
  unfold ProtocolServer.beginRestore
  cases hclassify : classifyChannel names sub with
  | none =>
    refine ⟨hrecorded, client, _, hclient, rfl, hid, fun hcan => ?_⟩
    obtain ⟨hsent, begun, hsubs, hbegun⟩ := hbegan hcan
    refine ⟨hsent, _, hsubs, hbegun.skip fun classified hclassified => ?_⟩
    rw [hclassify] at hclassified
    cases hclassified
  | some classified =>
    dsimp only
    split
    · next hseen =>
      refine ⟨hrecorded, client, _, hclient, rfl, hid, fun hcan => ?_⟩
      obtain ⟨hsent, begun, hsubs, hbegun⟩ := hbegan hcan
      refine ⟨hsent, _, hsubs, hbegun.skip fun classified' hclassified => ?_⟩
      obtain rfl := Option.some.inj (hclassify.symm.trans hclassified)
      exact List.contains_iff_mem.1 hseen
    · next hnew =>
      rw [List.contains_iff_mem] at hnew
      rcases classifyChannel_cases hclassify with ⟨hotlp, -, level, rfl⟩ | ⟨hsub, rfl | rfl⟩
      · cases otlpLogEmitter
        · refine ⟨hrecorded, client, _, rfl, rfl, hid, fun hcan => ?_⟩
          obtain ⟨hsent, begun, hsubs, hbegun⟩ := hbegan hcan
          exact ⟨hsent, _, hsubs, hbegun.otlp hclassify hotlp false⟩
        · refine ⟨hrecorded, _, _, rfl, rfl, hid, fun hcan => ?_⟩
          obtain ⟨hsent, begun, hsubs, hbegun⟩ := hbegan hcan
          exact ⟨hsent, _, hsubs, hbegun.otlp hclassify hotlp true⟩
      · cases watchParses
        · refine ⟨hrecorded, client, _, hclient, rfl, hid, fun hcan => ?_⟩
          obtain ⟨hsent, begun, hsubs, hbegun⟩ := hbegan hcan
          exact ⟨hsent, _, hsubs, hbegun.failed hclassify hsub hnew⟩
        · by_cases hcan : restore.canReplay = true
          · dsimp only
            rw [if_neg (by simp), if_pos hcan]
            refine ⟨hrecorded, _, _, rfl, rfl, hid, fun _ => ?_⟩
            obtain ⟨hsent, begun, hsubs, hbegun⟩ := hbegan hcan
            exact ⟨hsent, _, hsubs, hbegun.pending hclassify hsub hnew fun uri huri => .inl huri⟩
          · dsimp only
            rw [if_neg (by simp), if_neg hcan]
            exact ⟨hrecorded, _, _, rfl, rfl, hid, fun hcan' => absurd hcan' hcan⟩
      · refine ⟨hrecorded, _, _, rfl, rfl, hid, fun hcan => ?_⟩
        obtain ⟨hsent, begun, hsubs, hbegun⟩ := hbegan hcan
        refine ⟨hsent, _, hsubs, hbegun.pending hclassify hsub hnew fun uri huri => ?_⟩
        rcases List.mem_cons.1 huri with rfl | huri
        · exact .inr ⟨rfl, rfl⟩
        · exact .inl huri

theorem Restoring.settleRestore (h : server.Restoring names params recorded)
    {sub : String} {restored : Bool} {next : ProtocolServer A}
    (hstep : server.step names manager (.settleRestore sub restored) = some next) :
    next.Restoring names params recorded := by
  obtain ⟨hrecorded, client, restore, hclient, hphase, hid, hreplay⟩ := h
  unfold step at hstep
  rw [hclient, hphase] at hstep
  dsimp only at hstep
  split at hstep
  swap
  · cases hstep
  next hawaited =>
  have hawaited := List.contains_iff_mem.1 hawaited
  cases hstep
  unfold ProtocolServer.settleRestore
  cases restored
  · refine ⟨hrecorded, _, _, rfl, rfl, ?_, fun hcan => ?_⟩
    · split <;> exact hid
    · obtain ⟨hsent, begun, hsubs, hbegun⟩ := hreplay hcan
      refine ⟨?_, begun, hsubs, ?_⟩
      · split <;> exact hsent
      · have hsettled := hbegun.settle_failed hawaited
        split
        · next hpending =>
          rw [if_pos hpending] at hsettled
          exact hsettled
        · next hother =>
          rw [if_neg hother] at hsettled
          exact hsettled
  · refine ⟨hrecorded, client, _, hclient, rfl, hid, fun hcan => ?_⟩
    obtain ⟨hsent, begun, hsubs, hbegun⟩ := hreplay hcan
    exact ⟨hsent, begun, hsubs, hbegun.settle sub⟩

/-- Once the request is answered it stays so. -/
theorem answered_step {response : ReconnectResponse A} {event : ServerEvent σ A}
    {next : ProtocolServer A} (h : server.phase = .answered response)
    (hstep : server.step names manager event = some next) : next.phase = .answered response := by
  unfold step at hstep
  rw [h] at hstep
  cases event with
  | record envelope =>
    cases hstep
    exact (phase_recordAll [envelope]).trans h
  | reconnect params serverSeq => cases hstep
  | beginRestore otlpLogEmitter watchParses => cases hclient : server.client <;> simp [hclient] at hstep
  | settleRestore sub restored => cases hclient : server.client <;> simp [hclient] at hstep
  | finishRestore m => cases hclient : server.client <;> simp [hclient] at hstep

theorem answered_run {response : ReconnectResponse A} {events : List (ServerEvent σ A)}
    {next : ProtocolServer A} (h : server.phase = .answered response)
    (hrun : server.run names manager events = some next) : next.phase = .answered response := by
  unfold run at hrun
  induction events generalizing server with
  | nil =>
    cases hrun
    exact h
  | cons event events ih =>
    obtain ⟨mid, hstep, hrest⟩ := Option.bind_eq_some_iff.1 hrun
    exact ih (answered_step h hstep) hrest

theorem Restoring.answered (h : server.Restoring names params recorded) {m : σ}
    {next : ProtocolServer A} (hstep : server.step names manager (.finishRestore m) = some next) :
    ∃ response, next.phase = .answered response := by
  obtain ⟨-, client, restore, hclient, hphase, -⟩ := h
  unfold step at hstep
  rw [hclient, hphase] at hstep
  dsimp only at hstep
  split at hstep
  · cases hstep
    unfold finishRestore
    dsimp only
    split
    · exact ⟨_, rfl⟩
    · exact ⟨_, rfl⟩
  · cases hstep

/-- What happens before the answer. -/
theorem Restoring.run (h : server.Restoring names params recorded)
    {events : List (ServerEvent σ A)} {next : ProtocolServer A}
    (hrun : server.run names manager events = some next) :
    next.Restoring names params (recorded ++ recordedIn events) ∨
      ∃ response, next.phase = .answered response := by
  unfold ProtocolServer.run at hrun
  induction events generalizing server recorded with
  | nil =>
    cases hrun
    left
    simpa [recordedIn] using h
  | cons event events ih =>
    obtain ⟨mid, hstep, hrest⟩ := Option.bind_eq_some_iff.1 hrun
    cases event with
    | record envelope =>
      cases hstep
      have hall := ih (h.record envelope) hrest
      rw [List.append_assoc] at hall
      exact hall
    | reconnect params' serverSeq =>
      obtain ⟨-, client, restore, -, hphase, -⟩ := h
      unfold step at hstep
      rw [hphase] at hstep
      cases hstep
    | beginRestore otlpLogEmitter watchParses => exact ih (h.beginRestore hstep) hrest
    | settleRestore sub restored => exact ih (h.settleRestore hstep) hrest
    | finishRestore m =>
      obtain ⟨response, hphase⟩ := h.answered hstep
      exact .inr ⟨response, answered_run hphase hrest⟩

/-- The answer, and what was sent by then. -/
theorem Restoring.finish (h : server.Restoring names params recorded) {m : σ}
    {next : ProtocolServer A} {actions : List (ActionEnvelope A)} {missing : List String}
    (hstep : server.step names manager (.finishRestore m) = some next)
    (hphase : next.phase = .answered (.replay actions missing)) :
    actions = ((recorded ++ cleanup names manager params missing m).rtake
        REPLAY_BUFFER_CAPACITY).filter (fun envelope =>
          envelope.serverSeq > params.lastSeenServerSeq &&
            isActionEnvelopeRelevantToSubscriptionUris names envelope
              (restoredChannels names params.subscriptions missing)) ∧
      ∃ client, next.client = some client ∧
        client.sent = (cleanup names manager params missing m).filter
          (isRelevantToClient names client) ∧
        ∀ envelope, isRelevantToClient names client envelope =
          isActionEnvelopeRelevantToSubscriptionUris names envelope
            (restoredChannels names params.subscriptions missing) := by
  obtain ⟨hrecorded, client, restore, hclient, hrestoring, hid, hreplay⟩ := h
  unfold step at hstep
  rw [hclient, hrestoring] at hstep
  dsimp only at hstep
  split at hstep
  swap
  · cases hstep
  next hsettled =>
  cases hstep
  unfold finishRestore at hphase ⊢
  dsimp only at hphase ⊢
  by_cases hcan : restore.canReplay = true
  swap
  · rw [if_neg hcan] at hphase
    cases hphase
  rw [if_pos hcan] at hphase ⊢
  cases hphase
  obtain ⟨hsent, begun, hsubs, hbegun⟩ := hreplay hcan
  rw [hsettled.1, List.append_nil] at hsubs
  subst hsubs
  obtain ⟨hid', hsent'⟩ : (activateSubscriptions client
      restore.pendingSubscriptions).clientId = client.clientId ∧ _ := activate_fields
  have hreturned := funext hbegun.isResubscribed_activated
  rw [hreturned, hid', hid]
  generalize hstart : ({ server with
    client := some (activateSubscriptions client restore.pendingSubscriptions) } :
      ProtocolServer A) = start
  have hstarted : start.client =
      some (activateSubscriptions client restore.pendingSubscriptions) := by rw [← hstart]
  have hbuffer : start.Recorded recorded := by
    rw [← hstart]
    exact hrecorded
  generalize hcleanup : manager.reconcileActiveClients _ params.clientId m = envelopes
  have hdispatched : cleanup names manager params restore.missing m = envelopes := hcleanup
  rw [hdispatched]
  refine ⟨?_, _, client_recordAll envelopes hstarted, ?_,
    fun envelope => hbegun.isRelevantToClient_activated envelope⟩
  · rw [(hbuffer.recordAll envelopes : Recorded _ _)]
    apply List.filter_congr
    intro envelope _
    rw [hbegun.isRelevantToClient_activated]
  · rw [hsent', hsent]
    rfl

theorem run_append {events events' : List (ServerEvent σ A)} {last : ProtocolServer A} :
    server.run names manager (events ++ events') = some last ↔
      ∃ mid, server.run names manager events = some mid ∧
        mid.run names manager events' = some last := by
  unfold ProtocolServer.run
  rw [List.foldlM_append]
  exact Option.bind_eq_some_iff

theorem run_record {envelopes : List (ActionEnvelope A)} :
    server.run names manager (envelopes.map ServerEvent.record) =
      some (envelopes.foldl (recordAndBroadcastAction names) server) := by
  unfold ProtocolServer.run
  induction envelopes generalizing server with
  | nil => rfl
  | cons envelope envelopes ih => exact ih

/-- The run around a request to reconnect: envelopes recorded before, what happens until all
restores have settled, and envelopes recorded after the answer was made. -/
def reconnectRun (before : List (ActionEnvelope A)) (params : ReconnectParams) (serverSeq : ℕ)
    (during : List (ServerEvent σ A)) (m : σ) (after : List (ActionEnvelope A)) :
    List (ServerEvent σ A) :=
  before.map .record ++ .reconnect params serverSeq :: during ++
    .finishRestore m :: after.map .record

/-- What the client receives: the answer, and the envelopes sent to it. -/
theorem reconnectRun_received {baselineDebt : List String} {before after : List (ActionEnvelope A)}
    {serverSeq : ℕ} {during : List (ServerEvent σ A)} {m : σ} {last : ProtocolServer A}
    {actions : List (ActionEnvelope A)} {missing : List String} {client : ConnectedClient A}
    (hrun : (initial baselineDebt).run names manager
      (reconnectRun before params serverSeq during m after) = some last)
    (hphase : last.phase = .answered (.replay actions missing)) (hclient : last.client = some client) :
    let relevant := fun envelope => isActionEnvelopeRelevantToSubscriptionUris names envelope
      (restoredChannels names params.subscriptions missing)
    actions = ((before ++ recordedIn during ++ cleanup names manager params missing m).rtake
        REPLAY_BUFFER_CAPACITY).filter (fun envelope =>
          envelope.serverSeq > params.lastSeenServerSeq && relevant envelope) ∧
      client.sent = (cleanup names manager params missing m ++ after).filter relevant := by
  unfold reconnectRun at hrun
  rw [List.append_assoc, List.cons_append, run_append] at hrun
  obtain ⟨started, hbefore, hrest⟩ := hrun
  rw [run_record, Option.some.injEq] at hbefore
  have hinitial : (initial baselineDebt : ProtocolServer A).Recorded [] :=
    (List.rtake_nil _).symm
  have hrecorded : started.Recorded before := by
    rw [← hbefore]
    exact hinitial.recordAll before
  have hdisconnected : started.phase = .disconnected := by
    rw [← hbefore]
    exact phase_recordAll before
  obtain ⟨requested, hrequest, hrest⟩ := Option.bind_eq_some_iff.1 hrest
  unfold step at hrequest
  rw [hdisconnected] at hrequest
  cases hrequest
  have hrestoring : (started.handleReconnect names params serverSeq).Restoring names params
      before :=
    ⟨hrecorded, _, _, rfl, rfl, rfl, fun _ => ⟨rfl, [], rfl, by
      constructor <;> simp⟩⟩
  obtain ⟨settled, hduring, hrest⟩ := run_append.1 hrest
  obtain ⟨finished, hfinish, hafter⟩ := Option.bind_eq_some_iff.1 hrest
  have hafter : after.foldl (recordAndBroadcastAction names) finished = last :=
    Option.some.inj (run_record.symm.trans hafter)
  have hphase : finished.phase = .answered (.replay actions missing) := by
    rw [← hphase, ← hafter, phase_recordAll]
  rcases hrestoring.run hduring with hrestoring | ⟨response, hresponse⟩
  swap
  · -- a second answer cannot be made
    unfold step at hfinish
    rw [hresponse] at hfinish
    cases hsettled : settled.client <;> simp [hsettled] at hfinish
  obtain ⟨hactions, client', hclient', hsent, hrelevant⟩ := hrestoring.finish hfinish hphase
  have hlast := @client_recordAll A names _ _ after hclient'
  rw [hafter, hclient, Option.some.injEq] at hlast
  refine ⟨hactions, ?_⟩
  rw [hlast, hsent, List.filter_append, funext hrelevant]

/-- What a client is to get: envelopes that it has not seen and that concern a channel which
was restored. -/
def IsOwed (names : ChannelNames) (params : ReconnectParams) (missing : List String)
    (envelope : ActionEnvelope A) : Prop :=
  params.lastSeenServerSeq < envelope.serverSeq ∧
    isActionEnvelopeRelevantToSubscriptionUris names envelope
      (restoredChannels names params.subscriptions missing) = true

theorem count_once_iff [DecidableEq A] {xs ys zs kept : List (ActionEnvelope A)}
    {owed relevant : ActionEnvelope A → Bool} (howed : ∀ x, owed x → relevant x)
    (hnodup : (xs ++ ys ++ zs).Nodup) (hkept : kept.Sublist (xs ++ ys)) :
    (∀ x ∈ xs ++ ys ++ zs, owed x →
        (kept.filter owed ++ (ys ++ zs).filter relevant).count x = 1) ↔
      (∀ x ∈ xs, owed x → x ∈ kept) ∧ ∀ x ∈ ys, owed x → x ∉ kept := by
  have hcount : ∀ x, owed x → (kept.filter owed ++ (ys ++ zs).filter relevant).count x =
      kept.count x + (ys.count x + zs.count x) := by
    intro x hx
    rw [List.count_append, List.count_filter hx, List.count_filter (howed x hx),
      List.count_append]
  obtain ⟨hearlier, hzs, hlater⟩ := List.nodup_append.1 hnodup
  obtain ⟨hxs, hys, hdisjoint⟩ := List.nodup_append.1 hearlier
  have hone := List.nodup_iff_count_le_one.1 (hearlier.sublist hkept)
  constructor
  · intro h
    constructor
    · intro x hx hxo
      have hsum := h x (by simp [hx]) hxo
      rw [hcount x hxo] at hsum
      have hnotys : ys.count x = 0 := List.count_eq_zero.2 fun hmem => hdisjoint x hx x hmem rfl
      have hnotzs : zs.count x = 0 :=
        List.count_eq_zero.2 fun hmem => hlater x (by simp [hx]) x hmem rfl
      exact List.count_pos_iff.1 (by omega)
    · intro x hx hxo hmem
      have hsum := h x (by simp [hx]) hxo
      rw [hcount x hxo] at hsum
      have := List.count_pos_iff.2 hx
      have := List.count_pos_iff.2 hmem
      omega
  · rintro ⟨hallkept, hnonekept⟩ x hx hxo
    rw [hcount x hxo]
    rcases List.mem_append.1 hx with hx | hx
    · have hnotzs : zs.count x = 0 := List.count_eq_zero.2 fun hmem => hlater x hx x hmem rfl
      rcases List.mem_append.1 hx with hx | hx
      · have hnotys : ys.count x = 0 := List.count_eq_zero.2 fun hmem => hdisjoint x hx x hmem rfl
        have := hone x
        have := List.count_pos_iff.2 (hallkept x hx hxo)
        omega
      · have hnotkept : kept.count x = 0 := List.count_eq_zero.2 (hnonekept x hx hxo)
        have := List.count_eq_one_of_mem hys hx
        omega
    · have hnotys : ys.count x = 0 :=
        List.count_eq_zero.2 fun hmem => hlater x (by simp [hmem]) x hx rfl
      have hnotkept : kept.count x = 0 :=
        List.count_eq_zero.2 fun hmem => hlater x (hkept.subset hmem) x hx rfl
      have := List.count_eq_one_of_mem hzs hx
      omega

/-- When the answer replays, the client gets everything owed exactly once if and only if what
was recorded before the release from other sessions is still kept when the answer is made, and
what that release dispatches is not. -/
theorem owed_once_iff [DecidableEq A] (names : ChannelNames) (manager : StateManager σ A)
    (baselineDebt : List String) (before : List (ActionEnvelope A)) (params : ReconnectParams)
    (serverSeq : ℕ) (during : List (ServerEvent σ A)) (m : σ) (after : List (ActionEnvelope A))
    (last : ProtocolServer A) (actions : List (ActionEnvelope A)) (missing : List String)
    (client : ConnectedClient A)
    (hrun : (initial baselineDebt).run names manager
      (reconnectRun before params serverSeq during m after) = some last)
    (hphase : last.phase = .answered (.replay actions missing)) (hclient : last.client = some client)
    (hincreasing : (before ++ recordedIn during ++ cleanup names manager params missing m ++
      after).Pairwise fun a b => a.serverSeq < b.serverSeq) :
    (∀ envelope ∈ before ++ recordedIn during ++ cleanup names manager params missing m ++ after,
        IsOwed names params missing envelope → (actions ++ client.sent).count envelope = 1) ↔
      (∀ envelope ∈ before ++ recordedIn during, IsOwed names params missing envelope →
        envelope ∈ (before ++ recordedIn during ++ cleanup names manager params missing m).rtake
          REPLAY_BUFFER_CAPACITY) ∧
      ∀ envelope ∈ cleanup names manager params missing m, IsOwed names params missing envelope →
        envelope ∉ (before ++ recordedIn during ++ cleanup names manager params missing m).rtake
          REPLAY_BUFFER_CAPACITY := by
  obtain ⟨hactions, hsent⟩ := reconnectRun_received hrun hphase hclient
  generalize hrecorded : before ++ recordedIn during = recorded at *
  generalize hdispatched : cleanup names manager params missing m = dispatched at *
  generalize hcapacity : REPLAY_BUFFER_CAPACITY = capacity at *
  rw [hactions, hsent]
  have hnodup : (recorded ++ dispatched ++ after).Nodup :=
    hincreasing.imp fun hlt heq => Nat.ne_of_lt hlt (congrArg ActionEnvelope.serverSeq heq)
  have hkept : ((recorded ++ dispatched).rtake capacity).Sublist (recorded ++ dispatched) :=
    List.drop_sublist _ _
  have howed : ∀ envelope : ActionEnvelope A, IsOwed names params missing envelope ↔
      (decide (envelope.serverSeq > params.lastSeenServerSeq) &&
        isActionEnvelopeRelevantToSubscriptionUris names envelope
          (restoredChannels names params.subscriptions missing)) = true := by
    intro envelope
    rw [Bool.and_eq_true_iff, decide_eq_true_iff]
    rfl
  simp only [howed]
  exact count_once_iff (fun _ hx => (Bool.and_eq_true_iff.1 hx).2) hnodup hkept

theorem finishRestore_replay (names : ChannelNames) (manager : StateManager σ A)
    (server : ProtocolServer A) (client : ConnectedClient A) (params : ReconnectParams)
    (restore : Restore) (m : σ) (hcan : restore.canReplay = true) : ∃ actions client',
      (server.finishRestore names manager client params restore m).phase =
        .answered (.replay actions restore.missing) ∧
      (server.finishRestore names manager client params restore m).client = some client' := by
  unfold finishRestore
  dsimp only
  rw [if_pos hcan]
  exact ⟨_, _, rfl, client_recordAll _ rfl⟩

/-- The last restore settles, and the answer is made. -/
theorem run_settle_finish {client : ConnectedClient A} {restore : Restore} {sub : String} (m : σ)
    (hclient : server.client = some client) (hphase : server.phase = .restoring params restore)
    (hremaining : restore.remaining = []) (hawaited : restore.awaited = [sub])
    (hcan : restore.canReplay = true) :
    ∃ last actions client', server.run names manager
        [.settleRestore sub true, .finishRestore m] = some last ∧
      last.phase = .answered (.replay actions restore.missing) ∧ last.client = some client' := by
  let settled := { server with
    phase := .restoring params { restore with awaited := restore.awaited.filter (· ≠ sub) } }
  have hsettle : server.step names manager (.settleRestore sub true) = some settled := by
    unfold step
    rw [hclient, hphase]
    simp [hawaited, settleRestore, settled]
  have hfinish : settled.step names manager (.finishRestore m) =
      some (settled.finishRestore names manager client params
        { restore with awaited := restore.awaited.filter (· ≠ sub) } m) := by
    unfold step
    simp [settled, hclient, hremaining, hawaited]
  obtain ⟨actions, client', hanswered, hclient'⟩ := finishRestore_replay names manager settled
    client params { restore with awaited := restore.awaited.filter (· ≠ sub) } m hcan
  refine ⟨_, actions, client', ?_, hanswered, hclient'⟩
  unfold run
  rw [List.foldlM_cons, hsettle]
  exact Option.bind_eq_some_iff.2 ⟨settled, rfl, Option.bind_eq_some_iff.2 ⟨_, hfinish, rfl⟩⟩

section

def plainNames : ChannelNames := ⟨fun _ => false, fun _ => false, fun _ => false, fun _ => none⟩

/-- A state manager without sessions of its own. -/
def idleManager : StateManager Unit Unit := ⟨fun _ => [], fun _ _ => none, fun m _ _ => (m, [])⟩

def sessionEnvelope (serverSeq : ℕ) : ActionEnvelope Unit :=
  ⟨"ahp-session:/1", (), serverSeq, none, none⟩

def sessionParams : ReconnectParams := ⟨"client", 1, ["ahp-session:/1"]⟩

/-- The session of a client is restored while envelopes are recorded. -/
def sessionRestore (envelopes : List (ActionEnvelope Unit)) : List (ServerEvent Unit Unit) :=
  .beginRestore false false :: envelopes.map .record ++ [.settleRestore "ahp-session:/1" true]

theorem recordedIn_sessionRestore (envelopes : List (ActionEnvelope Unit)) :
    recordedIn (sessionRestore envelopes) = envelopes := by
  simp [sessionRestore, recordedIn, List.filterMap_append, List.filterMap_map]

theorem run_sessionRestore (envelopes : List (ActionEnvelope Unit)) :
    ∃ last actions client, (initial []).run plainNames idleManager
        (reconnectRun [sessionEnvelope 1] sessionParams 1 (sessionRestore envelopes) () []) =
          some last ∧
      last.phase = .answered (.replay actions []) ∧ last.client = some client := by
  let session := "ahp-session:/1"
  let client : ConnectedClient Unit := ⟨"client", AList.insert session (.State session false) ∅, []⟩
  let restore : Restore := ⟨true, [], [session], [session], [.State session true], []⟩
  let started : ProtocolServer Unit :=
    ⟨[sessionEnvelope 1], some client, [], .restoring sessionParams restore⟩
  have hbegun : (initial []).run plainNames idleManager
      [.record (sessionEnvelope 1), .reconnect sessionParams 1, .beginRestore false false] =
        some started := by
    have hotlp : isOtlpChannel session = false := by decide +kernel
    simp [run, step, recordAndBroadcastAction, broadcastAction, initial, handleReconnect,
      hasBaselineDebt, ProtocolServer.beginRestore, classifyChannel, hotlp, plainNames,
      sessionParams, sessionEnvelope, REPLAY_BUFFER_CAPACITY, setSubscription, started, client,
      restore, session, ChannelSubscription.uri, ChannelSubscription.pending]
  have hclient : (envelopes.foldl (recordAndBroadcastAction plainNames) started).client = _ :=
    client_recordAll envelopes rfl
  have hphase : (envelopes.foldl (recordAndBroadcastAction plainNames) started).phase =
      .restoring sessionParams restore := (phase_recordAll envelopes).trans rfl
  obtain ⟨last, actions, client', hsettled, hanswered, hclient'⟩ :
      ∃ last actions client', (envelopes.foldl (recordAndBroadcastAction plainNames) started).run
        plainNames idleManager [.settleRestore session true, .finishRestore ()] = some last ∧
        last.phase = .answered (.replay actions []) ∧ last.client = some client' :=
    run_settle_finish () hclient hphase rfl rfl rfl
  refine ⟨last, actions, client', ?_, hanswered, hclient'⟩
  have hall := run_append.2 ⟨_, hbegun, run_append.2 ⟨_, run_record, hsettled⟩⟩
  simpa [reconnectRun, sessionRestore] using hall

/-- The session of a client is restored while another envelope is recorded. -/
theorem owed_once_session : ∃ last actions client, (initial []).run plainNames idleManager
      (reconnectRun [sessionEnvelope 1] sessionParams 1 (sessionRestore [sessionEnvelope 2]) ()
        []) = some last ∧
    last.phase = .answered (.replay actions []) ∧ last.client = some client ∧
    (actions ++ client.sent).count (sessionEnvelope 2) = 1 := by
  obtain ⟨last, actions, client, hrun, hphase, hclient⟩ := run_sessionRestore [sessionEnvelope 2]
  refine ⟨last, actions, client, hrun, hphase, hclient, ?_⟩
  have hiff := owed_once_iff plainNames idleManager [] [sessionEnvelope 1] sessionParams 1
    (sessionRestore [sessionEnvelope 2]) () [] last actions [] client hrun hphase hclient
    (by decide +kernel)
  refine hiff.2 ⟨fun envelope hmem _ => ?_, nofun⟩ _ (by decide +kernel) ⟨by decide, by decide +kernel⟩
  rw [recordedIn_sessionRestore] at hmem ⊢
  exact hmem

/-- The session of a client is restored while 1001 envelopes are recorded: the first is lost. -/
theorem overflow_loses : ∃ last actions client, (initial []).run plainNames idleManager
      (reconnectRun [sessionEnvelope 1] sessionParams 1
        (sessionRestore ((List.range' 2 (REPLAY_BUFFER_CAPACITY + 1)).map sessionEnvelope)) ()
          []) = some last ∧
    last.phase = .answered (.replay actions []) ∧ last.client = some client ∧
    ([sessionEnvelope 1] ++ (List.range' 2 (REPLAY_BUFFER_CAPACITY + 1)).map
      sessionEnvelope).Pairwise (fun a b => a.serverSeq < b.serverSeq) ∧
    IsOwed plainNames sessionParams [] (sessionEnvelope 2) ∧
    (actions ++ client.sent).count (sessionEnvelope 2) = 0 := by
  generalize hn : REPLAY_BUFFER_CAPACITY = n
  obtain ⟨last, actions, client, hrun, hphase, hclient⟩ :=
    run_sessionRestore ((List.range' 2 (n + 1)).map sessionEnvelope)
  obtain ⟨hactions, hsent⟩ := reconnectRun_received hrun hphase hclient
  have hcleanup : cleanup plainNames idleManager sessionParams [] () = [] := rfl
  rw [recordedIn_sessionRestore, hcleanup, List.append_nil] at hactions
  rw [hcleanup] at hsent
  refine ⟨last, actions, client, hrun, hphase, hclient, ?_, ⟨by decide, by decide +kernel⟩, ?_⟩
  · have hall : [sessionEnvelope 1] ++ (List.range' 2 (n + 1)).map sessionEnvelope =
        (List.range' 1 (n + 2)).map sessionEnvelope := by
      have hcons : List.range' 1 (n + 2) = 1 :: List.range' 2 (n + 1) := List.range'_succ
      rw [hcons]
      rfl
    rw [hall, List.pairwise_map]
    exact List.pairwise_lt_range'
  · have hkept : ([sessionEnvelope 1] ++ (List.range' 2 (n + 1)).map sessionEnvelope).rtake
        REPLAY_BUFFER_CAPACITY = (List.range' 3 n).map sessionEnvelope := by
      have hsplit : [sessionEnvelope 1] ++ (List.range' 2 (n + 1)).map sessionEnvelope =
          [sessionEnvelope 1, sessionEnvelope 2] ++ (List.range' 3 n).map sessionEnvelope := by
        have hcons : List.range' 2 (n + 1) = 2 :: List.range' 3 n := List.range'_succ
        rw [hcons]
        rfl
      have hlength : [sessionEnvelope 1, sessionEnvelope 2].length = ([sessionEnvelope 1,
          sessionEnvelope 2] ++ (List.range' 3 n).map sessionEnvelope).length - n := by
        rw [List.length_append, List.length_map, List.length_range', Nat.add_sub_cancel]
      rw [hn, hsplit]
      unfold List.rtake
      exact List.drop_left' hlength
    rw [hactions, hkept, hsent, List.count_eq_zero]
    intro hmem
    obtain ⟨hlater, -⟩ := List.mem_filter.1 ((List.mem_append.1 hmem).resolve_right (by simp))
    obtain ⟨i, hi, heq⟩ := List.mem_map.1 hlater
    have hle := (List.mem_range'_1.1 hi).1
    have hsame : i = 2 := congrArg ActionEnvelope.serverSeq heq
    omega

end

end ProtocolServer

end NexgileIde.AgentHost
