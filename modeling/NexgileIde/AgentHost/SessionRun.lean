import NexgileIde.AgentHost.SessionConvergence

/-!
# A session subscription converges

In every run the confirmed state is that of the server's log up to what has been
processed, and the pending actions are those that no processed envelope answers.
A step lemma for each part of the system keeps this; the run lemma follows by
induction.
-/
namespace NexgileIde.AgentHost

variable {S A : Type}

/-! ## The server -/

/-- What the server has given out, and where the client's actions are. -/
structure ServerOk (setting : Setting S A) (σ : System S A) : Prop where
  log : σ.log = σ.delivered ++ envelopes σ.channel
  ascending : σ.log.Pairwise fun e e' => e.serverSeq < e'.serverSeq
  positive : ∀ e ∈ σ.log, 0 < e.serverSeq
  bounded : ∀ e ∈ σ.log, e.serverSeq ≤ σ.serverSeq
  relevant : ∀ e ∈ σ.log, setting.cls.isRelevantEnvelope e = true
  unanswered : ∀ p ∈ σ.unanswered, p.clientSeq < σ.nextClientSeq
  dispatched : ∀ p ∈ σ.dispatched, p.clientSeq < σ.nextClientSeq
  answered : ∀ e ∈ σ.log, ∀ p, answers setting.cls.clientId e p = true →
    p.clientSeq < σ.nextClientSeq
  accounted : ∀ p ∈ σ.dispatched,
    p ∈ σ.unanswered ∨ isAnsweredIn setting.cls.clientId σ.log p = true

section Server

variable {setting : Setting S A} {σ : System S A}

theorem serverOk_initial (serverSeq : ℕ) : ServerOk setting (System.initial serverSeq) := by
  constructor <;> simp [System.initial, envelopes]

theorem ServerOk.delivered_subset (h : ServerOk setting σ) {e : ActionEnvelope A}
    (he : e ∈ σ.delivered) : e ∈ σ.log := by
  rw [h.log]
  exact List.mem_append_left _ he

/-- One more envelope, which may answer an action that then leaves `unanswered`. -/
theorem ServerOk.emit {e : ActionEnvelope A} {unanswered : List (PendingAction A)}
    (h : ServerOk setting σ) (hseq : e.serverSeq = σ.serverSeq + 1)
    (hrelevant : setting.cls.isRelevantEnvelope e = true)
    (hkept : ∀ p ∈ unanswered, p ∈ σ.unanswered)
    (hleft : ∀ p ∈ σ.unanswered, p ∈ unanswered ∨ answers setting.cls.clientId e p = true)
    (hold : ∀ p, answers setting.cls.clientId e p = true → p.clientSeq < σ.nextClientSeq) :
    ServerOk setting { σ with
      unanswered := unanswered
      serverSeq := σ.serverSeq + 1
      log := σ.log ++ [e]
      channel := σ.channel ++ [.envelope e] } := by
  refine ⟨?_, ?_, ?_, ?_, ?_, fun p hp => h.unanswered p (hkept p hp), h.dispatched, ?_, ?_⟩
  · show σ.log ++ [e] = σ.delivered ++ envelopes (σ.channel ++ [.envelope e])
    rw [h.log]
    simp [envelopes, Message.toEnvelope?]
  · refine List.pairwise_append.mpr ⟨h.ascending, List.pairwise_singleton _ _, ?_⟩
    intro e' he' e'' he''
    rw [List.mem_singleton.mp he'', hseq]
    exact Nat.lt_succ_of_le (h.bounded e' he')
  · intro e' he'
    rcases List.mem_append.mp he' with hin | hin
    · exact h.positive e' hin
    · rw [List.mem_singleton.mp hin, hseq]
      exact Nat.succ_pos _
  · intro e' he'
    rcases List.mem_append.mp he' with hin | hin
    · exact Nat.le_succ_of_le (h.bounded e' hin)
    · rw [List.mem_singleton.mp hin, hseq]
  · intro e' he'
    rcases List.mem_append.mp he' with hin | hin
    · exact h.relevant e' hin
    · rw [List.mem_singleton.mp hin]
      exact hrelevant
  · intro e' he' p hp
    rcases List.mem_append.mp he' with hin | hin
    · exact h.answered e' hin p hp
    · rw [List.mem_singleton.mp hin] at hp
      exact hold p hp
  · intro p hp
    simp only [isAnsweredIn_concat, Bool.or_eq_true]
    rcases h.accounted p hp with hwaits | hanswered
    · rcases hleft p hwaits with hstill | hnow
      · exact .inl hstill
      · exact .inr (.inr hnow)
    · exact .inr (.inl hanswered)

/-- The client dispatches an action, to this subscription or elsewhere. -/
theorem ServerOk.dispatch {dispatched : List (PendingAction A)} {client : Subscription S A}
    (h : ServerOk setting σ) (action : A)
    (hdispatched : ∀ p ∈ dispatched, p ∈ σ.dispatched ∨ p = ⟨σ.nextClientSeq, action⟩) :
    ServerOk setting { σ with
      unanswered := σ.unanswered ++ [⟨σ.nextClientSeq, action⟩]
      dispatched := dispatched
      nextClientSeq := σ.nextClientSeq + 1
      client := client } := by
  refine ⟨h.log, h.ascending, h.positive, h.bounded, h.relevant, ?_, ?_, ?_, ?_⟩
  · intro p hp
    rcases List.mem_append.mp hp with hin | hin
    · exact Nat.lt_succ_of_lt (h.unanswered p hin)
    · rw [List.mem_singleton.mp hin]
      exact Nat.lt_succ_self _
  · intro p hp
    rcases hdispatched p hp with hin | rfl
    · exact Nat.lt_succ_of_lt (h.dispatched p hin)
    · exact Nat.lt_succ_self _
  · intro e he p hp
    exact Nat.lt_succ_of_lt (h.answered e he p hp)
  · intro p hp
    rcases hdispatched p hp with hin | rfl
    · exact (h.accounted p hin).imp_left (List.mem_append_left _)
    · exact .inl (List.mem_append_right _ (List.mem_singleton.mpr rfl))

/-- A change that leaves the log, the actions and the envelopes on their way as they are. -/
theorem ServerOk.congr {σ' : System S A} (h : ServerOk setting σ) (hlog : σ'.log = σ.log)
    (hdelivered : σ'.delivered ++ envelopes σ'.channel = σ.delivered ++ envelopes σ.channel)
    (hserverSeq : σ.serverSeq ≤ σ'.serverSeq) (hunanswered : σ'.unanswered = σ.unanswered)
    (hdispatched : σ'.dispatched = σ.dispatched)
    (hnext : σ'.nextClientSeq = σ.nextClientSeq) : ServerOk setting σ' := by
  constructor
  · rw [hlog, hdelivered, h.log]
  · rw [hlog]
    exact h.ascending
  · rw [hlog]
    exact h.positive
  · intro e he
    rw [hlog] at he
    exact (h.bounded e he).trans hserverSeq
  · rw [hlog]
    exact h.relevant
  · rw [hunanswered, hnext]
    exact h.unanswered
  · rw [hdispatched, hnext]
    exact h.dispatched
  · rw [hlog, hnext]
    exact h.answered
  · rw [hdispatched, hunanswered, hlog]
    exact h.accounted

end Server

/-! ## The channel -/

/-- One message may stand before the other. -/
def InOrder : Message S A → Message S A → Prop
  | .envelope e, .snapshot none _ fromSeq => e.serverSeq ≤ fromSeq
  | .snapshot _ _ fromSeq, .envelope e => fromSeq < e.serverSeq
  | _, _ => True

/-- A snapshot is the state of the log up to its number. -/
structure SnapshotOk (setting : Setting S A) (σ : System S A) (state : S) (fromSeq : ℕ) :
    Prop where
  state : state = foldLog setting.cls.reducer setting.start (upTo σ.log fromSeq)
  bounded : fromSeq ≤ σ.serverSeq

/-- What the client may rely on in a message, after it has applied some envelopes. -/
def MessageOk (setting : Setting S A) (applied : List (ActionEnvelope A)) (σ : System S A) :
    Message S A → Prop
  | .snapshot none state fromSeq =>
    SnapshotOk setting σ state fromSeq ∧ ∀ e ∈ σ.delivered, e.serverSeq ≤ fromSeq
  | .snapshot (some id) state fromSeq =>
    SnapshotOk setting σ state fromSeq ∧ id < σ.nextRequest ∧
      (σ.refresh.map (·.id) = some id → ∀ e ∈ applied, e.serverSeq ≤ fromSeq)
  | _ => True

structure ChannelOk (setting : Setting S A) (applied : List (ActionEnvelope A))
    (σ : System S A) : Prop where
  messages : ∀ m ∈ σ.channel, MessageOk setting applied σ m
  ordered : σ.channel.Pairwise InOrder
  /-- Nothing is applied while a request is waited for. -/
  buffering : σ.refresh ≠ none → σ.isBuffering = true
  requested : ∀ request, σ.refresh = some request → request.id < σ.nextRequest ∧
    ∀ state fromSeq, request.answer = some (state, fromSeq) →
      SnapshotOk setting σ state fromSeq ∧ ∀ e ∈ applied, e.serverSeq ≤ fromSeq

section Channel

variable {setting : Setting S A} {σ : System S A} {applied : List (ActionEnvelope A)}

theorem channelOk_initial (serverSeq : ℕ) :
    ChannelOk setting [] (System.initial serverSeq) := by
  constructor <;> simp [System.initial]

theorem upTo_append_of_lt (log : List (ActionEnvelope A)) {es : List (ActionEnvelope A)}
    {fromSeq : ℕ} (h : ∀ e ∈ es, fromSeq < e.serverSeq) :
    upTo (log ++ es) fromSeq = upTo log fromSeq := by
  have hnone : es.filter (·.serverSeq ≤ fromSeq) = [] := by
    apply List.filter_eq_nil_iff.mpr
    intro e he
    have := h e he
    simp only [decide_eq_true_eq]
    omega
  unfold upTo
  rw [List.filter_append, hnone, List.append_nil]

theorem upTo_eq_self {log : List (ActionEnvelope A)} {fromSeq : ℕ}
    (h : ∀ e ∈ log, e.serverSeq ≤ fromSeq) : upTo log fromSeq = log := by
  apply List.filter_eq_self.mpr
  intro e he
  simpa using h e he

/-- The log grows behind the snapshot. -/
theorem SnapshotOk.mono {σ' : System S A} {state : S} {fromSeq : ℕ}
    (h : SnapshotOk setting σ state fromSeq) {es : List (ActionEnvelope A)}
    (hlog : σ'.log = σ.log ++ es) (hes : ∀ e ∈ es, σ.serverSeq < e.serverSeq)
    (hseq : σ.serverSeq ≤ σ'.serverSeq) : SnapshotOk setting σ' state fromSeq := by
  refine ⟨?_, h.bounded.trans hseq⟩
  rw [hlog, upTo_append_of_lt]
  · exact h.state
  · intro e he
    exact h.bounded.trans_lt (hes e he)

/-- The state of the server as it is now. -/
theorem snapshotOk_now (h : ServerOk setting σ) :
    SnapshotOk setting σ (σ.serverState setting) σ.serverSeq := by
  refine ⟨?_, le_rfl⟩
  rw [upTo_eq_self h.bounded]
  rfl

/-- What is behind a snapshot in the channel is behind it in the log. -/
theorem upTo_log_eq (h : ServerOk setting σ) {request : Option ℕ} {state : S} {fromSeq : ℕ}
    {rest : List (Message S A)} (hchannel : σ.channel = .snapshot request state fromSeq :: rest)
    (hordered : σ.channel.Pairwise InOrder) : upTo σ.log fromSeq = upTo σ.delivered fromSeq := by
  rw [h.log, hchannel]
  apply upTo_append_of_lt
  intro e he
  rw [hchannel] at hordered
  obtain ⟨m, hm, hme⟩ := List.mem_filterMap.mp he
  cases m with
  | envelope e' =>
    obtain rfl : e' = e := Option.some.inj hme
    rcases List.mem_cons.mp hm with heq | hin
    · cases heq
    · exact (List.pairwise_cons.mp hordered).1 _ hin
  | snapshot => cases hme
  | failed => cases hme

/-- The messages that are left keep what holds of them, when nothing was applied
under a request that is still waited for. -/
theorem ChannelOk.mono {σ' : System S A} {applied' : List (ActionEnvelope A)}
    (h : ChannelOk setting applied σ) (hchannel : σ'.channel.Sublist σ.channel)
    (hsnapshot : ∀ state fromSeq, SnapshotOk setting σ state fromSeq →
      SnapshotOk setting σ' state fromSeq)
    (hdelivered : ∀ state fromSeq, .snapshot none state fromSeq ∈ σ'.channel →
      ∀ e ∈ σ'.delivered, e ∈ σ.delivered ∨ e.serverSeq ≤ fromSeq)
    (hnext : σ'.nextRequest = σ.nextRequest)
    (hrefresh : σ'.refresh = none ∨ σ'.refresh = σ.refresh ∧
      (σ.refresh ≠ none → σ'.isBuffering = true ∧ applied' = applied)) :
    ChannelOk setting applied' σ' := by
  refine ⟨?_, h.ordered.sublist hchannel, ?_, ?_⟩
  · intro m hm
    have hok := h.messages m (hchannel.subset hm)
    match m, hm, hok with
    | .envelope _, _, _ => trivial
    | .failed _, _, _ => trivial
    | .snapshot none state fromSeq, hm, ⟨hstate, hcovers⟩ =>
      refine ⟨hsnapshot state fromSeq hstate, ?_⟩
      intro e he
      exact (hdelivered state fromSeq hm e he).elim (hcovers e) id
    | .snapshot (some id) state fromSeq, _, ⟨hstate, hid, hcovers⟩ =>
      refine ⟨hsnapshot state fromSeq hstate, hnext ▸ hid, ?_⟩
      intro hcurrent
      rcases hrefresh with hnone | ⟨hsame, happlied⟩
      · rw [hnone] at hcurrent
        cases hcurrent
      · rw [hsame] at hcurrent
        have hsome : σ.refresh ≠ none := by
          intro hnone
          rw [hnone] at hcurrent
          cases hcurrent
        rw [(happlied hsome).2]
        exact hcovers hcurrent
  · intro hsome
    rcases hrefresh with hnone | ⟨hsame, happlied⟩
    · exact absurd hnone hsome
    · exact (happlied (hsame ▸ hsome)).1
  · intro request hrequest
    rcases hrefresh with hnone | ⟨hsame, happlied⟩
    · rw [hnone] at hrequest
      cases hrequest
    · rw [hsame] at hrequest
      obtain ⟨hid, hanswer⟩ := h.requested request hrequest
      refine ⟨hnext ▸ hid, ?_⟩
      intro state fromSeq heq
      obtain ⟨hstate, hcovers⟩ := hanswer state fromSeq heq
      rw [(happlied (by simp [hrequest])).2]
      exact ⟨hsnapshot state fromSeq hstate, hcovers⟩

/-- One more message is sent. -/
theorem ChannelOk.push {m : Message S A} (h : ChannelOk setting applied σ)
    (hmessage : MessageOk setting applied σ m) (hordered : ∀ m' ∈ σ.channel, InOrder m' m) :
    ChannelOk setting applied { σ with channel := σ.channel ++ [m] } := by
  have hframe : ∀ m', MessageOk setting applied σ m' →
      MessageOk setting applied { σ with channel := σ.channel ++ [m] } m' := by
    intro m' hm'
    match m', hm' with
    | .envelope _, _ => trivial
    | .failed _, _ => trivial
    | .snapshot none _ _, ⟨hstate, hcovers⟩ => exact ⟨⟨hstate.state, hstate.bounded⟩, hcovers⟩
    | .snapshot (some _) _ _, ⟨hstate, hcovers⟩ => exact ⟨⟨hstate.state, hstate.bounded⟩, hcovers⟩
  refine ⟨?_, ?_, h.buffering, ?_⟩
  · intro m' hm'
    rcases List.mem_append.mp hm' with hin | hin
    · exact hframe m' (h.messages m' hin)
    · rw [List.mem_singleton.mp hin]
      exact hframe m hmessage
  · refine List.pairwise_append.mpr ⟨h.ordered, List.pairwise_singleton _ _, ?_⟩
    intro m' hm' m'' hm''
    rw [List.mem_singleton.mp hm'']
    exact hordered m' hm'
  · intro request hrequest
    obtain ⟨hid, hanswer⟩ := h.requested request hrequest
    refine ⟨hid, ?_⟩
    intro state fromSeq heq
    obtain ⟨hstate, hcovers⟩ := hanswer state fromSeq heq
    exact ⟨⟨hstate.state, hstate.bounded⟩, hcovers⟩

/-- The server's part of the state moves on. -/
theorem ChannelOk.emit {e : ActionEnvelope A} {unanswered : List (PendingAction A)}
    (h : ChannelOk setting applied σ) (hseq : e.serverSeq = σ.serverSeq + 1) :
    ChannelOk setting applied { σ with
      unanswered := unanswered
      serverSeq := σ.serverSeq + 1
      log := σ.log ++ [e]
      channel := σ.channel ++ [.envelope e] } := by
  have hgrown : ChannelOk setting applied { σ with
      unanswered := unanswered
      serverSeq := σ.serverSeq + 1
      log := σ.log ++ [e] } := by
    refine h.mono (List.Sublist.refl _) ?_ (fun _ _ _ e he => .inl he) rfl
      (.inr ⟨rfl, fun hsome => ⟨h.buffering hsome, rfl⟩⟩)
    intro state fromSeq hstate
    refine hstate.mono rfl ?_ (Nat.le_succ _)
    intro e' he'
    rw [List.mem_singleton.mp he', hseq]
    exact Nat.lt_succ_self _
  refine hgrown.push trivial ?_
  intro m hm
  match m, h.messages m hm with
  | .envelope _, _ => trivial
  | .failed _, _ => trivial
  | .snapshot none _ fromSeq, ⟨hstate, _⟩ =>
    exact hstate.bounded.trans_lt (hseq ▸ Nat.lt_succ_self _)
  | .snapshot (some _) _ fromSeq, ⟨hstate, _⟩ =>
    exact hstate.bounded.trans_lt (hseq ▸ Nat.lt_succ_self _)

/-- The client subscribes while envelopes are being buffered. -/
theorem ChannelOk.subscribe (h : ChannelOk setting applied σ) (hbuffering : σ.isBuffering = true) :
    ChannelOk setting applied { σ with
      refresh := some ⟨σ.nextRequest, none⟩
      nextRequest := σ.nextRequest + 1 } := by
  refine ⟨?_, h.ordered, fun _ => hbuffering, ?_⟩
  · intro m hm
    match m, h.messages m hm with
    | .envelope _, _ => trivial
    | .failed _, _ => trivial
    | .snapshot none _ _, ⟨hstate, hcovers⟩ => exact ⟨⟨hstate.state, hstate.bounded⟩, hcovers⟩
    | .snapshot (some id) _ _, ⟨hstate, hid, _⟩ =>
      refine ⟨⟨hstate.state, hstate.bounded⟩, Nat.lt_succ_of_lt hid, ?_⟩
      intro hcurrent
      exact absurd (Option.some.inj hcurrent) (Nat.ne_of_gt hid)
  · intro request hrequest
    obtain rfl := Option.some.inj hrequest
    exact ⟨Nat.lt_succ_self _, fun _ _ hanswer => by cases hanswer⟩

/-- The server computes a snapshot for the request that is waited for. -/
theorem ChannelOk.compute {request : SubscribeRequest S} (h : ChannelOk setting applied σ)
    (hserver : ServerOk setting σ) (happlied : ∀ e ∈ applied, e ∈ σ.delivered)
    (hrequest : σ.refresh = some request) :
    ChannelOk setting applied { σ with
      refresh := some { request with answer := some (σ.serverState setting, σ.serverSeq) } } := by
  refine ⟨?_, h.ordered, fun _ => h.buffering (by simp [hrequest]), ?_⟩
  · intro m hm
    match m, h.messages m hm with
    | .envelope _, _ => trivial
    | .failed _, _ => trivial
    | .snapshot none _ _, ⟨hstate, hcovers⟩ => exact ⟨⟨hstate.state, hstate.bounded⟩, hcovers⟩
    | .snapshot (some _) _ _, ⟨hstate, hid, hcovers⟩ =>
      exact ⟨⟨hstate.state, hstate.bounded⟩, hid, fun hcurrent => hcovers (by rw [hrequest]; exact hcurrent)⟩
  · intro request' hrequest'
    obtain rfl := Option.some.inj hrequest'
    refine ⟨(h.requested request hrequest).1, ?_⟩
    intro state fromSeq hanswer
    obtain ⟨rfl, rfl⟩ := Prod.mk.inj (Option.some.inj hanswer)
    have hnow := snapshotOk_now hserver
    exact ⟨⟨hnow.state, hnow.bounded⟩,
      fun e he => hserver.bounded e (hserver.delivered_subset (happlied e he))⟩

end Channel

/-! ## A run -/

section Run

variable (clientId uri : String) (isSessionAction : A → Bool) (reducer : S → A → S) (start : S)

def sessionSetting : Setting S A :=
  ⟨sessionStateSubscription clientId uri isSessionAction reducer, uri, start⟩

/-- The invariant of a run: `applied` has gone into the confirmed state. -/
structure Converging (σ : System S A) (applied : List (ActionEnvelope A)) : Prop where
  server : ServerOk (sessionSetting clientId uri isSessionAction reducer start) σ
  channel : ChannelOk (sessionSetting clientId uri isSessionAction reducer start) applied σ
  client : ClientOk clientId reducer start σ.client σ.dispatched σ.delivered applied

theorem converging_initial (serverSeq : ℕ) :
    Converging clientId uri isSessionAction reducer start (System.initial serverSeq) [] := by
  refine ⟨serverOk_initial serverSeq, channelOk_initial serverSeq, ?_⟩
  constructor <;> simp [System.initial, Subscription.initial, OptimisticExact]

variable {clientId uri isSessionAction reducer start}
variable {σ σ' : System S A} {applied : List (ActionEnvelope A)}

theorem ClientOk.applied_subset {sub : Subscription S A} {dispatched : List (PendingAction A)}
    {delivered : List (ActionEnvelope A)}
    (h : ClientOk clientId reducer start sub dispatched delivered applied) :
    ∀ e ∈ applied, e ∈ delivered := by
  intro e he
  rw [h.delivered]
  exact List.mem_append_left _ he

theorem Converging.emit {origin : Option ActionOrigin} {action : A}
    {rejectionReason : Option String} {unanswered : List (PendingAction A)}
    (h : Converging clientId uri isSessionAction reducer start σ applied)
    (hkept : ∀ p ∈ unanswered, p ∈ σ.unanswered)
    (hleft : ∀ p ∈ σ.unanswered, p ∈ unanswered ∨ origin = some ⟨clientId, p.clientSeq⟩)
    (hold : ∀ clientSeq, origin = some ⟨clientId, clientSeq⟩ → clientSeq < σ.nextClientSeq)
    (hemit : System.emit (sessionSetting clientId uri isSessionAction reducer start)
      { σ with unanswered := unanswered } origin action rejectionReason = some σ') :
    Converging clientId uri isSessionAction reducer start σ' applied := by
  unfold System.emit at hemit
  dsimp only at hemit
  split at hemit
  · rename_i hrelevant
    obtain rfl := Option.some.inj hemit
    refine ⟨h.server.emit rfl hrelevant hkept ?_ ?_, h.channel.emit rfl, h.client⟩
    · intro p hp
      exact (hleft p hp).imp_right decide_eq_true
    · intro p hp
      exact hold p.clientSeq (of_decide_eq_true hp)
  · cases hemit

theorem Converging.answer {index : ℕ} {rejectionReason : Option String}
    (h : Converging clientId uri isSessionAction reducer start σ applied)
    (hanswer : σ.answer (sessionSetting clientId uri isSessionAction reducer start) index
      rejectionReason = some σ') :
    Converging clientId uri isSessionAction reducer start σ' applied := by
  unfold System.answer at hanswer
  cases hp : σ.unanswered[index]? with
  | none =>
    rw [hp] at hanswer
    cases hanswer
  | some p =>
    rw [hp] at hanswer
    obtain ⟨hindex, heq⟩ := List.getElem?_eq_some_iff.mp hp
    refine h.emit (fun q hq => List.mem_of_mem_eraseIdx hq) ?_ ?_ hanswer
    · intro q hq
      obtain ⟨i, hi⟩ := List.mem_iff_getElem?.mp hq
      by_cases hsame : i = index
      · subst hsame
        rw [hp] at hi
        obtain rfl := Option.some.inj hi
        exact .inr rfl
      · exact .inl (List.mem_eraseIdx_iff_getElem?.mpr ⟨i, hsame, hi⟩)
    · intro clientSeq hseq
      obtain rfl := congrArg ActionOrigin.clientSeq (Option.some.inj hseq)
      exact h.server.unanswered p (heq ▸ List.getElem_mem hindex)

theorem Converging.deliver_envelope {e : ActionEnvelope A} {rest : List (Message S A)}
    (h : Converging clientId uri isSessionAction reducer start σ applied)
    (hchannel : σ.channel = .envelope e :: rest) :
    ∃ applied', Converging clientId uri isSessionAction reducer start { σ with
      channel := rest
      delivered := σ.delivered ++ [e]
      client := (sessionStateSubscription clientId uri isSessionAction reducer).receiveEnvelope
        σ.client e } applied' := by
  have hlog := h.server.log
  rw [hchannel] at hlog
  have hrelevant := h.server.relevant e (by simp [hlog, envelopes, Message.toEnvelope?])
  have hordered := h.channel.ordered
  rw [hchannel] at hordered
  have hrest : rest.Sublist σ.channel := hchannel ▸ List.sublist_cons_self _ rest
  have hserver : ServerOk (sessionSetting clientId uri isSessionAction reducer start) { σ with
      channel := rest
      delivered := σ.delivered ++ [e]
      client := (sessionStateSubscription clientId uri isSessionAction reducer).receiveEnvelope
        σ.client e } := by
    refine h.server.congr rfl ?_ le_rfl rfl rfl rfl
    rw [hchannel]
    simp [envelopes, Message.toEnvelope?]
  have hcovers : ∀ state fromSeq, .snapshot none state fromSeq ∈ rest →
      ∀ e' ∈ σ.delivered ++ [e], e' ∈ σ.delivered ∨ e'.serverSeq ≤ fromSeq := by
    intro state fromSeq hm e' he'
    rcases List.mem_append.mp he' with hin | hin
    · exact .inl hin
    · rw [List.mem_singleton.mp hin]
      exact .inr ((List.pairwise_cons.mp hordered).1 _ hm)
  rcases h.client.receiveEnvelope uri isSessionAction hrelevant with
    ⟨hwaits, hbuffer, hclient⟩ | ⟨hconfirmed, hawaiting, hclient⟩
  · refine ⟨applied, hserver, ?_, hclient⟩
    refine h.channel.mono hrest (fun _ _ hstate => ⟨hstate.state, hstate.bounded⟩) hcovers rfl
      (.inr ⟨rfl, fun _ => ⟨?_, rfl⟩⟩)
    show (Option.isNone _ || _) = true
    rw [hbuffer]
    simpa using hwaits
  · refine ⟨σ.delivered ++ [e], hserver, ?_, hclient⟩
    refine h.channel.mono hrest (fun _ _ hstate => ⟨hstate.state, hstate.bounded⟩) hcovers rfl
      (.inr ⟨rfl, fun hsome => ?_⟩)
    have hbuffering := h.channel.buffering hsome
    simp [System.isBuffering, hawaiting, hconfirmed] at hbuffering

theorem Converging.deliver_snapshot {request : Option ℕ} {state : S} {fromSeq : ℕ}
    {rest : List (Message S A)}
    (h : Converging clientId uri isSessionAction reducer start σ applied)
    (hchannel : σ.channel = .snapshot request state fromSeq :: rest)
    (hrequest : request = none ∨ request = σ.refresh.map (·.id)) :
    Converging clientId uri isSessionAction reducer start { σ with
      channel := rest
      refresh := none
      client := (sessionStateSubscription clientId uri isSessionAction reducer).handleSnapshot
        σ.client state fromSeq } σ.delivered := by
  have hmessage := h.channel.messages (.snapshot request state fromSeq) (by simp [hchannel])
  have hfacts : SnapshotOk (sessionSetting clientId uri isSessionAction reducer start) σ state
      fromSeq ∧ ∀ e ∈ applied, e.serverSeq ≤ fromSeq := by
    cases request with
    | none =>
      exact ⟨hmessage.1, fun e he => hmessage.2 e (h.client.applied_subset e he)⟩
    | some id =>
      refine ⟨hmessage.1, hmessage.2.2 ?_⟩
      rcases hrequest with hnone | hcurrent
      · cases hnone
      · exact hcurrent.symm
  have hstate := hfacts.1.state
  rw [upTo_log_eq h.server hchannel h.channel.ordered] at hstate
  have hlog := h.server.log
  have hascending : σ.delivered.Pairwise fun e e' => e.serverSeq < e'.serverSeq :=
    h.server.ascending.sublist (hlog ▸ List.sublist_append_left _ _)
  refine ⟨?_, ?_, ?_⟩
  · refine h.server.congr rfl ?_ le_rfl rfl rfl rfl
    rw [hchannel]
    rfl
  · exact h.channel.mono (hchannel ▸ List.sublist_cons_self _ rest)
      (fun _ _ hstate => ⟨hstate.state, hstate.bounded⟩) (fun _ _ _ _ he => .inl he) rfl (.inl rfl)
  · rw [hstate]
    exact (h.client.handleSnapshot uri isSessionAction hascending hfacts.2).1

/-- A message is dropped, and the request that it answers is no longer waited for,
or stays as it is. -/
theorem Converging.drop {m : Message S A} {rest : List (Message S A)}
    (h : Converging clientId uri isSessionAction reducer start σ applied)
    (hchannel : σ.channel = m :: rest) (hm : m.toEnvelope? = none) :
    Converging clientId uri isSessionAction reducer start { σ with channel := rest } applied := by
  refine ⟨?_, ?_, h.client⟩
  · refine h.server.congr rfl ?_ le_rfl rfl rfl rfl
    rw [hchannel]
    simp [envelopes, hm]
  · exact h.channel.mono (hchannel ▸ List.sublist_cons_self m rest)
      (fun _ _ hstate => ⟨hstate.state, hstate.bounded⟩) (fun _ _ _ _ he => .inl he) rfl
      (.inr ⟨rfl, fun hsome => ⟨h.channel.buffering hsome, rfl⟩⟩)

theorem Converging.cancelSnapshotRefresh
    (h : Converging clientId uri isSessionAction reducer start σ applied) :
    ∃ applied', Converging clientId uri isSessionAction reducer start { σ with
      refresh := none
      client := (sessionStateSubscription clientId uri isSessionAction
        reducer).cancelSnapshotRefresh σ.client } applied' := by
  obtain ⟨applied', hclient⟩ :=
    h.client.cancelSnapshotRefresh uri isSessionAction
  refine ⟨applied', ?_, ?_, hclient⟩
  · exact h.server.congr rfl rfl le_rfl rfl rfl rfl
  · exact h.channel.mono (List.Sublist.refl _)
      (fun _ _ hstate => ⟨hstate.state, hstate.bounded⟩) (fun _ _ _ _ he => .inl he) rfl (.inl rfl)

theorem Converging.deliver
    (h : Converging clientId uri isSessionAction reducer start σ applied)
    (hdeliver : σ.deliver (sessionSetting clientId uri isSessionAction reducer start) = some σ') :
    ∃ applied', Converging clientId uri isSessionAction reducer start σ' applied' := by
  unfold System.deliver at hdeliver
  cases hchannel : σ.channel with
  | nil =>
    rw [hchannel] at hdeliver
    cases hdeliver
  | cons m rest =>
    rw [hchannel] at hdeliver
    cases m with
    | envelope e =>
      obtain rfl := Option.some.inj hdeliver
      exact h.deliver_envelope hchannel
    | snapshot request state fromSeq =>
      dsimp only at hdeliver
      split at hdeliver
      · rename_i hrequest
        obtain rfl := Option.some.inj hdeliver
        exact ⟨σ.delivered, h.deliver_snapshot hchannel hrequest⟩
      · obtain rfl := Option.some.inj hdeliver
        exact ⟨applied, h.drop hchannel rfl⟩
    | failed request =>
      dsimp only at hdeliver
      split at hdeliver
      · obtain rfl := Option.some.inj hdeliver
        exact (h.drop hchannel rfl).cancelSnapshotRefresh
      · obtain rfl := Option.some.inj hdeliver
        exact ⟨applied, h.drop hchannel rfl⟩

/-- Every event keeps the invariant. -/
theorem Converging.step {event : Event A}
    (h : Converging clientId uri isSessionAction reducer start σ applied)
    (hstep : σ.step (sessionSetting clientId uri isSessionAction reducer start) event = some σ') :
    ∃ applied', Converging clientId uri isSessionAction reducer start σ' applied' := by
  have hsnapshot : ∀ {τ : System S A}, τ.log = σ.log → τ.serverSeq = σ.serverSeq →
      ∀ state fromSeq,
        SnapshotOk (sessionSetting clientId uri isSessionAction reducer start) σ state fromSeq →
        SnapshotOk (sessionSetting clientId uri isSessionAction reducer start) τ state fromSeq :=
    fun hlog hseq _ _ hstate => ⟨hlog ▸ hstate.state, hseq ▸ hstate.bounded⟩
  have hkeep : ∀ {τ : System S A}, τ.delivered = σ.delivered → ∀ state fromSeq,
      (.snapshot none state fromSeq : Message S A) ∈ τ.channel →
      ∀ e ∈ τ.delivered, e ∈ σ.delivered ∨ e.serverSeq ≤ fromSeq :=
    fun hdelivered _ _ _ _ he => .inl (hdelivered ▸ he)
  cases event with
  | applyOptimistic action =>
    obtain rfl := Option.some.inj hstep
    refine ⟨applied, h.server.dispatch action ?_, ?_, ?_⟩
    · intro p hp
      exact (List.mem_append.mp hp).imp_right List.mem_singleton.mp
    · exact h.channel.mono (List.Sublist.refl _) (hsnapshot rfl rfl) (hkeep rfl) rfl
        (.inr ⟨rfl, fun hsome => ⟨h.channel.buffering hsome, rfl⟩⟩)
    · refine h.client.applyOptimistic (p := ⟨σ.nextClientSeq, action⟩) ?_ ?_
      · intro q hq
        exact Nat.ne_of_lt (h.server.dispatched q hq)
      · apply List.any_eq_false.mpr
        intro e he hanswers
        have hlt := h.server.answered e (h.server.delivered_subset (h.client.applied_subset e he))
          _ hanswers
        exact absurd hlt (Nat.lt_irrefl _)
  | dispatchElsewhere action =>
    obtain rfl := Option.some.inj hstep
    exact ⟨applied, h.server.dispatch action fun p hp => .inl hp,
      h.channel.mono (List.Sublist.refl _) (hsnapshot rfl rfl) (hkeep rfl) rfl
        (.inr ⟨rfl, fun hsome => ⟨h.channel.buffering hsome, rfl⟩⟩), h.client⟩
  | accept index => exact ⟨applied, h.answer hstep⟩
  | reject index reason =>
    simp only [System.step] at hstep
    split at hstep
    · cases hstep
    · exact ⟨applied, h.answer hstep⟩
  | emit origin action rejectionReason =>
    simp only [System.step] at hstep
    split at hstep
    · cases hstep
    · rename_i hforeign
      refine ⟨applied, h.emit (fun p hp => hp) (fun p hp => .inl hp) ?_ hstep⟩
      intro clientSeq horigin
      exact absurd (by rw [horigin]; rfl) hforeign
  | skip =>
    obtain rfl := Option.some.inj hstep
    refine ⟨applied, h.server.congr rfl rfl (Nat.le_succ _) rfl rfl rfl, ?_, h.client⟩
    exact h.channel.mono (List.Sublist.refl _)
      (fun _ _ hstate => ⟨hstate.state, hstate.bounded.trans (Nat.le_succ _)⟩) (hkeep rfl) rfl
      (.inr ⟨rfl, fun hsome => ⟨h.channel.buffering hsome, rfl⟩⟩)
  | beginSnapshotRefresh =>
    obtain rfl := Option.some.inj hstep
    refine ⟨applied, h.server.congr rfl rfl le_rfl rfl rfl rfl, ?_, h.client.beginSnapshotRefresh⟩
    refine h.channel.mono (List.Sublist.refl _) (hsnapshot rfl rfl) (hkeep rfl) rfl
      (.inr ⟨rfl, fun _ => ⟨?_, rfl⟩⟩)
    simp [System.isBuffering, Subscription.beginSnapshotRefresh]
  | cancelSnapshotRefresh =>
    obtain rfl := Option.some.inj hstep
    exact h.cancelSnapshotRefresh
  | subscribe =>
    simp only [System.step] at hstep
    split at hstep
    · rename_i hguard
      obtain rfl := Option.some.inj hstep
      exact ⟨applied, h.server.congr rfl rfl le_rfl rfl rfl rfl,
        h.channel.subscribe (Bool.and_eq_true _ _ ▸ hguard).1, h.client⟩
    · cases hstep
  | compute =>
    obtain ⟨request, hrequest, rfl⟩ := Option.map_eq_some_iff.mp hstep
    exact ⟨applied, h.server.congr rfl rfl le_rfl rfl rfl rfl,
      h.channel.compute h.server h.client.applied_subset hrequest, h.client⟩
  | respond =>
    simp only [System.step] at hstep
    split at hstep
    · rename_i id state fromSeq hrequest
      obtain rfl := Option.some.inj hstep
      obtain ⟨hid, hanswer⟩ := h.channel.requested _ hrequest
      obtain ⟨hstate, hcovers⟩ := hanswer state fromSeq rfl
      refine ⟨applied, ?_, h.channel.push ⟨hstate, hid, fun _ => hcovers⟩ ?_, h.client⟩
      · refine h.server.congr rfl ?_ le_rfl rfl rfl rfl
        simp [envelopes, Message.toEnvelope?]
      · intro m _
        cases m <;> trivial
    · cases hstep
  | fail =>
    obtain ⟨request, hrequest, rfl⟩ := Option.map_eq_some_iff.mp hstep
    refine ⟨applied, ?_, h.channel.push trivial ?_, h.client⟩
    · refine h.server.congr rfl ?_ le_rfl rfl rfl rfl
      simp [envelopes, Message.toEnvelope?]
    · intro m _
      cases m <;> trivial
  | reseat =>
    obtain rfl := Option.some.inj hstep
    refine ⟨applied, ?_, h.channel.push ⟨snapshotOk_now h.server, ?_⟩ ?_, h.client⟩
    · refine h.server.congr rfl ?_ le_rfl rfl rfl rfl
      simp [envelopes, Message.toEnvelope?]
    · intro e he
      exact h.server.bounded e (h.server.delivered_subset he)
    · intro m hm
      cases m with
      | envelope e =>
        apply h.server.bounded e
        rw [h.server.log]
        exact List.mem_append_right _ (List.mem_filterMap.mpr ⟨_, hm, rfl⟩)
      | snapshot => trivial
      | failed => trivial
  | deliver => exact h.deliver hstep

/-- Every run keeps the invariant. -/
theorem Converging.run {events : List (Event A)}
    (h : Converging clientId uri isSessionAction reducer start σ applied)
    (hrun : σ.run (sessionSetting clientId uri isSessionAction reducer start) events = some σ') :
    ∃ applied', Converging clientId uri isSessionAction reducer start σ' applied' := by
  induction events generalizing σ applied with
  | nil =>
    obtain rfl := Option.some.inj hrun
    exact ⟨applied, h⟩
  | cons event events ih =>
    obtain ⟨middle, hstep, hrest⟩ := Option.bind_eq_some_iff.mp hrun
    obtain ⟨applied', hmiddle⟩ := h.step hstep
    exact ih hmiddle hrest

theorem upTo_lastDelivered
    (h : ServerOk (sessionSetting clientId uri isSessionAction reducer start) σ) :
    upTo σ.log σ.lastDelivered = σ.delivered := by
  have hascending := h.ascending
  have hpositive := h.positive
  rw [h.log] at hascending hpositive
  obtain ⟨hdelivered, -, hacross⟩ := List.pairwise_append.mp hascending
  unfold System.lastDelivered
  rw [h.log]
  cases hlast : σ.delivered.getLast? with
  | none =>
    rw [List.getLast?_eq_none_iff] at hlast
    rw [hlast] at hpositive ⊢
    exact upTo_append_of_lt [] hpositive
  | some last =>
    obtain ⟨front, hfront⟩ := List.getLast?_eq_some_iff.mp hlast
    have hmem : last ∈ σ.delivered := by simp [hfront]
    have hbehind : ∀ e ∈ envelopes σ.channel, last.serverSeq < e.serverSeq := hacross last hmem
    rw [Option.map_some, Option.getD_some, upTo_append_of_lt σ.delivered hbehind]
    apply upTo_eq_self
    intro e he
    rw [hfront] at he hdelivered
    rcases List.mem_append.mp he with hin | hin
    · exact ((List.pairwise_append.mp hdelivered).2.2 e hin last (by simp)).le
    · rw [List.mem_singleton.mp hin]

theorem Converging.processed
    (h : Converging clientId uri isSessionAction reducer start σ applied) :
    σ.processed = applied := by
  have hdelivered := h.client.delivered
  have hlength := congrArg List.length hdelivered
  rw [List.length_append] at hlength
  unfold System.processed System.buffered
  rw [hlength, Nat.add_sub_cancel, hdelivered, List.take_left]

/-- Where no refresh is awaited everything that was delivered has been applied. -/
theorem Converging.settled
    (h : Converging clientId uri isSessionAction reducer start σ applied)
    (hconfirmed : σ.client.verifiedValue ≠ none)
    (hawaiting : σ.client.awaitingSnapshotRefresh = false) : applied = σ.delivered := by
  rw [h.client.delivered, h.client.unbuffered hconfirmed hawaiting, Option.getD_none,
    List.append_nil]

/-- After everything is delivered no action is pending. -/
theorem Converging.pending_eq_nil
    (h : Converging clientId uri isSessionAction reducer start σ applied)
    (hchannel : σ.channel = []) (hunanswered : σ.unanswered = [])
    (happlied : applied = σ.delivered) : σ.client.pendingActions = [] := by
  rw [h.client.pending]
  apply List.filter_eq_nil_iff.mpr
  intro p hp
  have hlog := h.server.log
  rw [hchannel] at hlog
  have hanswered : p ∈ σ.unanswered ∨ isAnsweredIn clientId σ.log p = true :=
    h.server.accounted p hp
  rw [hunanswered, hlog] at hanswered
  rw [happlied]
  simpa [envelopes] using hanswered

/-- In every run of a session subscription: where no refresh is awaited the
verified state is that of the log up to the last delivered number, the value is
the pending actions on top of the verified state, and an action is pending until
an envelope that answers it has been processed. After everything is delivered the
value is the server's state. -/
theorem session_converges {serverSeq : ℕ} {events : List (Event A)}
    (hrun : (System.initial serverSeq).run
      (sessionSetting clientId uri isSessionAction reducer start) events = some σ) :
    (∀ s, σ.client.verifiedValue = some s →
      (σ.client.awaitingSnapshotRefresh = false →
        s = foldLog reducer start (upTo σ.log σ.lastDelivered)) ∧
      σ.client.value =
        some (.ok (σ.client.pendingActions.foldl (fun s p => reducer s p.action) s))) ∧
    σ.client.pendingActions = σ.dispatched.filter (!isAnsweredIn clientId σ.processed ·) ∧
    (σ.channel = [] → σ.unanswered = [] → σ.client.verifiedValue ≠ none →
      σ.client.awaitingSnapshotRefresh = false →
      σ.client.value = some (.ok (σ.serverState
        (sessionSetting clientId uri isSessionAction reducer start)))) := by
  obtain ⟨applied, h⟩ :=
    (converging_initial clientId uri isSessionAction reducer start serverSeq).run hrun
  refine ⟨?_, ?_, ?_⟩
  · intro s hs
    refine ⟨?_, h.client.optimistic.value h.client.error hs⟩
    intro hawaiting
    have happlied := h.settled (by simp [hs]) hawaiting
    rw [upTo_lastDelivered h.server, ← happlied]
    exact h.client.verified s hs
  · rw [h.processed]
    exact h.client.pending
  · intro hchannel hunanswered hconfirmed hawaiting
    obtain ⟨s, hs⟩ := Option.ne_none_iff_exists'.mp hconfirmed
    have happlied := h.settled hconfirmed hawaiting
    have hpending := h.pending_eq_nil hchannel hunanswered happlied
    have hlog := h.server.log
    rw [hchannel, ← happlied] at hlog
    rw [h.client.optimistic.value h.client.error hs, hpending, h.client.verified s hs,
      System.serverState, hlog]
    simp [envelopes, sessionSetting, sessionStateSubscription]

end Run

/-- An own action is accepted while a refresh is under way, and the answer that was
computed before that arrives behind its envelope. -/
def refreshRun : List (Event ℕ) :=
  [.subscribe, .compute, .respond, .deliver, .applyOptimistic 1, .beginSnapshotRefresh,
    .subscribe, .compute, .accept 0, .emit none 2 none, .deliver, .respond, .deliver, .deliver]

theorem session_converges_refresh : ∃ σ : System (List ℕ) ℕ,
    (System.initial 0).run (sessionSetting "me" "s" (fun _ => true) (fun s a => s ++ [a]) [])
      refreshRun = some σ ∧
    σ.client.value = some (.ok (σ.serverState
      (sessionSetting "me" "s" (fun _ => true) (fun s a => s ++ [a]) []))) := by
  obtain ⟨σ, hrun⟩ := Option.isSome_iff_exists.mp
    (show ((System.initial 0).run (sessionSetting "me" "s" (fun _ => true) (fun s a => s ++ [a]) [])
      refreshRun).isSome = true by decide)
  have hend : ((System.initial 0).run
      (sessionSetting "me" "s" (fun _ => true) (fun s a => s ++ [a]) []) refreshRun).map
      (fun σ => (σ.channel, σ.unanswered, σ.client.awaitingSnapshotRefresh,
        σ.client.verifiedValue)) = some ([], [], false, some [1, 2]) := by decide
  rw [hrun, Option.map_some, Option.some_inj, Prod.mk.injEq, Prod.mk.injEq, Prod.mk.injEq] at hend
  obtain ⟨hchannel, hunanswered, hawaiting, hverified⟩ := hend
  exact ⟨σ, hrun, (session_converges hrun).2.2 hchannel hunanswered (by simp [hverified]) hawaiting⟩

end NexgileIde.AgentHost
