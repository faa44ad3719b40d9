import NexgileIde.Library.InOrder
import NexgileIde.Ipc.PersistentProtocol

/-!
# What an endpoint may do

Of an endpoint the numbers and queues matter, which are its ledger. Most operations keep the
ledger and write messages that it vouches for.
-/
namespace NexgileIde.Ipc

open Text Library

/-! ## Ledgers -/

structure Ledger where
  isReconnecting : Bool
  outgoingUnackMsg : List ProtocolMessage
  outgoingMsgId : ℕ
  outgoingAckId : ℕ
  incomingMsgId : ℕ
  sent : List Bytes
  fired : List Bytes

def PersistentProtocol.ledger (p : PersistentProtocol) : Ledger where
  isReconnecting := p.isReconnecting
  outgoingUnackMsg := p.outgoingUnackMsg
  outgoingMsgId := p.outgoingMsgId
  outgoingAckId := p.outgoingAckId
  incomingMsgId := p.incomingMsgId
  sent := p.sent
  fired := p.fired

/-- Only regular messages are counted. -/
def ProtocolMessage.regularId (m : ProtocolMessage) : ℕ :=
  if m.type = ProtocolMessageType.Regular then m.id else 0

namespace Ledger

/-- A message that the owner of the ledger can have written. -/
structure Vouches (l : Ledger) (m : ProtocolMessage) : Prop where
  type : m.type < 2 ^ 8
  length : m.data.length < 2 ^ 32
  ack : m.ack ≤ l.incomingMsgId
  id : m.id ≤ l.sent.length
  regular : m.type = ProtocolMessageType.Regular →
    0 < m.id ∧ l.sent[m.id - 1]? = some m.data

/-- The queue has the messages that were not acknowledged, in order. -/
structure Ok (l : Ledger) : Prop where
  count : l.outgoingMsgId = l.sent.length
  ack_le : l.outgoingAckId ≤ l.sent.length
  queue : l.outgoingUnackMsg.map ProtocolMessage.regularId =
    List.range' (l.outgoingAckId + 1) (l.sent.length - l.outgoingAckId)
  regular : ∀ m ∈ l.outgoingUnackMsg, m.type = ProtocolMessageType.Regular
  vouches : ∀ m ∈ l.outgoingUnackMsg, l.Vouches m

structure Grows (l l' : Ledger) : Prop where
  sent : l.sent <+: l'.sent
  incoming : l.incomingMsgId ≤ l'.incomingMsgId

/-- What the receiver `l` has of the sender `l'`. -/
structure Follows (l l' : Ledger) : Prop where
  fired : l.fired = l'.sent.take l.incomingMsgId
  le : l.incomingMsgId ≤ l'.sent.length
  ack : l'.outgoingAckId ≤ l.incomingMsgId

theorem Grows.refl (l : Ledger) : l.Grows l := ⟨List.prefix_rfl, Nat.le_refl _⟩

theorem Grows.of_eq {l l' : Ledger} (h : l' = l) : l.Grows l' := h ▸ .refl l

theorem Grows.trans {l l' l'' : Ledger} (h : l.Grows l') (h' : l'.Grows l'') : l.Grows l'' :=
  ⟨h.sent.trans h'.sent, h.incoming.trans h'.incoming⟩

theorem Vouches.grows {l l' : Ledger} {m : ProtocolMessage} (h : l.Vouches m) (hg : l.Grows l') :
    l'.Vouches m where
  type := h.type
  length := h.length
  ack := h.ack.trans hg.incoming
  id := h.id.trans hg.sent.length_le
  regular hreg := by
    obtain ⟨hpos, hdata⟩ := h.regular hreg
    refine ⟨hpos, ?_⟩
    obtain ⟨rest, hrest⟩ := hg.sent
    rw [← hrest, List.getElem?_append_left (List.getElem?_eq_some_iff.mp hdata).1]
    exact hdata

theorem Vouches.regularId_le {l : Ledger} {m : ProtocolMessage} (h : l.Vouches m) :
    m.regularId ≤ l.sent.length := by
  unfold ProtocolMessage.regularId
  split_ifs
  · exact h.id
  · exact Nat.zero_le _

theorem regularId_le {l : Ledger} {msgs : List ProtocolMessage} (h : ∀ m ∈ msgs, l.Vouches m) :
    ∀ id ∈ msgs.map ProtocolMessage.regularId, id ≤ l.sent.length := by
  intro id hid
  obtain ⟨m, hm, rfl⟩ := List.mem_map.mp hid
  exact (h m hm).regularId_le

/-- A message without data that carries an acknowledgement, or none. -/
theorem vouches_control {l : Ledger} (type ack : ℕ) (data : Bytes) (htype : type < 2 ^ 8)
    (hregular : type ≠ ProtocolMessageType.Regular) (hack : ack ≤ l.incomingMsgId)
    (hlength : data.length < 2 ^ 32) : l.Vouches ⟨type, 0, ack, data⟩ where
  type := htype
  length := hlength
  ack := hack
  id := Nat.zero_le _
  regular h := absurd h hregular

end Ledger

namespace PersistentProtocol

/-! ## Changes of an endpoint -/

/-- The endpoint wrote `msgs`, and what it vouched for it vouches for. -/
structure Change (p p' : PersistentProtocol) (msgs : List ProtocolMessage) : Prop where
  holds : ∀ bytes, p.socketWriter.Holds bytes → p'.socketWriter.Holds (bytes ++ wire msgs)
  vouches : ∀ m ∈ msgs, p'.ledger.Vouches m
  grows : p.ledger.Grows p'.ledger
  reader : p'.socketReader = p.socketReader

theorem Change.trans {p p' p'' : PersistentProtocol} {msgs msgs' : List ProtocolMessage}
    (h : Change p p' msgs) (h' : Change p' p'' msgs') : Change p p'' (msgs ++ msgs') where
  holds bytes hbytes := by
    rw [wire_append, ← List.append_assoc]
    exact h'.holds _ (h.holds _ hbytes)
  vouches m hm := by
    rcases List.mem_append.mp hm with hm | hm
    · exact (h.vouches m hm).grows h'.grows
    · exact h'.vouches m hm
  grows := h.grows.trans h'.grows
  reader := h'.reader.trans h.reader

/-- Nothing is written. -/
theorem Change.silent {p p' : PersistentProtocol} (hwriter : p'.socketWriter = p.socketWriter)
    (hreader : p'.socketReader = p.socketReader) (hgrows : p.ledger.Grows p'.ledger) :
    Change p p' [] where
  holds bytes hbytes := by
    rw [wire_nil, List.append_nil, hwriter]
    exact hbytes
  vouches m hm := absurd hm List.not_mem_nil
  grows := hgrows
  reader := hreader

/-- The ledger stays as it is. -/
def Quiet (p p' : PersistentProtocol) : Prop :=
  p'.ledger = p.ledger ∧ ∃ msgs, Change p p' msgs

theorem Quiet.silent {p p' : PersistentProtocol} (hledger : p'.ledger = p.ledger)
    (hwriter : p'.socketWriter = p.socketWriter) (hreader : p'.socketReader = p.socketReader) :
    Quiet p p' :=
  ⟨hledger, [], .silent hwriter hreader (.of_eq hledger)⟩

theorem Quiet.trans {p p' p'' : PersistentProtocol} (h : Quiet p p') (h' : Quiet p' p'') :
    Quiet p p'' := by
  obtain ⟨hledger, msgs, hchange⟩ := h
  obtain ⟨hledger', msgs', hchange'⟩ := h'
  exact ⟨hledger'.trans hledger, msgs ++ msgs', hchange.trans hchange'⟩

/-- A writer that holds the same bytes as before. -/
theorem Quiet.writer {p : PersistentProtocol} {writer : ProtocolWriter}
    (h : ∀ bytes, p.socketWriter.Holds bytes → writer.Holds bytes) :
    Quiet p { p with socketWriter := writer } := by
  refine ⟨rfl, [], ?_, fun m hm => absurd hm List.not_mem_nil, .refl _, rfl⟩
  intro bytes hbytes
  rw [wire_nil, List.append_nil]
  exact h bytes hbytes

theorem change_write {p : PersistentProtocol} {msg : ProtocolMessage} (h : p.ledger.Vouches msg) :
    Change p (p.write msg) [msg] where
  holds bytes hbytes := by
    rw [wire_cons, wire_nil, List.append_nil]
    exact hbytes.write msg
  vouches m hm := by
    rw [List.mem_singleton.mp hm]
    exact h
  grows := .refl _
  reader := rfl

theorem quiet_write {p : PersistentProtocol} {msg : ProtocolMessage} (h : p.ledger.Vouches msg) :
    Quiet p (p.write msg) :=
  ⟨rfl, [msg], change_write h⟩

theorem change_writeAll {p : PersistentProtocol} {toSend : List ProtocolMessage}
    (h : ∀ m ∈ toSend, p.ledger.Vouches m) :
    (p.writeAll toSend).ledger = p.ledger ∧ Change p (p.writeAll toSend) toSend := by
  induction toSend generalizing p with
  | nil => exact ⟨rfl, .silent rfl rfl (.refl _)⟩
  | cons msg toSend ih =>
    have hrest : ∀ m ∈ toSend, (p.write msg).ledger.Vouches m :=
      fun m hm => h m (List.mem_cons_of_mem _ hm)
    obtain ⟨hledger, hchange⟩ := ih hrest
    exact ⟨hledger, (change_write (h msg List.mem_cons_self)).trans hchange⟩

/-! ## Operations that keep the ledger -/

theorem quiet_recvAckCheck (clock : Clock) (p : PersistentProtocol) :
    Quiet p (p.recvAckCheck clock) := by
  unfold recvAckCheck
  cases p.outgoingUnackMsg.head? <;> dsimp only <;> split_ifs <;> exact .silent rfl rfl rfl

theorem quiet_sendAck (p : PersistentProtocol) : Quiet p p.sendAck := by
  unfold sendAck
  split_ifs
  · exact .silent rfl rfl rfl
  · have hsame : Quiet p { p with incomingAckId := p.incomingMsgId } := .silent rfl rfl rfl
    exact hsame.trans (quiet_write
      (Ledger.vouches_control ProtocolMessageType.Ack p.incomingMsgId [] (by decide) (by decide)
        (Nat.le_refl _) (by decide)))

theorem quiet_sendAckCheck (clock : Clock) (p : PersistentProtocol) :
    Quiet p (p.sendAckCheck clock) := by
  unfold sendAckCheck
  split_ifs
  · exact .silent rfl rfl rfl
  · exact .silent rfl rfl rfl
  · have hsame : Quiet p { p with tests := p.tests + 1 } := .silent rfl rfl rfl
    exact hsame.trans (quiet_sendAck _)
  · exact .silent rfl rfl rfl

theorem quiet_sendKeepAlive (clock : Clock) (p : PersistentProtocol) :
    Quiet p (p.sendKeepAlive clock) := by
  unfold sendKeepAlive keepAliveTimeoutCheck
  have hsame : Quiet p { p with incomingAckId := p.incomingMsgId } := .silent rfl rfl rfl
  have hwrite := hsame.trans (quiet_write
    (Ledger.vouches_control ProtocolMessageType.KeepAlive p.incomingMsgId [] (by decide)
      (by decide) (Nat.le_refl _) (by decide)))
  split_ifs
  · exact hwrite
  · exact hwrite.trans (.silent rfl rfl rfl)
  · exact hwrite.trans (.silent rfl rfl rfl)

theorem quiet_onIncomingAckTimeout (clock : Clock) (p : PersistentProtocol) :
    Quiet p (p.onIncomingAckTimeout clock) := by
  unfold onIncomingAckTimeout
  split_ifs
  · have hsame : Quiet p { p with incomingAckTimeout := false } := .silent rfl rfl rfl
    exact hsame.trans (quiet_sendAckCheck clock _)
  · exact .silent rfl rfl rfl

theorem quiet_onOutgoingAckTimeout (clock : Clock) (p : PersistentProtocol) :
    Quiet p (p.onOutgoingAckTimeout clock) := by
  unfold onOutgoingAckTimeout
  split_ifs
  · have hsame : Quiet p { p with outgoingAckTimeout := false } := .silent rfl rfl rfl
    exact hsame.trans (quiet_recvAckCheck clock _)
  · exact .silent rfl rfl rfl

/-- A message without a number that is only written. -/
theorem quiet_control (p : PersistentProtocol) (type : ℕ) (data : Bytes) (htype : type < 2 ^ 8)
    (hregular : type ≠ ProtocolMessageType.Regular) (hlength : data.length < 2 ^ 32) :
    Quiet p (p.write ⟨type, 0, 0, data⟩) :=
  quiet_write (Ledger.vouches_control type 0 data htype hregular (Nat.zero_le _) hlength)

theorem quiet_flush {p : PersistentProtocol} {bytes : Bytes} (h : p.socketWriter.Holds bytes) :
    ∃ p', p.flush = some p' ∧ Quiet p p' := by
  obtain ⟨writer, hwrite, hholds⟩ := h.writeNow
  refine ⟨{ p with socketWriter := writer }, ?_, .writer fun bytes' h' => ?_⟩
  · unfold flush ProtocolWriter.flush
    rw [hwrite]
    rfl
  · obtain rfl : bytes' = bytes := h'.bytes.symm.trans h.bytes
    exact hholds

theorem quiet_onWriteTimeout {p : PersistentProtocol} {bytes : Bytes}
    (h : p.socketWriter.Holds bytes) : ∃ p', p.onWriteTimeout = some p' ∧ Quiet p p' := by
  obtain ⟨writer, hwrite, hholds⟩ := h.onTimeout
  refine ⟨{ p with socketWriter := writer }, ?_, .writer fun bytes' h' => ?_⟩
  · unfold onWriteTimeout
    rw [hwrite]
    rfl
  · obtain rfl : bytes' = bytes := h'.bytes.symm.trans h.bytes
    exact hholds

theorem quiet_sendDisconnect {p : PersistentProtocol} {bytes : Bytes}
    (h : p.socketWriter.Holds bytes) : ∃ p', p.sendDisconnect = some p' ∧ Quiet p p' := by
  unfold sendDisconnect
  split_ifs
  · exact ⟨p, rfl, .silent rfl rfl rfl⟩
  · have hsame : Quiet p { p with didSendDisconnect := true } := .silent rfl rfl rfl
    have hwrite := hsame.trans (quiet_control _ ProtocolMessageType.Disconnect []
      (by decide) (by decide) (by decide))
    obtain ⟨msgs, hchange⟩ := hwrite.2
    obtain ⟨p', hflush, hquiet⟩ := quiet_flush (hchange.holds bytes h)
    exact ⟨p', hflush, hwrite.trans hquiet⟩

/-! ## Sending -/

/-- If the other side gets everything that was sent before, it gets everything that is sent
after. -/
def Delivers (l l' : Ledger) (msgs : List ProtocolMessage) : Prop :=
  l'.isReconnecting = false → ∀ (next : ℕ) (ids : List ℕ), l.outgoingAckId ≤ next →
    next ≤ l.sent.length → (∀ id ∈ ids, id ≤ l.sent.length) →
    (l.isReconnecting = false → acceptAll next ids = l.sent.length) →
    acceptAll next (ids ++ msgs.map ProtocolMessage.regularId) = l'.sent.length

/-- Messages with numbers that were given before change nothing. -/
theorem Delivers.of_same {l l' : Ledger} {msgs : List ProtocolMessage}
    (hreconnecting : l'.isReconnecting = l.isReconnecting) (hsent : l'.sent = l.sent)
    (hvouches : ∀ m ∈ msgs, l'.Vouches m) : Delivers l l' msgs := by
  intro hlive next ids _ _ _ hall
  rw [acceptAll_append, hall (hreconnecting ▸ hlive), ← hsent]
  exact acceptAll_of_le (Ledger.regularId_le hvouches)

/-- What an operation of one side does that does not read; `payload` is what it sends. -/
structure Local (p p' : PersistentProtocol) (payload : List Bytes) (msgs : List ProtocolMessage) :
    Prop where
  change : Change p p' msgs
  ok : p'.ledger.Ok
  delivers : Delivers p.ledger p'.ledger msgs
  outgoingAckId : p'.outgoingAckId = p.outgoingAckId
  incomingMsgId : p'.incomingMsgId = p.incomingMsgId
  fired : p'.fired = p.fired
  sent : p'.sent = p.sent ++ payload

theorem Quiet.local {p p' : PersistentProtocol} (h : Quiet p p') (hok : p.ledger.Ok) :
    ∃ msgs, Local p p' [] msgs := by
  obtain ⟨hledger, msgs, hchange⟩ := h
  refine ⟨msgs, hchange, hledger ▸ hok, ?_, congrArg Ledger.outgoingAckId hledger,
    congrArg Ledger.incomingMsgId hledger, congrArg Ledger.fired hledger,
    (congrArg Ledger.sent hledger).trans (List.append_nil _).symm⟩
  exact .of_same (congrArg Ledger.isReconnecting hledger) (congrArg Ledger.sent hledger)
    hchange.vouches

theorem send_local (clock : Clock) {p : PersistentProtocol} {buffer : Bytes} (hok : p.ledger.Ok)
    (hlength : buffer.length < 2 ^ 32) : ∃ msgs, Local p (p.send clock buffer) [buffer] msgs := by
  let msg : ProtocolMessage :=
    ⟨ProtocolMessageType.Regular, p.outgoingMsgId + 1, p.incomingMsgId, buffer⟩
  let q : PersistentProtocol :=
    { p with
      outgoingMsgId := p.outgoingMsgId + 1
      incomingAckId := p.incomingMsgId
      outgoingUnackMsg := p.outgoingUnackMsg ++ [msg]
      sent := p.sent ++ [buffer] }
  have hcount : p.outgoingMsgId = p.sent.length := hok.count
  have hle : p.outgoingAckId ≤ p.sent.length := hok.ack_le
  have hgrows : p.ledger.Grows q.ledger := ⟨List.prefix_append _ _, Nat.le_refl _⟩
  have hsent : q.ledger.sent.length = p.sent.length + 1 := List.length_append
  have hvouches : q.ledger.Vouches msg := by
    have htype : ProtocolMessageType.Regular < 2 ^ 8 := by decide
    refine ⟨htype, hlength, Nat.le_refl _, ?_, fun _ => ⟨Nat.succ_pos _, ?_⟩⟩
    · show p.outgoingMsgId + 1 ≤ _
      rw [hsent, hcount]
    · show (p.sent ++ [buffer])[p.outgoingMsgId + 1 - 1]? = some buffer
      rw [hcount, Nat.add_sub_cancel, List.getElem?_concat_length]
  have hqok : q.ledger.Ok := by
    refine ⟨?_, ?_, ?_, ?_, ?_⟩
    · show p.outgoingMsgId + 1 = _
      rw [hsent, hcount]
    · show p.outgoingAckId ≤ _
      omega
    · show (p.outgoingUnackMsg ++ [msg]).map ProtocolMessage.regularId =
        List.range' (p.outgoingAckId + 1) (q.ledger.sent.length - p.outgoingAckId)
      have hqueue := hok.queue
      change p.outgoingUnackMsg.map ProtocolMessage.regularId =
        List.range' (p.outgoingAckId + 1) (p.sent.length - p.outgoingAckId) at hqueue
      rw [List.map_append, hqueue, hsent, Nat.sub_add_comm hle, List.range'_1_concat]
      simp only [List.map_cons, List.map_nil]
      congr 2
      show p.outgoingMsgId + 1 = _
      omega
    · intro m hm
      rcases List.mem_append.mp hm with hm | hm
      · exact hok.regular m hm
      · rw [List.mem_singleton.mp hm]
    · intro m hm
      rcases List.mem_append.mp hm with hm | hm
      · exact (hok.vouches m hm).grows hgrows
      · rw [List.mem_singleton.mp hm]
        exact hvouches
  have hsilent : Change p q [] := .silent rfl rfl hgrows
  unfold send
  dsimp only
  split_ifs with hreconnecting
  · refine ⟨[], hsilent, hqok, fun hlive => ?_, rfl, rfl, rfl, rfl⟩
    exact absurd (hreconnecting.symm.trans hlive) nofun
  · obtain ⟨hledger, msgs, hcheck⟩ := quiet_recvAckCheck clock (q.write msg)
    have hledger' : ((q.write msg).recvAckCheck clock).ledger = q.ledger := hledger
    have hchange := (change_write hvouches).trans hcheck
    refine ⟨[msg] ++ msgs, hsilent.trans hchange, hledger' ▸ hqok, ?_,
      congrArg Ledger.outgoingAckId hledger', congrArg Ledger.incomingMsgId hledger',
      congrArg Ledger.fired hledger', congrArg Ledger.sent hledger'⟩
    intro _ next ids _ _ _ hall
    have hids := Ledger.regularId_le hcheck.vouches
    have hnew : accept p.ledger.sent.length msg.regularId = q.ledger.sent.length := by
      show accept p.sent.length (p.outgoingMsgId + 1) = _
      rw [hsent, hcount]
      exact if_pos rfl
    rw [hledger'] at hids ⊢
    rw [List.map_append, List.map_singleton, acceptAll_append,
      hall (Bool.not_eq_true _ ▸ hreconnecting), List.singleton_append, acceptAll_cons, hnew]
    exact acceptAll_of_le hids

theorem endAcceptReconnection_local (clock : Clock) {p : PersistentProtocol} (hok : p.ledger.Ok) :
    ∃ msgs, Local p (p.endAcceptReconnection clock) [] msgs := by
  let q : PersistentProtocol :=
    { p with isReconnecting := false, incomingAckId := p.incomingMsgId }
  let ack : ProtocolMessage := ⟨ProtocolMessageType.Ack, 0, p.incomingMsgId, []⟩
  have hqok : q.ledger.Ok := ⟨hok.count, hok.ack_le, hok.queue, hok.regular, fun m hm =>
    (hok.vouches m hm).grows ⟨List.prefix_rfl, Nat.le_refl _⟩⟩
  have hack : q.ledger.Vouches ack :=
    Ledger.vouches_control ProtocolMessageType.Ack p.incomingMsgId [] (by decide) (by decide)
      (Nat.le_refl _) (by decide)
  have hsilent : Change p q [] := .silent rfl rfl ⟨List.prefix_rfl, Nat.le_refl _⟩
  have hvouches : ∀ m ∈ p.outgoingUnackMsg, (q.write ack).ledger.Vouches m := hqok.vouches
  obtain ⟨hledger, hall⟩ := change_writeAll hvouches
  obtain ⟨hledger', msgs, hcheck⟩ :=
    quiet_recvAckCheck clock ((q.write ack).writeAll p.outgoingUnackMsg)
  have hend : (p.endAcceptReconnection clock).ledger = q.ledger := hledger'.trans hledger
  have hchange := (change_write hack).trans (hall.trans hcheck)
  refine ⟨_, hsilent.trans hchange, hend ▸ hqok, ?_, congrArg Ledger.outgoingAckId hend,
    congrArg Ledger.incomingMsgId hend, congrArg Ledger.fired hend,
    (congrArg Ledger.sent hend).trans (List.append_nil _).symm⟩
  intro _ next ids hle hle' hids _
  have hcheckIds := Ledger.regularId_le hcheck.vouches
  rw [hledger', hledger] at hcheckIds
  have hqueue := hok.queue
  have hackLe : p.ledger.outgoingAckId ≤ p.ledger.sent.length := hok.ack_le
  have hfirst : acceptAll next ids ≤ p.ledger.sent.length := acceptAll_le hle' hids
  have hbelow : p.ledger.outgoingAckId ≤ acceptAll next ids := hle.trans (le_acceptAll next ids)
  have hregular : ack.regularId = 0 := by
    unfold ProtocolMessage.regularId
    rw [if_neg (show ProtocolMessageType.Ack ≠ ProtocolMessageType.Regular by decide)]
  have hskip : accept (acceptAll next ids) 0 = acceptAll next ids := if_neg (Nat.succ_ne_zero _).symm
  have hrange : acceptAll (acceptAll next ids)
      (List.range' (p.ledger.outgoingAckId + 1)
        (p.ledger.sent.length - p.ledger.outgoingAckId)) = p.ledger.sent.length := by
    rw [acceptAll_range' hbelow (by omega)]
    omega
  rw [hend, List.nil_append, List.singleton_append, List.map_cons, List.map_append,
    acceptAll_append, acceptAll_cons, hregular, hskip, acceptAll_append]
  change acceptAll (acceptAll (acceptAll next ids) (p.ledger.outgoingUnackMsg.map _)) _ = _
  rw [hqueue, hrange]
  exact acceptAll_of_le hcheckIds

/-! ## Receiving -/

theorem mem_of_popAcknowledged {ack : ℕ} {queue : List ProtocolMessage} {m : ProtocolMessage}
    (h : m ∈ popAcknowledged ack queue) : m ∈ queue := by
  induction queue with
  | nil => exact h
  | cons first rest ih =>
    unfold popAcknowledged at h
    split_ifs at h
    · exact List.mem_cons_of_mem _ (ih h)
    · exact h

theorem popAcknowledged_ids {ack : ℕ} {queue : List ProtocolMessage} {k count : ℕ}
    (hregular : ∀ m ∈ queue, m.type = ProtocolMessageType.Regular)
    (hqueue : queue.map ProtocolMessage.regularId = List.range' (k + 1) count)
    (hk : k ≤ ack) (hack : ack ≤ k + count) :
    (popAcknowledged ack queue).map ProtocolMessage.regularId =
      List.range' (ack + 1) (k + count - ack) := by
  induction queue generalizing k count with
  | nil =>
    obtain rfl : count = 0 := by simpa using hqueue.symm
    obtain rfl : ack = k := by omega
    simp [popAcknowledged]
  | cons first rest ih =>
    cases count with
    | zero => cases hqueue
    | succ count =>
      rw [List.map_cons, List.range'_succ] at hqueue
      obtain ⟨hfirst, hrest⟩ := List.cons_eq_cons.mp hqueue
      have hid : first.id = k + 1 := by
        rw [← hfirst]
        exact (if_pos (hregular first List.mem_cons_self)).symm
      unfold popAcknowledged
      split_ifs with hle
      · have hpop := ih (fun m hm => hregular m (List.mem_cons_of_mem _ hm)) hrest (by omega)
          (by omega)
        rw [hpop]
        congr 1
        omega
      · obtain rfl : ack = k := by omega
        rw [List.map_cons, hfirst, hrest, ← List.range'_succ]
        congr 1
        omega

/-- What the peer knows, while messages of it are read. -/
structure Together (l peer : Ledger) : Prop where
  ok : l.Ok
  follows : l.Follows peer
  followed : peer.Follows l

/-- What reading messages with these numbers does. -/
structure Received (p p' : PersistentProtocol) (peer : Ledger) (ids : List ℕ)
    (msgs : List ProtocolMessage) : Prop where
  change : Change p p' msgs
  together : Together p'.ledger peer
  incoming : p'.incomingMsgId = acceptAll p.incomingMsgId ids
  sent : p'.sent = p.sent
  isReconnecting : p'.isReconnecting = p.isReconnecting

theorem Received.trans {p p' p'' : PersistentProtocol} {peer : Ledger} {ids ids' : List ℕ}
    {msgs msgs' : List ProtocolMessage} (h : Received p p' peer ids msgs)
    (h' : Received p' p'' peer ids' msgs') :
    Received p p'' peer (ids ++ ids') (msgs ++ msgs') where
  change := h.change.trans h'.change
  together := h'.together
  incoming := by rw [acceptAll_append, ← h.incoming, h'.incoming]
  sent := h'.sent.trans h.sent
  isReconnecting := h'.isReconnecting.trans h.isReconnecting

/-- A message that changes the ledger no further. -/
theorem Received.of_quiet {p p' : PersistentProtocol} {peer : Ledger} {ids : List ℕ}
    (h : Quiet p p') (htogether : Together p.ledger peer)
    (hids : acceptAll p.incomingMsgId ids = p.incomingMsgId) :
    ∃ msgs, Received p p' peer ids msgs := by
  obtain ⟨hledger, msgs, hchange⟩ := h
  refine ⟨msgs, hchange, hledger ▸ htogether, ?_, congrArg Ledger.sent hledger,
    congrArg Ledger.isReconnecting hledger⟩
  rw [hids]
  exact congrArg Ledger.incomingMsgId hledger

theorem receiveAck_received {p : PersistentProtocol} {peer : Ledger} {ack : ℕ}
    (htogether : Together p.ledger peer) (hack : ack ≤ peer.incomingMsgId) :
    Received p (p.receiveAck ack) peer [] [] := by
  unfold receiveAck
  split_ifs with hnew
  · obtain ⟨hok, hfollows, hfollowed⟩ := htogether
    have hle : ack ≤ p.ledger.sent.length := hack.trans hfollowed.le
    have hackLe : p.ledger.outgoingAckId ≤ p.ledger.sent.length := hok.ack_le
    have hold : p.ledger.outgoingAckId ≤ ack := Nat.le_of_lt hnew
    refine ⟨.silent rfl rfl ⟨List.prefix_rfl, Nat.le_refl _⟩, ⟨?_, ?_, ?_⟩, rfl, rfl, rfl⟩
    · refine ⟨hok.count, hle, ?_, fun m hm => hok.regular m (mem_of_popAcknowledged hm),
        fun m hm => (hok.vouches m (mem_of_popAcknowledged hm)).grows
          ⟨List.prefix_rfl, Nat.le_refl _⟩⟩
      have hpop := popAcknowledged_ids hok.regular hok.queue hold (by omega)
      rw [Nat.add_sub_cancel' hackLe] at hpop
      exact hpop
    · exact ⟨hfollows.fired, hfollows.le, hfollows.ack⟩
    · exact ⟨hfollowed.fired, hfollowed.le, hack⟩
  · exact ⟨.silent rfl rfl (.refl _), htogether, rfl, rfl, rfl⟩

theorem receiveRegular_received (clock : Clock) {p : PersistentProtocol} {peer : Ledger}
    {m : ProtocolMessage} (htogether : Together p.ledger peer) (hvouches : peer.Vouches m)
    (hregular : m.type = ProtocolMessageType.Regular) :
    ∃ msgs, Received p (p.receiveRegular clock m) peer [m.regularId] msgs := by
  have hid : m.regularId = m.id := if_pos hregular
  rw [hid]
  unfold receiveRegular
  split_ifs with hlater hgap hdue
  · have hsame : Quiet p { p with tests := p.tests + 1 } := .silent rfl rfl rfl
    exact Received.of_quiet (hsame.trans (quiet_control _ ProtocolMessageType.ReplayRequest [] (by decide)
      (by decide) (by decide))) htogether (if_neg hgap)
  · exact Received.of_quiet (.silent rfl rfl rfl) htogether (if_neg hgap)
  · have hnext : m.id = p.incomingMsgId + 1 := not_not.mp hgap
    obtain ⟨hok, hfollows, hfollowed⟩ := htogether
    obtain ⟨-, hdata⟩ := hvouches.regular hregular
    rw [hnext, Nat.add_sub_cancel] at hdata
    let q : PersistentProtocol := { p with incomingMsgId := m.id }
    have hgrows : p.ledger.Grows q.ledger := ⟨List.prefix_rfl, Nat.le_of_lt hlater⟩
    have hsilent : Change p q [] := .silent rfl rfl hgrows
    obtain ⟨hledger, msgs, hcheck⟩ := quiet_sendAckCheck clock q
    have hfire : Change (q.sendAckCheck clock)
        { q.sendAckCheck clock with fired := (q.sendAckCheck clock).fired ++ [m.data] } [] :=
      .silent rfl rfl ⟨List.prefix_rfl, Nat.le_refl _⟩
    have hledger' :
        { q.sendAckCheck clock with fired := (q.sendAckCheck clock).fired ++ [m.data] }.ledger =
          { p.ledger with incomingMsgId := m.id, fired := p.fired ++ [m.data] } := by
      show { (q.sendAckCheck clock).ledger with
        fired := (q.sendAckCheck clock).ledger.fired ++ [m.data] } = _
      rw [hledger]
      rfl
    refine ⟨_, hsilent.trans (hcheck.trans hfire), ?_, ?_, congrArg Ledger.sent hledger',
      congrArg Ledger.isReconnecting hledger'⟩
    · rw [hledger']
      refine ⟨⟨hok.count, hok.ack_le, hok.queue, hok.regular, fun m' hm =>
        (hok.vouches m' hm).grows ⟨List.prefix_rfl, Nat.le_of_lt hlater⟩⟩, ?_, ?_⟩
      · refine ⟨?_, ?_, hfollows.ack.trans (Nat.le_of_lt hlater)⟩
        · show p.fired ++ [m.data] = peer.sent.take m.id
          have hfired : p.fired = peer.sent.take p.incomingMsgId := hfollows.fired
          rw [hnext, hfired, List.take_add_one, hdata]
          rfl
        · show m.id ≤ _
          exact hvouches.id
      · exact ⟨hfollowed.fired, hfollowed.le, hfollowed.ack⟩
    · have hincoming := congrArg Ledger.incomingMsgId hledger'
      change _ = m.id at hincoming
      rw [acceptAll_cons, acceptAll_nil, accept, if_pos hnext]
      exact hincoming
  · refine Received.of_quiet (.silent rfl rfl rfl) htogether (if_neg ?_)
    intro heq
    rw [heq] at hlater
    exact hlater (Nat.lt_succ_self _)

theorem receiveMessage_received (clock : Clock) {p : PersistentProtocol} {peer : Ledger}
    {m : ProtocolMessage} (htogether : Together p.ledger peer) (hvouches : peer.Vouches m) :
    ∃ msgs, Received p (p.receiveMessage clock m) peer [m.regularId] msgs := by
  have hack := receiveAck_received htogether hvouches.ack
  have hnothing : m.type ≠ ProtocolMessageType.Regular → ∀ next, acceptAll next [m.regularId] = next := by
    intro hregular next
    rw [acceptAll_cons, acceptAll_nil, ProtocolMessage.regularId, if_neg hregular]
    exact if_neg (Nat.succ_ne_zero _).symm
  unfold receiveMessage
  dsimp only
  split_ifs with hregular hreplay hpause hresume
  · obtain ⟨msgs, hrest⟩ := receiveRegular_received clock hack.together hvouches hregular
    exact ⟨_, hack.trans hrest⟩
  · obtain ⟨hledger, hall⟩ := change_writeAll hack.together.ok.vouches
    have hquiet : Quiet (p.receiveAck m.ack)
        ((p.receiveAck m.ack).writeAll (p.receiveAck m.ack).outgoingUnackMsg) :=
      ⟨hledger, _, hall⟩
    obtain ⟨msgs, hrest⟩ := Received.of_quiet (hquiet.trans (quiet_recvAckCheck clock _))
      hack.together (hnothing hregular _)
    exact ⟨_, hack.trans hrest⟩
  · obtain ⟨msgs, hrest⟩ := Received.of_quiet (.writer fun bytes h => h.pause) hack.together
      (hnothing hregular _)
    exact ⟨_, hack.trans hrest⟩
  · obtain ⟨msgs, hrest⟩ := Received.of_quiet (.writer fun bytes h => h.resume) hack.together
      (hnothing hregular _)
    exact ⟨_, hack.trans hrest⟩
  · obtain ⟨msgs, hrest⟩ := Received.of_quiet (.silent rfl rfl rfl) hack.together
      (hnothing hregular _)
    exact ⟨_, hack.trans hrest⟩

/-- The messages of a chunk are received one after the other. -/
theorem fires_received (clock : Clock) {p p' : PersistentProtocol} {peer : Ledger}
    {fired : List ProtocolMessage} {disposed : Bool}
    (h : ProtocolReader.Fires (onReaderMessage clock) p fired p' disposed)
    (htogether : Together p.ledger peer) (hvouches : ∀ m ∈ fired, peer.Vouches m) :
    disposed = false ∧
      ∃ msgs, Received p p' peer (fired.map ProtocolMessage.regularId) msgs := by
  induction h with
  | none p => exact ⟨rfl, [], .silent rfl rfl (.refl _), htogether, rfl, rfl, rfl⟩
  | last h => cases (Prod.mk.inj h).2
  | next h _ ih =>
    obtain ⟨rfl, -⟩ := Prod.mk.inj h
    obtain ⟨msgs, hfirst⟩ :=
      receiveMessage_received clock htogether (hvouches _ List.mem_cons_self)
    obtain ⟨hdisposed, msgs', hrest⟩ :=
      ih hfirst.together fun m hm => hvouches m (List.mem_cons_of_mem _ hm)
    exact ⟨hdisposed, _, hfirst.trans hrest⟩

end PersistentProtocol

end NexgileIde.Ipc
