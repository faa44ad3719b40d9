import NexgileIde.Ipc.FramingSpec

/-!
# A protocol that survives reconnections

Regular messages are numbered and kept until the other side acknowledges them. After a
reconnection the ones that are kept are sent again.
-/
namespace NexgileIde.Ipc

open Text

namespace ProtocolMessageType

abbrev Regular : ℕ := 1
abbrev Control : ℕ := 2
abbrev Ack : ℕ := 3
abbrev Disconnect : ℕ := 5
abbrev ReplayRequest : ℕ := 6
abbrev Pause : ℕ := 7
abbrev Resume : ℕ := 8
abbrev KeepAlive : ℕ := 9

end ProtocolMessageType

/-- What the clock says to each test of the time: that the last message came long enough ago
to be acknowledged, that the last replay request is old enough, that the socket timed out. -/
structure Clock where
  ackDue : ℕ → Bool
  replayDue : ℕ → Bool
  timedOut : ℕ → Bool

/-- The timers are those that are set. `tests` counts the tests of the time, `sent` and `fired`
are what went through `send` and `onMessage`. -/
structure PersistentProtocol where
  isReconnecting : Bool
  didSendDisconnect : Bool
  outgoingUnackMsg : List ProtocolMessage
  outgoingMsgId : ℕ
  outgoingAckId : ℕ
  outgoingAckTimeout : Bool
  incomingMsgId : ℕ
  incomingAckId : ℕ
  incomingAckTimeout : Bool
  socketWriter : ProtocolWriter
  socketReader : ProtocolReader
  socketTimeouts : ℕ
  tests : ℕ
  sent : List Bytes
  fired : List Bytes
  deriving DecidableEq, Repr

namespace PersistentProtocol

def new : PersistentProtocol where
  isReconnecting := false
  didSendDisconnect := false
  outgoingUnackMsg := []
  outgoingMsgId := 0
  outgoingAckId := 0
  outgoingAckTimeout := false
  incomingMsgId := 0
  incomingAckId := 0
  incomingAckTimeout := false
  socketWriter := .new
  socketReader := .new
  socketTimeouts := 0
  tests := 0
  sent := []
  fired := []

/-- `_socketWriter.write` -/
def write (p : PersistentProtocol) (msg : ProtocolMessage) : PersistentProtocol :=
  { p with socketWriter := p.socketWriter.write msg }

/-- The loop that sends again all unacknowledged messages. -/
def writeAll (p : PersistentProtocol) (toSend : List ProtocolMessage) : PersistentProtocol :=
  toSend.foldl write p

/-! ## Acknowledgements -/

def sendAck (p : PersistentProtocol) : PersistentProtocol :=
  if p.incomingMsgId ≤ p.incomingAckId then p
  else
    { p with incomingAckId := p.incomingMsgId }.write
      ⟨ProtocolMessageType.Ack, 0, p.incomingMsgId, []⟩

def sendAckCheck (clock : Clock) (p : PersistentProtocol) : PersistentProtocol :=
  if p.incomingMsgId ≤ p.incomingAckId then p
  else if p.incomingAckTimeout then p
  else if clock.ackDue p.tests then { p with tests := p.tests + 1 }.sendAck
  else { p with tests := p.tests + 1, incomingAckTimeout := true }

/-- It throws when there is no message to acknowledge; nothing comes after it in its callers. -/
def recvAckCheck (clock : Clock) (p : PersistentProtocol) : PersistentProtocol :=
  if p.outgoingMsgId ≤ p.outgoingAckId then p
  else if p.outgoingAckTimeout then p
  else if p.isReconnecting then p
  else
    match p.outgoingUnackMsg.head? with
    | none => p
    | some _ =>
      if clock.timedOut p.tests then
        { p with tests := p.tests + 1, socketTimeouts := p.socketTimeouts + 1 }
      else { p with tests := p.tests + 1, outgoingAckTimeout := true }

def keepAliveTimeoutCheck (clock : Clock) (p : PersistentProtocol) : PersistentProtocol :=
  if p.isReconnecting then p
  else if clock.timedOut p.tests then
    { p with tests := p.tests + 1, socketTimeouts := p.socketTimeouts + 1 }
  else { p with tests := p.tests + 1 }

def sendKeepAlive (clock : Clock) (p : PersistentProtocol) : PersistentProtocol :=
  ({ p with incomingAckId := p.incomingMsgId }.write
    ⟨ProtocolMessageType.KeepAlive, 0, p.incomingMsgId, []⟩).keepAliveTimeoutCheck clock

/-- The timer that `_sendAckCheck` set. -/
def onIncomingAckTimeout (clock : Clock) (p : PersistentProtocol) : PersistentProtocol :=
  if p.incomingAckTimeout then { p with incomingAckTimeout := false }.sendAckCheck clock else p

/-- The timer that `_recvAckCheck` set. -/
def onOutgoingAckTimeout (clock : Clock) (p : PersistentProtocol) : PersistentProtocol :=
  if p.outgoingAckTimeout then { p with outgoingAckTimeout := false }.recvAckCheck clock else p

/-! ## Sending -/

def send (clock : Clock) (p : PersistentProtocol) (buffer : Bytes) : PersistentProtocol :=
  let myId := p.outgoingMsgId + 1
  let msg : ProtocolMessage := ⟨ProtocolMessageType.Regular, myId, p.incomingMsgId, buffer⟩
  let p :=
    { p with
      outgoingMsgId := myId
      incomingAckId := p.incomingMsgId
      outgoingUnackMsg := p.outgoingUnackMsg ++ [msg]
      sent := p.sent ++ [buffer] }
  if p.isReconnecting then p else (p.write msg).recvAckCheck clock

def sendControl (p : PersistentProtocol) (buffer : Bytes) : PersistentProtocol :=
  p.write ⟨ProtocolMessageType.Control, 0, 0, buffer⟩

def sendPause (p : PersistentProtocol) : PersistentProtocol :=
  p.write ⟨ProtocolMessageType.Pause, 0, 0, []⟩

def sendResume (p : PersistentProtocol) : PersistentProtocol :=
  p.write ⟨ProtocolMessageType.Resume, 0, 0, []⟩

def pauseSocketWriting (p : PersistentProtocol) : PersistentProtocol :=
  { p with socketWriter := p.socketWriter.pause }

def flush (p : PersistentProtocol) : Option PersistentProtocol := do
  let socketWriter ← p.socketWriter.flush
  return { p with socketWriter := socketWriter }

/-- The timer of the writer. -/
def onWriteTimeout (p : PersistentProtocol) : Option PersistentProtocol := do
  let socketWriter ← p.socketWriter.onTimeout
  return { p with socketWriter := socketWriter }

def sendDisconnect (p : PersistentProtocol) : Option PersistentProtocol :=
  if p.didSendDisconnect then some p
  else
    ({ p with didSendDisconnect := true }.write ⟨ProtocolMessageType.Disconnect, 0, 0, []⟩).flush

/-! ## Receiving -/

/-- The loop that removes the messages that have been confirmed. -/
def popAcknowledged (ack : ℕ) : List ProtocolMessage → List ProtocolMessage
  | [] => []
  | first :: rest => if first.id ≤ ack then popAcknowledged ack rest else first :: rest

def receiveAck (p : PersistentProtocol) (ack : ℕ) : PersistentProtocol :=
  if ack > p.outgoingAckId then
    { p with
      outgoingAckId := ack
      outgoingUnackMsg := popAcknowledged ack p.outgoingUnackMsg }
  else p

def receiveRegular (clock : Clock) (p : PersistentProtocol) (msg : ProtocolMessage) :
    PersistentProtocol :=
  if msg.id > p.incomingMsgId then
    if msg.id ≠ p.incomingMsgId + 1 then
      -- in case we missed some messages we ask the other party to resend them
      if clock.replayDue p.tests then
        { p with tests := p.tests + 1 }.write ⟨ProtocolMessageType.ReplayRequest, 0, 0, []⟩
      else { p with tests := p.tests + 1 }
    else
      let p := { p with incomingMsgId := msg.id }.sendAckCheck clock
      { p with fired := p.fired ++ [msg.data] }
  else p

def receiveMessage (clock : Clock) (p : PersistentProtocol) (msg : ProtocolMessage) :
    PersistentProtocol :=
  let p := p.receiveAck msg.ack
  if msg.type = ProtocolMessageType.Regular then p.receiveRegular clock msg
  else if msg.type = ProtocolMessageType.ReplayRequest then
    (p.writeAll p.outgoingUnackMsg).recvAckCheck clock
  else if msg.type = ProtocolMessageType.Pause then
    { p with socketWriter := p.socketWriter.pause }
  else if msg.type = ProtocolMessageType.Resume then
    { p with socketWriter := p.socketWriter.resume }
  else p

/-- No listener disposes the reader while it reads. -/
def onReaderMessage (clock : Clock) : ProtocolReader.Listener PersistentProtocol :=
  fun msg p => (p.receiveMessage clock msg, false)

def acceptChunk (clock : Clock) (p : PersistentProtocol) (chunk : Bytes) :
    Option PersistentProtocol := do
  let (socketReader, p) ← p.socketReader.acceptChunk (onReaderMessage clock) p chunk
  return { p with socketReader := socketReader }

/-! ## Reconnecting -/

/-- The old writer is flushed to its socket when it is disposed; what it wrote is the first
component. -/
def beginAcceptReconnection (clock : Clock) (p : PersistentProtocol) (initialDataChunk : Bytes) :
    List Bytes × Option PersistentProtocol :=
  let old := p.socketWriter.dispose
  let p := { p with isReconnecting := true, socketWriter := .new, socketReader := .new }
  (old.socket, p.acceptChunk clock initialDataChunk)

def endAcceptReconnection (clock : Clock) (p : PersistentProtocol) : PersistentProtocol :=
  let p := { p with isReconnecting := false, incomingAckId := p.incomingMsgId }
  let p := p.write ⟨ProtocolMessageType.Ack, 0, p.incomingAckId, []⟩
  (p.writeAll p.outgoingUnackMsg).recvAckCheck clock

end PersistentProtocol

end NexgileIde.Ipc
