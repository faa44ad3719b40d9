import NexgileIde.Ipc.ReconnectionRun
import NexgileIde.Ipc.Serialization

/-!
# Requests and responses of channels

A header and a body are serialised into one message of the protocol. However often the connection
breaks and comes back, each side reads what the other side asked or answered, in order.
-/
namespace NexgileIde.Ipc

open Text

inductive RequestType
  | Promise
  | PromiseCancel
  | EventListen
  | EventDispose

def RequestType.code : RequestType → ℚ
  | Promise => 100
  | PromiseCancel => 101
  | EventListen => 102
  | EventDispose => 103

inductive ResponseType
  | Initialize
  | PromiseSuccess
  | PromiseError
  | PromiseErrorObj
  | EventFire
  deriving DecidableEq

def ResponseType.code : ResponseType → ℚ
  | Initialize => 200
  | PromiseSuccess => 201
  | PromiseError => 202
  | PromiseErrorObj => 203
  | EventFire => 204

/-- A request; what is read from a message has fields of any type. -/
inductive IRawRequest
  | promise (id channelName name arg : Value)
  | promiseCancel (id : Value)
  | eventListen (id channelName name arg : Value)
  | eventDispose (id : Value)

/-- A response; only the first one has no id and no data. -/
inductive IRawResponse
  | initializeResponse
  | reply (type : {type : ResponseType // type ≠ .Initialize}) (id data : Value)

/-- `sendRequest`: the header and the body. -/
def IRawRequest.message : IRawRequest → List Value × Value
  | promise id channelName name arg => ([.number RequestType.Promise.code, id, channelName, name], arg)
  | promiseCancel id => ([.number RequestType.PromiseCancel.code, id], .undefined)
  | eventListen id channelName name arg =>
    ([.number RequestType.EventListen.code, id, channelName, name], arg)
  | eventDispose id => ([.number RequestType.EventDispose.code, id], .undefined)

/-- `sendResponse`: the header and the body. -/
def IRawResponse.message : IRawResponse → List Value × Value
  | initializeResponse => ([.number ResponseType.Initialize.code], .undefined)
  | reply type id data => ([.number type.1.code, id], data)

/-- `send(header, body)`: the buffer that is sent. -/
def send (P : Platform) (message : List Value × Value) : Bytes :=
  (serialize P (serialize P ⟨[]⟩ (.array message.1)) message.2).buffer

/-- The type, the header and the body of a message. -/
def readMessage (P : Platform) (message : Bytes) :
    Except DeserializeError (Value × List Value × Value) := do
  let (header, reader) ← deserialize P ⟨message, 0⟩
  let (body, _) ← deserialize P reader
  match header with
  | .array header => return (header.getD 0 .undefined, header, body)
  | _ => return (.undefined, [], body)

/-- The request that `onRawMessage` handles. -/
def onRawMessage (P : Platform) (message : Bytes) :
    Except DeserializeError (Option IRawRequest) := do
  let (type, header, body) ← readMessage P message
  let item (i : ℕ) : Value := header.getD i .undefined
  let .number x := type | return none
  return [RequestType.Promise, .EventListen, .PromiseCancel, .EventDispose].find? (·.code = x) |>.map
    fun
    | .Promise => .promise (item 1) (item 2) (item 3) body
    | .EventListen => .eventListen (item 1) (item 2) (item 3) body
    | .PromiseCancel => .promiseCancel (item 1)
    | .EventDispose => .eventDispose (item 1)

/-- The response that `onBuffer` passes on. -/
def onBuffer (P : Platform) (message : Bytes) :
    Except DeserializeError (Option IRawResponse) := do
  let (type, header, body) ← readMessage P message
  let .number x := type | return none
  let types := [ResponseType.Initialize, .PromiseSuccess, .PromiseError, .EventFire, .PromiseErrorObj]
  return (types.find? (·.code = x)).map fun type =>
    if h : type = .Initialize then .initializeResponse
    else .reply ⟨type, h⟩ (header.getD 1 .undefined) body

variable {P : Platform}

theorem deserialize_valueBytes (hText : ∀ s, P.decode (P.encode s) = s) {v : Value}
    (hwire : Wire P v) {reader : BufferReader} {rest : Bytes}
    (h : reader.remaining = valueBytes P v ++ rest) :
    deserialize P reader = .ok (v, reader.skip (valueBytes P v).length) := by
  refine deserializeFuel_valueBytes hText hwire ?_ h
  rw [h, List.length_append]
  omega

/-- What can be serialised and read back. -/
def Sendable (P : Platform) (message : List Value × Value) : Prop :=
  Wire P (.array message.1) ∧ Wire P message.2

theorem readMessage_send (hText : ∀ s, P.decode (P.encode s) = s) {message : List Value × Value}
    (h : Sendable P message) :
    readMessage P (send P message) = .ok (message.1.getD 0 .undefined, message) := by
  obtain ⟨header, body⟩ := message
  have hsent : send P (header, body) = valueBytes P (.array header) ++ valueBytes P body := by
    rw [send, buffer_serialize, buffer_serialize]
    rfl
  have hheader : BufferReader.remaining ⟨send P (header, body), 0⟩ =
      valueBytes P (.array header) ++ valueBytes P body := hsent
  have hbody := BufferReader.remaining_skip hheader
  rw [← List.append_nil (valueBytes P body)] at hbody
  simp only [readMessage, deserialize_valueBytes hText h.1 hheader,
    deserialize_valueBytes hText h.2 hbody, bind, Except.bind]
  rfl

theorem onRawMessage_send (hText : ∀ s, P.decode (P.encode s) = s) {request : IRawRequest}
    (h : Sendable P request.message) :
    onRawMessage P (send P request.message) = .ok (some request) := by
  rw [onRawMessage, readMessage_send hText h]
  cases request <;> norm_num [IRawRequest.message, RequestType.code, bind, Except.bind] <;> rfl

theorem onBuffer_send (hText : ∀ s, P.decode (P.encode s) = s) {response : IRawResponse}
    (h : Sendable P response.message) :
    onBuffer P (send P response.message) = .ok (some response) := by
  rw [onBuffer, readMessage_send hText h]
  rcases response with _ | ⟨⟨type, htype⟩, id, data⟩
  · norm_num [IRawResponse.message, ResponseType.code, bind, Except.bind]
    rfl
  · cases type
    · exact absurd rfl htype
    all_goals norm_num [IRawResponse.message, ResponseType.code, bind, Except.bind]; rfl

/-- Everything that a side has sent has come to the other side. -/
structure Drained (sys : System) (side : Side) : Prop where
  conn : sys.conn side = sys.conn side.other
  whole : sys.broken (sys.conn side) = false
  live : (sys.ends side).isReconnecting = false
  flight : sys.flight (sys.conn side) side = []
  written : (sys.ends side).socketWriter.data.flatten = []

end NexgileIde.Ipc
