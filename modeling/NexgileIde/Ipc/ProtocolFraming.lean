import NexgileIde.Ipc.ChunkStream

/-!
# Protocol messages on a socket

A message is written behind a header of fixed length that has the length of its data.
The reader takes headers and data in turns.
-/
namespace NexgileIde.Ipc

open Text

structure ProtocolMessage where
  type : ℕ
  id : ℕ
  ack : ℕ
  data : Bytes
  deriving DecidableEq, Repr

abbrev headerLength : ℕ := 13

/-! ## Reading -/

/-- The reader with its state, which is that of the header it has read last. -/
structure ProtocolReader where
  isDisposed : Bool
  incomingData : ChunkStream
  readHead : Bool
  readLen : ℕ
  messageType : ℕ
  id : ℕ
  ack : ℕ
  deriving DecidableEq, Repr

namespace ProtocolReader

def new : ProtocolReader where
  isDisposed := false
  incomingData := .empty
  readHead := true
  readLen := headerLength
  messageType := 0
  id := 0
  ack := 0

variable {σ : Type}

/-- The listener changes the state of its owner and says if it disposed the reader. -/
abbrev Listener (σ : Type) : Type := ProtocolMessage → σ → σ × Bool

/-- `none` where a read throws, and when the fuel is used up. -/
def acceptLoop (onMessage : Listener σ) : ℕ → ProtocolReader → σ → Option (ProtocolReader × σ)
  | 0, _, _ => none
  | fuel + 1, reader, s =>
    if reader.incomingData.byteLength ≥ reader.readLen then do
      let (buff, incomingData) ← reader.incomingData.read reader.readLen
      if reader.readHead then
        -- buff is the header
        let readLen ← readUInt32BE buff 9
        let messageType ← readUInt8 buff 0
        let id ← readUInt32BE buff 1
        let ack ← readUInt32BE buff 5
        acceptLoop onMessage fuel
          { reader with
            incomingData := incomingData
            readHead := false
            readLen := readLen
            messageType := messageType
            id := id
            ack := ack } s
      else
        -- buff is the body
        let (s, disposed) := onMessage ⟨reader.messageType, reader.id, reader.ack, buff⟩ s
        let reader :=
          { new with
            incomingData := incomingData
            isDisposed := reader.isDisposed || disposed }
        if reader.isDisposed then some (reader, s)
        else acceptLoop onMessage fuel reader s
    else some (reader, s)

/-- Every header takes bytes, so that this much fuel is enough. -/
def acceptChunk (onMessage : Listener σ) (reader : ProtocolReader) (s : σ) (data : Bytes) :
    Option (ProtocolReader × σ) :=
  if data.length = 0 then some (reader, s)
  else
    let incomingData := reader.incomingData.acceptChunk data
    acceptLoop onMessage (2 * incomingData.byteLength + 2)
      { reader with incomingData := incomingData } s

def readEntireBuffer (reader : ProtocolReader) : Option Bytes :=
  (reader.incomingData.read reader.incomingData.byteLength).map Prod.fst

end ProtocolReader

/-! ## Writing -/

/-- The writer with the buffers that it gave to its socket. -/
structure ProtocolWriter where
  isDisposed : Bool
  isPaused : Bool
  data : List Bytes
  totalLength : ℕ
  writeNowTimeout : Bool
  socket : List Bytes
  deriving DecidableEq, Repr

namespace ProtocolWriter

def new : ProtocolWriter := ⟨false, false, [], 0, false, []⟩

def header (msg : ProtocolMessage) : Bytes :=
  let header := alloc headerLength
  let header := writeUInt8 header msg.type 0
  let header := writeUInt32BE header msg.id 1
  let header := writeUInt32BE header msg.ack 5
  writeUInt32BE header msg.data.length 9

def scheduleWriting (writer : ProtocolWriter) : ProtocolWriter :=
  { writer with writeNowTimeout := true }

/-- The answer says if there was nothing before. -/
def bufferAdd (writer : ProtocolWriter) (head body : Bytes) : ProtocolWriter × Bool :=
  ({ writer with
      data := writer.data ++ [head, body]
      totalLength := writer.totalLength + (head.length + body.length) },
    writer.totalLength = 0)

def bufferTake (writer : ProtocolWriter) : Option (Bytes × ProtocolWriter) := do
  let ret ← concat writer.data writer.totalLength
  return (ret, { writer with data := [], totalLength := 0 })

def writeSoon (writer : ProtocolWriter) (header data : Bytes) : ProtocolWriter :=
  let (writer, wasEmpty) := writer.bufferAdd header data
  if wasEmpty then writer.scheduleWriting else writer

def writeNow (writer : ProtocolWriter) : Option ProtocolWriter :=
  if writer.totalLength = 0 then some writer
  else if writer.isPaused then some writer
  else do
    let (data, writer) ← writer.bufferTake
    return { writer with socket := writer.socket ++ [data] }

def write (writer : ProtocolWriter) (msg : ProtocolMessage) : ProtocolWriter :=
  if writer.isDisposed then writer
  else writer.writeSoon (header msg) msg.data

def flush (writer : ProtocolWriter) : Option ProtocolWriter := writer.writeNow

def pause (writer : ProtocolWriter) : ProtocolWriter := { writer with isPaused := true }

def resume (writer : ProtocolWriter) : ProtocolWriter :=
  { writer with isPaused := false }.scheduleWriting

/-- The timer that `_scheduleWriting` set. -/
def onTimeout (writer : ProtocolWriter) : Option ProtocolWriter :=
  if writer.writeNowTimeout then { writer with writeNowTimeout := false }.writeNow
  else some writer

/-- An error of the last flush is ignored. -/
def dispose (writer : ProtocolWriter) : ProtocolWriter :=
  { writer.flush.getD writer with isDisposed := true }

end ProtocolWriter

/-! ## The bytes of a message -/

def ProtocolMessage.headerBytes (type id ack length : ℕ) : Bytes :=
  toUint8 type :: (bytesUInt32BE id ++ (bytesUInt32BE ack ++ bytesUInt32BE length))

def ProtocolMessage.bytes (msg : ProtocolMessage) : Bytes :=
  headerBytes msg.type msg.id msg.ack msg.data.length ++ msg.data

/-- The fields fit into the header. -/
structure ProtocolMessage.Fits (msg : ProtocolMessage) : Prop where
  type : msg.type < 2 ^ 8
  id : msg.id < 2 ^ 32
  ack : msg.ack < 2 ^ 32
  length : msg.data.length < 2 ^ 32

@[simp] theorem ProtocolMessage.length_headerBytes (type id ack length : ℕ) :
    (headerBytes type id ack length).length = headerLength := rfl

theorem ProtocolWriter.header_eq (msg : ProtocolMessage) :
    header msg = ProtocolMessage.headerBytes msg.type msg.id msg.ack msg.data.length := by
  have hwrites := ((writes_uint8 msg.type).andThen (writes_uint32BE msg.id)).andThen
    ((writes_uint32BE msg.ack).andThen (writes_uint32BE msg.data.length))
  have hfull := hwrites.full (b := alloc headerLength) rfl
  have hfirst := congrArg Prod.fst hfull
  simpa [header, ProtocolMessage.headerBytes, Library.Writer.andThen, uint8, uint32BE] using hfirst

end NexgileIde.Ipc
