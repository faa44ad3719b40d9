import NexgileIde.Ipc.ProtocolFraming

/-!
# Framing does not depend on the chunks

A reader is described by the messages that its bytes and those to come make up. One
round of the loop reads a header or fires a message and keeps this description.
-/
namespace NexgileIde.Ipc

open Text

/-- The bytes of messages one after the other. -/
def wire (msgs : List ProtocolMessage) : Bytes := msgs.flatMap ProtocolMessage.bytes

@[simp] theorem wire_nil : wire [] = [] := rfl

@[simp] theorem wire_cons (m : ProtocolMessage) (msgs : List ProtocolMessage) :
    wire (m :: msgs) = m.bytes ++ wire msgs := rfl

@[simp] theorem wire_append (msgs msgs' : List ProtocolMessage) :
    wire (msgs ++ msgs') = wire msgs ++ wire msgs' := List.flatMap_append

/-! ## Headers -/

section Header

variable {type id ack length : ℕ}

theorem readUInt8_headerBytes (h : type < 2 ^ 8) :
    readUInt8 (ProtocolMessage.headerBytes type id ack length) 0 = some type :=
  @readUInt8_of_drop _ _ 0 type (by omega) (by omega) rfl

theorem readUInt32BE_headerBytes_id (h : id < 2 ^ 32) :
    readUInt32BE (ProtocolMessage.headerBytes type id ack length) 1 = some id :=
  @readUInt32BE_of_drop _ _ 1 id (by omega) (by omega) rfl

theorem readUInt32BE_headerBytes_ack (h : ack < 2 ^ 32) :
    readUInt32BE (ProtocolMessage.headerBytes type id ack length) 5 = some ack :=
  @readUInt32BE_of_drop _ _ 5 ack (by omega) (by omega) rfl

theorem readUInt32BE_headerBytes_length (h : length < 2 ^ 32) :
    readUInt32BE (ProtocolMessage.headerBytes type id ack length) 9 = some length :=
  @readUInt32BE_of_drop _ [] 9 length (by omega) (by omega) rfl

end Header

/-! ## What a writer holds -/

namespace ProtocolWriter

/-- The bytes are on the socket or in the buffers. -/
structure Holds (writer : ProtocolWriter) (bytes : Bytes) : Prop where
  live : writer.isDisposed = false
  counted : writer.totalLength = writer.data.flatten.length
  bytes : writer.socket.flatten ++ writer.data.flatten = bytes

theorem holds_new : new.Holds [] := ⟨rfl, rfl, rfl⟩

variable {writer : ProtocolWriter} {bytes : Bytes}

theorem Holds.bufferTake (h : writer.Holds bytes) :
    writer.bufferTake = some (writer.data.flatten, { writer with data := [], totalLength := 0 }) := by
  unfold ProtocolWriter.bufferTake
  rw [h.counted, concat_eq]
  rfl

theorem Holds.writeNow (h : writer.Holds bytes) :
    ∃ writer', writer.writeNow = some writer' ∧ writer'.Holds bytes := by
  unfold ProtocolWriter.writeNow
  split_ifs with hempty hpaused
  · exact ⟨writer, rfl, h⟩
  · exact ⟨writer, rfl, h⟩
  · rw [h.bufferTake]
    refine ⟨_, rfl, h.live, rfl, ?_⟩
    rw [← h.bytes]
    simp

theorem Holds.write (h : writer.Holds bytes) (msg : ProtocolMessage) :
    (writer.write msg).Holds (bytes ++ msg.bytes) := by
  have hadd : (writer.bufferAdd (header msg) msg.data).1.Holds (bytes ++ msg.bytes) := by
    refine ⟨h.live, ?_, ?_⟩
    · simp [bufferAdd, h.counted]
    · rw [← h.bytes, ProtocolMessage.bytes, header_eq]
      simp [bufferAdd]
  unfold ProtocolWriter.write writeSoon
  rw [h.live, if_neg Bool.false_ne_true]
  dsimp only
  split_ifs
  · exact ⟨hadd.live, hadd.counted, hadd.bytes⟩
  · exact hadd

theorem Holds.onTimeout (h : writer.Holds bytes) :
    ∃ writer', writer.onTimeout = some writer' ∧ writer'.Holds bytes := by
  unfold ProtocolWriter.onTimeout
  split_ifs
  · exact Holds.writeNow ⟨h.live, h.counted, h.bytes⟩
  · exact ⟨writer, rfl, h⟩

theorem Holds.pause (h : writer.Holds bytes) : writer.pause.Holds bytes :=
  ⟨h.live, h.counted, h.bytes⟩

theorem Holds.resume (h : writer.Holds bytes) : writer.resume.Holds bytes :=
  ⟨h.live, h.counted, h.bytes⟩

end ProtocolWriter

/-! ## What a reader is about to fire -/

namespace ProtocolReader

/-- The bytes of the reader and the `unread` ones are those of the messages `todo`, behind a
header that was read already or before one. -/
inductive Framed (reader : ProtocolReader) (unread : Bytes) : List ProtocolMessage → Prop
  | head (todo : List ProtocolMessage) (hcounted : reader.incomingData.Counted)
      (hhead : reader.readHead = true) (hlen : reader.readLen = headerLength)
      (hbytes : reader.incomingData.bytes ++ unread = wire todo) : Framed reader unread todo
  | body (m : ProtocolMessage) (todo : List ProtocolMessage)
      (hcounted : reader.incomingData.Counted) (hhead : reader.readHead = false)
      (hlen : reader.readLen = m.data.length) (htype : reader.messageType = m.type)
      (hid : reader.id = m.id) (hack : reader.ack = m.ack)
      (hbytes : reader.incomingData.bytes ++ unread = m.data ++ wire todo) :
      Framed reader unread (m :: todo)

theorem framed_new (msgs : List ProtocolMessage) : Framed new (wire msgs) msgs :=
  .head msgs ChunkStream.counted_empty rfl rfl rfl

theorem Framed.counted {reader : ProtocolReader} {unread : Bytes} {todo : List ProtocolMessage}
    (h : reader.Framed unread todo) : reader.incomingData.Counted := by
  cases h with
  | head _ hcounted => exact hcounted
  | body m todo hcounted => exact hcounted

/-- A chunk is a part of what was not read. -/
theorem Framed.acceptChunk {reader : ProtocolReader} {chunk unread : Bytes}
    {todo : List ProtocolMessage} (h : reader.Framed (chunk ++ unread) todo) :
    ({ reader with incomingData := reader.incomingData.acceptChunk chunk }).Framed unread todo := by
  cases h with
  | head _ hcounted hhead hlen hbytes =>
    refine .head _ (hcounted.acceptChunk _) hhead hlen ?_
    rw [ChunkStream.bytes_acceptChunk, List.append_assoc, hbytes]
  | body m todo hcounted hhead hlen htype hid hack hbytes =>
    refine .body m todo (hcounted.acceptChunk _) hhead hlen htype hid hack ?_
    rw [ChunkStream.bytes_acceptChunk, List.append_assoc, hbytes]

/-- The messages that a listener gets until it disposes the reader. -/
inductive Fires {σ : Type} (onMessage : Listener σ) : σ → List ProtocolMessage → σ → Bool → Prop
  | none (s : σ) : Fires onMessage s [] s false
  | last {s s' : σ} {m : ProtocolMessage} (h : onMessage m s = (s', true)) :
      Fires onMessage s [m] s' true
  | next {s s' s'' : σ} {m : ProtocolMessage} {msgs : List ProtocolMessage} {disposed : Bool}
      (h : onMessage m s = (s', false)) (hrest : Fires onMessage s' msgs s'' disposed) :
      Fires onMessage s (m :: msgs) s'' disposed

theorem take_of_append {a b c d : Bytes} (h : a ++ b = c ++ d) (hlength : c.length ≤ a.length) :
    a.take c.length = c ∧ a.drop c.length ++ b = d := by
  have htake := congrArg (List.take c.length) h
  have hdrop := congrArg (List.drop c.length) h
  rw [List.take_append_of_le_length hlength, List.take_left] at htake
  rw [List.drop_append_of_le_length hlength, List.drop_left] at hdrop
  exact ⟨htake, hdrop⟩

/-- What a run of the loop does: it fires the first messages and stops when it was disposed or
has too few bytes. -/
structure LoopResult {σ : Type} (onMessage : Listener σ) (s : σ) (unread : Bytes)
    (todo : List ProtocolMessage) (reader' : ProtocolReader) (s' : σ)
    (fired rest : List ProtocolMessage) : Prop where
  todo_eq : todo = fired ++ rest
  fires : Fires onMessage s fired s' reader'.isDisposed
  framed : reader'.Framed unread rest
  head_of_disposed : reader'.isDisposed = true → reader'.readHead = true
  short : reader'.isDisposed = false → reader'.incomingData.bytes.length < reader'.readLen

variable {σ : Type}

/-- A round that reads a header. -/
theorem acceptLoop_head (onMessage : Listener σ) (fuel : ℕ) {reader : ProtocolReader} (s : σ)
    {unread : Bytes} {todo : List ProtocolMessage} (hfits : ∀ m ∈ todo, m.Fits)
    (hcounted : reader.incomingData.Counted) (hhead : reader.readHead = true)
    (hlen : reader.readLen = headerLength)
    (hbytes : reader.incomingData.bytes ++ unread = wire todo)
    (henough : reader.readLen ≤ reader.incomingData.bytes.length) :
    ∃ reader', acceptLoop onMessage (fuel + 1) reader s = acceptLoop onMessage fuel reader' s ∧
      reader'.Framed unread todo ∧ reader'.readHead = false ∧
      reader'.isDisposed = reader.isDisposed ∧
      reader'.incomingData.bytes.length + headerLength = reader.incomingData.bytes.length := by
  have hlength : reader.incomingData.byteLength = reader.incomingData.bytes.length := hcounted
  obtain ⟨stream, hread, hcounted', hbytes'⟩ := ChunkStream.read_eq hcounted henough
  cases todo with
  | nil =>
    rw [(List.append_eq_nil_iff.mp hbytes).1, hlen] at henough
    exact absurd henough (by decide)
  | cons m todo =>
    obtain ⟨htype, hid, hack, hdata⟩ := hfits m List.mem_cons_self
    rw [wire_cons, ProtocolMessage.bytes, List.append_assoc] at hbytes
    obtain ⟨htake, hdrop⟩ := take_of_append hbytes (by simpa [hlen] using henough)
    rw [ProtocolMessage.length_headerBytes, ← hlen] at htake hdrop
    refine ⟨{ reader with
      incomingData := stream
      readHead := false
      readLen := m.data.length
      messageType := m.type
      id := m.id
      ack := m.ack }, ?_, ?_, rfl, rfl, ?_⟩
    · rw [acceptLoop, if_pos (hlength ▸ henough), hread, htake]
      simp only [Option.bind_eq_bind, Option.bind_some, hhead, if_true,
        readUInt8_headerBytes htype, readUInt32BE_headerBytes_id hid,
        readUInt32BE_headerBytes_ack hack, readUInt32BE_headerBytes_length hdata]
    · refine .body m todo hcounted' rfl rfl rfl rfl rfl ?_
      rw [hbytes']
      exact hdrop
    · show stream.bytes.length + headerLength = _
      rw [hbytes', List.length_drop, hlen]
      omega

/-- A round that reads a body fires its message. -/
theorem acceptLoop_body (onMessage : Listener σ) (fuel : ℕ) {reader : ProtocolReader} (s : σ)
    {unread : Bytes} {m : ProtocolMessage} {todo : List ProtocolMessage}
    (hcounted : reader.incomingData.Counted) (hhead : reader.readHead = false)
    (hlen : reader.readLen = m.data.length) (htype : reader.messageType = m.type)
    (hid : reader.id = m.id) (hack : reader.ack = m.ack)
    (hbytes : reader.incomingData.bytes ++ unread = m.data ++ wire todo)
    (hdisposed : reader.isDisposed = false)
    (henough : reader.readLen ≤ reader.incomingData.bytes.length) :
    ∃ reader', acceptLoop onMessage (fuel + 1) reader s =
        (if reader'.isDisposed then some (reader', (onMessage m s).1)
          else acceptLoop onMessage fuel reader' (onMessage m s).1) ∧
      reader'.Framed unread todo ∧ reader'.readHead = true ∧
      reader'.isDisposed = (onMessage m s).2 ∧
      reader'.incomingData.bytes.length ≤ reader.incomingData.bytes.length := by
  have hlength : reader.incomingData.byteLength = reader.incomingData.bytes.length := hcounted
  obtain ⟨stream, hread, hcounted', hbytes'⟩ := ChunkStream.read_eq hcounted henough
  obtain ⟨htake, hdrop⟩ := take_of_append hbytes (hlen ▸ henough)
  rw [← hlen] at htake hdrop
  refine ⟨{ new with incomingData := stream, isDisposed := (onMessage m s).2 }, ?_, ?_, rfl, rfl, ?_⟩
  · rw [acceptLoop, if_pos (hlength ▸ henough), hread, htake]
    simp only [Option.bind_eq_bind, Option.bind_some, hhead, htype, hid, hack, hdisposed,
      Bool.false_or, Bool.false_eq_true, if_false]
  · refine .head todo hcounted' rfl rfl ?_
    rw [hbytes']
    exact hdrop
  · show stream.bytes.length ≤ _
    rw [hbytes', List.length_drop]
    omega

theorem acceptLoop_spec (onMessage : Listener σ) (fuel : ℕ) (reader : ProtocolReader) (s : σ)
    (unread : Bytes) (todo : List ProtocolMessage) (hfits : ∀ m ∈ todo, m.Fits)
    (hframed : reader.Framed unread todo) (hdisposed : reader.isDisposed = false)
    (hfuel : 2 * reader.incomingData.bytes.length + (if reader.readHead then 0 else 1) < fuel) :
    ∃ reader' s' fired rest, acceptLoop onMessage fuel reader s = some (reader', s') ∧
      LoopResult onMessage s unread todo reader' s' fired rest := by
  induction fuel generalizing reader s todo with
  | zero => exact absurd hfuel (Nat.not_lt_zero _)
  | succ fuel ih =>
    have hlength : reader.incomingData.byteLength = reader.incomingData.bytes.length :=
      hframed.counted
    by_cases henough : reader.incomingData.byteLength ≥ reader.readLen
    · rw [hlength] at henough
      cases hframed with
      | head _ hcounted hhead hlen hbytes =>
        obtain ⟨reader', hloop, hframed', hhead', hdisposed', hless⟩ :=
          acceptLoop_head onMessage fuel s hfits hcounted hhead hlen hbytes henough
        rw [hloop]
        refine ih reader' s todo hfits hframed' (hdisposed'.trans hdisposed) ?_
        rw [hhead', if_neg Bool.false_ne_true]
        rw [hhead, if_pos rfl] at hfuel
        unfold headerLength at hless
        omega
      | body m todo hcounted hhead hlen htype hid hack hbytes =>
        obtain ⟨reader', hloop, hframed', hhead', hdisposed', hless⟩ :=
          acceptLoop_body onMessage fuel s hcounted hhead hlen htype hid hack hbytes hdisposed henough
        rw [hhead, if_neg Bool.false_ne_true] at hfuel
        rw [hloop]
        cases hstop : (onMessage m s).2 with
        | true =>
          rw [hstop] at hdisposed'
          rw [if_pos hdisposed']
          refine ⟨reader', (onMessage m s).1, [m], todo, rfl, rfl, ?_, hframed', fun _ => hhead', ?_⟩
          · rw [hdisposed']
            exact .last (Prod.ext rfl hstop)
          · intro h
            rw [hdisposed'] at h
            cases h
        | false =>
          rw [hstop] at hdisposed'
          rw [if_neg (by rw [hdisposed']; exact Bool.false_ne_true)]
          obtain ⟨reader'', s'', fired, rest, hrun, hresult⟩ :=
            ih reader' (onMessage m s).1 todo (fun m' hm => hfits m' (List.mem_cons_of_mem _ hm))
              hframed' hdisposed' (by rw [hhead', if_pos rfl]; omega)
          refine ⟨reader'', s'', m :: fired, rest, hrun, ?_, ?_, hresult.framed,
            hresult.head_of_disposed, hresult.short⟩
          · rw [hresult.todo_eq, List.cons_append]
          · exact .next (Prod.ext rfl hstop) hresult.fires
    · refine ⟨reader, s, [], todo, ?_, rfl, ?_, hframed, ?_, ?_⟩
      · rw [acceptLoop, if_neg henough]
      · rw [hdisposed]
        exact .none s
      · intro h
        rw [hdisposed] at h
        cases h
      · intro _
        rw [← hlength]
        exact Nat.lt_of_not_le henough

/-- A chunk fires the messages that it completes. -/
theorem acceptChunk_spec (onMessage : Listener σ) (reader : ProtocolReader) (s : σ)
    (chunk unread : Bytes) (todo : List ProtocolMessage) (hchunk : chunk ≠ [])
    (hfits : ∀ m ∈ todo, m.Fits) (hframed : reader.Framed (chunk ++ unread) todo)
    (hdisposed : reader.isDisposed = false) :
    ∃ reader' s' fired rest, acceptChunk onMessage reader s chunk = some (reader', s') ∧
      LoopResult onMessage s unread todo reader' s' fired rest := by
  have hframed' := hframed.acceptChunk
  have hlength : (reader.incomingData.acceptChunk chunk).byteLength =
      (reader.incomingData.acceptChunk chunk).bytes.length := hframed'.counted
  unfold acceptChunk
  rw [if_neg (fun h => hchunk (List.length_eq_zero_iff.mp h))]
  refine acceptLoop_spec onMessage _ _ s unread todo hfits hframed' hdisposed ?_
  dsimp only
  rw [hlength]
  split_ifs <;> omega

/-- A reader that waits for more has not got the next message. -/
theorem Framed.length_lt {reader : ProtocolReader} {unread : Bytes} {m : ProtocolMessage}
    {todo : List ProtocolMessage} (h : reader.Framed unread (m :: todo))
    (hshort : reader.incomingData.bytes.length < reader.readLen) :
    (wire (m :: todo)).length < m.bytes.length + unread.length := by
  cases h with
  | head _ hcounted hhead hlen hbytes =>
    rw [← hbytes, List.length_append, ProtocolMessage.bytes, List.length_append,
      ProtocolMessage.length_headerBytes, ← hlen]
    omega
  | body m todo hcounted hhead hlen htype hid hack hbytes =>
    have hlength := congrArg List.length hbytes
    rw [List.length_append, List.length_append] at hlength
    rw [wire_cons, ProtocolMessage.bytes, List.append_assoc, List.length_append, List.length_append,
      List.length_append]
    omega

theorem Framed.eq_nil {reader : ProtocolReader} {todo : List ProtocolMessage}
    (h : reader.Framed [] todo) (hshort : reader.incomingData.bytes.length < reader.readLen) :
    todo = [] := by
  cases todo with
  | nil => rfl
  | cons m todo =>
    have hlt := h.length_lt hshort
    rw [wire_cons, List.length_append, List.length_nil] at hlt
    omega

/-- A reader before a header holds what is not yet fired. -/
theorem Framed.readEntireBuffer {reader : ProtocolReader} {unread : Bytes}
    {todo : List ProtocolMessage} (h : reader.Framed unread todo) (hhead : reader.readHead = true) :
    ∃ rest, reader.readEntireBuffer = some rest ∧ rest ++ unread = wire todo := by
  cases h with
  | head _ hcounted _ _ hbytes =>
    obtain ⟨stream, hread⟩ := ChunkStream.read_byteLength hcounted
    refine ⟨_, ?_, hbytes⟩
    unfold ProtocolReader.readEntireBuffer
    rw [hread]
    rfl
  | body m todo _ hbody =>
    rw [hhead] at hbody
    cases hbody

end ProtocolReader

end NexgileIde.Ipc

/-!
## From a writer to a reader

A writer gathers messages and gives them to its socket, which delivers the bytes in
chunks of its own.
-/
namespace NexgileIde.Ipc

open Text

/-! ## A socket that delivers chunks -/

/-- A reader with the messages that it fired and the bytes that reached it. -/
structure Reception where
  reader : ProtocolReader
  fired : List ProtocolMessage
  received : Bytes

namespace Reception

def new : Reception := ⟨.new, [], []⟩

/-- The listener disposes the reader when `dispose` says so of the messages it got. A disposed
reader no longer listens to its socket. -/
def receive (dispose : List ProtocolMessage → Bool) (r : Reception) (chunk : Bytes) :
    Option Reception :=
  if r.reader.isDisposed then some r
  else do
    let (reader, fired) ← r.reader.acceptChunk
      (fun m fired => (fired ++ [m], dispose (fired ++ [m]))) r.fired chunk
    return ⟨reader, fired, r.received ++ chunk⟩

def receiveAll (dispose : List ProtocolMessage → Bool) (r : Reception) :
    List Bytes → Option Reception
  | [] => some r
  | chunk :: chunks => do
    let r ← r.receive dispose chunk
    r.receiveAll dispose chunks

variable {dispose : List ProtocolMessage → Bool}

/-- The listener was content with every message but the last one of a disposed reader. -/
def Kept (dispose : List ProtocolMessage → Bool) (fired : List ProtocolMessage)
    (disposed : Bool) : Prop :=
  (disposed = true → dispose fired = true) ∧
    ∀ p, p <+: fired → p ≠ [] → dispose p = true → p = fired ∧ disposed = true

theorem Kept.fires {fired msgs fired' : List ProtocolMessage} {disposed : Bool}
    (hkept : Kept dispose fired false)
    (h : ProtocolReader.Fires (fun m fired => (fired ++ [m], dispose (fired ++ [m]))) fired msgs
      fired' disposed) : fired' = fired ++ msgs ∧ Kept dispose fired' disposed := by
  induction h with
  | none s => exact ⟨(List.append_nil s).symm, hkept⟩
  | last h =>
    obtain ⟨rfl, hdispose⟩ := Prod.mk.inj h
    refine ⟨rfl, fun _ => hdispose, fun p hp hne hyes => ⟨?_, rfl⟩⟩
    rcases List.prefix_concat_iff.mp hp with rfl | hp
    · rfl
    · cases (hkept.2 p hp hne hyes).2
  | next h _ ih =>
    obtain ⟨rfl, hdispose⟩ := Prod.mk.inj h
    obtain ⟨hfired, hkept'⟩ := ih ⟨nofun, fun p hp hne hyes => by
      rcases List.prefix_concat_iff.mp hp with rfl | hp
      · rw [hdispose] at hyes
        cases hyes
      · cases (hkept.2 p hp hne hyes).2⟩
    exact ⟨by rw [hfired, List.append_assoc, List.singleton_append], hkept'⟩

/-- What holds after some chunks: the bytes that came make up the messages that were fired and
the bytes that the reader holds. -/
structure Inv (dispose : List ProtocolMessage → Bool) (msgs : List ProtocolMessage)
    (unread : Bytes) (r : Reception) (rest : List ProtocolMessage) (left : Bytes) : Prop where
  msgs_eq : msgs = r.fired ++ rest
  framed : r.reader.Framed left rest
  received : r.received ++ left = wire msgs
  kept : Kept dispose r.fired r.reader.isDisposed
  left_eq : r.reader.isDisposed = false → left = unread
  head : r.reader.isDisposed = true → r.reader.readHead = true
  short : r.reader.isDisposed = false → r.reader.incomingData.bytes.length < r.reader.readLen

theorem inv_new (dispose : List ProtocolMessage → Bool) (msgs : List ProtocolMessage) :
    Inv dispose msgs (wire msgs) new msgs (wire msgs) where
  msgs_eq := rfl
  framed := ProtocolReader.framed_new msgs
  received := rfl
  kept := ⟨nofun, fun p hp hne _ => absurd (List.prefix_nil.mp hp) hne⟩
  left_eq _ := rfl
  head := nofun
  short _ := by decide

theorem Inv.receive {msgs rest : List ProtocolMessage} {chunk unread left : Bytes} {r : Reception}
    (hfits : ∀ m ∈ msgs, m.Fits) (hchunk : chunk ≠ [])
    (h : Inv dispose msgs (chunk ++ unread) r rest left) :
    ∃ r' rest' left', r.receive dispose chunk = some r' ∧
      Inv dispose msgs unread r' rest' left' := by
  unfold Reception.receive
  cases hdisposed : r.reader.isDisposed with
  | true =>
    refine ⟨r, rest, left, by rw [if_pos rfl], ?_⟩
    exact ⟨h.msgs_eq, h.framed, h.received, h.kept,
      fun hno => absurd (hdisposed.symm.trans hno) nofun, h.head, h.short⟩
  | false =>
    obtain rfl := h.left_eq hdisposed
    obtain ⟨reader', fired', fired, rest', haccept, hresult⟩ :=
      ProtocolReader.acceptChunk_spec (fun m fired => (fired ++ [m], dispose (fired ++ [m])))
        r.reader r.fired chunk unread rest hchunk
        (fun m hm => hfits m (h.msgs_eq ▸ List.mem_append_right _ hm)) h.framed hdisposed
    have hkept := h.kept
    rw [hdisposed] at hkept
    obtain ⟨hfired, hkept'⟩ := hkept.fires hresult.fires
    refine ⟨⟨reader', fired', r.received ++ chunk⟩, rest', unread, ?_, ?_, hresult.framed, ?_,
      hkept', fun _ => rfl, hresult.head_of_disposed, hresult.short⟩
    · rw [if_neg Bool.false_ne_true, haccept]
      rfl
    · rw [h.msgs_eq, hresult.todo_eq, hfired, List.append_assoc]
    · rw [List.append_assoc]
      exact h.received

theorem Inv.receiveAll {msgs rest : List ProtocolMessage} {chunks : List Bytes}
    {unread left : Bytes} {r : Reception} (hfits : ∀ m ∈ msgs, m.Fits)
    (hchunks : ∀ chunk ∈ chunks, chunk ≠ [])
    (h : Inv dispose msgs (chunks.flatten ++ unread) r rest left) :
    ∃ r' rest' left', r.receiveAll dispose chunks = some r' ∧
      Inv dispose msgs unread r' rest' left' := by
  induction chunks generalizing r rest left with
  | nil => exact ⟨r, rest, left, rfl, h⟩
  | cons chunk chunks ih =>
    rw [List.flatten_cons, List.append_assoc] at h
    obtain ⟨r', rest', left', hreceive, h'⟩ := h.receive hfits (hchunks chunk List.mem_cons_self)
    obtain ⟨r'', rest'', left'', hall, h''⟩ :=
      ih (fun chunk hchunk => hchunks chunk (List.mem_cons_of_mem _ hchunk)) h'
    refine ⟨r'', rest'', left'', ?_, h''⟩
    unfold Reception.receiveAll
    rw [hreceive]
    exact hall

/-- As long as the reader is not disposed it has fired every message that came in full. -/
theorem Inv.length_lt {msgs rest : List ProtocolMessage} {unread left : Bytes} {r : Reception}
    {m : ProtocolMessage} (h : Inv dispose msgs unread r (m :: rest) left)
    (hdisposed : r.reader.isDisposed = false) :
    r.received.length < (wire (r.fired ++ [m])).length := by
  have hlt := h.framed.length_lt (h.short hdisposed)
  have hlength := congrArg List.length h.received
  rw [h.msgs_eq, wire_append, List.length_append, List.length_append] at hlength
  rw [wire_append, List.length_append, wire_cons, List.length_append, wire_nil, List.length_nil]
  omega

end Reception

/-! ## A writer and its socket -/

inductive WriterEvent
  | write (msg : ProtocolMessage)
  | timeout
  | flush
  | pause
  | resume
  deriving DecidableEq, Repr

namespace ProtocolWriter

def step (writer : ProtocolWriter) : WriterEvent → Option ProtocolWriter
  | .write msg => some (writer.write msg)
  | .timeout => writer.onTimeout
  | .flush => writer.flush
  | .pause => some writer.pause
  | .resume => some writer.resume

def run (writer : ProtocolWriter) : List WriterEvent → Option ProtocolWriter
  | [] => some writer
  | event :: events => do
    let writer ← writer.step event
    writer.run events

/-- What the socket got and what it will get next. -/
def produced (writer : ProtocolWriter) : Option Bytes := do
  let (data, writer) ← writer.bufferTake
  return writer.socket.flatten ++ data

end ProtocolWriter

def WriterEvent.written : WriterEvent → List ProtocolMessage
  | write msg => [msg]
  | timeout | flush | pause | resume => []

def written (events : List WriterEvent) : List ProtocolMessage :=
  events.flatMap WriterEvent.written

namespace ProtocolWriter

variable {writer : ProtocolWriter} {msgs : List ProtocolMessage}

theorem Holds.step (h : writer.Holds (wire msgs)) (event : WriterEvent) :
    ∃ writer', writer.step event = some writer' ∧ writer'.Holds (wire (msgs ++ event.written)) := by
  cases event with
  | write msg =>
    refine ⟨_, rfl, ?_⟩
    rw [WriterEvent.written, wire_append, wire_cons, wire_nil, List.append_nil]
    exact h.write msg
  | timeout =>
    unfold WriterEvent.written
    rw [List.append_nil]
    exact h.onTimeout
  | flush =>
    unfold WriterEvent.written
    rw [List.append_nil]
    exact h.writeNow
  | pause | resume =>
    unfold WriterEvent.written
    rw [List.append_nil]
    exact ⟨_, rfl, h.live, h.counted, h.bytes⟩

theorem Holds.run (h : writer.Holds (wire msgs)) (events : List WriterEvent) :
    ∃ writer', writer.run events = some writer' ∧ writer'.Holds (wire (msgs ++ written events)) := by
  induction events generalizing writer msgs with
  | nil => exact ⟨writer, rfl, (List.append_nil msgs).symm ▸ h⟩
  | cons event events ih =>
    obtain ⟨writer', hstep, h'⟩ := h.step event
    obtain ⟨writer'', hrun, h''⟩ := ih h'
    refine ⟨writer'', ?_, ?_⟩
    · unfold ProtocolWriter.run
      rw [hstep]
      exact hrun
    · rw [written, List.flatMap_cons, ← List.append_assoc]
      exact h''

theorem Holds.produced (h : writer.Holds (wire msgs)) : writer.produced = some (wire msgs) := by
  unfold ProtocolWriter.produced
  rw [h.bufferTake, ← h.bytes]
  rfl

end ProtocolWriter

/-! ## From a writer to a reader -/

namespace Reception

theorem receiveAll_of_disposed {dispose : List ProtocolMessage → Bool} {r : Reception}
    (h : r.reader.isDisposed = true) (chunks : List Bytes) :
    r.receiveAll dispose chunks = some r := by
  induction chunks with
  | nil => rfl
  | cons chunk chunks ih =>
    unfold receiveAll receive
    rw [if_pos h]
    exact ih

theorem received_prefix {dispose : List ProtocolMessage → Bool} {chunks : List Bytes}
    {r r' : Reception} (h : r.receiveAll dispose chunks = some r') :
    r'.received <+: r.received ++ chunks.flatten := by
  induction chunks generalizing r with
  | nil =>
    cases h
    exact List.prefix_append _ _
  | cons chunk chunks ih =>
    obtain ⟨r₁, hreceive, hall⟩ := Option.bind_eq_some_iff.mp h
    unfold receive at hreceive
    split_ifs at hreceive with hdisposed
    · cases hreceive
      rw [receiveAll_of_disposed hdisposed] at hall
      cases hall
      exact List.prefix_append _ _
    · obtain ⟨p, _, hp⟩ := Option.bind_eq_some_iff.mp hreceive
      have hrest := ih hall
      cases hp
      rw [List.flatten_cons, ← List.append_assoc]
      exact hrest

end Reception

theorem wire_length_le {msgs msgs' : List ProtocolMessage} (h : msgs <+: msgs') :
    (wire msgs).length ≤ (wire msgs').length := by
  obtain ⟨rest, rfl⟩ := h
  rw [wire_append, List.length_append]
  omega

/-- However a writer's bytes are cut into chunks, the reader fires the messages that were written
and that came in full; after the message at which its listener disposes it, its buffer holds what
came behind this message. -/
theorem reader_fires_written (events : List WriterEvent)
    (hfits : ∀ m ∈ written events, m.Fits) (chunks : List Bytes)
    (hchunks : ∀ chunk ∈ chunks, chunk ≠ []) (unread : Bytes)
    (hbytes : (ProtocolWriter.new.run events).bind ProtocolWriter.produced =
      some (chunks.flatten ++ unread)) :
    (∃ r, Reception.new.receiveAll (fun _ => false) chunks = some r ∧
      r.fired <+: written events ∧ (unread = [] → r.fired = written events)) ∧
    ∀ k, 0 < k → k ≤ (written events).length →
      (wire ((written events).take k)).length ≤ chunks.flatten.length →
      ∃ r rest, Reception.new.receiveAll (fun fired => fired.length = k) chunks = some r ∧
        r.reader.isDisposed = true ∧ r.fired = (written events).take k ∧
        r.reader.readEntireBuffer = some rest ∧ wire r.fired ++ rest = r.received ∧
        r.received <+: chunks.flatten := by
  have hnew : ProtocolWriter.new.Holds (wire []) := ProtocolWriter.holds_new
  obtain ⟨writer, hrun, hholds⟩ := hnew.run events
  rw [hrun, Option.bind_some, hholds.produced, List.nil_append] at hbytes
  have hwire : wire (written events) = chunks.flatten ++ unread := Option.some.inj hbytes
  generalize written events = msgs at *
  have hinv : ∀ dispose, ∃ r rest left, Reception.new.receiveAll dispose chunks = some r ∧
      Reception.Inv dispose msgs unread r rest left := by
    intro dispose
    have hnew := Reception.inv_new dispose msgs
    rw [hwire] at hnew
    exact Reception.Inv.receiveAll hfits hchunks hnew
  constructor
  · obtain ⟨r, rest, left, hall, h⟩ := hinv fun _ => false
    have hdisposed : r.reader.isDisposed = false := by
      cases hd : r.reader.isDisposed with
      | false => rfl
      | true => cases h.kept.1 hd
    refine ⟨r, hall, ?_, fun hunread => ?_⟩
    · rw [h.msgs_eq]
      exact List.prefix_append _ _
    · have hframed := h.framed
      rw [h.left_eq hdisposed, hunread] at hframed
      rw [h.msgs_eq, hframed.eq_nil (h.short hdisposed), List.append_nil]
  · intro k hk hle hlength
    obtain ⟨r, rest, left, hall, h⟩ := hinv fun fired => fired.length = k
    have hdisposed : r.reader.isDisposed = true := by
      by_contra hlive
      rw [Bool.not_eq_true] at hlive
      -- enough bytes came for `k` messages, so that one of them had to dispose the reader
      have hfired : k ≤ r.fired.length := by
        by_contra hfew
        cases hrest : rest with
        | nil =>
          rw [h.msgs_eq, hrest, List.append_nil] at hle
          exact hfew hle
        | cons m rest' =>
          rw [hrest] at h
          have hlt := h.length_lt hlive
          have hreceived := congrArg List.length h.received
          rw [h.left_eq hlive, hwire, List.length_append, List.length_append] at hreceived
          have hinit : r.fired ++ [m] <+: msgs.take k := by
            rw [h.msgs_eq, List.take_append, List.take_of_length_le (by omega)]
            refine (List.prefix_append_right_inj _).mpr ?_
            obtain ⟨n, hn⟩ : ∃ n, k - r.fired.length = n + 1 := ⟨k - r.fired.length - 1, by omega⟩
            rw [hn, List.take_succ_cons]
            exact (List.prefix_append [m] _)
          have hmono := wire_length_le hinit
          omega
      have htake : (r.fired.take k).length = k := by
        rw [List.length_take, Nat.min_eq_left hfired]
      have hstop := (h.kept.2 (r.fired.take k) (List.take_prefix _ _)
        (by intro hnil; rw [hnil] at htake; exact absurd htake (Nat.ne_of_lt hk))
        (decide_eq_true htake)).2
      rw [hlive] at hstop
      cases hstop
    have hcount : r.fired.length = k := of_decide_eq_true (h.kept.1 hdisposed)
    obtain ⟨buffer, hbuffer, hbufferLeft⟩ := h.framed.readEntireBuffer (h.head hdisposed)
    refine ⟨r, buffer, hall, hdisposed, ?_, hbuffer, ?_, Reception.received_prefix hall⟩
    · rw [h.msgs_eq, ← hcount, List.take_left]
    · have hreceived := h.received
      rw [h.msgs_eq, wire_append, ← hbufferLeft, ← List.append_assoc] at hreceived
      exact (List.append_cancel_right hreceived).symm

def twoMessages : List WriterEvent :=
  [.write ⟨1, 1, 0, [7, 8]⟩, .pause, .write ⟨3, 0, 258, []⟩, .resume, .timeout]

theorem reader_fires_written_two :
    (∃ r, Reception.new.receiveAll (fun _ => false)
        [(wire (written twoMessages)).take 14, (wire (written twoMessages)).drop 14] = some r ∧
      r.fired = [⟨1, 1, 0, [7, 8]⟩, ⟨3, 0, 258, []⟩]) ∧
    ∃ r rest, Reception.new.receiveAll (fun fired => fired.length = 1)
        [(wire (written twoMessages)).take 14, (wire (written twoMessages)).drop 14] = some r ∧
      r.fired = [⟨1, 1, 0, [7, 8]⟩] ∧ r.reader.readEntireBuffer = some rest ∧
      wire r.fired ++ rest = r.received := by
  have hfits : ∀ m ∈ written twoMessages, m.Fits := by
    intro m hm
    simp only [written, twoMessages, List.flatMap_cons, List.flatMap_nil, WriterEvent.written,
      List.append_nil, List.nil_append, List.cons_append, List.mem_cons, List.not_mem_nil,
      or_false] at hm
    rcases hm with rfl | rfl <;> exact ⟨by decide, by decide, by decide, by decide⟩
  obtain ⟨⟨r, hall, -, hfired⟩, hdispose⟩ := reader_fires_written twoMessages hfits
    [(wire (written twoMessages)).take 14, (wire (written twoMessages)).drop 14]
    (by decide) [] (by decide)
  obtain ⟨r', rest, hall', -, hfired', hrest, hreceived, -⟩ :=
    hdispose 1 (by decide) (by decide) (by decide)
  exact ⟨⟨r, hall, hfired rfl⟩, r', rest, hall', hfired', hrest, hreceived⟩

end NexgileIde.Ipc
