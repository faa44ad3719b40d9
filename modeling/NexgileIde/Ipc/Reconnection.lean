import NexgileIde.Ipc.PersistentProtocol

/-!
# Two endpoints and their connections

A connection is a pair of sockets. Its bytes are delivered in order, in chunks of any length,
and when it breaks it loses some of the bytes that it has and all that follow. An endpoint goes
from a connection to a later one.
-/
namespace NexgileIde.Ipc

open Text

inductive Side
  | client
  | server
  deriving DecidableEq, Repr

namespace Side

def other : Side → Side
  | client => server
  | server => client

@[simp] theorem other_other (side : Side) : side.other.other = side := by cases side <;> rfl

theorem other_ne (side : Side) : side.other ≠ side := by cases side <;> nofun

theorem eq_or_eq_other (side side' : Side) : side' = side ∨ side' = side.other := by
  cases side <;> cases side' <;> simp [other]

end Side

/-- What is sent has a length that the header can hold. -/
abbrev MessageBuffer : Type := { b : Bytes // b.length < 2 ^ 32 }

/-- What one endpoint does without reading. -/
inductive LocalEvent
  | send (buffer : MessageBuffer)
  | sendControl (buffer : MessageBuffer)
  | sendPause
  | sendResume
  | sendDisconnect
  | sendKeepAlive
  | pauseSocketWriting
  | flush
  | writeTimeout
  | incomingAckTimeout
  | outgoingAckTimeout
  | endAcceptReconnection

namespace PersistentProtocol

def apply (clock : Clock) (p : PersistentProtocol) : LocalEvent → Option PersistentProtocol
  | .send buffer => some (p.send clock buffer.1)
  | .sendControl buffer => some (p.sendControl buffer.1)
  | .sendPause => some p.sendPause
  | .sendResume => some p.sendResume
  | .sendDisconnect => p.sendDisconnect
  | .sendKeepAlive => some (p.sendKeepAlive clock)
  | .pauseSocketWriting => some p.pauseSocketWriting
  | .flush => p.flush
  | .writeTimeout => p.onWriteTimeout
  | .incomingAckTimeout => some (p.onIncomingAckTimeout clock)
  | .outgoingAckTimeout => some (p.onOutgoingAckTimeout clock)
  | .endAcceptReconnection => some (p.endAcceptReconnection clock)

/-- The endpoint when its socket has taken what was written to it. -/
def drained (p : PersistentProtocol) : PersistentProtocol :=
  { p with socketWriter := { p.socketWriter with socket := [] } }

end PersistentProtocol

/-- `flight c side` are the bytes that `side` wrote on the connection `c` and that were not
delivered. -/
structure System where
  ends : Side → PersistentProtocol
  conn : Side → ℕ
  flight : ℕ → Side → Bytes
  broken : ℕ → Bool

namespace System

def initial : System where
  ends _ := .new
  conn _ := 0
  flight _ _ := []
  broken _ := false

/-- A connection that is broken takes nothing. -/
def transmit (sys : System) (c : ℕ) (side : Side) (bytes : Bytes) : System :=
  if sys.broken c then sys
  else
    { sys with
      flight := fun c' side' =>
        if c' = c ∧ side' = side then sys.flight c side ++ bytes else sys.flight c' side' }

/-- The endpoint of a side after an operation, with what its socket took. -/
def put (sys : System) (side : Side) (p : PersistentProtocol) : System :=
  { sys.transmit (sys.conn side) side p.socketWriter.socket.flatten with
    ends := Function.update sys.ends side p.drained }

/-- The bytes that come next to a side. -/
def incoming (sys : System) (side : Side) : Bytes := sys.flight (sys.conn side) side.other

/-- The system without the next `n` bytes to a side. -/
def taken (sys : System) (side : Side) (n : ℕ) : System :=
  { sys with
    flight := fun c side' =>
      if c = sys.conn side ∧ side' = side.other then (sys.incoming side).drop n
      else sys.flight c side' }

/-- A connection that breaks keeps at most `kept` bytes of each side. -/
def cut (sys : System) (c : ℕ) (kept : Side → ℕ) : System :=
  { sys with
    flight := fun c' side =>
      if c' = c then (sys.flight c side).take (kept side) else sys.flight c' side
    broken := fun c' => if c' = c then true else sys.broken c' }

inductive Event
  | act (side : Side) (event : LocalEvent)
  | deliver (side : Side) (n : ℕ)
  | break (c : ℕ) (kept : Side → ℕ)
  | beginAcceptReconnection (side : Side) (c : ℕ) (n : ℕ)

/-- The bytes of the new connection that came before the endpoint got it are the initial
chunk. -/
def step (clock : Side → Clock) (sys : System) : Event → Option System
  | .act side event => do
    let p ← (sys.ends side).apply (clock side) event
    return sys.put side p
  | .deliver side n => do
    let p ← (sys.ends side).acceptChunk (clock side) ((sys.incoming side).take n)
    return (sys.taken side n).put side p
  | .break c kept => some (sys.cut c kept)
  | .beginAcceptReconnection side c n =>
    if sys.conn side < c then do
      let (old, p) := (sys.ends side).beginAcceptReconnection (clock side)
        ((sys.flight c side.other).take n)
      let p ← p
      let sys := sys.transmit (sys.conn side) side old.flatten
      let sys := { sys with conn := Function.update sys.conn side c }
      return (sys.taken side n).put side p
    else some sys

/-- `none` where an operation throws. -/
def run (clock : Side → Clock) (sys : System) : List Event → Option System
  | [] => some sys
  | event :: events => do
    let sys ← sys.step clock event
    sys.run clock events

end System

end NexgileIde.Ipc
