import NexgileIde.Ipc.PersistentProtocolSpec
import NexgileIde.Ipc.Reconnection

/-!
# Nothing is lost and nothing comes twice

The bytes that are on their way to an endpoint are those of messages that the other endpoint
vouches for. As long as a connection is whole these messages take the receiver to the last
message that was sent.
-/
namespace NexgileIde.Ipc

open Text Library PersistentProtocol

namespace ProtocolReader

/-- More messages may be written behind those that are on their way. -/
theorem Framed.append {reader : ProtocolReader} {unread : Bytes} {todo : List ProtocolMessage}
    (h : reader.Framed unread todo) (msgs : List ProtocolMessage) :
    reader.Framed (unread ++ wire msgs) (todo ++ msgs) := by
  cases h with
  | head _ hcounted hhead hlen hbytes =>
    refine .head _ hcounted hhead hlen ?_
    rw [← List.append_assoc, hbytes, wire_append]
  | body m todo hcounted hhead hlen htype hid hack hbytes =>
    refine .body m (todo ++ msgs) hcounted hhead hlen htype hid hack ?_
    rw [← List.append_assoc, hbytes, wire_append, List.append_assoc]

end ProtocolReader

namespace System

/-- The reader that will get the bytes of a connection. -/
def readerAt (sys : System) (side : Side) (c : ℕ) : ProtocolReader :=
  if sys.conn side = c then (sys.ends side).socketReader else .new

/-- The messages `todo` are on their way from `side` on the connection `c`; `lost` is what did
not get to the connection. -/
structure Stream (sys : System) (side : Side) (c : ℕ) (todo : List ProtocolMessage)
    (lost : Bytes) : Prop where
  framed : (sys.readerAt side.other c).Framed (sys.flight c side ++ lost) todo
  vouches : ∀ m ∈ todo, (sys.ends side).ledger.Vouches m
  fresh : sys.conn side < c → sys.flight c side = [] ∧ lost = [] ∧ todo = []
  pending : sys.conn side = c → sys.broken c = false →
    lost = (sys.ends side).socketWriter.data.flatten
  arrives : sys.conn side = c → sys.broken c = false → (sys.ends side).isReconnecting = false →
    acceptAll (sys.ends side.other).incomingMsgId (todo.map ProtocolMessage.regularId) =
      (sys.ends side).sent.length

structure Inv (sys : System) : Prop where
  together : ∀ side, Together (sys.ends side).ledger (sys.ends side.other).ledger
  holds : ∀ side, (sys.ends side).socketWriter.Holds (sys.ends side).socketWriter.data.flatten
  live : ∀ side, (sys.ends side).socketReader.isDisposed = false
  short : ∀ side, (sys.ends side).socketReader.incomingData.bytes.length <
    (sys.ends side).socketReader.readLen
  stream : ∀ side c, sys.conn side.other ≤ c → ∃ todo lost, sys.Stream side c todo lost

theorem inv_initial : Inv initial where
  together _ := by
    have hok : PersistentProtocol.new.ledger.Ok :=
      ⟨rfl, Nat.le_refl _, rfl, fun m hm => absurd hm List.not_mem_nil,
        fun m hm => absurd hm List.not_mem_nil⟩
    exact ⟨hok, ⟨rfl, Nat.le_refl _, Nat.le_refl _⟩, ⟨rfl, Nat.le_refl _, Nat.le_refl _⟩⟩
  holds _ := ProtocolWriter.holds_new
  live _ := rfl
  short _ := Nat.succ_pos _
  stream side c _ := by
    have hreader : initial.readerAt side.other c = .new := ite_self _
    refine ⟨[], [], ?_, fun m hm => absurd hm List.not_mem_nil, fun _ => ⟨rfl, rfl, rfl⟩,
      fun _ _ => rfl, fun _ _ _ => rfl⟩
    rw [hreader]
    exact ProtocolReader.framed_new []

/-! ## The parts of a changed system -/

section Put

variable (sys : System) (side : Side) (n : ℕ) (p : PersistentProtocol)

@[simp] theorem conn_transmit (c : ℕ) (bytes : Bytes) :
    (sys.transmit c side bytes).conn = sys.conn := by
  unfold transmit
  split_ifs <;> rfl

@[simp] theorem broken_transmit (c : ℕ) (bytes : Bytes) :
    (sys.transmit c side bytes).broken = sys.broken := by
  unfold transmit
  split_ifs <;> rfl

@[simp] theorem ends_transmit (c : ℕ) (bytes : Bytes) :
    (sys.transmit c side bytes).ends = sys.ends := by
  unfold transmit
  split_ifs <;> rfl

theorem flight_transmit_self {c : ℕ} (bytes : Bytes) (h : sys.broken c = false) :
    (sys.transmit c side bytes).flight c side = sys.flight c side ++ bytes := by
  unfold transmit
  rw [h, if_neg Bool.false_ne_true]
  exact if_pos ⟨rfl, rfl⟩

theorem flight_transmit_of_broken {c : ℕ} (bytes : Bytes) (h : sys.broken c = true) :
    (sys.transmit c side bytes).flight = sys.flight := by
  unfold transmit
  rw [if_pos h]

theorem flight_transmit_of_ne {c c' : ℕ} {side' : Side} (bytes : Bytes)
    (h : ¬(c' = c ∧ side' = side)) :
    (sys.transmit c side bytes).flight c' side' = sys.flight c' side' := by
  unfold transmit
  split_ifs
  · rfl
  · exact if_neg h

@[simp] theorem conn_put : (sys.put side p).conn = sys.conn := conn_transmit _ _ _ _

@[simp] theorem broken_put : (sys.put side p).broken = sys.broken := broken_transmit _ _ _ _

@[simp] theorem ends_put_self : (sys.put side p).ends side = p.drained := by
  unfold put
  exact Function.update_self _ _ _

theorem ends_put_of_ne {side' : Side} (h : side' ≠ side) :
    (sys.put side p).ends side' = sys.ends side' := by
  unfold put
  exact Function.update_of_ne h _ _

@[simp] theorem ends_put_other : (sys.put side p).ends side.other = sys.ends side.other :=
  ends_put_of_ne sys side p side.other_ne

theorem flight_taken_self :
    (sys.taken side n).flight (sys.conn side) side.other = (sys.incoming side).drop n :=
  if_pos ⟨rfl, rfl⟩

theorem flight_taken_of_ne {c : ℕ} {side' : Side} (h : ¬(c = sys.conn side ∧ side' = side.other)) :
    (sys.taken side n).flight c side' = sys.flight c side' :=
  if_neg h

end Put

/-! ## One step -/

theorem flight_put_other (sys : System) (side : Side) (p : PersistentProtocol) (c : ℕ) :
    (sys.put side p).flight c side.other = sys.flight c side.other :=
  flight_transmit_of_ne sys side _ fun h => side.other_ne h.2

theorem flight_taken (sys : System) (side : Side) (n c : ℕ) :
    (sys.taken side n).flight c side = sys.flight c side :=
  flight_taken_of_ne sys side n fun h => side.other_ne h.2.symm

theorem readerAt_put_other (sys : System) (side : Side) (p : PersistentProtocol) (c : ℕ) :
    (sys.put side p).readerAt side.other c = sys.readerAt side.other c := by
  unfold readerAt
  rw [conn_put, ends_put_other]

/-- What a side writes follows what is on its way from it. -/
theorem Stream.write {sys : System} {side : Side} {c n : ℕ} {todo : List ProtocolMessage}
    {lost : Bytes} {p' : PersistentProtocol} {msgs : List ProtocolMessage}
    (h : sys.Stream side c todo lost) (hc : sys.conn side.other ≤ c) (hinv : sys.Inv)
    (hchange : ∀ bytes, (sys.ends side).socketWriter.Holds bytes →
      p'.socketWriter.Holds (bytes ++ wire msgs))
    (hvouches : ∀ m ∈ msgs, p'.ledger.Vouches m)
    (hgrows : (sys.ends side).ledger.Grows p'.ledger)
    (hdelivers : Delivers (sys.ends side).ledger p'.ledger msgs) :
    ∃ todo' lost', ((sys.taken side n).put side p').Stream side c todo' lost' := by
  have hkept : ∀ m ∈ todo, p'.ledger.Vouches m := fun m hm => (h.vouches m hm).grows hgrows
  have hreader : ((sys.taken side n).put side p').readerAt side.other c =
      sys.readerAt side.other c := readerAt_put_other _ _ _ _
  by_cases hwhole : c = sys.conn side ∧ sys.broken c = false
  · obtain ⟨rfl, hbroken⟩ := hwhole
    have hwritten := (hchange _ (hinv.holds side)).bytes
    have hflight : ((sys.taken side n).put side p').flight (sys.conn side) side =
        sys.flight (sys.conn side) side ++ p'.socketWriter.socket.flatten := by
      rw [← flight_taken sys side n (sys.conn side)]
      exact flight_transmit_self (sys.taken side n) side _ hbroken
    refine ⟨todo ++ msgs, p'.socketWriter.data.flatten, ?_, ?_, fun hlt => ?_, ?_, ?_⟩
    · rw [hreader, hflight, List.append_assoc, hwritten, ← h.pending rfl hbroken,
        ← List.append_assoc]
      exact h.framed.append msgs
    · rw [ends_put_self]
      intro m hm
      rcases List.mem_append.mp hm with hm | hm
      · exact hkept m hm
      · exact hvouches m hm
    · rw [conn_put] at hlt
      exact absurd hlt (Nat.lt_irrefl _)
    · intro _ _
      rw [ends_put_self]
      rfl
    · intro _ _ hlive
      rw [ends_put_self] at hlive ⊢
      rw [ends_put_other, List.map_append]
      have hfollowed := (hinv.together side).followed
      exact hdelivers hlive _ _ hfollowed.ack hfollowed.le (Ledger.regularId_le h.vouches)
        (h.arrives rfl hbroken)
  · have hflight : ((sys.taken side n).put side p').flight c side = sys.flight c side := by
      rw [← flight_taken sys side n c]
      by_cases hconn : c = sys.conn side
      · have hbroken : sys.broken c = true := by
          by_contra hno
          exact hwhole ⟨hconn, Bool.not_eq_true _ ▸ hno⟩
        subst hconn
        exact congrFun (congrFun (flight_transmit_of_broken (sys.taken side n) side _ hbroken) _) _
      · exact flight_transmit_of_ne _ side _ fun h => hconn h.1
    refine ⟨todo, lost, ?_, ?_, ?_, ?_, ?_⟩
    · rw [hreader, hflight]
      exact h.framed
    · rw [ends_put_self]
      exact hkept
    · rw [conn_put, hflight]
      exact h.fresh
    · intro hconn hbroken
      rw [conn_put] at hconn
      rw [broken_put] at hbroken
      exact absurd ⟨hconn.symm, hbroken⟩ hwhole
    · intro hconn hbroken
      rw [conn_put] at hconn
      rw [broken_put] at hbroken
      exact absurd ⟨hconn.symm, hbroken⟩ hwhole

/-- What is on its way to a side on another connection stays there, and takes the side to the
same message. -/
theorem Stream.other_connection {sys : System} {side : Side} {c n : ℕ}
    {todo : List ProtocolMessage} {lost : Bytes} {p' : PersistentProtocol}
    (h : sys.Stream side.other c todo lost) (hc : c ≠ sys.conn side)
    (hgrows : (sys.ends side).ledger.Grows p'.ledger)
    (hfollows : p'.ledger.Follows (sys.ends side.other).ledger) :
    ((sys.taken side n).put side p').Stream side.other c todo lost := by
  have hreader : ((sys.taken side n).put side p').readerAt side c = sys.readerAt side c := by
    unfold readerAt
    rw [conn_put, if_neg hc.symm, if_neg (show (sys.taken side n).conn side ≠ c from hc.symm)]
  have hflight : ((sys.taken side n).put side p').flight c side.other = sys.flight c side.other :=
    (flight_put_other _ _ _ _).trans (flight_taken_of_ne sys side n fun h => hc h.1)
  have hframed := h.framed
  have harrives := h.arrives
  rw [Side.other_other] at hframed harrives
  refine ⟨?_, ?_, ?_, ?_, ?_⟩
  · rw [Side.other_other, hreader, hflight]
    exact hframed
  · rw [ends_put_other]
    exact h.vouches
  · rw [conn_put, hflight]
    exact h.fresh
  · rw [conn_put, broken_put, ends_put_other]
    exact h.pending
  · rw [conn_put, broken_put, ends_put_other, Side.other_other, ends_put_self]
    intro hconn hbroken hlive
    exact acceptAll_of_mono hgrows.incoming hfollows.le (Ledger.regularId_le h.vouches)
      (harrives hconn hbroken hlive)

theorem Inv.put {sys : System} (h : sys.Inv) {side : Side} {n : ℕ} {p' : PersistentProtocol}
    {msgs fired rest : List ProtocolMessage} {lost : Bytes}
    (hchange : ∀ bytes, (sys.ends side).socketWriter.Holds bytes →
      p'.socketWriter.Holds (bytes ++ wire msgs))
    (hvouches : ∀ m ∈ msgs, p'.ledger.Vouches m)
    (hgrows : (sys.ends side).ledger.Grows p'.ledger)
    (htogether : Together p'.ledger (sys.ends side.other).ledger)
    (hdelivers : Delivers (sys.ends side).ledger p'.ledger msgs)
    (hlive : p'.socketReader.isDisposed = false)
    (hshort : p'.socketReader.incomingData.bytes.length < p'.socketReader.readLen)
    (hstream : sys.Stream side.other (sys.conn side) (fired ++ rest) lost)
    (hframed : p'.socketReader.Framed ((sys.incoming side).drop n ++ lost) rest)
    (hincoming : p'.incomingMsgId =
      acceptAll (sys.ends side).incomingMsgId (fired.map ProtocolMessage.regularId)) :
    ((sys.taken side n).put side p').Inv where
  together s := by
    rcases side.eq_or_eq_other s with rfl | rfl
    · rw [ends_put_self, ends_put_other]
      exact htogether
    · rw [Side.other_other, ends_put_self, ends_put_other]
      exact ⟨(h.together side.other).ok, htogether.followed, htogether.follows⟩
  holds s := by
    rcases side.eq_or_eq_other s with rfl | rfl
    · rw [ends_put_self]
      have hholds := hchange _ (h.holds s)
      exact ⟨hholds.live, hholds.counted, rfl⟩
    · rw [ends_put_other]
      exact h.holds _
  live s := by
    rcases side.eq_or_eq_other s with rfl | rfl
    · rw [ends_put_self]
      exact hlive
    · rw [ends_put_other]
      exact h.live _
  short s := by
    rcases side.eq_or_eq_other s with rfl | rfl
    · rw [ends_put_self]
      exact hshort
    · rw [ends_put_other]
      exact h.short _
  stream s c hc := by
    rcases side.eq_or_eq_other s with rfl | rfl
    · rw [conn_put] at hc
      obtain ⟨todo, lost, hs⟩ := h.stream s c hc
      exact hs.write hc h hchange hvouches hgrows hdelivers
    · rw [conn_put, Side.other_other] at hc
      by_cases hconn : c = sys.conn side
      · subst hconn
        have hflight : ((sys.taken side n).put side p').flight (sys.conn side) side.other =
            (sys.incoming side).drop n :=
          (flight_put_other _ _ _ _).trans (flight_taken_self sys side n)
        have harrives := hstream.arrives
        rw [Side.other_other] at harrives
        refine ⟨rest, lost, ?_, ?_, ?_, ?_, ?_⟩
        · have hreader : ((sys.taken side n).put side p').readerAt side (sys.conn side) =
              p'.socketReader := by
            unfold readerAt
            rw [conn_put, ends_put_self]
            exact if_pos rfl
          rw [Side.other_other, hflight, hreader]
          exact hframed
        · rw [ends_put_other]
          exact fun m hm => hstream.vouches m (List.mem_append_right _ hm)
        · rw [conn_put, hflight]
          intro hlt
          obtain ⟨hempty, hlost, htodo⟩ := hstream.fresh hlt
          refine ⟨?_, hlost, (List.append_eq_nil_iff.mp htodo).2⟩
          show List.drop n (sys.flight _ _) = []
          rw [hempty, List.drop_nil]
        · rw [conn_put, broken_put, ends_put_other]
          exact hstream.pending
        · rw [conn_put, broken_put, ends_put_other, Side.other_other, ends_put_self]
          intro hconn hbroken hlive'
          have hall := harrives hconn hbroken hlive'
          rw [List.map_append, acceptAll_append, ← hincoming] at hall
          exact hall
      · obtain ⟨todo, lost, hs⟩ := h.stream side.other c (by rw [Side.other_other]; exact hc)
        exact ⟨todo, lost, hs.other_connection hconn hgrows htogether.follows⟩

end System

/-! ## Operations of one side -/

def LocalEvent.payload : LocalEvent → List Bytes
  | send buffer => [buffer.1]
  | sendControl _ | sendPause | sendResume | sendDisconnect | sendKeepAlive | pauseSocketWriting
  | flush | writeTimeout | incomingAckTimeout | outgoingAckTimeout | endAcceptReconnection => []

namespace PersistentProtocol

theorem apply_local (clock : Clock) {p : PersistentProtocol} {bytes : Bytes} (hok : p.ledger.Ok)
    (hholds : p.socketWriter.Holds bytes) (event : LocalEvent) :
    ∃ p' msgs, p.apply clock event = some p' ∧ Local p p' event.payload msgs := by
  cases event with
  | send buffer =>
    obtain ⟨msgs, hlocal⟩ := send_local clock hok buffer.2
    exact ⟨_, msgs, rfl, hlocal⟩
  | sendControl buffer =>
    obtain ⟨msgs, hlocal⟩ := (quiet_control p ProtocolMessageType.Control buffer.1 (by decide)
      (by decide) buffer.2).local hok
    exact ⟨_, msgs, rfl, hlocal⟩
  | sendPause =>
    obtain ⟨msgs, hlocal⟩ := (quiet_control p ProtocolMessageType.Pause [] (by decide)
      (by decide) (by decide)).local hok
    exact ⟨_, msgs, rfl, hlocal⟩
  | sendResume =>
    obtain ⟨msgs, hlocal⟩ := (quiet_control p ProtocolMessageType.Resume [] (by decide)
      (by decide) (by decide)).local hok
    exact ⟨_, msgs, rfl, hlocal⟩
  | sendDisconnect =>
    obtain ⟨p', hp', hquiet⟩ := quiet_sendDisconnect hholds
    obtain ⟨msgs, hlocal⟩ := hquiet.local hok
    exact ⟨p', msgs, hp', hlocal⟩
  | sendKeepAlive =>
    obtain ⟨msgs, hlocal⟩ := (quiet_sendKeepAlive clock p).local hok
    exact ⟨_, msgs, rfl, hlocal⟩
  | pauseSocketWriting =>
    have hquiet : Quiet p p.pauseSocketWriting := .writer fun bytes h => h.pause
    obtain ⟨msgs, hlocal⟩ := hquiet.local hok
    exact ⟨_, msgs, rfl, hlocal⟩
  | flush =>
    obtain ⟨p', hp', hquiet⟩ := quiet_flush hholds
    obtain ⟨msgs, hlocal⟩ := hquiet.local hok
    exact ⟨p', msgs, hp', hlocal⟩
  | writeTimeout =>
    obtain ⟨p', hp', hquiet⟩ := quiet_onWriteTimeout hholds
    obtain ⟨msgs, hlocal⟩ := hquiet.local hok
    exact ⟨p', msgs, hp', hlocal⟩
  | incomingAckTimeout =>
    obtain ⟨msgs, hlocal⟩ := (quiet_onIncomingAckTimeout clock p).local hok
    exact ⟨_, msgs, rfl, hlocal⟩
  | outgoingAckTimeout =>
    obtain ⟨msgs, hlocal⟩ := (quiet_onOutgoingAckTimeout clock p).local hok
    exact ⟨_, msgs, rfl, hlocal⟩
  | endAcceptReconnection =>
    obtain ⟨msgs, hlocal⟩ := endAcceptReconnection_local clock hok
    exact ⟨_, msgs, rfl, hlocal⟩

/-- An operation that does not read keeps what the sides have of each other. -/
theorem Local.together {p p' : PersistentProtocol} {payload : List Bytes}
    {msgs : List ProtocolMessage} {peer : Ledger} (h : Local p p' payload msgs) (htogether : Together p.ledger peer) : Together p'.ledger peer := by
  obtain ⟨-, hfollows, hfollowed⟩ := htogether
  refine ⟨h.ok, ⟨?_, ?_, ?_⟩, ⟨?_, ?_, ?_⟩⟩
  · show p'.fired = peer.sent.take p'.incomingMsgId
    rw [h.fired, h.incomingMsgId]
    exact hfollows.fired
  · show p'.incomingMsgId ≤ _
    rw [h.incomingMsgId]
    exact hfollows.le
  · show _ ≤ p'.incomingMsgId
    rw [h.incomingMsgId]
    exact hfollows.ack
  · obtain ⟨rest, hrest⟩ := h.change.grows.sent
    rw [← hrest, List.take_append_of_le_length hfollowed.le]
    exact hfollowed.fired
  · exact hfollowed.le.trans h.change.grows.sent.length_le
  · show p'.outgoingAckId ≤ _
    rw [h.outgoingAckId]
    exact hfollowed.ack

end PersistentProtocol

namespace System

theorem taken_of_drop {sys : System} {side : Side} {n : ℕ}
    (h : (sys.incoming side).drop n = sys.incoming side) : sys.taken side n = sys := by
  have hflight : (sys.taken side n).flight = sys.flight := by
    funext c side'
    unfold taken
    dsimp only
    split_ifs with hboth
    · rw [h, hboth.1, hboth.2]
      rfl
    · rfl
  show ({ sys with flight := (sys.taken side n).flight } : System) = sys
  rw [hflight]

/-- An operation of one side keeps the invariant. -/
theorem Inv.local {sys : System} (h : sys.Inv) {side : Side} {p' : PersistentProtocol}
    {payload : List Bytes} {msgs : List ProtocolMessage}
    (hlocal : Local (sys.ends side) p' payload msgs) : (sys.put side p').Inv := by
  obtain ⟨todo, lost, hstream⟩ :=
    h.stream side.other (sys.conn side) (by rw [Side.other_other])
  have hreader := hlocal.change.reader
  have hframed := hstream.framed
  have hat : sys.readerAt side (sys.conn side) = (sys.ends side).socketReader := if_pos rfl
  rw [Side.other_other, hat, ← hreader] at hframed
  have hnone : sys.Stream side.other (sys.conn side) ([] ++ todo) lost := hstream
  have hput : ((sys.taken side 0).put side p').Inv :=
    h.put hlocal.change.holds hlocal.change.vouches hlocal.change.grows
      (hlocal.together (h.together side)) hlocal.delivers (hreader ▸ h.live side)
      (hreader ▸ h.short side) hnone hframed hlocal.incomingMsgId
  rwa [taken_of_drop rfl] at hput

theorem Vouches.fits {l peer : Ledger} {m : ProtocolMessage} (h : l.Vouches m)
    (hfollows : l.Follows peer) (hsent : l.sent.length < 2 ^ 32) (hpeer : peer.sent.length < 2 ^ 32) :
    m.Fits :=
  ⟨h.type, h.id.trans_lt hsent, (h.ack.trans hfollows.le).trans_lt hpeer, h.length⟩

/-- A delivery keeps the invariant. -/
theorem Inv.deliver {sys : System} (h : sys.Inv) (clock : Clock) (side : Side) (n : ℕ)
    (hcount : ∀ side, (sys.ends side).sent.length < 2 ^ 32) :
    ∃ p', (sys.ends side).acceptChunk clock ((sys.incoming side).take n) = some p' ∧
      ((sys.taken side n).put side p').Inv ∧ p'.sent = (sys.ends side).sent := by
  by_cases hchunk : (sys.incoming side).take n = []
  · have hdrop : (sys.incoming side).drop n = sys.incoming side := by
      have hsplit := List.take_append_drop n (sys.incoming side)
      rwa [hchunk, List.nil_append] at hsplit
    refine ⟨sys.ends side, ?_, ?_, rfl⟩
    · rw [hchunk]
      rfl
    · have hquiet : Quiet (sys.ends side) (sys.ends side) := .silent rfl rfl rfl
      obtain ⟨msgs, hlocal⟩ := hquiet.local (h.together side).ok
      rw [taken_of_drop hdrop]
      exact h.local hlocal
  · obtain ⟨todo, lost, hstream⟩ :=
      h.stream side.other (sys.conn side) (by rw [Side.other_other])
    have hframed := hstream.framed
    have hat : sys.readerAt side (sys.conn side) = (sys.ends side).socketReader := if_pos rfl
    have hsplit : sys.flight (sys.conn side) side.other =
        (sys.incoming side).take n ++ (sys.incoming side).drop n :=
      (List.take_append_drop n _).symm
    rw [Side.other_other, hat, hsplit, List.append_assoc] at hframed
    have hother := h.together side.other
    rw [Side.other_other] at hother
    have hfits : ∀ m ∈ todo, m.Fits := fun m hm =>
      Vouches.fits (hstream.vouches m hm) hother.follows (hcount _) (hcount _)
    obtain ⟨reader', p', fired, rest, haccept, hresult⟩ :=
      ProtocolReader.acceptChunk_spec (onReaderMessage clock) _ (sys.ends side) _ _ todo hchunk hfits
        hframed (h.live side)
    obtain ⟨hlive, msgs, hreceived⟩ := fires_received clock hresult.fires (h.together side)
      fun m hm => hstream.vouches m (hresult.todo_eq ▸ List.mem_append_left _ hm)
    rw [hresult.todo_eq] at hstream
    refine ⟨{ p' with socketReader := reader' }, ?_, ?_, hreceived.sent⟩
    · unfold acceptChunk
      rw [haccept]
      rfl
    · exact h.put hreceived.change.holds hreceived.change.vouches hreceived.change.grows
        hreceived.together
        (.of_same hreceived.isReconnecting hreceived.sent hreceived.change.vouches) hlive
        (hresult.short hlive) hstream hresult.framed hreceived.incoming

/-- A connection that breaks loses the end of what is on its way. -/
theorem Inv.cut {sys : System} (h : sys.Inv) (c : ℕ) (kept : Side → ℕ) : (sys.cut c kept).Inv where
  together := h.together
  holds := h.holds
  live := h.live
  short := h.short
  stream side c' hc := by
    obtain ⟨todo, lost, hs⟩ := h.stream side c' hc
    by_cases hcut : c' = c
    · subst hcut
      have hflight : (sys.cut c' kept).flight c' side = (sys.flight c' side).take (kept side) :=
        if_pos rfl
      have hbroken : (sys.cut c' kept).broken c' = true := if_pos rfl
      refine ⟨todo, (sys.flight c' side).drop (kept side) ++ lost, ?_, hs.vouches, ?_, ?_, ?_⟩
      · rw [hflight, ← List.append_assoc, List.take_append_drop]
        exact hs.framed
      · intro hlt
        obtain ⟨hempty, hlost, htodo⟩ := hs.fresh hlt
        rw [hflight, hempty, hlost, List.take_nil, List.drop_nil]
        exact ⟨rfl, rfl, htodo⟩
      · intro _ hwhole
        cases hbroken.symm.trans hwhole
      · intro _ hwhole
        cases hbroken.symm.trans hwhole
    · have hflight : (sys.cut c kept).flight c' side = sys.flight c' side := if_neg hcut
      have hbroken : (sys.cut c kept).broken c' = sys.broken c' := if_neg hcut
      refine ⟨todo, lost, ?_, hs.vouches, ?_, ?_, ?_⟩
      · rw [hflight]
        exact hs.framed
      · rw [hflight]
        exact hs.fresh
      · rw [hbroken]
        exact hs.pending
      · rw [hbroken]
        exact hs.arrives

/-! ## Reconnections -/

/-- A side that has gone to a new connection and has read nothing of it. -/
def switched (sys : System) (side : Side) (c : ℕ) : System :=
  { sys.transmit (sys.conn side) side (sys.ends side).socketWriter.dispose.socket.flatten with
    conn := Function.update sys.conn side c
    ends := Function.update sys.ends side
      { sys.ends side with isReconnecting := true, socketWriter := .new, socketReader := .new } }

/-- What was not written before the old writer was disposed is flushed or lost. -/
theorem Holds.dispose {writer : ProtocolWriter} {bytes : Bytes} (h : writer.Holds bytes) :
    ∃ lost, writer.dispose.socket.flatten ++ lost = bytes := by
  obtain ⟨writer', hwrite, hholds⟩ := h.writeNow
  refine ⟨writer'.data.flatten, ?_⟩
  unfold ProtocolWriter.dispose ProtocolWriter.flush
  rw [hwrite]
  exact hholds.bytes

section Switched

variable (sys : System) (side : Side) (c : ℕ)

theorem conn_switched_self : (sys.switched side c).conn side = c := by
  unfold switched
  exact Function.update_self _ _ _

theorem conn_switched_other : (sys.switched side c).conn side.other = sys.conn side.other := by
  unfold switched
  exact Function.update_of_ne side.other_ne _ _

theorem ends_switched_self : (sys.switched side c).ends side =
    { sys.ends side with isReconnecting := true, socketWriter := .new, socketReader := .new } := by
  unfold switched
  exact Function.update_self _ _ _

theorem ends_switched_other : (sys.switched side c).ends side.other = sys.ends side.other := by
  unfold switched
  exact Function.update_of_ne side.other_ne _ _

theorem broken_switched : (sys.switched side c).broken = sys.broken := broken_transmit _ _ _ _

theorem flight_switched_other (c' : ℕ) :
    (sys.switched side c).flight c' side.other = sys.flight c' side.other :=
  flight_transmit_of_ne sys side _ fun h => side.other_ne h.2

theorem readerAt_switched_other (c' : ℕ) :
    (sys.switched side c).readerAt side.other c' = sys.readerAt side.other c' := by
  unfold readerAt
  rw [conn_switched_other, ends_switched_other]

end Switched

/-- What the side wrote on its old connection stays what it is, up to what is lost. -/
theorem Stream.switched_old {sys : System} {side : Side} {c c' : ℕ} {todo : List ProtocolMessage}
    {lost : Bytes} (h : sys.Stream side c' todo lost) (hinv : sys.Inv) :
    ∃ lost', (sys.switched side c).flight c' side ++ lost' = sys.flight c' side ++ lost ∧
      (sys.conn side < c' → (sys.switched side c).flight c' side = [] ∧ lost' = []) := by
  by_cases hwhole : c' = sys.conn side ∧ sys.broken c' = false
  · obtain ⟨rfl, hbroken⟩ := hwhole
    obtain ⟨lost', hlost⟩ := Holds.dispose (hinv.holds side)
    have hflight : (sys.switched side c).flight (sys.conn side) side = _ :=
      flight_transmit_self sys side _ hbroken
    refine ⟨lost', ?_, fun hlt => absurd hlt (Nat.lt_irrefl _)⟩
    rw [hflight, h.pending rfl hbroken, List.append_assoc, hlost]
  · have hflight : (sys.switched side c).flight c' side = sys.flight c' side := by
      by_cases hconn : c' = sys.conn side
      · have hbroken : sys.broken c' = true := by
          by_contra hno
          exact hwhole ⟨hconn, Bool.not_eq_true _ ▸ hno⟩
        subst hconn
        exact congrFun (congrFun (flight_transmit_of_broken sys side _ hbroken) _) _
      · exact flight_transmit_of_ne sys side _ fun h => hconn h.1
    refine ⟨lost, by rw [hflight], fun hlt => ?_⟩
    rw [hflight]
    exact ⟨(h.fresh hlt).1, (h.fresh hlt).2.1⟩

theorem Inv.switched {sys : System} (h : sys.Inv) {side : Side} {c : ℕ} (hc : sys.conn side < c) :
    (sys.switched side c).Inv where
  together s := by
    rcases side.eq_or_eq_other s with rfl | rfl
    · rw [ends_switched_self, ends_switched_other]
      obtain ⟨hok, hfollows, hfollowed⟩ := h.together s
      exact ⟨⟨hok.count, hok.ack_le, hok.queue, hok.regular, fun m hm =>
        (hok.vouches m hm).grows ⟨List.prefix_rfl, Nat.le_refl _⟩⟩,
        ⟨hfollows.fired, hfollows.le, hfollows.ack⟩, ⟨hfollowed.fired, hfollowed.le, hfollowed.ack⟩⟩
    · rw [Side.other_other, ends_switched_self, ends_switched_other]
      have hother := h.together side.other
      rw [Side.other_other] at hother
      obtain ⟨hok, hfollows, hfollowed⟩ := hother
      exact ⟨hok, ⟨hfollows.fired, hfollows.le, hfollows.ack⟩,
        ⟨hfollowed.fired, hfollowed.le, hfollowed.ack⟩⟩
  holds s := by
    rcases side.eq_or_eq_other s with rfl | rfl
    · rw [ends_switched_self]
      exact ProtocolWriter.holds_new
    · rw [ends_switched_other]
      exact h.holds _
  live s := by
    rcases side.eq_or_eq_other s with rfl | rfl
    · rw [ends_switched_self]
      rfl
    · rw [ends_switched_other]
      exact h.live _
  short s := by
    rcases side.eq_or_eq_other s with rfl | rfl
    · rw [ends_switched_self]
      exact Nat.succ_pos _
    · rw [ends_switched_other]
      exact h.short _
  stream s c' hc' := by
    rcases side.eq_or_eq_other s with rfl | rfl
    · rw [conn_switched_other] at hc'
      obtain ⟨todo, lost, hs⟩ := h.stream s c' hc'
      obtain ⟨lost', hbytes, hempty⟩ := hs.switched_old (c := c) h
      refine ⟨todo, lost', ?_, ?_, ?_, ?_, ?_⟩
      · rw [readerAt_switched_other, hbytes]
        exact hs.framed
      · rw [ends_switched_self]
        exact fun m hm => (hs.vouches m hm).grows ⟨List.prefix_rfl, Nat.le_refl _⟩
      · rw [conn_switched_self]
        intro hlt
        have hlt' := hc.trans hlt
        exact ⟨(hempty hlt').1, (hempty hlt').2, (hs.fresh hlt').2.2⟩
      · rw [conn_switched_self, ends_switched_self]
        intro hconn _
        exact (hempty (hconn ▸ hc)).2
      · rw [conn_switched_self, ends_switched_self]
        intro _ _ hlive
        cases hlive
    · rw [Side.other_other, conn_switched_self] at hc'
      obtain ⟨todo, lost, hs⟩ := h.stream side.other c' (by rw [Side.other_other]; omega)
      have hframed := hs.framed
      have harrives := hs.arrives
      have hold : sys.readerAt side c' = .new := if_neg (by omega)
      have hnew : (sys.switched side c).readerAt side c' = .new := by
        unfold readerAt
        rw [ends_switched_self, conn_switched_self]
        split_ifs <;> rfl
      rw [Side.other_other] at harrives
      rw [Side.other_other, hold] at hframed
      refine ⟨todo, lost, ?_, ?_, ?_, ?_, ?_⟩
      · rw [Side.other_other, hnew, flight_switched_other]
        exact hframed
      · rw [ends_switched_other]
        exact hs.vouches
      · rw [conn_switched_other, flight_switched_other]
        exact hs.fresh
      · rw [conn_switched_other, broken_switched, ends_switched_other]
        exact hs.pending
      · rw [conn_switched_other, broken_switched, ends_switched_other, Side.other_other,
          ends_switched_self]
        exact harrives

/-- The endpoint that is put in place replaces what was there. -/
theorem put_update (sys : System) (side : Side) (p q : PersistentProtocol) :
    ({ sys with ends := Function.update sys.ends side q } : System).put side p =
      sys.put side p := by
  unfold put transmit
  dsimp only
  split_ifs <;> rw [Function.update_idem]

theorem put_switched (sys : System) (side : Side) (c n : ℕ) (p : PersistentProtocol) :
    ((sys.switched side c).taken side n).put side p =
      (({ sys.transmit (sys.conn side) side (sys.ends side).socketWriter.dispose.socket.flatten with
        conn := Function.update (sys.transmit (sys.conn side) side
          (sys.ends side).socketWriter.dispose.socket.flatten).conn side c } : System).taken
        side n).put side p := by
  refine Eq.trans ?_ (put_update _ side p
    { sys.ends side with isReconnecting := true, socketWriter := .new, socketReader := .new })
  simp only [switched, taken, incoming, conn_transmit, ends_transmit]
  rfl

/-! ## Runs -/

def sentBy (side : Side) : Event → List Bytes
  | .act side' event => if side' = side then event.payload else []
  | .deliver _ _ | .break _ _ | .beginAcceptReconnection _ _ _ => []

theorem Inv.step {sys : System} (h : sys.Inv) (clock : Side → Clock) (event : Event)
    (hcount : ∀ side, (sys.ends side).sent.length < 2 ^ 32) :
    ∃ sys', sys.step clock event = some sys' ∧ sys'.Inv ∧
      ∀ side, (sys'.ends side).sent = (sys.ends side).sent ++ sentBy side event := by
  cases event with
  | act side event =>
    obtain ⟨p', msgs, happly, hlocal⟩ :=
      apply_local (clock side) (h.together side).ok (h.holds side) event
    refine ⟨sys.put side p', ?_, h.local hlocal, fun side' => ?_⟩
    · unfold System.step
      dsimp only
      rw [happly]
      rfl
    · rcases side.eq_or_eq_other side' with rfl | rfl
      · rw [ends_put_self, sentBy, if_pos rfl]
        exact hlocal.sent
      · rw [ends_put_other, sentBy, if_neg side.other_ne.symm, List.append_nil]
  | deliver side n =>
    obtain ⟨p', haccept, hinv, hsent⟩ := h.deliver (clock side) side n hcount
    refine ⟨_, ?_, hinv, fun side' => ?_⟩
    · unfold System.step
      dsimp only
      rw [haccept]
      rfl
    · rw [sentBy, List.append_nil]
      rcases side.eq_or_eq_other side' with rfl | rfl
      · rw [ends_put_self]
        exact hsent
      · rw [ends_put_other]
        rfl
  | «break» c kept => exact ⟨_, rfl, h.cut c kept, fun _ => (List.append_nil _).symm⟩
  | beginAcceptReconnection side c n =>
    unfold System.step
    dsimp only
    split_ifs with hc
    · have hcount' : ∀ side', ((sys.switched side c).ends side').sent.length < 2 ^ 32 := by
        intro side'
        rcases side.eq_or_eq_other side' with rfl | rfl
        · rw [ends_switched_self]
          exact hcount _
        · rw [ends_switched_other]
          exact hcount _
      obtain ⟨p', haccept, hinv, hsent⟩ := (h.switched hc).deliver (clock side) side n hcount'
      have hincoming : (sys.switched side c).incoming side = sys.flight c side.other := by
        unfold incoming
        rw [conn_switched_self, flight_switched_other]
      rw [ends_switched_self] at haccept hsent
      rw [hincoming] at haccept
      refine ⟨_, ?_, hinv, fun side' => ?_⟩
      · rw [put_switched]
        unfold beginAcceptReconnection
        dsimp only
        rw [haccept]
        rfl
      · rw [sentBy, List.append_nil]
        rcases side.eq_or_eq_other side' with rfl | rfl
        · rw [ends_put_self]
          exact hsent
        · rw [ends_put_other]
          exact congrArg PersistentProtocol.sent (ends_switched_other sys side c)
    · exact ⟨sys, rfl, h, fun _ => (List.append_nil _).symm⟩

theorem Inv.run {sys : System} (h : sys.Inv) (clock : Side → Clock) (events : List Event)
    (hcount : ∀ side, ((sys.ends side).sent ++ events.flatMap (sentBy side)).length < 2 ^ 32) :
    ∃ sys', sys.run clock events = some sys' ∧ sys'.Inv ∧
      ∀ side, (sys'.ends side).sent = (sys.ends side).sent ++ events.flatMap (sentBy side) := by
  induction events generalizing sys with
  | nil => exact ⟨sys, rfl, h, fun _ => (List.append_nil _).symm⟩
  | cons event events ih =>
    have hnow : ∀ side, (sys.ends side).sent.length < 2 ^ 32 := by
      intro side
      have hall := hcount side
      rw [List.length_append] at hall
      omega
    obtain ⟨sys', hstep, hinv, hsent⟩ := h.step clock event hnow
    have hcount' : ∀ side,
        ((sys'.ends side).sent ++ events.flatMap (sentBy side)).length < 2 ^ 32 := by
      intro side
      rw [hsent, List.append_assoc, ← List.flatMap_cons]
      exact hcount side
    obtain ⟨sys'', hrun, hinv', hsent'⟩ := ih hinv hcount'
    refine ⟨sys'', ?_, hinv', fun side => ?_⟩
    · unfold System.run
      rw [hstep]
      exact hrun
    · rw [hsent', hsent, List.append_assoc, List.flatMap_cons]

/-! ## What arrives -/

theorem Inv.fired_prefix {sys : System} (h : sys.Inv) (side : Side) :
    (sys.ends side.other).fired <+: (sys.ends side).sent := by
  have hfired := (h.together side).followed.fired
  change (sys.ends side.other).fired = _ at hfired
  rw [hfired]
  exact List.take_prefix _ _

theorem Inv.incoming_eq {sys : System} (h : sys.Inv) (side : Side) :
    (sys.ends side.other).incomingMsgId = (sys.ends side.other).fired.length := by
  have hfollowed := (h.together side).followed
  have hfired := congrArg List.length hfollowed.fired
  rw [List.length_take, Nat.min_eq_left hfollowed.le] at hfired
  exact hfired.symm

/-- A message that was not received is kept. -/
theorem Inv.kept {sys : System} (h : sys.Inv) {side : Side} {i : ℕ} {data : Bytes}
    (hdata : (sys.ends side).sent[i]? = some data) (hi : (sys.ends side.other).fired.length ≤ i) :
    ∃ m ∈ (sys.ends side).outgoingUnackMsg, m.id = i + 1 ∧ m.data = data := by
  obtain ⟨hok, -, hfollowed⟩ := h.together side
  have hlt := (List.getElem?_eq_some_iff.mp hdata).1
  have hack : (sys.ends side).outgoingAckId ≤ i := by
    rw [← h.incoming_eq] at hi
    exact hfollowed.ack.trans hi
  have hmem : i + 1 ∈ (sys.ends side).ledger.outgoingUnackMsg.map ProtocolMessage.regularId := by
    rw [hok.queue, List.mem_range'_1]
    have hle := hok.ack_le
    change (sys.ends side).outgoingAckId ≤ (sys.ends side).sent.length at hle
    show (sys.ends side).outgoingAckId + 1 ≤ i + 1 ∧
      i + 1 < (sys.ends side).outgoingAckId + 1 +
        ((sys.ends side).sent.length - (sys.ends side).outgoingAckId)
    omega
  obtain ⟨m, hm, hid⟩ := List.mem_map.mp hmem
  have hregular := hok.regular m hm
  have hid' : m.id = i + 1 := by
    rw [← hid]
    exact (if_pos hregular).symm
  obtain ⟨-, hsent⟩ := (hok.vouches m hm).regular hregular
  rw [hid', Nat.add_sub_cancel] at hsent
  exact ⟨m, hm, hid', Option.some.inj (hsent.symm.trans hdata)⟩

/-- When everything that was written has come, everything that was sent has come. -/
theorem Inv.arrived {sys : System} (h : sys.Inv) {side : Side}
    (hconn : sys.conn side = sys.conn side.other) (hwhole : sys.broken (sys.conn side) = false)
    (hlive : (sys.ends side).isReconnecting = false)
    (hflight : sys.flight (sys.conn side) side = [])
    (hdata : (sys.ends side).socketWriter.data.flatten = []) :
    (sys.ends side.other).fired = (sys.ends side).sent := by
  obtain ⟨todo, lost, hs⟩ := h.stream side (sys.conn side) (Nat.le_of_eq hconn.symm)
  have hreader : sys.readerAt side.other (sys.conn side) = (sys.ends side.other).socketReader :=
    if_pos hconn.symm
  have hframed := hs.framed
  have harrives := hs.arrives rfl hwhole hlive
  rw [hreader, hflight, hs.pending rfl hwhole, hdata, List.append_nil] at hframed
  rw [hframed.eq_nil (h.short _), List.map_nil, acceptAll_nil] at harrives
  have hfired := (h.together side).followed.fired
  change (sys.ends side.other).fired =
    (sys.ends side).sent.take (sys.ends side.other).incomingMsgId at hfired
  rw [hfired, harrives, List.take_length]

end System

/-- Over any interleaving, each side gets a prefix of what the other side sent, a message stays
in the queue of its sender until it was received, and once both sides are on a connection that is
whole and all bytes have come, all messages have come. -/
theorem exactly_once_in_order (clock : Side → Clock) (events : List System.Event)
    (hcount : ∀ side, (events.flatMap (System.sentBy side)).length < 2 ^ 32) :
    ∃ sys, System.initial.run clock events = some sys ∧
      ∀ side : Side, (sys.ends side).sent = events.flatMap (System.sentBy side) ∧
        (sys.ends side.other).fired <+: (sys.ends side).sent ∧
        (∀ i data, (sys.ends side).sent[i]? = some data →
          (sys.ends side.other).fired.length ≤ i →
          ∃ m ∈ (sys.ends side).outgoingUnackMsg, m.id = i + 1 ∧ m.data = data) ∧
        (sys.conn side = sys.conn side.other → sys.broken (sys.conn side) = false →
          (sys.ends side).isReconnecting = false → sys.flight (sys.conn side) side = [] →
          (sys.ends side).socketWriter.data.flatten = [] →
          (sys.ends side.other).fired = (sys.ends side).sent) := by
  obtain ⟨sys, hrun, hinv, hsent⟩ := System.inv_initial.run clock events hcount
  exact ⟨sys, hrun, fun side => ⟨hsent side, hinv.fired_prefix side, fun i data => hinv.kept,
    hinv.arrived⟩⟩

/-- A connection breaks in the middle of a message, and the message is sent again. -/
def reconnected : List System.Event :=
  [.act .client (.send ⟨[7], by decide⟩), .act .client .flush, .break 0 (fun _ => 3),
    .deliver .server 3, .beginAcceptReconnection .client 1 0,
    .beginAcceptReconnection .server 1 0, .act .client .endAcceptReconnection,
    .act .server .endAcceptReconnection, .act .client .flush, .act .server .flush,
    .deliver .server 27, .deliver .client 13]

def earlyClock : Clock := ⟨fun _ => false, fun _ => false, fun _ => false⟩

theorem exactly_once_in_order_reconnected :
    ∃ sys, System.initial.run (fun _ => earlyClock) reconnected = some sys ∧
      (sys.ends .client).sent = [[7]] ∧ (sys.ends .server).fired = [[7]] := by
  obtain ⟨sys, hrun, hsides⟩ :=
    exactly_once_in_order (fun _ => earlyClock) reconnected fun side => by cases side <;> decide
  obtain ⟨hsent, -, -, harrived⟩ := hsides .client
  have hstate : (System.initial.run (fun _ => earlyClock) reconnected).map (fun sys =>
      (sys.conn .client, sys.conn .server, sys.broken 1, (sys.ends .client).isReconnecting,
        sys.flight 1 .client, (sys.ends .client).socketWriter.data.flatten)) =
      some (1, 1, false, false, [], []) := by
    rfl
  rw [hrun, Option.map_some] at hstate
  simp only [Option.some.injEq, Prod.mk.injEq] at hstate
  obtain ⟨hclient, hserver, hwhole, hlive, hflight, hdata⟩ := hstate
  have hall : (sys.ends .server).fired = (sys.ends .client).sent :=
    harrived (hclient.trans hserver.symm) (hclient.symm ▸ hwhole) hlive (hclient.symm ▸ hflight)
      hdata
  exact ⟨sys, hrun, hsent, hall.trans hsent⟩

end NexgileIde.Ipc
