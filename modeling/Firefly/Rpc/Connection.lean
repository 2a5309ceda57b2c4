import Mathlib.Logic.Relation
import Firefly.Rpc.Device

/-!
# Firefly.Rpc.Connection

Two streams with one connection between them. The network keeps every packet ever sent and delivers
any of them to the other end at any time, any number of times: loss, duplication, delay and
reordering. The senders reserve the stream with `waitForSendAck` before they send, the check may
run at any time, and no end times out.

`Linked` relates both ends to two peers of the stop-and-wait protocol that are honest with each
other. Every step keeps it (`Linked.step`), and it has the safety of the connection in it
(`connection_safe`).
-/

namespace Firefly
namespace Rpc

open StopAndWait

inductive Side where
  | left
  | right
  deriving DecidableEq

def Side.other : Side → Side
  | left => right
  | right => left

@[simp] theorem Side.other_other (x : Side) : x.other.other = x := by cases x <;> rfl

theorem Side.other_ne (x : Side) : x.other ≠ x := by cases x <;> decide

theorem Side.eq_or_eq_other (x y : Side) : y = x ∨ y = x.other := by
  cases x <;> cases y <;> simp [Side.other]

/-- A stream right after the connection was made. -/
structure End.Fresh (a : End Stream) : Prop where
  state : a.stream.state = .connected
  receive : a.stream.receive.sequenceNumber = 0
  send : a.stream.send.sequenceNumber = 0
  semaphore : a.stream.sendSemaphore = 1
  buffer : a.stream.lastSendData.time = 0
  out : a.stream.out = []
  events : a.stream.events = []
  sent : a.sent = []
  reserved : a.reserved = 0

theorem End.Fresh.reset {a : End Stream} (h : a.Fresh) : a.stream.core.Reset where
  sendNumber := h.send
  receiveNumber := h.receive
  semaphore := h.semaphore
  buffer := by simp [Stream.core, h.buffer]

abbrev Connection := Side → End Stream

/-- What arrives was sent by the other end, and no end times out. -/
def Connection.Permits (c : Connection) (x : Side) : Call → Prop
  | .receive _ bytes => bytes ∈ (c x.other).stream.out
  | .check now => (c x).stream.timesOut now = false
  | _ => True

/-- One call at one end. -/
inductive Step (e : Platform) (c : Connection) : Connection → Prop where
  | call {x : Side} {call : Call} {a : End Stream} (h : (c x).call (Stream.api e) call = some a)
      (hp : c.Permits x call) : Step e c (Function.update c x a)

/-- The packet is the given command. -/
def IsCommand (command : Nat) (bytes : List UInt8) : Prop :=
  (getUint32 bytes).1 = command + headerTypeCommand

/-- What the connection promises to end `x`. -/
structure Safe (c : Connection) (x : Side) : Prop where
  delivered : (c x).stream.core.deliveries <+: (c x.other).sent
  acked : (c x).stream.core.acks ≤ (c x.other).stream.core.deliveries.length
  no_nack : ∀ bytes ∈ (c x).stream.out, ¬ IsCommand commandNack bytes
  no_disconnect : (∀ bytes ∈ (c x).stream.out, ¬ IsCommand commandDisconnect bytes) ∧
    Event.sentDisconnect ∉ (c x).stream.events
  semaphore : (c x).stream.sendSemaphore = 1 ↔
    (c x).stream.core.acks = (c x).sent.length ∧ (c x).reserved = 0

def Linked (e : Platform) (c : Connection) (p : Side → Peer Message) : Prop :=
  ∀ x, Matched (Stream.api e) (· = commandKeepAlive) (c x) (p x) (p x.other)

variable {e : Platform} {c c' : Connection} {p : Side → Peer Message}

theorem Linked.start (h : ∀ x, (c x).Fresh) : Linked e c fun _ => Peer.idle := fun x =>
  Matched.start (k := Stream.api e) (h x).reset
    (fun bytes hb => by
      have hb' : bytes ∈ (c x).stream.out := hb
      rw [(h x).out] at hb'
      cases hb')
    (h x).events (h x).sent (h x).reserved

/-- One end moves, and the peer it is with it. -/
theorem Linked.update (h : Linked e c p) {x : Side} {a : End Stream} {q : Peer Message}
    (hq : Matched (Stream.api e) (· = commandKeepAlive) a q (p x.other)) :
    Linked e (Function.update c x a) (Function.update p x q) := by
  intro y
  rcases Side.eq_or_eq_other x y with rfl | rfl
  · rwa [Function.update_self, Function.update_self, Function.update_of_ne (Side.other_ne _)]
  · rw [Side.other_other, Function.update_self, Function.update_of_ne (Side.other_ne _),
      Function.update_of_ne (Side.other_ne _)]
    exact (h x.other).of_other hq.honest_other hq.honest

theorem Step.sent_le (h : Step e c c') (y : Side) : (c y).sent.length ≤ (c' y).sent.length := by
  obtain ⟨hcall, -⟩ := h
  rename_i x call a
  rcases Side.eq_or_eq_other x y with rfl | rfl
  · rw [Function.update_self]
    exact End.sent_le_of_call _ hcall
  · rw [Function.update_of_ne (Side.other_ne _)]

/-- A call keeps it, as long as the number of what is sent has the command bit clear. -/
theorem Linked.call (h : Linked e c p) {x : Side} {call : Call} {a : End Stream}
    (hcall : (c x).call (Stream.api e) call = some a) (hp : c.Permits x call)
    (hlen : (c x).sent.length ≤ 2 ^ 31)
    (hsend : ∀ now m, call = .sendData now m → (c x).sent.length < 2 ^ 31) :
    ∃ p', Linked e (Function.update c x a) p' := by
  have hk := Stream.api_conforms e
  have hx := h x
  cases call with
  | waitForSendAck => exact ⟨_, h.update (hx.waitForSendAck hk hcall)⟩
  | sendData now m => exact ⟨_, h.update (hx.sendData hk hcall (hsend now m rfl))⟩
  | receive now bytes =>
    obtain rfl := Option.some.inj hcall
    have hbytes : Emits (· = commandKeepAlive) (p x.other) bytes := (h x.other).stands.out bytes hp
    cases hbytes with
    | data hi hc =>
      obtain ⟨q, hq⟩ := hx.receive hk now (.data hi hc)
      exact ⟨_, h.update hq⟩
    | ack hi hc =>
      obtain ⟨q, hq⟩ := hx.receive hk now (.ack hi hc)
      exact ⟨_, h.update hq⟩
    | control hcommand rest =>
      subst hcommand
      exact ⟨_, h.update (hx.receive_keepAlive hk now rest)⟩
  | check now =>
    obtain rfl := Option.some.inj hcall
    exact ⟨_, h.update (hx.check hk rfl hp hlen)⟩

theorem Linked.step (h : Linked e c p) (hstep : Step e c c')
    (hlen : ∀ x, (c' x).sent.length < 2 ^ 31) : ∃ p', Linked e c' p' := by
  have hlen' : ∀ x, (c x).sent.length < 2 ^ 31 := fun x =>
    Nat.lt_of_le_of_lt (hstep.sent_le x) (hlen x)
  obtain @⟨x, call, a, hcall, hp⟩ := hstep
  exact h.call hcall hp (Nat.le_of_lt (hlen' x)) fun _ _ _ => hlen' x

/-- What an end emits is neither a nack nor a disconnect. -/
theorem Emits.not_isCommand {x : Peer Message} {bytes : List UInt8}
    (h : Emits (· = commandKeepAlive) x bytes) {command : Nat}
    (hc : command = commandNack ∨ command = commandDisconnect) : ¬ IsCommand command bytes := by
  unfold IsCommand
  cases h with
  | @data i m hi _ =>
    rw [dataPacket, getUint32_leBytes (by omega)]
    show ¬ i = command + headerTypeCommand
    rw [headerTypeCommand]
    omega
  | ack _ _ =>
    rw [ackPacket, Stream.commandHeader, getUint32_leBytes (by decide)]
    show ¬ commandAck + headerTypeCommand = command + headerTypeCommand
    rcases hc with rfl | rfl <;> decide
  | control hcommand rest =>
    subst hcommand
    rw [Stream.commandHeader, getUint32_leBytes (by decide)]
    show ¬ commandKeepAlive + headerTypeCommand = command + headerTypeCommand
    rcases hc with rfl | rfl <;> decide

theorem Linked.safe (h : Linked e c p) (x : Side) : Safe c x := by
  obtain ⟨hx, hsent, hxy, hyx⟩ := h x
  obtain ⟨hy, hsent', -, -⟩ := h x.other
  have hdeliveries : (c x).stream.core.deliveries = (p x).delivered := hx.deliveries
  have hdeliveries' : (c x.other).stream.core.deliveries = (p x.other).delivered := hy.deliveries
  have hacks : (c x).stream.core.acks = (p x).acked := hx.acks
  refine ⟨?_, ?_, ?_, ⟨?_, ?_⟩, ?_⟩
  · rw [hdeliveries, ← hsent']
    exact hyx.prefix_sent
  · rw [hacks, hdeliveries']
    exact hxy.acked_le
  · exact fun bytes hb => (hx.out bytes hb).not_isCommand (.inl rfl)
  · exact fun bytes hb => (hx.out bytes hb).not_isCommand (.inr rfl)
  · exact fun hq => absurd (hx.quiet hq) (by decide)
  · have htoken : (c x).stream.sendSemaphore + (c x).reserved + (p x).sent.length =
        (p x).acked + 1 := hx.token
    have hle := hxy.acked_le
    have hle' := hxy.delivered_le
    rw [hacks, ← hsent]
    omega

/-- A connection with less than 2³¹ messages each way is safe in every state it can reach. -/
theorem connection_safe (e : Platform) {c₀ c : Connection} (hfresh : ∀ x, (c₀ x).Fresh)
    (hrun : Relation.ReflTransGen (Step e) c₀ c) (hlen : ∀ x, (c x).sent.length < 2 ^ 31) (x : Side) :
    Safe c x := by
  have hlinked : ∃ p, Linked e c p := by
    clear x
    induction hrun with
    | refl => exact ⟨_, Linked.start hfresh⟩
    | tail _ hstep ih =>
      obtain ⟨p, hp⟩ := ih fun x => Nat.lt_of_le_of_lt (hstep.sent_le x) (hlen x)
      exact hp.step hstep hlen
  obtain ⟨p, hp⟩ := hlinked
  exact hp.safe x

def samplePlatform : Platform := ⟨fun _ => ⟨1, 1024, 5000, 2000, 500⟩, fun _ => [], (2 * ·)⟩

def sampleEnd : End Stream where
  stream := {
    state := .connected
    receive := ⟨0, ⟨5000, 0⟩⟩
    send := ⟨0, ⟨2000, 0⟩⟩
    sendSemaphore := 1
    lastSendData := .clear
    lastSendDataTimeout := 500
    sendRetryCount := 0
    sendKeepAliveCount := 0
    receiveKeepAliveDisconnectCount := 0
    out := []
    events := []
    assertCount := 0 }
  sent := []
  reserved := 0

/-- One message from left to right, delivered twice by the network and acknowledged. -/
theorem connection_safe_sample : ∃ c, Relation.ReflTransGen (Step samplePlatform) (fun _ => sampleEnd) c ∧
    (c .right).stream.core.deliveries = [[7]] ∧ (c .left).stream.core.acks = 1 ∧ Safe c .right := by
  have hfresh : ∀ x, ((fun _ => sampleEnd : Connection) x).Fresh := fun _ =>
    ⟨rfl, rfl, rfl, rfl, rfl, rfl, rfl, rfl, rfl⟩
  have h₁ := Relation.ReflTransGen.single
    (@Step.call samplePlatform (fun _ => sampleEnd) .left .waitForSendAck _ rfl trivial)
  have h₂ := h₁.tail (@Step.call _ _ .left (.sendData 1 [7]) _ rfl trivial)
  have h₃ := h₂.tail
    (@Step.call _ _ .right (.receive 2 (dataPacket 0 [7])) _ rfl (List.mem_singleton.mpr rfl))
  have h₄ := h₃.tail
    (@Step.call _ _ .right (.receive 3 (dataPacket 0 [7])) _ rfl (List.mem_singleton.mpr rfl))
  have h₅ := h₄.tail
    (@Step.call _ _ .left (.receive 4 (ackPacket 0)) _ rfl (show ackPacket 0 ∈ _ by decide))
  exact ⟨_, h₅, by decide, by decide,
    connection_safe samplePlatform hfresh h₅ (fun x => by cases x <;> decide) .right⟩

end Rpc
end Firefly
