import Mathlib.Data.Nat.Bitwise
import Firefly.Lib.StopAndWait
import Firefly.Rpc.Stream

/-!
# Firefly.Rpc.Endpoint

An end of a connection as a peer of the stop-and-wait protocol. `Core` is what the protocol needs
to know of an end, and `Stands K c x reserved` says that it is where the peer `x` is, with
`reserved` waiters that may send and no control packets but those of the commands `K`. The
operations of the core keep the relation; `receiveData` and `receiveAck`, for a packet that an
honest other end carries, move `x` by a step of the protocol.

`Api` are the calls of a stream and `Api.Conforms` what they do to the core. `Matched` adds what the
users of the stream know, and has a lemma for each call.
-/

namespace Firefly
namespace Rpc

open Bytes StopAndWait

/-! ## Packets -/

abbrev Message := List UInt8

def dataPacket (sequenceNumber : Nat) (m : Message) : List UInt8 := leBytes 4 sequenceNumber ++ m

def ackPacket (sequenceNumber : Nat) : List UInt8 :=
  Stream.commandHeader commandAck ++ leBytes 4 sequenceNumber

/-- The commands that carry nothing of the exchange. -/
def IsControl (command : Nat) : Prop :=
  command = commandConnectRequest ∨ command = commandConnectResponse ∨ command = commandDisconnect ∨
    command = commandKeepAlive ∨ command = commandNack

/-- The packets an end that is where `x` is may have sent: data and acknowledgements that `x`
carries, and commands from `K`. -/
inductive Emits (K : Nat → Prop) (x : Peer Message) : List UInt8 → Prop where
  | data {i : Nat} {m : Message} (hi : i < 2 ^ 31) (h : Carries x (.data i m)) :
      Emits K x (dataPacket i m)
  | ack {i : Nat} (hi : i < 2 ^ 31) (h : Carries x (.ack i)) : Emits K x (ackPacket i)
  | control {command : Nat} (hk : K command) (rest : List UInt8) :
      Emits K x (Stream.commandHeader command ++ rest)

theorem Emits.mono {K : Nat → Prop} {x x' : Peer Message} (h : Extends x x') {bytes : List UInt8}
    (hb : Emits K x bytes) : Emits K x' bytes := by
  cases hb with
  | data hi hc => exact .data hi (hc.mono h)
  | ack hi hc => exact .ack hi (hc.mono h)
  | control hk rest => exact .control hk rest

theorem getUint32_leBytes {n : Nat} (hn : n < 2 ^ 32) (rest : List UInt8) :
    getUint32 (leBytes 4 n ++ rest) = (n, rest) := by
  have hlen : 4 ≤ (leBytes 4 n ++ rest).length := by simp
  rw [getUint32, if_pos hlen, List.take_left' (length_leBytes 4 n), List.drop_left' (length_leBytes 4 n),
    leNat_leBytes_of_lt (by simpa using hn)]

theorem and_headerTypeCommand (n : Nat) :
    n &&& headerTypeCommand = (n.testBit 31).toNat * headerTypeCommand := Nat.and_two_pow n 31

/-- Sequence numbers leave the command bit clear. -/
theorem header_of_sequenceNumber {i : Nat} (hi : i < 2 ^ 31) : i &&& headerTypeCommand = 0 := by
  rw [and_headerTypeCommand, Nat.testBit_lt_two_pow hi, Bool.toNat_false, Nat.zero_mul]

theorem serialNumber_eq {i : Nat} (hi : i < 2 ^ 31) : i &&& 0x7fffffff = i := by
  have h := Nat.and_two_pow_sub_one_eq_mod i 31
  rw [Nat.mod_eq_of_lt hi] at h
  exact h

theorem getAck {i : Nat} (hi : i < 2 ^ 31) : (getUint32 (leBytes 4 i)).1 &&& 0x7fffffff = i := by
  have h := getUint32_leBytes (show i < 2 ^ 32 by omega) []
  rw [List.append_nil] at h
  rw [h]
  exact serialNumber_eq hi

theorem header_of_command {command : Nat} (hc : command < 2 ^ 31) :
    (command + headerTypeCommand) &&& headerTypeCommand ≠ 0 ∧
      (command + headerTypeCommand) &&& 0x7fffffff = command := by
  constructor
  · have htest : (command + headerTypeCommand).testBit 31 = true := by
      rw [Nat.testBit_eq_decide_div_mod_eq, headerTypeCommand]
      simp only [decide_eq_true_eq]
      omega
    rw [and_headerTypeCommand, htest]
    decide
  · have h := Nat.and_two_pow_sub_one_eq_mod (command + headerTypeCommand) 31
    rw [headerTypeCommand] at h ⊢
    rw [show (0x7fffffff : Nat) = 2 ^ 31 - 1 from rfl, h]
    omega

theorem IsControl.lt {command : Nat} (hc : IsControl command) : command < 2 ^ 31 := by
  rcases hc with rfl | rfl | rfl | rfl | rfl <;> decide

structure Core where
  sendNumber : Nat
  receiveNumber : Nat
  /-- The count of the semaphore. -/
  semaphore : Nat
  /-- The packet to retransmit. -/
  buffer : Option (List UInt8)
  out : List (List UInt8)
  events : List Event

namespace Core

/-- What was passed to `received_data`. -/
def deliveries (c : Core) : List Message := c.events.filterMap Event.data?

def acks (c : Core) : Nat := c.events.count .receivedAck

def emit (c : Core) (data : List UInt8) : Core := { c with out := c.out ++ [data] }

def notify (c : Core) (event : Event) : Core := { c with events := c.events ++ [event] }

def forget (c : Core) : Core := { c with buffer := none }

def take (c : Core) : Core := { c with semaphore := c.semaphore - 1 }

def send (c : Core) (m : Message) : Core :=
  { c with buffer := some (dataPacket c.sendNumber m) }.emit (dataPacket c.sendNumber m)

def receiveData (c : Core) (i : Nat) (m : Message) : Core :=
  if i < c.receiveNumber then c.emit (ackPacket i)
  else
    { (c.emit (ackPacket i)).notify (.receivedData m) with receiveNumber := c.receiveNumber + 1 }

def receiveAck (c : Core) (i : Nat) : Core :=
  if i < c.sendNumber then c
  else { c with sendNumber := c.sendNumber + 1, semaphore := 1, buffer := none }.notify .receivedAck

/-- As a disconnect leaves an end. -/
structure Reset (c : Core) : Prop where
  sendNumber : c.sendNumber = 0
  receiveNumber : c.receiveNumber = 0
  semaphore : c.semaphore = 1
  buffer : c.buffer = none

end Core

/-- A callback that is neither a delivery nor an acknowledgement. -/
def Event.Neutral (K : Nat → Prop) (event : Event) : Prop :=
  event.data? = none ∧ event ≠ .receivedAck ∧ (event = .sentDisconnect → K commandDisconnect)

/-- Only control packets are sent and only neutral callbacks are made. -/
inductive Chatter (K : Nat → Prop) (c : Core) : Core → Prop where
  | refl : Chatter K c c
  | emit {c' : Core} {command : Nat} (h : Chatter K c c') (hk : K command) (rest : List UInt8) :
      Chatter K c (c'.emit (Stream.commandHeader command ++ rest))
  | notify {c' : Core} {event : Event} (h : Chatter K c c') (hn : event.Neutral K) :
      Chatter K c (c'.notify event)

theorem Chatter.emit_header {K : Nat → Prop} {c c' : Core} {command : Nat} (h : Chatter K c c')
    (hk : K command) : Chatter K c (c'.emit (Stream.commandHeader command)) := by
  have := h.emit hk []
  rwa [List.append_nil] at this

theorem Chatter.mono {K K' : Nat → Prop} (hK : ∀ command, K command → K' command) {c c' : Core}
    (h : Chatter K c c') : Chatter K' c c' := by
  induction h with
  | refl => exact .refl
  | emit _ hk rest ih => exact ih.emit (hK _ hk) rest
  | notify _ hn ih => exact ih.notify ⟨hn.1, hn.2.1, fun he => hK _ (hn.2.2 he)⟩

theorem Chatter.trans {K : Nat → Prop} {c c' c'' : Core} (h : Chatter K c c') (h' : Chatter K c' c'') :
    Chatter K c c'' := by
  induction h' with
  | refl => exact h
  | emit _ hk rest ih => exact ih.emit hk rest
  | notify _ hn ih => exact ih.notify hn

theorem Chatter.reset {K : Nat → Prop} {c c' : Core} (h : Chatter K c c') (hc : c.Reset) :
    c'.Reset := by
  induction h with
  | refl => exact hc
  | emit _ _ _ ih => exact ⟨ih.1, ih.2, ih.3, ih.4⟩
  | notify _ _ ih => exact ⟨ih.1, ih.2, ih.3, ih.4⟩

/-- The semaphore, the waiters that took it and the message underway are one token. -/
structure Stands (K : Nat → Prop) (c : Core) (x : Peer Message) (reserved : Nat) : Prop where
  send : c.sendNumber = x.acked
  receive : c.receiveNumber = x.delivered.length
  token : c.semaphore + reserved + x.sent.length = x.acked + 1
  buffer : ∀ bytes ∈ c.buffer, ∃ m, x.sent.length = x.acked + 1 ∧ Carries x (.data x.acked m) ∧
    bytes = dataPacket x.acked m
  deliveries : c.deliveries = x.delivered
  acks : c.acks = x.acked
  quiet : Event.sentDisconnect ∈ c.events → K commandDisconnect
  out : ∀ bytes ∈ c.out, Emits K x bytes

namespace Stands

variable {K : Nat → Prop} {c c' : Core} {x y : Peer Message} {r : Nat}

theorem start (hc : c.Reset) (hout : ∀ bytes ∈ c.out, Emits K Peer.idle bytes) (hev : c.events = []) :
    Stands K c Peer.idle 0 := by
  obtain ⟨hs, hr, hsem, hbuf⟩ := hc
  refine ⟨hs, hr, ?_, ?_, ?_, ?_, ?_, hout⟩
  · rw [hsem]; rfl
  · rw [hbuf]; intro _ hb; cases hb
  · rw [Core.deliveries, hev]; rfl
  · rw [Core.acks, hev]; rfl
  · rw [hev]; intro h; cases h

theorem emit (h : Stands K c x r) {data : List UInt8} (hd : Emits K x data) :
    Stands K (c.emit data) x r :=
  { h with
    out := fun bytes hb => by
      rcases List.mem_append.mp hb with hb | hb
      · exact h.out bytes hb
      · rw [List.mem_singleton.mp hb]; exact hd }

theorem notify (h : Stands K c x r) {event : Event} (hn : event.Neutral K) :
    Stands K (c.notify event) x r :=
  { h with
    deliveries := by
      rw [← h.deliveries]
      simp [Core.deliveries, Core.notify, hn.1]
    acks := by
      rw [← h.acks]
      simp [Core.acks, Core.notify, hn.2.1]
    quiet := fun hq => by
      rcases List.mem_append.mp hq with hq | hq
      · exact h.quiet hq
      · exact hn.2.2 (List.mem_singleton.mp hq).symm }

theorem chatter (h : Stands K c x r) (hc : Chatter K c c') : Stands K c' x r := by
  induction hc with
  | refl => exact h
  | emit _ hk rest ih => exact ih.emit (.control hk rest)
  | notify _ hn ih => exact ih.notify hn

/-- The packet is not retransmitted any more. -/
theorem forget (h : Stands K c x r) : Stands K c.forget x r :=
  { h with buffer := fun _ hb => by cases hb }

/-- A waiter takes the semaphore. -/
theorem take (h : Stands K c x r) (hc : c.semaphore ≠ 0) : Stands K c.take x (r + 1) :=
  { h with
    token := by
      have := h.token
      simp only [Core.take]
      omega }

/-- A waiter may send only when nothing is underway. -/
theorem idle_of_reserved (h : Stands K c x (r + 1)) (hxy : Honest x y) : x.sent.length = x.acked := by
  have := h.token
  have := hxy.acked_le
  have := hxy.delivered_le
  omega

theorem sendData (h : Stands K c x (r + 1)) (hxy : Honest x y) (m : Message)
    (hb : x.sent.length < 2 ^ 31) : Stands K (c.send m) (x.send m) r := by
  have hlen := h.idle_of_reserved hxy
  have hcarries : Carries (x.send m) (.data x.acked m) := by
    show (x.sent ++ [m])[x.acked]? = some m
    rw [← hlen]
    simp
  refine ⟨h.send, h.receive, ?_, ?_, h.deliveries, h.acks, h.quiet, ?_⟩
  · have := h.token
    simp only [Core.send, Core.emit, Peer.send, List.length_append, List.length_singleton]
    omega
  · intro bytes hbytes
    obtain rfl : dataPacket c.sendNumber m = bytes := by simpa [Core.send, Core.emit] using hbytes
    rw [h.send]
    exact ⟨m, by simp [Peer.send, hlen], hcarries, rfl⟩
  · intro bytes hbytes
    rcases List.mem_append.mp hbytes with hbytes | hbytes
    · exact (h.out bytes hbytes).mono (.send x m)
    · rw [List.mem_singleton.mp hbytes, h.send]
      exact .data (by omega) hcarries

/-- Data from the other end: the next message or an old one. -/
theorem receiveData (h : Stands K c x r) (hxy : Honest x y) (hyx : Honest y x) {i : Nat} {m : Message}
    (hi : i < 2 ^ 31) (hc : Carries y (.data i m)) :
    ∃ x', Stands K (c.receiveData i m) x' r ∧ x'.sent = x.sent ∧ Honest x' y ∧ Honest y x' := by
  have hle := hyx.data_le hc
  rw [Core.receiveData, h.receive]
  by_cases hlt : i < x.delivered.length
  · rw [if_pos hlt]
    exact ⟨x, h.emit (.ack hi hlt), rfl, hxy, hyx⟩
  · obtain rfl : i = x.delivered.length := by omega
    have hack : Carries (x.deliver m) (.ack x.delivered.length) := by
      show x.delivered.length < (x.delivered ++ [m]).length
      simp
    rw [if_neg hlt]
    refine ⟨x.deliver m, ?_, rfl, hxy.congr rfl rfl rfl, hyx.deliver hc⟩
    refine ⟨h.send, ?_, h.token, h.buffer, ?_, ?_, ?_, ?_⟩
    · simp [Peer.deliver]
    · rw [Peer.deliver, ← h.deliveries]
      simp [Core.deliveries, Core.notify, Core.emit, Event.data?]
    · rw [Peer.deliver, ← h.acks]
      simp [Core.acks, Core.notify, Core.emit]
    · intro hq
      exact h.quiet (by simpa [Core.notify, Core.emit] using hq)
    · intro bytes hbytes
      rcases List.mem_append.mp hbytes with hbytes | hbytes
      · exact (h.out bytes hbytes).mono (.deliver x m)
      · rw [List.mem_singleton.mp hbytes]
        exact .ack hi hack

/-- An acknowledgement from the other end: the one awaited or an old one. -/
theorem receiveAck (h : Stands K c x r) (hxy : Honest x y) (hyx : Honest y x) {i : Nat}
    (hc : Carries y (.ack i)) :
    ∃ x', Stands K (c.receiveAck i) x' r ∧ x'.sent = x.sent ∧ Honest x' y ∧ Honest y x' := by
  have hle := hxy.ack_le hc
  rw [Core.receiveAck, h.send]
  by_cases hlt : i < x.acked
  · rw [if_pos hlt]
    exact ⟨x, h, rfl, hxy, hyx⟩
  · obtain rfl : i = x.acked := by omega
    have hlen := hxy.sent_eq_of_ack hc
    have htoken := h.token
    rw [if_neg hlt]
    refine ⟨x.acknowledge, ?_, rfl, hxy.acknowledge hc, hyx.congr rfl rfl rfl⟩
    refine ⟨rfl, h.receive, ?_, ?_, ?_, ?_, ?_, ?_⟩
    · simp only [Core.notify, Peer.acknowledge]
      omega
    · intro _ hb
      cases hb
    · rw [Peer.acknowledge, ← h.deliveries]
      simp [Core.deliveries, Core.notify, Event.data?]
    · rw [Peer.acknowledge, ← h.acks]
      simp [Core.acks, Core.notify]
    · intro hq
      exact h.quiet (by simpa [Core.notify] using hq)
    · exact fun bytes hbytes => (h.out bytes hbytes).mono (.acknowledge x)

/-- An acknowledgement that is awaited finds the semaphore taken. -/
theorem ack_expected (h : Stands K c x r) (hxy : Honest x y) {i : Nat} (hc : Carries y (.ack i)) :
    i < c.sendNumber ∨ i = c.sendNumber ∧ c.semaphore = 0 := by
  have hle := hxy.ack_le hc
  have htoken := h.token
  rw [h.send]
  rcases Nat.lt_or_eq_of_le hle with hlt | rfl
  · exact .inl hlt
  · have := hxy.sent_eq_of_ack hc
    exact .inr ⟨rfl, by omega⟩

/-- An end that exchanged nothing is as after a disconnect. -/
theorem reset (h : Stands K c x 0) (hxy : Honest x y) (hs : x.sent = []) (hd : x.delivered = []) :
    c.Reset := by
  have hlen : x.sent.length = 0 := by rw [hs]; rfl
  have hacked : x.acked = 0 := by
    have := hxy.acked_le
    have := hxy.delivered_le
    omega
  have htoken := h.token
  refine ⟨h.send.trans hacked, ?_, by omega, ?_⟩
  · rw [h.receive, hd]; rfl
  · cases hb : c.buffer with
    | none => rfl
    | some bytes =>
      obtain ⟨m, hm, -⟩ := h.buffer bytes hb
      omega

/-- The packet in the buffer may be sent again. -/
theorem emits_buffer (h : Stands K c x r) (hb : x.sent.length ≤ 2 ^ 31) {bytes : List UInt8}
    (hbytes : bytes ∈ c.buffer) : Emits K x bytes := by
  obtain ⟨m, hlen, hc, rfl⟩ := h.buffer bytes hbytes
  exact .data (by omega) hc

end Stands

/-! ## The calls of a stream -/

structure Api (σ : Type) where
  core : σ → Core
  connected : σ → Bool
  waitForSendAck : σ → Bool × σ
  accepts : Message → Bool
  sendData : Int → σ → Message → σ
  receivePacket : Int → σ → List UInt8 → σ
  check : Int → σ → σ
  /-- The check finds that the other end was not heard from. -/
  timesOut : Int → σ → Bool

/-- The calls in terms of the core. What a command or a time-out does is said for an end that is as
after a disconnect. -/
structure Api.Conforms {σ : Type} (k : Api σ) : Prop where
  wait_true {s : σ} : (k.waitForSendAck s).1 = true →
    (k.core s).semaphore ≠ 0 ∧ k.core (k.waitForSendAck s).2 = (k.core s).take
  wait_false {s : σ} : (k.waitForSendAck s).1 = false → k.core (k.waitForSendAck s).2 = k.core s
  send {s : σ} (now : Int) (m : Message) : (k.core s).sendNumber < 2 ^ 31 →
    k.core (k.sendData now s m) = (k.core s).send m ∨
      k.core (k.sendData now s m) = ((k.core s).send m).forget
  data {s : σ} (now : Int) {i : Nat} (m : Message) : i < 2 ^ 31 → i ≤ (k.core s).receiveNumber →
    k.core (k.receivePacket now s (dataPacket i m)) =
      if k.connected s then (k.core s).receiveData i m else k.core s
  gap {s : σ} (now : Int) {i : Nat} (m : Message) : i < 2 ^ 31 → (k.core s).receiveNumber < i →
    Chatter IsControl (k.core s) (k.core (k.receivePacket now s (dataPacket i m)))
  ack {s : σ} (now : Int) {i : Nat} : i < 2 ^ 31 →
    i < (k.core s).sendNumber ∨ i = (k.core s).sendNumber ∧ (k.core s).semaphore = 0 →
    k.core (k.receivePacket now s (ackPacket i)) = (k.core s).receiveAck i
  ack_ahead {s : σ} (now : Int) {i : Nat} : i < 2 ^ 31 → (k.core s).sendNumber < i →
    (k.core s).Reset → Chatter IsControl (k.core s) (k.core (k.receivePacket now s (ackPacket i)))
  keepAlive {s : σ} (now : Int) (rest : List UInt8) :
    k.core (k.receivePacket now s (Stream.commandHeader commandKeepAlive ++ rest)) =
      (k.core s).notify .receivedKeepAlive
  control {s : σ} (now : Int) {command : Nat} (rest : List UInt8) : IsControl command →
    (k.core s).Reset →
    Chatter IsControl (k.core s) (k.core (k.receivePacket now s (Stream.commandHeader command ++ rest)))
  check {s : σ} (now : Int) : k.timesOut now s = false → ∃ c,
    (c = k.core s ∨ ∃ bytes ∈ (k.core s).buffer, c = (k.core s).emit bytes) ∧
      Chatter (· = commandKeepAlive) c (k.core (k.check now s))
  check_timesOut {s : σ} (now : Int) : (k.core s).Reset →
    Chatter IsControl (k.core s) (k.core (k.check now s))

/-- A stream, what was passed to `sendData`, and the waiters that may send. -/
structure End (σ : Type) where
  stream : σ
  sent : List Message
  reserved : Nat

inductive Call where
  | waitForSendAck
  | sendData (now : Int) (m : Message)
  | receive (now : Int) (bytes : List UInt8)
  | check (now : Int)

section

variable {σ : Type} (k : Api σ)

namespace End

/-- A sender waits for its turn, and sends when `waitForSendAck` returned true. -/
def call (a : End σ) : Call → Option (End σ)
  | .waitForSendAck =>
    match k.waitForSendAck a.stream with
    | (true, s) => some { a with stream := s, reserved := a.reserved + 1 }
    | (false, s) => some { a with stream := s }
  | .sendData now m =>
    if 0 < a.reserved ∧ k.accepts m then
      some ⟨k.sendData now a.stream m, a.sent ++ [m], a.reserved - 1⟩
    else none
  | .receive now bytes => some { a with stream := k.receivePacket now a.stream bytes }
  | .check now => some { a with stream := k.check now a.stream }

/-- Nothing was exchanged yet. -/
def Idle (a : End σ) : Prop := a.sent = [] ∧ (k.core a.stream).deliveries = [] ∧ a.reserved = 0

theorem sent_le_of_call {a a' : End σ} {call : Call} (h : a.call k call = some a') :
    a.sent.length ≤ a'.sent.length := by
  cases call with
  | waitForSendAck =>
    simp only [End.call] at h
    split at h
    · obtain rfl := Option.some.inj h; exact Nat.le_refl _
    · obtain rfl := Option.some.inj h; exact Nat.le_refl _
  | sendData now m =>
    simp only [End.call] at h
    split at h
    · obtain rfl := Option.some.inj h; simp
    · cases h
  | receive now bytes => obtain rfl := Option.some.inj h; exact Nat.le_refl _
  | check now => obtain rfl := Option.some.inj h; exact Nat.le_refl _

end End

/-- An end and the peer it is, honest with the peer that the other end is. -/
structure Matched (K : Nat → Prop) (a : End σ) (x y : Peer Message) : Prop where
  stands : Stands K (k.core a.stream) x a.reserved
  sent : x.sent = a.sent
  honest : Honest x y
  honest_other : Honest y x

namespace Matched

variable {k} {K : Nat → Prop} {a a' : End σ} {x x' y : Peer Message}

theorem start (hc : (k.core a.stream).Reset)
    (hout : ∀ bytes ∈ (k.core a.stream).out, Emits K Peer.idle bytes)
    (hev : (k.core a.stream).events = []) (hs : a.sent = []) (hr : a.reserved = 0) :
    Matched k K a Peer.idle Peer.idle :=
  ⟨hr.symm ▸ Stands.start hc hout hev, hs.symm, Honest.idle, Honest.idle⟩

/-- The other end moved. -/
theorem of_other (h : Matched k K a x y) {y' : Peer Message} (hxy : Honest x y') (hyx : Honest y' x) :
    Matched k K a x y' :=
  ⟨h.stands, h.sent, hxy, hyx⟩

theorem reset (h : Matched k K a x y) (hidle : a.Idle k) : (k.core a.stream).Reset := by
  obtain ⟨hs, hd, hr⟩ := hidle
  exact (hr ▸ h.stands).reset h.honest (h.sent.trans hs) (h.stands.deliveries.symm.trans hd)

theorem chatter (h : Matched k K a x y) {s : σ} (hc : Chatter K (k.core a.stream) (k.core s)) :
    Matched k K { a with stream := s } x y :=
  ⟨h.stands.chatter hc, h.sent, h.honest, h.honest_other⟩

variable (hk : k.Conforms)
include hk

theorem waitForSendAck (h : Matched k K a x y) (hcall : a.call k .waitForSendAck = some a') :
    Matched k K a' x y := by
  simp only [End.call] at hcall
  split at hcall
  all_goals
    rename_i s hw
    obtain rfl := Option.some.inj hcall
    refine ⟨?_, h.sent, h.honest, h.honest_other⟩
  · obtain ⟨hsem, hcore⟩ := hk.wait_true (congrArg Prod.fst hw)
    rw [hw] at hcore
    exact hcore ▸ h.stands.take hsem
  · have hcore := hk.wait_false (congrArg Prod.fst hw)
    rw [hw] at hcore
    exact hcore ▸ h.stands

theorem sendData (h : Matched k K a x y) {now : Int} {m : Message}
    (hcall : a.call k (.sendData now m) = some a') (hlen : a.sent.length < 2 ^ 31) :
    Matched k K a' (x.send m) y := by
  simp only [End.call] at hcall
  split at hcall
  case isFalse => cases hcall
  case isTrue hr =>
    obtain rfl := Option.some.inj hcall
    have hb : x.sent.length < 2 ^ 31 := h.sent ▸ hlen
    have hres : a.reserved - 1 + 1 = a.reserved := by omega
    have hstands : Stands K (k.core a.stream) x (a.reserved - 1 + 1) := hres.symm ▸ h.stands
    have hidle := hstands.idle_of_reserved h.honest
    have hnumber : (k.core a.stream).sendNumber < 2 ^ 31 := by rw [h.stands.send]; omega
    refine ⟨?_, congrArg (· ++ [m]) h.sent, h.honest.send hidle m, h.honest_other.congr rfl rfl rfl⟩
    rcases hk.send now m hnumber with hcore | hcore
    · exact hcore ▸ hstands.sendData h.honest m hb
    · exact hcore ▸ (hstands.sendData h.honest m hb).forget

/-- Data or an acknowledgement that the other end sent, whichever and whenever. -/
theorem receive (h : Matched k K a x y) (now : Int) {bytes : List UInt8}
    (hb : Emits (fun _ => False) y bytes) :
    ∃ x', Matched k K { a with stream := k.receivePacket now a.stream bytes } x' y := by
  cases hb with
  | @data i m hi hc =>
    have hle : i ≤ (k.core a.stream).receiveNumber := by
      rw [h.stands.receive]
      exact h.honest_other.data_le hc
    have hcore := hk.data now m hi hle
    split at hcore
    · obtain ⟨x', hx', hsent, hxy, hyx⟩ := h.stands.receiveData h.honest h.honest_other hi hc
      exact ⟨x', hcore ▸ hx', hsent.trans h.sent, hxy, hyx⟩
    · exact ⟨x, hcore ▸ h.stands, h.sent, h.honest, h.honest_other⟩
  | @ack i hi hc =>
    have hcore := hk.ack now hi (h.stands.ack_expected h.honest hc)
    obtain ⟨x', hx', hsent, hxy, hyx⟩ := h.stands.receiveAck h.honest h.honest_other hc
    exact ⟨x', hcore ▸ hx', hsent.trans h.sent, hxy, hyx⟩
  | control hk' => exact hk'.elim

theorem receive_keepAlive (h : Matched k K a x y) (now : Int) (rest : List UInt8) :
    Matched k K
      { a with
        stream := k.receivePacket now a.stream (Stream.commandHeader commandKeepAlive ++ rest) }
      x y :=
  h.chatter (hk.keepAlive now rest ▸ Chatter.refl.notify ⟨rfl, by decide, fun he => by cases he⟩)

/-- A check of an end that hears from the other one. -/
theorem check (h : Matched k K a x y) {now : Int} (hK : K commandKeepAlive)
    (ht : k.timesOut now a.stream = false) (hlen : a.sent.length ≤ 2 ^ 31) :
    Matched k K { a with stream := k.check now a.stream } x y := by
  obtain ⟨c, hc, hchatter⟩ := hk.check now ht
  have hstands : Stands K c x a.reserved := by
    rcases hc with rfl | ⟨bytes, hbytes, rfl⟩
    · exact h.stands
    · exact h.stands.emit (h.stands.emits_buffer (h.sent ▸ hlen) hbytes)
  exact ⟨hstands.chatter (hchatter.mono fun _ he => he ▸ hK), h.sent, h.honest, h.honest_other⟩

end Matched

end

end Rpc
end Firefly
