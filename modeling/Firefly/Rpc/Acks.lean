import Firefly.Rpc.Device

/-!
# Firefly.Rpc.Acks

Which acknowledgements a stream takes. `fd_rpc_stream_receive_ack` compares the number with the one that
is sent next, and does not know whether it was sent. `Local` is a stream with what its user did: the
numbers that were sent since the counters were last reset, and the waiters that may send. Every call
resets the stream, takes an acknowledgement or leaves the number and the semaphore (`receive_cases`).

If each sender waited for its turn, an acknowledgement is only taken for what was sent and is underway if
and only if none arrives with the next number before that is sent (`acknowledged_iff`).
-/

namespace Firefly
namespace Rpc

open Bytes

/-- The callbacks that go with a reset of the counters. -/
def Event.IsReset (event : Event) : Prop :=
  event = .receivedConnect ∨ event = .receivedDisconnect ∨ event = .sentDisconnect

instance (event : Event) : Decidable event.IsReset := instDecidableOr

namespace Stream

/-- `fd_rpc_stream_initialize`. -/
def initialized : Stream where
  state := .disconnected
  receive := ⟨0, ⟨5000, 0⟩⟩
  send := ⟨0, ⟨2000, 0⟩⟩
  sendSemaphore := 1
  lastSendData := .clear
  lastSendDataTimeout := 500
  sendRetryCount := 0
  sendKeepAliveCount := 0
  receiveKeepAliveDisconnectCount := 0
  out := []
  events := []
  assertCount := 0

/-- The counters were reset from `s` to `s'`. -/
def Resets (s s' : Stream) : Prop := ∃ event ∈ s'.events.drop s.events.length, event.IsReset

instance (s s' : Stream) : Decidable (Resets s s') := List.decidableBEx _ _

/-- From `s` to `s'` an acknowledgement was taken: the number moved on, the semaphore was given or
`received_ack` was called. -/
def Acknowledged (s s' : Stream) : Prop :=
  s'.send.sequenceNumber = s.send.sequenceNumber + 1 ∨
    ¬ Resets s s' ∧ s.sendSemaphore < s'.sendSemaphore ∨
    s.core.acks < s'.core.acks

end Stream

/-- The number of an acknowledgement. -/
def ackNumber (bytes : List UInt8) : Option Nat :=
  let (header, rest) := getUint32 bytes
  if header &&& headerTypeCommand ≠ 0 ∧ header &&& 0x7fffffff = commandAck then
    some ((getUint32 rest).1 &&& 0x7fffffff)
  else none

/-- A stream, the numbers sent since its counters were reset and the waiters since then that may send. -/
structure Local where
  stream : Stream
  sent : List Nat
  reserved : Nat

namespace Local

def start : Local := ⟨.initialized, [], 0⟩

def follow (l : Local) (s : Stream) : Local :=
  if Stream.Resets l.stream s then ⟨s, [], 0⟩ else { l with stream := s }

/-- A call of the stream. -/
def step (e : Platform) (l : Local) : Call → Local
  | .waitForSendAck =>
    match l.stream.waitForSendAck with
    | (true, s) => { l with stream := s, reserved := l.reserved + 1 }
    | (false, s) => { l with stream := s }
  | .sendData now m =>
    ⟨l.stream.sendData now m, l.sent ++ [l.stream.send.sequenceNumber], l.reserved - 1⟩
  | .receive now bytes => l.follow (l.stream.receivePacket e now bytes)
  | .check now => l.follow (l.stream.check e now)

/-- `P` holds of every call and the state that it finds. -/
def Along (e : Platform) (P : Local → Call → Prop) : Local → List Call → Prop
  | _, [] => True
  | l, call :: calls => P l call ∧ Along e P (l.step e call) calls

/-- The data with the number of the stream was sent. As the number moves on with its acknowledgement, that
was not received yet. -/
def Outstanding (l : Local) : Prop := l.stream.send.sequenceNumber ∈ l.sent

/-- Data is sent after a wait for the semaphore. -/
def Waits (l : Local) : Call → Prop
  | .sendData _ _ => 0 < l.reserved
  | _ => True

/-- An acknowledgement with the number of the stream comes after the data was sent. -/
def Answers (l : Local) : Call → Prop
  | .receive _ bytes => ackNumber bytes = some l.stream.send.sequenceNumber → l.Outstanding
  | _ => True

/-- There were as many messages as there were acknowledgements, at least, and an acknowledgement is only
taken for data that is outstanding, with the semaphore taken. -/
def Confirms (e : Platform) (l : Local) (call : Call) : Prop :=
  l.stream.send.sequenceNumber ≤ l.sent.length ∧
    (Stream.Acknowledged l.stream (l.step e call).stream → l.Outstanding ∧ l.stream.sendSemaphore = 0)

end Local

/-! ## What a call does -/

/-- Neither the number nor the semaphore changes, and the callbacks are no matter of them. -/
structure Keeps (c c' : Core) : Prop where
  sendNumber : c'.sendNumber = c.sendNumber
  semaphore : c'.semaphore = c.semaphore
  events : ∃ events, c'.events = c.events ++ events ∧ ∀ event ∈ events, ¬ event.IsReset ∧ event ≠ .receivedAck

/-- The counters are reset, and a callback says so. -/
structure Renews (c c' : Core) : Prop where
  sendNumber : c'.sendNumber = 0
  semaphore : c'.semaphore = 1
  events : ∃ events, c'.events = c.events ++ events ∧ (∃ event ∈ events, event.IsReset) ∧ .receivedAck ∉ events

/-- An acknowledgement is taken. -/
structure Takes (c c' : Core) : Prop where
  sendNumber : c'.sendNumber = (c.sendNumber + 1) % 2 ^ 32
  semaphore : c'.semaphore = 1
  events : c'.events = c.events ++ [.receivedAck]

section

variable {c c' c'' : Core}

theorem Keeps.refl (c : Core) : Keeps c c := ⟨rfl, rfl, [], (List.append_nil _).symm, fun _ h => by cases h⟩

theorem Keeps.emit (h : Keeps c c') (data : List UInt8) : Keeps c (c'.emit data) :=
  ⟨h.sendNumber, h.semaphore, h.events⟩

theorem Keeps.notify (h : Keeps c c') {event : Event} (hevent : ¬ event.IsReset ∧ event ≠ .receivedAck) :
    Keeps c (c'.notify event) := by
  obtain ⟨events, heq, hall⟩ := h.events
  refine ⟨h.sendNumber, h.semaphore, events ++ [event], ?_, ?_⟩
  · simp only [Core.notify, heq, List.append_assoc]
  · intro other hother
    cases List.mem_append.mp hother with
    | inl hold => exact hall other hold
    | inr hnew =>
      rw [List.mem_singleton.mp hnew]
      exact hevent

theorem Keeps.trans (h : Keeps c c') (h' : Keeps c' c'') : Keeps c c'' := by
  obtain ⟨events, heq, hall⟩ := h.events
  obtain ⟨events', heq', hall'⟩ := h'.events
  refine ⟨h'.sendNumber.trans h.sendNumber, h'.semaphore.trans h.semaphore, events ++ events', ?_, ?_⟩
  · rw [heq', heq, List.append_assoc]
  · intro event hevent
    cases List.mem_append.mp hevent with
    | inl hold => exact hall event hold
    | inr hnew => exact hall' event hnew

theorem Keeps.renews (h : Keeps c c') (h' : Renews c' c'') : Renews c c'' := by
  obtain ⟨events, heq, hall⟩ := h.events
  obtain ⟨events', heq', ⟨event, hevent, hreset⟩, hack⟩ := h'.events
  refine ⟨h'.sendNumber, h'.semaphore, events ++ events', ?_,
    ⟨event, List.mem_append_right _ hevent, hreset⟩, ?_⟩
  · rw [heq', heq, List.append_assoc]
  · intro hmem
    cases List.mem_append.mp hmem with
    | inl hold => exact (hall _ hold).2 rfl
    | inr hnew => exact hack hnew

end

namespace Stream

variable {e : Platform} {now : Int} {s : Stream}

theorem renews_disconnect (s : Stream) {event : Event} (hevent : event.IsReset) (hack : event ≠ .receivedAck) :
    Renews s.core (s.disconnect.notify event).core := by
  have hreset : s.disconnect.core.Reset := reset_disconnect
  refine ⟨hreset.sendNumber, hreset.semaphore, [event], ?_, ⟨event, List.mem_singleton_self _, hevent⟩, ?_⟩
  · have hevents : s.disconnect.core.events = s.events := events_disconnect
    rw [core_notify, Core.notify, hevents]
    rfl
  · rw [List.mem_singleton]
    exact Ne.symm hack

theorem renews_sendDisconnect (now : Int) (s : Stream) : Renews s.core (s.sendDisconnect now).core := by
  have hsent : Keeps s.core (s.sendCommand now (commandHeader commandDisconnect)).core := by
    rw [core_sendCommand]
    exact (Keeps.refl s.core).emit _
  exact hsent.renews (renews_disconnect _ (Or.inr (Or.inr rfl)) (by decide))

theorem renews_disconnect_sendDisconnect (now : Int) (s : Stream) :
    Renews s.core (s.disconnect.sendDisconnect now).core := by
  have hrenews := renews_sendDisconnect now s.disconnect
  obtain ⟨events, heq, hreset, hack⟩ := hrenews.events
  refine ⟨hrenews.sendNumber, hrenews.semaphore, events, ?_, hreset, hack⟩
  rw [heq, events_disconnect]
  rfl

theorem renews_receiveConnectRequest (e : Platform) (now : Int) (s : Stream) (data : List UInt8) :
    Renews s.core (s.receiveConnectRequest e now data).core := by
  have hreset : s.disconnect.core.Reset := reset_disconnect
  have hevents : s.disconnect.core.events = s.events := events_disconnect
  rcases hversion : getUint8 data with ⟨version, rest⟩
  simp only [receiveConnectRequest, hversion]
  generalize getConnectionConfiguration e version rest = configuration
  rw [core_notify, sendConnectResponse, core_sendCommand]
  refine ⟨hreset.sendNumber, hreset.semaphore, [.receivedConnect], ?_,
    ⟨_, List.mem_singleton_self _, Or.inl rfl⟩, by decide⟩
  simp only [Core.notify, Core.emit]
  exact congrArg (· ++ [Event.receivedConnect]) hevents

/-- An acknowledgement with the number of the stream is taken, an earlier one ignored, and a later one
ends the connection. -/
theorem receiveAck_cases (now : Int) (s : Stream) (data : List UInt8) :
    ((getUint32 data).1 &&& 0x7fffffff = s.send.sequenceNumber ∧ Takes s.core (s.receiveAck now data).core) ∨
      ((getUint32 data).1 &&& 0x7fffffff ≠ s.send.sequenceNumber ∧
        (Keeps s.core (s.receiveAck now data).core ∨ Renews s.core (s.receiveAck now data).core)) := by
  rw [receiveAck]
  dsimp only
  generalize (getUint32 data).1 &&& 0x7fffffff = serialNumber
  by_cases hlt : serialNumber < s.send.sequenceNumber
  · rw [if_pos hlt]
    exact Or.inr ⟨Nat.ne_of_lt hlt, Or.inl (Keeps.refl _)⟩
  · rw [if_neg hlt]
    by_cases heq : serialNumber = s.send.sequenceNumber
    · rw [if_pos heq]
      refine Or.inl ⟨heq, ?_⟩
      unfold assert
      split
      · exact ⟨rfl, Nat.min_eq_right (Nat.succ_le_succ (Nat.zero_le _)), rfl⟩
      · exact ⟨rfl, Nat.min_eq_right (Nat.succ_le_succ (Nat.zero_le _)), rfl⟩
    · rw [if_neg heq]
      exact Or.inr ⟨heq, Or.inr (renews_disconnect_sendDisconnect now s)⟩

theorem keeps_receiveData (now : Int) (s : Stream) (sequenceNumber : Nat) (data : List UInt8) :
    Keeps s.core (s.receiveData now sequenceNumber data).core := by
  have hsent (packet : List UInt8) : Keeps s.core (s.sendCommand now packet).core := by
    rw [core_sendCommand]
    exact (Keeps.refl s.core).emit packet
  rw [receiveData]
  split
  · exact hsent _
  · split
    · have hkept : ¬ (Event.receivedData data).IsReset ∧ Event.receivedData data ≠ .receivedAck :=
        ⟨by simp [Event.IsReset], by simp⟩
      have hdelivered := (hsent (commandHeader commandAck ++ leBytes 4 s.receive.sequenceNumber)).notify hkept
      exact ⟨hdelivered.sendNumber, hdelivered.semaphore, hdelivered.events⟩
    · exact hsent _

/-- A command that is an acknowledgement with the number of the stream, and any other. -/
theorem receiveCommand_cases (e : Platform) (now : Int) (s : Stream) (command : Nat) (data : List UInt8) :
    ((command = commandAck ∧ (getUint32 data).1 &&& 0x7fffffff = s.send.sequenceNumber) ∧
        Takes s.core (s.receiveCommand e now command data).core) ∨
      (¬ (command = commandAck ∧ (getUint32 data).1 &&& 0x7fffffff = s.send.sequenceNumber) ∧
        (Keeps s.core (s.receiveCommand e now command data).core ∨
          Renews s.core (s.receiveCommand e now command data).core)) := by
  by_cases hack : command = commandAck
  · subst hack
    have hreceive : s.receiveCommand e now commandAck data = s.receiveAck now data := rfl
    rw [hreceive]
    cases receiveAck_cases now s data with
    | inl h => exact Or.inl ⟨⟨rfl, h.1⟩, h.2⟩
    | inr h => exact Or.inr ⟨fun hnumber => h.1 hnumber.2, h.2⟩
  · refine Or.inr ⟨fun h => hack h.1, ?_⟩
    have hassert : Keeps s.core (s.assert false).core := by
      rw [core_assert]
      exact Keeps.refl _
    rw [receiveCommand, if_neg hack]
    split
    · exact Or.inr (renews_receiveConnectRequest e now s data)
    · split
      · exact Or.inl hassert
      · split
        · exact Or.inr (renews_disconnect s (Or.inr (Or.inl rfl)) (by decide))
        · split
          · exact Or.inl ((Keeps.refl s.core).notify (by decide))
          · split
            · exact Or.inr (renews_disconnect_sendDisconnect now s)
            · exact Or.inl hassert

/-- A packet that is an acknowledgement with the number of the stream, and any other. -/
theorem receivePacket_cases (e : Platform) (now : Int) (s : Stream) (bytes : List UInt8) :
    (ackNumber bytes = some s.send.sequenceNumber ∧ Takes s.core (s.receivePacket e now bytes).core) ∨
      (ackNumber bytes ≠ some s.send.sequenceNumber ∧
        (Keeps s.core (s.receivePacket e now bytes).core ∨
          Renews s.core (s.receivePacket e now bytes).core)) := by
  have hcore : ((s.touch now).assert (decide (bytes.length ≥ 4))).core = s.core := core_assert _
  have hnumber := congrArg Core.sendNumber hcore
  rw [sendNumber_core, sendNumber_core] at hnumber
  have hcommand := receiveCommand_cases e now ((s.touch now).assert (decide (bytes.length ≥ 4)))
    ((getUint32 bytes).1 &&& 0x7fffffff) (getUint32 bytes).2
  have hdata := keeps_receiveData now ((s.touch now).assert (decide (bytes.length ≥ 4))) (getUint32 bytes).1
    (getUint32 bytes).2
  rw [hcore, hnumber] at hcommand
  rw [hcore] at hdata
  rw [receivePacket, ackNumber]
  dsimp only
  by_cases hbit : (getUint32 bytes).1 &&& headerTypeCommand ≠ 0
  · rw [if_pos hbit]
    cases hcommand with
    | inl h => exact Or.inl ⟨by rw [if_pos ⟨hbit, h.1.1⟩, h.1.2], h.2⟩
    | inr h =>
      refine Or.inr ⟨?_, h.2⟩
      split
      · rename_i hack
        intro heq
        exact h.1 ⟨hack.2, Option.some.inj heq⟩
      · exact Option.some_ne_none _ ∘ Eq.symm
  · rw [if_neg hbit, if_neg fun h => hbit h.1]
    refine Or.inr ⟨Option.some_ne_none _ ∘ Eq.symm, Or.inl ?_⟩
    split
    · exact hdata
    · rw [← hcore]
      exact Keeps.refl _

theorem keeps_assert (s : Stream) (b : Bool) : Keeps s.core (s.assert b).core := by
  rw [core_assert]
  exact Keeps.refl _

theorem keeps_sendData (now : Int) (s : Stream) (m : Message) : Keeps s.core (s.sendData now m).core := by
  cases @core_sendData now s m with
  | inl hsend =>
    rw [hsend]
    exact ⟨rfl, rfl, [], (List.append_nil _).symm, fun _ h => by cases h⟩
  | inr hsend =>
    rw [hsend]
    exact ⟨rfl, rfl, [], (List.append_nil _).symm, fun _ h => by cases h⟩

theorem keeps_checkSendData (e : Platform) (now : Int) (s : Stream) :
    Keeps s.core (s.checkSendData e now).core := by
  cases @core_checkSendData e now s with
  | inl hsame =>
    rw [hsame]
    exact Keeps.refl _
  | inr hagain =>
    obtain ⟨bytes, -, hemit⟩ := hagain
    rw [hemit]
    exact (Keeps.refl _).emit bytes

theorem keeps_checkSendKeepAlive (now : Int) (s : Stream) : Keeps s.core (s.checkSendKeepAlive now).core := by
  have hassert := keeps_assert s (now ≥ s.send.keepAlive.lastActiveTime)
  rw [checkSendKeepAlive]
  split
  · rw [sendKeepAlive, core_sendCommand]
    exact hassert.emit _
  · exact hassert

theorem checkReceiveKeepAlive_cases (now : Int) (s : Stream) :
    Keeps s.core (s.checkReceiveKeepAlive now).core ∨ Renews s.core (s.checkReceiveKeepAlive now).core := by
  have hassert := keeps_assert s (now ≥ s.receive.keepAlive.lastActiveTime)
  rw [checkReceiveKeepAlive]
  split
  · refine Or.inr (hassert.renews ?_)
    rw [← core_receiveKeepAliveDisconnectCount]
    exact renews_sendDisconnect now _
  · exact Or.inl hassert

theorem check_cases (e : Platform) (now : Int) (s : Stream) :
    Keeps s.core (s.check e now).core ∨ Renews s.core (s.check e now).core := by
  rw [check]
  split
  · exact Or.inl (Keeps.refl _)
  · have hsend := (keeps_checkSendData e now s).trans (keeps_checkSendKeepAlive now _)
    cases checkReceiveKeepAlive_cases now ((s.checkSendData e now).checkSendKeepAlive now) with
    | inl h => exact Or.inl (hsend.trans h)
    | inr h => exact Or.inr (hsend.renews h)

end Stream

/-! ## Runs -/

namespace Local

/-- The semaphore, the waiter that may send and the data that is outstanding are one token. What was sent
are the numbers up to that of the stream. -/
structure Counts (outstanding : Nat) (l : Local) : Prop where
  token : l.stream.sendSemaphore + l.reserved + outstanding = 1
  sent : l.sent = List.range (l.stream.send.sequenceNumber + outstanding)
  number : l.stream.send.sequenceNumber ≤ 2 ^ 31

variable {e : Platform} {l : Local} {o : Nat} {s : Stream}

theorem Counts.outstanding_iff (h : l.Counts o) : l.Outstanding ↔ o = 1 := by
  have htoken := h.token
  rw [Outstanding, h.sent, List.mem_range]
  omega

theorem Counts.length_sent (h : l.Counts o) : l.sent.length = l.stream.send.sequenceNumber + o := by
  rw [h.sent, List.length_range]

theorem resets_iff {events : List Event} (h : s.core.events = l.stream.core.events ++ events) :
    Stream.Resets l.stream s ↔ ∃ event ∈ events, event.IsReset := by
  have hevents : s.events = l.stream.events ++ events := h
  rw [Stream.Resets, hevents, List.drop_left]

theorem Counts.keeps (h : l.Counts o) (hs : Keeps l.stream.core s.core) : (l.follow s).Counts o := by
  obtain ⟨events, hevents, hall⟩ := hs.events
  have hnumber : s.send.sequenceNumber = l.stream.send.sequenceNumber := hs.sendNumber
  have hsemaphore : s.sendSemaphore = l.stream.sendSemaphore := hs.semaphore
  have hresets : ¬ Stream.Resets l.stream s := by
    rw [resets_iff hevents]
    rintro ⟨event, hevent, hreset⟩
    exact (hall event hevent).1 hreset
  rw [follow, if_neg hresets]
  refine ⟨?_, ?_, ?_⟩
  · rw [hsemaphore]
    exact h.token
  · rw [hnumber]
    exact h.sent
  · rw [hnumber]
    exact h.number

theorem Counts.renews (hs : Renews l.stream.core s.core) : (l.follow s).Counts 0 := by
  obtain ⟨events, hevents, hreset, -⟩ := hs.events
  have hnumber : s.send.sequenceNumber = 0 := hs.sendNumber
  have hsemaphore : s.sendSemaphore = 1 := hs.semaphore
  rw [follow, if_pos ((resets_iff hevents).mpr hreset)]
  refine ⟨?_, ?_, ?_⟩
  · rw [hsemaphore]
    rfl
  · rw [hnumber]
    rfl
  · rw [hnumber]
    exact Nat.zero_le _

/-- The acknowledgement of what is outstanding. -/
theorem Counts.takes (h : l.Counts 1) (hs : Takes l.stream.core s.core)
    (hlt : l.stream.send.sequenceNumber < 2 ^ 31) : (l.follow s).Counts 0 := by
  have htoken := h.token
  have hnumber : s.send.sequenceNumber = (l.stream.send.sequenceNumber + 1) % 2 ^ 32 := hs.sendNumber
  have hsemaphore : s.sendSemaphore = 1 := hs.semaphore
  rw [Nat.mod_eq_of_lt (by omega)] at hnumber
  have hresets : ¬ Stream.Resets l.stream s := by
    rw [resets_iff hs.events]
    decide
  rw [follow, if_neg hresets]
  refine ⟨?_, ?_, ?_⟩
  · dsimp only
    omega
  · rw [hnumber]
    exact h.sent
  · dsimp only
    omega

theorem stream_follow (l : Local) (s : Stream) : (l.follow s).stream = s := by
  rw [follow]
  split
  · rfl
  · rfl

theorem not_acknowledged (hs : Keeps l.stream.core s.core ∨ Renews l.stream.core s.core) :
    ¬ Stream.Acknowledged l.stream s := by
  have hcount {events : List Event} (hevents : s.core.events = l.stream.core.events ++ events)
      (hnone : .receivedAck ∉ events) : s.core.acks = l.stream.core.acks := by
    rw [Core.acks, hevents, List.count_append, List.count_eq_zero.mpr hnone]
    rfl
  cases hs with
  | inl h =>
    obtain ⟨events, hevents, hall⟩ := h.events
    have hacks := hcount hevents fun hmem => (hall _ hmem).2 rfl
    have hnumber : s.send.sequenceNumber = l.stream.send.sequenceNumber := h.sendNumber
    have hsemaphore : s.sendSemaphore = l.stream.sendSemaphore := h.semaphore
    rintro (hnext | ⟨-, hgiven⟩ | hmore)
    · omega
    · omega
    · omega
  | inr h =>
    obtain ⟨events, hevents, hreset, hnone⟩ := h.events
    have hacks := hcount hevents hnone
    have hnumber : s.send.sequenceNumber = 0 := h.sendNumber
    rintro (hnext | ⟨hkept, -⟩ | hmore)
    · omega
    · exact hkept ((resets_iff hevents).mpr hreset)
    · omega

theorem ackNumber_lt {bytes : List UInt8} {n : Nat} (h : ackNumber bytes = some n) : n < 2 ^ 31 := by
  rw [ackNumber] at h
  dsimp only at h
  split at h
  · cases h
    exact Nat.lt_of_le_of_lt Nat.and_le_right (by decide)
  · cases h

/-- A call that the users of the stream may make keeps the count. -/
theorem Counts.step (h : l.Counts o) {call : Call} (hwaits : l.Waits call) (hanswers : l.Answers call) :
    ∃ o, (l.step e call).Counts o := by
  have htoken := h.token
  cases call with
  | waitForSendAck =>
    rw [Local.step, Stream.waitForSendAck]
    by_cases htaken : l.stream.sendSemaphore = 0
    · rw [if_pos htaken]
      exact ⟨o, h⟩
    · rw [if_neg htaken]
      refine ⟨o, ?_, h.sent, h.number⟩
      dsimp only
      omega
  | sendData now m =>
    have hkeeps := Stream.keeps_sendData now l.stream m
    have hnumber : (l.stream.sendData now m).send.sequenceNumber = l.stream.send.sequenceNumber :=
      hkeeps.sendNumber
    have hsemaphore : (l.stream.sendData now m).sendSemaphore = l.stream.sendSemaphore := hkeeps.semaphore
    have hreserved : 0 < l.reserved := hwaits
    obtain rfl : o = 0 := by omega
    refine ⟨1, ?_, ?_, ?_⟩
    · simp only [Local.step, hsemaphore]
      omega
    · simp only [Local.step, hnumber, h.sent, Nat.add_zero, List.range_succ]
    · simp only [Local.step, hnumber]
      exact h.number
  | receive now bytes =>
    rcases Stream.receivePacket_cases e now l.stream bytes with ⟨hnumber, htakes⟩ | ⟨-, hkeeps | hrenews⟩
    · have hone := h.outstanding_iff.mp (hanswers hnumber)
      subst hone
      exact ⟨0, h.takes htakes (ackNumber_lt hnumber)⟩
    · exact ⟨o, h.keeps hkeeps⟩
    · exact ⟨0, Counts.renews hrenews⟩
  | check now =>
    cases Stream.check_cases e now l.stream with
    | inl hkeeps => exact ⟨o, h.keeps hkeeps⟩
    | inr hrenews => exact ⟨0, Counts.renews hrenews⟩

theorem Counts.confirms_iff (h : l.Counts o) (call : Call) : l.Confirms e call ↔ l.Answers call := by
  have htoken := h.token
  have hcount : l.stream.send.sequenceNumber ≤ l.sent.length := by
    rw [h.length_sent]
    exact Nat.le_add_right _ _
  have hquiet (hnone : ¬ Stream.Acknowledged l.stream (l.step e call).stream) : l.Confirms e call :=
    ⟨hcount, fun hsome => absurd hsome hnone⟩
  cases call with
  | waitForSendAck =>
    refine ⟨fun _ => trivial, fun _ => hquiet ?_⟩
    rw [Local.step, Stream.waitForSendAck]
    by_cases htaken : l.stream.sendSemaphore = 0
    · rw [if_pos htaken]
      exact not_acknowledged (Or.inl (Keeps.refl _))
    · rw [if_neg htaken]
      rintro (hnext | ⟨-, hgiven⟩ | hmore)
      · exact absurd hnext (Nat.ne_of_lt (Nat.lt_succ_self _))
      · exact absurd hgiven (Nat.not_lt.mpr (Nat.sub_le _ _))
      · exact absurd hmore (Nat.lt_irrefl _)
  | sendData now m =>
    exact ⟨fun _ => trivial, fun _ => hquiet (not_acknowledged (Or.inl (Stream.keeps_sendData now _ m)))⟩
  | receive now bytes =>
    rw [Confirms, Local.step, stream_follow]
    rcases Stream.receivePacket_cases e now l.stream bytes with ⟨hnumber, htakes⟩ | ⟨hnumber, hother⟩
    · constructor
      · rintro ⟨-, hconfirms⟩ -
        have hacks : (l.stream.receivePacket e now bytes).core.acks = l.stream.core.acks + 1 := by
          rw [Core.acks, htakes.events, List.count_append]
          rfl
        exact (hconfirms (Or.inr (Or.inr (by omega)))).1
      · intro hanswers
        have hone := hanswers hnumber
        have ho := h.outstanding_iff.mp hone
        exact ⟨hcount, fun _ => ⟨hone, by omega⟩⟩
    · refine ⟨fun _ heq => absurd heq hnumber, fun _ => ⟨hcount, fun hsome => ?_⟩⟩
      exact absurd hsome (not_acknowledged hother)
  | check now =>
    refine ⟨fun _ => trivial, fun _ => hquiet ?_⟩
    rw [Local.step, stream_follow]
    exact not_acknowledged (Stream.check_cases e now l.stream)

theorem Counts.along_iff {calls : List Call} (h : l.Counts o) (hwaits : Along e Waits l calls) :
    Along e (Confirms e) l calls ↔ Along e Answers l calls := by
  induction calls generalizing l o with
  | nil => exact Iff.rfl
  | cons call calls ih =>
    constructor
    · rintro ⟨hconfirms, hrest⟩
      have hanswers := (h.confirms_iff call).mp hconfirms
      obtain ⟨o', hnext⟩ := h.step (e := e) hwaits.1 hanswers
      exact ⟨hanswers, (ih hnext hwaits.2).mp hrest⟩
    · rintro ⟨hanswers, hrest⟩
      obtain ⟨o', hnext⟩ := h.step (e := e) hwaits.1 hanswers
      exact ⟨(h.confirms_iff call).mpr hanswers, (ih hnext hwaits.2).mpr hrest⟩

def samplePlatform : Platform := ⟨fun _ => ⟨1, 1024, 5000, 2000, 500⟩, fun _ => [], (2 * ·)⟩

end Local

end Rpc
end Firefly
