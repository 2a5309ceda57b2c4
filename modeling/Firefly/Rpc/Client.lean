import Firefly.Rpc.Endpoint

/-!
# Firefly.Rpc.Client

`Stream` of `rpc.py`, the stream of the clients, and that it conforms. Times are in milliseconds.
The coding of the connection configuration by protobuf is a parameter; parsing may raise. An
exception ends a call with the stream as it is by then.
-/

namespace Firefly
namespace Rpc
namespace Python

open Bytes

structure Library where
  parseFromString : List UInt8 → Option Configuration
  serializeToString : Configuration → List UInt8

structure LastSendData where
  time : Int
  command : List UInt8
  timeout : Nat

structure Stream where
  state : State
  receive : Direction
  send : Direction
  sendLock : Bool
  lastSendData : Option LastSendData
  lastSendDataTimeout : Nat
  out : List (List UInt8)
  events : List Event

namespace Stream

open Rpc.Stream (commandHeader)

def version : Nat := 2

/-- A new stream. -/
def init : Stream where
  state := .disconnected
  receive := ⟨0, ⟨5000, 0⟩⟩
  send := ⟨0, ⟨2000, 0⟩⟩
  sendLock := false
  lastSendData := none
  lastSendDataTimeout := 500
  out := []
  events := []

def notify (s : Stream) (event : Event) : Stream := { s with events := s.events ++ [event] }

def disconnect (s : Stream) : Stream :=
  if s.state = .disconnected then s
  else
    { s with
      sendLock := false
      receive := ⟨0, s.receive.keepAlive.reset⟩
      send := ⟨0, s.send.keepAlive.reset⟩
      lastSendData := none
      state := .disconnected }.notify .disconnected

def connected (now : Int) (s : Stream) (configuration : Configuration) : Stream :=
  let s := s.disconnect
  let s := { s with
    receive := { s.receive with keepAlive := ⟨configuration.receiveKeepAlive, now⟩ }
    send := { s.send with keepAlive := ⟨configuration.sendKeepAlive, now⟩ }
    lastSendData := none
    state := .connected }
  (s.notify .connected).notify .receivedConnect

def sendCommand (now : Int) (s : Stream) (data : List UInt8) : Stream :=
  { s with
    send := { s.send with keepAlive := s.send.keepAlive.update now }
    out := s.out ++ [data] }

def sendConnectRequest (l : Library) (now : Int) (s : Stream) (requested : Nat)
    (configuration : Configuration) : Stream :=
  s.sendCommand now (commandHeader commandConnectRequest ++
    if requested ≤ 1 then leBytes 1 version ++ leBytes 1 1 ++ leBytes 2 1024
    else leBytes 1 version ++ l.serializeToString configuration)

def sendConnectResponse (l : Library) (now : Int) (s : Stream) (requested : Nat)
    (configuration : Configuration) : Stream :=
  s.sendCommand now (commandHeader commandConnectResponse ++
    if requested ≤ 1 then leBytes 1 0 ++ leBytes 1 version ++ leBytes 1 1 ++ leBytes 2 1024
    else leBytes 1 0 ++ leBytes 1 version ++ l.serializeToString configuration)

def sendDisconnect (now : Int) (s : Stream) : Stream :=
  ((s.sendCommand now (commandHeader commandDisconnect)).disconnect).notify .sentDisconnect

def sendKeepAlive (now : Int) (s : Stream) : Stream :=
  s.sendCommand now (commandHeader commandKeepAlive)

def sendAck (now : Int) (s : Stream) (sequenceNumber : Nat) : Stream :=
  s.sendCommand now (commandHeader commandAck ++ leBytes 4 sequenceNumber)

def sendNack (now : Int) (s : Stream) : Stream :=
  s.sendCommand now (commandHeader commandNack ++ leBytes 4 s.send.sequenceNumber)

/-- Raises `SendTimeout` when the lock is not released in time. -/
def waitForSendAck (s : Stream) : Bool × Stream :=
  if s.sendLock then (false, s) else (true, { s with sendLock := true })

def sendData (now : Int) (s : Stream) (data : List UInt8) : Stream :=
  let s := { s with send := { s.send with keepAlive := s.send.keepAlive.update now } }
  -- packing a number of more than 32 bits raises
  if s.send.sequenceNumber < 2 ^ 32 then
    let command := leBytes 4 s.send.sequenceNumber ++ data
    { s with lastSendData := some ⟨now, command, s.lastSendDataTimeout⟩ }.sendCommand now command
  else s

def receiveAck (now : Int) (s : Stream) (data : List UInt8) : Stream :=
  if data.length < 4 then s
  else
    let serialNumber := (getUint32 data).1 &&& 0x7fffffff
    if serialNumber < s.send.sequenceNumber then s
    else if serialNumber = s.send.sequenceNumber then
      let s := { s with
        lastSendData := none
        send := { s.send with sequenceNumber := s.send.sequenceNumber + 1 } }
      -- releasing a lock that is not locked raises
      if s.sendLock then { s with sendLock := false }.notify .receivedAck else s
    else s.sendDisconnect now

def receiveNack (now : Int) (s : Stream) : Stream := s.sendDisconnect now

/-- For a version up to 1 the parameters are unpacked from two bytes, which raises. -/
def receiveConnectRequest (l : Library) (now : Int) (s : Stream) (data : List UInt8) : Stream :=
  if data.length < 1 then s
  else
    let requested := (getUint8 data).1
    if requested ≤ 1 then s
    else
      match l.parseFromString (data.drop 1) with
      | none => s
      | some configuration =>
        (s.connected now configuration).sendConnectResponse l now requested configuration

def receiveConnectResponse (l : Library) (now : Int) (s : Stream) (data : List UInt8) : Stream :=
  if data.length < 2 then s
  else
    let result := (getUint8 data).1
    let answered := (getUint8 (data.drop 1)).1
    if result ≠ 0 then s.notify .disconnected
    else if answered ≤ 1 then s
    else
      match l.parseFromString (data.drop 2) with
      | none => s
      | some configuration => s.connected now configuration

def receiveDisconnectRequest (s : Stream) : Stream := s.disconnect.notify .receivedDisconnect

def receiveData (now : Int) (s : Stream) (sequenceNumber : Nat) (data : List UInt8) : Stream :=
  if sequenceNumber < s.receive.sequenceNumber then s.sendAck now sequenceNumber
  else if sequenceNumber = s.receive.sequenceNumber then
    let s := (s.sendAck now s.receive.sequenceNumber).notify (.receivedData data)
    { s with receive := { s.receive with sequenceNumber := s.receive.sequenceNumber + 1 } }
  else s.sendNack now

def receiveCommand (l : Library) (now : Int) (s : Stream) (command : Nat) (data : List UInt8) :
    Stream :=
  if command = commandConnectRequest then s.receiveConnectRequest l now data
  else if command = commandConnectResponse then s.receiveConnectResponse l now data
  else if command = commandDisconnect then s.receiveDisconnectRequest
  else if command = commandKeepAlive then s.notify .receivedKeepAlive
  else if command = commandAck then s.receiveAck now data
  else if command = commandNack then s.receiveNack now
  else s

def touch (now : Int) (s : Stream) : Stream :=
  { s with receive := { s.receive with keepAlive := s.receive.keepAlive.update now } }

def receiveMessage (l : Library) (now : Int) (s : Stream) (data : List UInt8) : Stream :=
  let s := s.touch now
  if data.length < 4 then s
  else
    let (header, rest) := getUint32 data
    if header &&& headerTypeCommand ≠ 0 then s.receiveCommand l now (header &&& 0x7fffffff) rest
    else if s.state = .connected then s.receiveData now header rest
    else s

def checkSendData (now : Int) (s : Stream) : Stream :=
  match s.lastSendData with
  | none => s
  | some last =>
    if now > last.time + last.timeout then
      { s with lastSendData := some { last with timeout := 2 * last.timeout } }.sendCommand now
        last.command
    else s

def checkSendKeepAlive (now : Int) (s : Stream) : Stream :=
  if s.send.keepAlive.isTimeout now then s.sendKeepAlive now else s

def checkReceiveKeepAlive (now : Int) (s : Stream) : Stream :=
  if s.receive.keepAlive.isTimeout now then s.sendDisconnect now else s

def check (now : Int) (s : Stream) : Stream :=
  if s.state = .disconnected then s
  else ((s.checkSendData now).checkSendKeepAlive now).checkReceiveKeepAlive now

/-! ## In terms of the core -/

variable {l : Library} {now : Int} {s : Stream}

def core (s : Stream) : Core where
  sendNumber := s.send.sequenceNumber
  receiveNumber := s.receive.sequenceNumber
  semaphore := if s.sendLock then 0 else 1
  buffer := s.lastSendData.map (·.command)
  out := s.out
  events := s.events

@[simp] theorem sendNumber_core : s.core.sendNumber = s.send.sequenceNumber := rfl

@[simp] theorem receiveNumber_core : s.core.receiveNumber = s.receive.sequenceNumber := rfl

@[simp] theorem core_notify (event : Event) : (s.notify event).core = s.core.notify event := rfl

@[simp] theorem core_sendCommand (data : List UInt8) :
    (s.sendCommand now data).core = s.core.emit data := rfl

@[simp] theorem core_touch : (s.touch now).core = s.core := rfl

theorem core_sendData (hs : s.send.sequenceNumber < 2 ^ 32) (m : Message) :
    (s.sendData now m).core = s.core.send m := by
  simp only [sendData, if_pos hs]
  rfl

theorem core_receiveData (i : Nat) (hle : i ≤ s.receive.sequenceNumber) (m : Message) :
    (s.receiveData now i m).core = s.core.receiveData i m := by
  rw [receiveData, Core.receiveData, receiveNumber_core]
  by_cases hlt : i < s.receive.sequenceNumber
  · rw [if_pos hlt, if_pos hlt]
    rfl
  · obtain rfl : i = s.receive.sequenceNumber := by omega
    rw [if_neg hlt, if_pos rfl, if_neg hlt]
    rfl

theorem core_receiveAck {i : Nat} (hi : i < 2 ^ 31)
    (h : i < s.core.sendNumber ∨ i = s.core.sendNumber ∧ s.core.semaphore = 0) :
    (s.receiveAck now (leBytes 4 i)).core = s.core.receiveAck i := by
  have hlen : ¬ (leBytes 4 i).length < 4 := by simp
  rw [receiveAck, if_neg hlen, getAck hi, Core.receiveAck]
  rcases h with hlt | ⟨rfl, hsem⟩
  · rw [if_pos hlt]
    exact congrArg core (if_pos hlt)
  · have hlock : s.sendLock = true := by
      by_contra hno
      simp [core, hno] at hsem
    simp [core, hlock, notify, Core.notify]

theorem core_disconnect (h : s.core.Reset) : Chatter IsControl s.core s.disconnect.core := by
  unfold disconnect
  split
  · exact .refl
  · obtain ⟨hs, hr, hsem, hbuf⟩ := h
    have hcore : { s with
        sendLock := false
        receive := ⟨0, s.receive.keepAlive.reset⟩
        send := ⟨0, s.send.keepAlive.reset⟩
        lastSendData := none
        state := .disconnected }.core = s.core := by
      simp only [core] at hs hr hsem hbuf
      simp [core, hs, hr, hsem, hbuf]
    rw [core_notify, hcore]
    exact Chatter.refl.notify ⟨rfl, by decide, fun he => by cases he⟩

theorem chatter_connected (h : s.core.Reset) (configuration : Configuration) :
    Chatter IsControl s.core (s.connected now configuration).core := by
  have hdisconnect := core_disconnect h
  have hbuf : s.disconnect.lastSendData = none := by
    simpa [core] using (hdisconnect.reset h).buffer
  have hcore : (s.connected now configuration).core =
      (s.disconnect.core.notify .connected).notify .receivedConnect := by
    simp [connected, core, notify, Core.notify, hbuf]
  rw [hcore]
  exact (hdisconnect.notify ⟨rfl, by decide, fun he => by cases he⟩).notify
    ⟨rfl, by decide, fun he => by cases he⟩

theorem chatter_sendDisconnect (h : s.core.Reset) :
    Chatter IsControl s.core (s.sendDisconnect now).core := by
  have hsend : Chatter IsControl s.core (s.sendCommand now (commandHeader commandDisconnect)).core :=
    Chatter.refl.emit_header (by simp [IsControl])
  exact (hsend.trans (core_disconnect (hsend.reset h))).notify
    ⟨rfl, by decide, fun _ => by simp [IsControl]⟩

theorem chatter_receiveConnectRequest (h : s.core.Reset) (data : List UInt8) :
    Chatter IsControl s.core (s.receiveConnectRequest l now data).core := by
  simp only [receiveConnectRequest]
  split
  · exact .refl
  split
  · exact .refl
  split
  · exact .refl
  · exact (chatter_connected h _).emit (by simp [IsControl]) _

theorem chatter_receiveConnectResponse (h : s.core.Reset) (data : List UInt8) :
    Chatter IsControl s.core (s.receiveConnectResponse l now data).core := by
  simp only [receiveConnectResponse]
  split
  · exact .refl
  split
  · exact Chatter.refl.notify ⟨rfl, by decide, fun he => by cases he⟩
  split
  · exact .refl
  split
  · exact .refl
  · exact chatter_connected h _

theorem receiveMessage_data {i : Nat} (hi : i < 2 ^ 31) (m : Message) :
    s.receiveMessage l now (dataPacket i m) =
      if s.state = .connected then (s.touch now).receiveData now i m else s.touch now := by
  have hlen : ¬ (dataPacket i m).length < 4 := by simp [dataPacket]
  simp only [receiveMessage, if_neg hlen]
  rw [dataPacket, getUint32_leBytes (by omega)]
  simp only [header_of_sequenceNumber hi, ne_eq, not_true, if_false]
  rfl

theorem receiveMessage_command {command : Nat} (hc : command < 2 ^ 31) (rest : List UInt8) :
    s.receiveMessage l now (commandHeader command ++ rest) =
      (s.touch now).receiveCommand l now command rest := by
  obtain ⟨hbit, hlow⟩ := header_of_command hc
  have hlen : ¬ (commandHeader command ++ rest).length < 4 := by simp [commandHeader]
  simp only [receiveMessage, if_neg hlen]
  rw [commandHeader, getUint32_leBytes (by rw [headerTypeCommand]; omega)]
  simp only [if_pos hbit, hlow]

theorem chatter_control (h : s.core.Reset) {command : Nat} (hc : IsControl command)
    (rest : List UInt8) :
    Chatter IsControl s.core (s.receiveMessage l now (commandHeader command ++ rest)).core := by
  rcases hc with rfl | rfl | rfl | rfl | rfl
  all_goals rw [receiveMessage_command (by decide)]
  · exact chatter_receiveConnectRequest (s := s.touch now) h rest
  · exact chatter_receiveConnectResponse (s := s.touch now) h rest
  · show Chatter IsControl s.core ((s.touch now).disconnect.core.notify .receivedDisconnect)
    exact (core_disconnect (s := s.touch now) h).notify ⟨rfl, by decide, fun he => by cases he⟩
  · show Chatter IsControl s.core (s.core.notify .receivedKeepAlive)
    exact Chatter.refl.notify ⟨rfl, by decide, fun he => by cases he⟩
  · exact chatter_sendDisconnect (s := s.touch now) h

theorem core_checkSendData : (s.checkSendData now).core = s.core ∨
    ∃ bytes ∈ s.core.buffer, (s.checkSendData now).core = s.core.emit bytes := by
  unfold checkSendData
  split
  · exact .inl rfl
  · rename_i last hlast
    split
    · have hbuf : s.core.buffer = some last.command := by simp [core, hlast]
      refine .inr ⟨last.command, hbuf, ?_⟩
      rw [core_sendCommand, show s.core = { s.core with buffer := some last.command } by rw [← hbuf]]
      rfl
    · exact .inl rfl

theorem receive_checkSendData : (s.checkSendData now).receive = s.receive := by
  unfold checkSendData
  split
  · rfl
  · split <;> rfl

theorem chatter_checkSendKeepAlive {K : Nat → Prop} (hK : K commandKeepAlive) :
    Chatter K s.core (s.checkSendKeepAlive now).core := by
  unfold checkSendKeepAlive
  split
  · exact Chatter.refl.emit_header hK
  · exact .refl

theorem receive_checkSendKeepAlive : (s.checkSendKeepAlive now).receive = s.receive := by
  unfold checkSendKeepAlive
  split <;> rfl

theorem chatter_checkReceiveKeepAlive (h : s.core.Reset) :
    Chatter IsControl s.core (s.checkReceiveKeepAlive now).core := by
  unfold checkReceiveKeepAlive
  split
  · exact chatter_sendDisconnect h
  · exact .refl

def timesOut (now : Int) (s : Stream) : Bool :=
  s.state = .connected && s.receive.keepAlive.isTimeout now

theorem chatter_check (ht : s.timesOut now = false) : ∃ c,
    (c = s.core ∨ ∃ bytes ∈ s.core.buffer, c = s.core.emit bytes) ∧
      Chatter (· = commandKeepAlive) c (s.check now).core := by
  unfold check
  split
  · exact ⟨s.core, .inl rfl, .refl⟩
  · rename_i hstate
    have hconnected : s.state = .connected := by cases hs : s.state <;> simp_all
    have hno : s.receive.keepAlive.isTimeout now = false := by simpa [timesOut, hconnected] using ht
    refine ⟨(s.checkSendData now).core, core_checkSendData, ?_⟩
    unfold checkReceiveKeepAlive
    simp only [receive_checkSendKeepAlive, receive_checkSendData, hno, Bool.false_eq_true, if_false]
    exact chatter_checkSendKeepAlive rfl

theorem chatter_check_of_reset (h : s.core.Reset) : Chatter IsControl s.core (s.check now).core := by
  unfold check
  split
  · exact .refl
  · have hdata : (s.checkSendData now).core = s.core := by
      have hsend : (s.checkSendData now).core = s.core ∨
          ∃ bytes ∈ s.core.buffer, (s.checkSendData now).core = s.core.emit bytes :=
        core_checkSendData
      rcases hsend with heq | ⟨bytes, hbytes, -⟩
      · exact heq
      · rw [h.buffer] at hbytes; cases hbytes
    have hkeep : Chatter IsControl s.core ((s.checkSendData now).checkSendKeepAlive now).core :=
      hdata ▸ chatter_checkSendKeepAlive (by simp [IsControl])
    exact hkeep.trans (chatter_checkReceiveKeepAlive (hkeep.reset h))

def api (l : Library) : Api Stream where
  core := core
  connected := fun s => s.state = .connected
  waitForSendAck := waitForSendAck
  accepts := fun _ => true
  sendData := fun now s m => s.sendData now m
  receivePacket := fun now s bytes => s.receiveMessage l now bytes
  check := fun now s => s.check now
  timesOut := timesOut

theorem api_conforms (l : Library) : (api l).Conforms where
  wait_true := fun {s} h => by
    cases hlock : s.sendLock <;> simp_all [api, waitForSendAck, core, Core.take]
  wait_false := fun {s} h => by
    cases hlock : s.sendLock <;> simp_all [api, waitForSendAck]
  send := fun {s} now m hs => .inl (core_sendData (Nat.lt_trans hs (by decide)) m)
  data := fun {s} now i m hi hle => by
    simp only [api, receiveMessage_data hi]
    by_cases hstate : s.state = .connected
    · simpa [hstate] using core_receiveData (s := s.touch now) i hle m
    · simp [hstate]
  gap := fun {s} now i m hi hlt => by
    simp only [api, receiveMessage_data hi]
    split
    · have hlt' : ¬ i < (s.touch now).receive.sequenceNumber := Nat.lt_asymm hlt
      have hne : ¬ i = (s.touch now).receive.sequenceNumber := Nat.ne_of_gt hlt
      rw [receiveData, if_neg hlt', if_neg hne]
      exact Chatter.refl.emit (by simp [IsControl]) _
    · exact .refl
  ack := fun {s} now i hi h => by
    simp only [api]
    rw [ackPacket, receiveMessage_command (by decide)]
    exact core_receiveAck (s := s.touch now) hi h
  ack_ahead := fun {s} now i hi hlt h => by
    simp only [api]
    rw [ackPacket, receiveMessage_command (by decide)]
    show Chatter _ _ ((s.touch now).receiveAck now (leBytes 4 i)).core
    have hlen : ¬ (leBytes 4 i).length < 4 := by simp
    have hlt' : ¬ i < (s.touch now).send.sequenceNumber := Nat.lt_asymm hlt
    have hne : ¬ i = (s.touch now).send.sequenceNumber := Nat.ne_of_gt hlt
    rw [receiveAck, if_neg hlen, getAck hi]
    simp only [if_neg hlt', if_neg hne]
    exact chatter_sendDisconnect (s := s.touch now) h
  keepAlive := fun {s} now rest => by
    simp only [api, receiveMessage_command (show commandKeepAlive < 2 ^ 31 by decide)]
    rfl
  control := fun _ _ rest hc h => chatter_control h hc rest
  check := fun _ ht => chatter_check ht
  check_timesOut := fun _ h => chatter_check_of_reset h

end Stream
end Python
end Rpc
end Firefly
