import Firefly.Rpc.Endpoint

/-!
# Firefly.Rpc.Device

The stream of the device conforms: its calls are operations of its core.
-/

namespace Firefly
namespace Rpc
namespace Stream

open Bytes

variable {e : Platform} {now : Int} {s : Stream}

def core (s : Stream) : Core where
  sendNumber := s.send.sequenceNumber
  receiveNumber := s.receive.sequenceNumber
  semaphore := s.sendSemaphore
  buffer :=
    if s.lastSendData.time > 0 then some (s.lastSendData.command.take s.lastSendData.length) else none
  out := s.out
  events := s.events

@[simp] theorem sendNumber_core : s.core.sendNumber = s.send.sequenceNumber := rfl

@[simp] theorem receiveNumber_core : s.core.receiveNumber = s.receive.sequenceNumber := rfl

@[simp] theorem semaphore_core : s.core.semaphore = s.sendSemaphore := rfl

@[simp] theorem core_assert (c : Bool) : (s.assert c).core = s.core := by
  unfold assert; split <;> rfl

@[simp] theorem receive_assert (c : Bool) : (s.assert c).receive = s.receive := by
  unfold assert; split <;> rfl

@[simp] theorem core_notify (event : Event) : (s.notify event).core = s.core.notify event := rfl

@[simp] theorem core_sendCommand (data : List UInt8) :
    (s.sendCommand now data).core = s.core.emit data := by
  rw [← core_assert (s := s) (decide (data.length ≥ 4))]
  rfl

@[simp] theorem receive_sendCommand (data : List UInt8) :
    (s.sendCommand now data).receive = s.receive := by
  rw [← receive_assert (s := s) (decide (data.length ≥ 4))]
  rfl

/-! ## Data -/

/-- A clock at 0 leaves the message without a retransmission. -/
theorem core_sendData (m : Message) : (s.sendData now m).core = s.core.send m ∨
    (s.sendData now m).core = (s.core.send m).forget := by
  have hcommand : (leBytes 4 s.send.sequenceNumber ++ m).take (4 + m.length) =
      dataPacket s.send.sequenceNumber m :=
    List.take_of_length_le (by simp)
  by_cases hnow : now > 0
  · left
    simp [sendData, core, assert, sendCommand, Core.send, Core.emit, hnow]
    grind
  · right
    simp [sendData, core, assert, sendCommand, Core.send, Core.emit, Core.forget, hnow]
    grind

theorem core_receiveData {i : Nat} (hi : i < 2 ^ 31) (hle : i ≤ s.receive.sequenceNumber)
    (m : Message) : (s.receiveData now i m).core = s.core.receiveData i m := by
  rw [receiveData, Core.receiveData, receiveNumber_core]
  by_cases hlt : i < s.receive.sequenceNumber
  · rw [if_pos hlt, if_pos hlt]
    exact core_sendCommand _
  · obtain rfl : i = s.receive.sequenceNumber := by omega
    have hmod : (s.receive.sequenceNumber + 1) % 2 ^ 32 = s.receive.sequenceNumber + 1 := by omega
    have hreceive : (s.sendAck now s.receive.sequenceNumber).receive = s.receive :=
      receive_sendCommand _
    have hcore : (s.sendAck now s.receive.sequenceNumber).core =
        s.core.emit (ackPacket s.receive.sequenceNumber) := core_sendCommand _
    rw [if_neg hlt, if_pos rfl, if_neg hlt, ← hcore]
    simp only [core, notify, Core.notify, hreceive, hmod]

theorem core_receiveAck {i : Nat} (hi : i < 2 ^ 31) (hle : i ≤ s.send.sequenceNumber) :
    (s.receiveAck now (leBytes 4 i)).core = s.core.receiveAck i := by
  rw [receiveAck, getAck hi, Core.receiveAck, sendNumber_core]
  by_cases hlt : i < s.send.sequenceNumber
  · simp only [if_pos hlt]
  · obtain rfl : i = s.send.sequenceNumber := by omega
    have hmod : (s.send.sequenceNumber + 1) % 2 ^ 32 = s.send.sequenceNumber + 1 := by omega
    simp only [if_neg hlt, if_true, hmod]
    unfold assert
    split <;> simp [core, notify, semGive, Core.notify, LastSendData.clear]

/-! ## Disconnects -/

theorem core_disconnect (h : s.core.Reset) : s.disconnect.core = s.core := by
  obtain ⟨hs, hr, hsem, hbuf⟩ := h
  have hbuf' : (if s.lastSendData.time > 0 then
      some (s.lastSendData.command.take s.lastSendData.length) else none) = none := hbuf
  simp only [sendNumber_core] at hs
  simp only [receiveNumber_core] at hr
  simp only [semaphore_core] at hsem
  simp [disconnect, assert, semGive, core, LastSendData.clear, hs, hr, hsem, hbuf']

@[simp] theorem out_disconnect : s.disconnect.core.out = s.out := by
  simp [disconnect, assert, semGive, core]

@[simp] theorem events_disconnect : s.disconnect.core.events = s.events := by
  simp [disconnect, assert, semGive, core]

theorem reset_disconnect : s.disconnect.core.Reset := by
  constructor <;> simp [disconnect, assert, semGive, core, LastSendData.clear]

theorem chatter_sendDisconnect (h : s.core.Reset) :
    Chatter IsControl s.core (s.sendDisconnect now).core := by
  have hcore : (s.sendCommand now (commandHeader commandDisconnect)).core =
      s.core.emit (commandHeader commandDisconnect) := core_sendCommand _
  have hreset : (s.sendCommand now (commandHeader commandDisconnect)).core.Reset := by
    rw [hcore]; exact ⟨h.1, h.2, h.3, h.4⟩
  rw [sendDisconnect, core_notify, core_disconnect hreset, hcore]
  exact (Chatter.refl.emit_header (by simp [IsControl])).notify
    ⟨rfl, by decide, fun _ => by simp [IsControl]⟩

theorem chatter_disconnect_sendDisconnect (h : s.core.Reset) :
    Chatter IsControl s.core (s.disconnect.sendDisconnect now).core := by
  have hcore := core_disconnect h
  have hsend : Chatter IsControl s.disconnect.core (s.disconnect.sendDisconnect now).core :=
    chatter_sendDisconnect (hcore ▸ h)
  rwa [hcore] at hsend

/-- A connect request is taken in any state. -/
theorem chatter_receiveConnectRequest (data : List UInt8) :
    Chatter IsControl s.disconnect.core (s.receiveConnectRequest e now data).core := by
  rcases hversion : getUint8 data with ⟨version, rest⟩
  simp only [receiveConnectRequest, hversion]
  generalize getConnectionConfiguration e version rest = configuration
  rw [core_notify, sendConnectResponse, core_sendCommand, List.append_assoc, List.append_assoc]
  show Chatter IsControl s.disconnect.core ((s.disconnect.core.emit _).notify .receivedConnect)
  exact (Chatter.refl.emit (by simp [IsControl]) _).notify ⟨rfl, by decide, fun he => by cases he⟩

/-! ## Packets -/

/-- What every packet does first. -/
def touch (now : Int) (s : Stream) : Stream :=
  { s with receive := { s.receive with keepAlive := s.receive.keepAlive.update now } }

@[simp] theorem core_touch : (s.touch now).core = s.core := rfl

theorem receivePacket_data {i : Nat} (hi : i < 2 ^ 31) (m : Message) :
    s.receivePacket e now (dataPacket i m) =
      if s.state = .connected then (s.touch now).receiveData now i m else s.touch now := by
  have hlen : decide ((dataPacket i m).length ≥ 4) = true := by simp [dataPacket]
  simp only [receivePacket, hlen, assert, if_true]
  rw [dataPacket, getUint32_leBytes (by omega)]
  simp only [header_of_sequenceNumber hi, ne_eq, not_true, if_false]
  rfl

theorem receivePacket_command {command : Nat} (hc : command < 2 ^ 31) (rest : List UInt8) :
    s.receivePacket e now (commandHeader command ++ rest) =
      (s.touch now).receiveCommand e now command rest := by
  obtain ⟨hbit, hlow⟩ := header_of_command hc
  have hlen : decide ((commandHeader command ++ rest).length ≥ 4) = true := by simp [commandHeader]
  simp only [receivePacket, hlen, assert, if_true]
  rw [commandHeader, getUint32_leBytes (by rw [headerTypeCommand]; omega)]
  simp only [if_pos hbit, hlow]
  rfl

theorem chatter_control (h : s.core.Reset) {command : Nat} (hc : IsControl command)
    (rest : List UInt8) :
    Chatter IsControl s.core (s.receivePacket e now (commandHeader command ++ rest)).core := by
  rcases hc with rfl | rfl | rfl | rfl | rfl
  all_goals rw [receivePacket_command (by decide)]
  · have hrequest : Chatter IsControl (s.touch now).disconnect.core
        ((s.touch now).receiveConnectRequest e now rest).core := chatter_receiveConnectRequest rest
    rwa [core_disconnect (s := s.touch now) h] at hrequest
  · exact core_assert (s := s.touch now) false ▸ Chatter.refl
  · show Chatter _ _ (((s.touch now).disconnect).notify .receivedDisconnect).core
    rw [core_notify, core_disconnect (s := s.touch now) h]
    exact Chatter.refl.notify ⟨rfl, by decide, fun he => by cases he⟩
  · show Chatter IsControl s.core (s.core.notify .receivedKeepAlive)
    exact Chatter.refl.notify ⟨rfl, by decide, fun he => by cases he⟩
  · exact chatter_disconnect_sendDisconnect (s := s.touch now) h

/-! ## Checks -/

theorem core_checkSendData : (s.checkSendData e now).core = s.core ∨
    ∃ bytes ∈ s.core.buffer, (s.checkSendData e now).core = s.core.emit bytes := by
  unfold checkSendData
  split
  · rename_i hdue
    refine .inr ⟨s.lastSendData.command.take s.lastSendData.length, ?_, core_sendCommand _⟩
    simp [core, hdue.1]
  · exact .inl rfl

theorem receive_checkSendData : (s.checkSendData e now).receive = s.receive := by
  unfold checkSendData
  split
  · exact receive_sendCommand _
  · rfl

theorem chatter_checkSendKeepAlive {K : Nat → Prop} (hK : K commandKeepAlive) :
    Chatter K s.core (s.checkSendKeepAlive now).core := by
  unfold checkSendKeepAlive
  extract_lets s₁
  have hs₁ : s₁.core = s.core := core_assert _
  split
  · rw [sendKeepAlive, core_sendCommand, ← hs₁]
    exact Chatter.refl.emit_header hK
  · rw [hs₁]; exact .refl

theorem receive_checkSendKeepAlive : (s.checkSendKeepAlive now).receive = s.receive := by
  unfold checkSendKeepAlive
  extract_lets s₁
  have hs₁ : s₁.receive = s.receive := receive_assert _
  split
  · exact (receive_sendCommand _).trans hs₁
  · exact hs₁

theorem core_receiveKeepAliveDisconnectCount (n : Nat) :
    { s with receiveKeepAliveDisconnectCount := n }.core = s.core := rfl

theorem chatter_checkReceiveKeepAlive {c : Core} (hc : c.Reset) (h : Chatter IsControl c s.core) :
    Chatter IsControl c (s.checkReceiveKeepAlive now).core := by
  unfold checkReceiveKeepAlive
  extract_lets s₁
  have hs₁ : s₁.core = s.core := core_assert _
  split
  · have hs₂ := core_receiveKeepAliveDisconnectCount (s := s₁) (s₁.receiveKeepAliveDisconnectCount + 1)
    have hreset := h.reset hc
    rw [← hs₁, ← hs₂] at h hreset
    exact h.trans (chatter_sendDisconnect hreset)
  · rwa [hs₁]

/-- The check finds that the other end was not heard from. -/
def timesOut (now : Int) (s : Stream) : Bool :=
  s.state = .connected && s.receive.keepAlive.isTimeout now

theorem chatter_check (ht : s.timesOut now = false) : ∃ c,
    (c = s.core ∨ ∃ bytes ∈ s.core.buffer, c = s.core.emit bytes) ∧
      Chatter (· = commandKeepAlive) c (s.check e now).core := by
  unfold check
  split
  · exact ⟨s.core, .inl rfl, .refl⟩
  · rename_i hstate
    have hconnected : s.state = .connected := by cases hs : s.state <;> simp_all
    have hno : s.receive.keepAlive.isTimeout now = false := by simpa [timesOut, hconnected] using ht
    refine ⟨(s.checkSendData e now).core, core_checkSendData, ?_⟩
    unfold checkReceiveKeepAlive
    simp only [receive_assert, receive_checkSendKeepAlive, receive_checkSendData, hno,
      Bool.false_eq_true, if_false, core_assert]
    exact chatter_checkSendKeepAlive rfl

theorem chatter_check_of_reset (h : s.core.Reset) :
    Chatter IsControl s.core (s.check e now).core := by
  unfold check
  split
  · exact .refl
  · have hdata : (s.checkSendData e now).core = s.core := by
      have hsend : (s.checkSendData e now).core = s.core ∨
          ∃ bytes ∈ s.core.buffer, (s.checkSendData e now).core = s.core.emit bytes :=
        core_checkSendData
      rcases hsend with heq | ⟨bytes, hbytes, -⟩
      · exact heq
      · rw [h.buffer] at hbytes; cases hbytes
    have hkeep : Chatter IsControl s.core ((s.checkSendData e now).checkSendKeepAlive now).core :=
      hdata ▸ chatter_checkSendKeepAlive (by simp [IsControl])
    exact chatter_checkReceiveKeepAlive h hkeep

def api (e : Platform) : Api Stream where
  core := core
  connected := fun s => s.state = .connected
  waitForSendAck := waitForSendAck
  accepts := fun m => 0 < m.length && m.length ≤ 1024
  sendData := fun now s m => s.sendData now m
  receivePacket := fun now s bytes => s.receivePacket e now bytes
  check := fun now s => s.check e now
  timesOut := timesOut

theorem api_conforms (e : Platform) : (api e).Conforms where
  wait_true := fun {s} h => by
    simp only [api, waitForSendAck] at h ⊢
    split at h
    · cases h
    · rename_i hsem
      exact ⟨hsem, by rw [if_neg hsem]; rfl⟩
  wait_false := fun {s} h => by
    simp only [api, waitForSendAck] at h ⊢
    split at h
    · rename_i hsem
      rw [if_pos hsem]
    · cases h
  send := fun _ m _ => core_sendData m
  data := fun {s} now i m hi hle => by
    simp only [api, receivePacket_data hi]
    by_cases hstate : s.state = .connected
    · simpa [hstate] using core_receiveData (s := s.touch now) hi hle m
    · simp [hstate]
  gap := fun {s} now i m hi hlt => by
    simp only [api, receivePacket_data hi]
    split
    · have hlt' : ¬ i < (s.touch now).receive.sequenceNumber := Nat.lt_asymm hlt
      have hne : ¬ i = (s.touch now).receive.sequenceNumber := Nat.ne_of_gt hlt
      rw [receiveData, if_neg hlt', if_neg hne, sendNack, core_sendCommand]
      exact Chatter.refl.emit (by simp [IsControl]) _
    · exact .refl
  ack := fun {s} now i hi h => by
    simp only [api]
    rw [ackPacket, receivePacket_command (by decide)]
    exact core_receiveAck (s := s.touch now) hi (by rcases h with h | ⟨h, -⟩; exacts [h.le, h.le])
  ack_ahead := fun {s} now i hi hlt h => by
    simp only [api]
    rw [ackPacket, receivePacket_command (by decide)]
    show Chatter _ _ ((s.touch now).receiveAck now (leBytes 4 i)).core
    have hlt' : ¬ i < (s.touch now).send.sequenceNumber := Nat.lt_asymm hlt
    have hne : ¬ i = (s.touch now).send.sequenceNumber := Nat.ne_of_gt hlt
    rw [receiveAck, getAck hi]
    simp only [if_neg hlt', if_neg hne]
    exact chatter_disconnect_sendDisconnect (s := s.touch now) h
  keepAlive := fun {s} now rest => by
    simp only [api, receivePacket_command (show commandKeepAlive < 2 ^ 31 by decide)]
    rfl
  control := fun _ _ rest hc h => chatter_control h hc rest
  check := fun _ ht => chatter_check ht
  check_timesOut := fun _ h => chatter_check_of_reset h

end Stream
end Rpc
end Firefly
