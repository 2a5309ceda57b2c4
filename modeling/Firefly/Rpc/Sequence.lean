import Firefly.Rpc.Acks
import Firefly.Rpc.Connection

/-!
# Firefly.Rpc.Sequence

The sequence numbers over a whole connection. An `Exchange` is a connection with the packets that
`fd_rpc_stream_send_data` made at each end. The counters have 32 bits, and the header has 31 for them: the
packet of message `2 ^ 31` is a command. Up to there every packet is taken for what it is, the next message
or an earlier one (`consistent_iff`).
-/

namespace Firefly
namespace Rpc

open Bytes StopAndWait

/-- A connection, and the packets that each end made of its messages. -/
structure Exchange where
  ends : Connection
  packets : Side → List (List UInt8)

namespace Exchange

def start (ends : Connection) : Exchange := ⟨ends, fun _ => []⟩

/-- After a call at end `x`, which is `a` then. -/
def next (c : Exchange) (x : Side) (call : Call) (a : End Stream) : Exchange :=
  ⟨Function.update c.ends x a,
    match call with
    | .sendData _ _ =>
      Function.update c.packets x (c.packets x ++ a.stream.out.drop (c.ends x).stream.out.length)
    | _ => c.packets⟩

theorem ends_next (c : Exchange) (x : Side) (call : Call) (a : End Stream) : (c.next x call a).ends x = a :=
  Function.update_self ..

theorem ends_next_of_ne (c : Exchange) {x y : Side} (h : y ≠ x) (call : Call) (a : End Stream) :
    (c.next x call a).ends y = c.ends y := Function.update_of_ne h ..

theorem packets_next (c : Exchange) (x : Side) (now : Int) (m : Message) (a : End Stream) :
    (c.next x (.sendData now m) a).packets x =
      c.packets x ++ a.stream.out.drop (c.ends x).stream.out.length :=
  Function.update_self ..

inductive Step (e : Platform) (c : Exchange) : Exchange → Prop where
  | call {x : Side} {call : Call} {a : End Stream} (h : (c.ends x).call (Stream.api e) call = some a)
      (hp : c.ends.Permits x call) : Step e c (c.next x call a)

end Exchange

/-- Whenever the packet of message `k` arrives: it is acknowledged as that, and the message is delivered if
it is the next one, and ignored if it is an earlier one. -/
def Classified (e : Platform) (s : Stream) (k : Nat) (m : Message) (bytes : List UInt8) : Prop :=
  k ≤ s.core.deliveries.length ∧ ∀ now,
    (s.receivePacket e now bytes).out = s.out ++ [ackPacket k] ∧
      (s.receivePacket e now bytes).core.deliveries =
        if k < s.core.deliveries.length then s.core.deliveries else s.core.deliveries ++ [m]

/-- The packets of end `x` have the command bit clear, and are classified as what they are. -/
structure Consistent (e : Platform) (c : Exchange) (x : Side) : Prop where
  clear : ∀ bytes ∈ c.packets x, (getUint32 bytes).1 &&& headerTypeCommand = 0
  classified : ∀ k bytes m, (c.packets x)[k]? = some bytes → (c.ends x).sent[k]? = some m →
    Classified e (c.ends x.other).stream k m bytes

/-! ## The state of the connection -/

namespace Stream

variable {e : Platform} {now : Int} {s : Stream}

theorem state_assert (b : Bool) : (s.assert b).state = s.state := by
  unfold assert
  split
  · rfl
  · rfl

theorem state_sendCommand (data : List UInt8) : (s.sendCommand now data).state = s.state :=
  state_assert (s := s) (decide (data.length ≥ 4))

theorem state_sendData (m : Message) : (s.sendData now m).state = s.state := by
  rw [sendData]
  dsimp only
  rw [state_sendCommand]
  dsimp only
  rw [state_assert, state_assert, state_assert]

theorem state_receiveData (i : Nat) (m : List UInt8) : (s.receiveData now i m).state = s.state := by
  rw [receiveData]
  split
  · exact state_sendCommand _
  · split
    · exact @state_sendCommand now s _
    · exact state_sendCommand _

theorem state_receiveAck {data : List UInt8} (h : (getUint32 data).1 &&& 0x7fffffff ≤ s.send.sequenceNumber) :
    (s.receiveAck now data).state = s.state := by
  rw [receiveAck]
  dsimp only
  split
  · rfl
  · rw [if_pos (by omega)]
    exact state_assert (s := { s with send := _ }) _

theorem state_checkSendData : (s.checkSendData e now).state = s.state := by
  rw [checkSendData]
  split
  · exact state_sendCommand _
  · rfl

theorem state_checkSendKeepAlive : (s.checkSendKeepAlive now).state = s.state := by
  rw [checkSendKeepAlive]
  split
  · exact (state_sendCommand _).trans (state_assert _)
  · exact state_assert _

theorem state_check (h : s.timesOut now = false) : (s.check e now).state = s.state := by
  unfold check
  split
  · rfl
  · rename_i hstate
    have hconnected : s.state = .connected := by
      cases hs : s.state with
      | disconnected => exact absurd hs hstate
      | connected => rfl
    have hno : s.receive.keepAlive.isTimeout now = false := by simpa [timesOut, hconnected] using h
    unfold checkReceiveKeepAlive
    simp only [receive_assert, receive_checkSendKeepAlive, receive_checkSendData, hno, Bool.false_eq_true,
      if_false]
    exact (state_assert _).trans (state_checkSendKeepAlive.trans state_checkSendData)

end Stream

/-- A call leaves a connected end connected. -/
theorem Linked.state_call {e : Platform} {c : Connection} {p : Side → Peer Message} (h : Linked e c p)
    {x : Side} {call : Call} {a : End Stream} (hcall : (c x).call (Stream.api e) call = some a)
    (hp : c.Permits x call) :
    a.stream.state = (c x).stream.state := by
  cases call with
  | waitForSendAck =>
    simp only [End.call, Stream.api, Stream.waitForSendAck] at hcall
    by_cases htaken : (c x).stream.sendSemaphore = 0
    · rw [if_pos htaken] at hcall
      cases hcall
      rfl
    · rw [if_neg htaken] at hcall
      cases hcall
      rfl
  | sendData now m =>
    simp only [End.call] at hcall
    split at hcall
    · cases hcall
      exact Stream.state_sendData m
    · cases hcall
  | receive now bytes =>
    cases hcall
    have hbytes : Emits (· = commandKeepAlive) (p x.other) bytes := (h x.other).stands.out bytes hp
    cases hbytes with
    | data hi hc =>
      show ((c x).stream.receivePacket e now _).state = _
      rw [Stream.receivePacket_data hi]
      split
      · exact Stream.state_receiveData _ _
      · rfl
    | @ack i hi hc =>
      have hle : i ≤ (c x).stream.send.sequenceNumber := by
        have hexpected := (h x).stands.ack_expected (h x).honest hc
        rcases hexpected with hlt | ⟨heq, -⟩
        · exact Nat.le_of_lt hlt
        · exact Nat.le_of_eq heq
      show ((c x).stream.receivePacket e now (ackPacket i)).state = _
      rw [ackPacket, Stream.receivePacket_command (by decide)]
      refine Stream.state_receiveAck ?_
      rw [getAck hi]
      exact hle
    | control hcommand rest =>
      subst hcommand
      show ((c x).stream.receivePacket e now _).state = _
      rw [Stream.receivePacket_command (by decide)]
      rfl
  | check now =>
    cases hcall
    exact Stream.state_check hp

/-! ## Runs -/

namespace Exchange

/-- The peers are where the ends are, the ends are connected, and packet `k` is that of message `k`. -/
structure Counted (e : Platform) (c : Exchange) : Prop where
  linked : ∃ p, Linked e c.ends p
  connected : ∀ x, (c.ends x).stream.state = .connected
  packets : ∀ x, c.packets x = (c.ends x).sent.mapIdx dataPacket

variable {e : Platform} {c c' : Exchange}

theorem counted_start {ends : Connection} (h : ∀ x, (ends x).Fresh) : Counted e (start ends) where
  linked := ⟨_, Linked.start h⟩
  connected x := (h x).state
  packets x := by
    show [] = (ends x).sent.mapIdx dataPacket
    rw [(h x).sent]
    rfl

/-- What is sent has the number of the message. -/
theorem Counted.packet (h : Counted e c) {x : Side} {now : Int} {m : Message} {a : End Stream}
    (hcall : (c.ends x).call (Stream.api e) (.sendData now m) = some a) :
    a.sent = (c.ends x).sent ++ [m] ∧
      a.stream.out.drop (c.ends x).stream.out.length = [dataPacket (c.ends x).sent.length m] := by
  obtain ⟨p, hlinked⟩ := h.linked
  simp only [End.call] at hcall
  split at hcall
  · rename_i hreserved
    cases hcall
    have hx := hlinked x
    have hres : (c.ends x).reserved - 1 + 1 = (c.ends x).reserved := by omega
    have hstands : Stands (· = commandKeepAlive) ((Stream.api e).core (c.ends x).stream) (p x)
        ((c.ends x).reserved - 1 + 1) := hres.symm ▸ hx.stands
    have hidle := hstands.idle_of_reserved hx.honest
    have hnumber : (c.ends x).stream.send.sequenceNumber = (c.ends x).sent.length := by
      rw [← hx.sent, hidle]
      exact hx.stands.send
    have hout : ((c.ends x).stream.sendData now m).out =
        (c.ends x).stream.out ++ [dataPacket (c.ends x).stream.send.sequenceNumber m] := by
      cases @Stream.core_sendData now (c.ends x).stream m with
      | inl hcore => exact congrArg Core.out hcore
      | inr hcore => exact congrArg Core.out hcore
    refine ⟨rfl, ?_⟩
    show ((c.ends x).stream.sendData now m).out.drop _ = _
    rw [hout, List.drop_left, hnumber]
  · cases hcall

theorem sent_of_call {a b : End Stream} {call : Call} (h : a.call (Stream.api e) call = some b)
    (hcall : ∀ now m, call ≠ .sendData now m) : b.sent = a.sent := by
  cases call with
  | waitForSendAck =>
    simp only [End.call] at h
    split at h
    · cases h
      rfl
    · cases h
      rfl
  | sendData now m => exact absurd rfl (hcall now m)
  | receive now bytes =>
    cases h
    rfl
  | check now =>
    cases h
    rfl

theorem Counted.step (h : Counted e c) {x : Side} {call : Call} {a : End Stream}
    (hcall : (c.ends x).call (Stream.api e) call = some a) (hp : c.ends.Permits x call)
    (hlen : (c.ends x).sent.length ≤ 2 ^ 31)
    (hsend : ∀ now m, call = .sendData now m → (c.ends x).sent.length < 2 ^ 31) :
    Counted e (c.next x call a) := by
  obtain ⟨p, hlinked⟩ := h.linked
  refine ⟨hlinked.call hcall hp hlen hsend, ?_, ?_⟩
  · intro y
    rcases Side.eq_or_eq_other x y with rfl | rfl
    · rw [ends_next, hlinked.state_call hcall hp]
      exact h.connected _
    · rw [ends_next_of_ne c (Side.other_ne _)]
      exact h.connected _
  · intro y
    have hother : (c.next x call a).packets x.other = c.packets x.other := by
      cases call with
      | sendData now m => exact Function.update_of_ne (Side.other_ne _) _ _
      | waitForSendAck => rfl
      | receive now bytes => rfl
      | check now => rfl
    have hself : (c.next x call a).packets x = a.sent.mapIdx dataPacket := by
      by_cases hdata : ∃ now m, call = .sendData now m
      · obtain ⟨now, m, rfl⟩ := hdata
        obtain ⟨hsent, hout⟩ := h.packet hcall
        rw [packets_next, hout, h.packets x, hsent, List.mapIdx_concat]
      · have hsame : (c.next x call a).packets x = c.packets x := by
          cases call with
          | sendData now m => exact absurd ⟨now, m, rfl⟩ hdata
          | waitForSendAck => rfl
          | receive now bytes => rfl
          | check now => rfl
        rw [hsame, h.packets x, sent_of_call hcall fun now m heq => hdata ⟨now, m, heq⟩]
    rcases Side.eq_or_eq_other x y with rfl | rfl
    · rw [ends_next, hself]
    · rw [ends_next_of_ne c (Side.other_ne _), hother]
      exact h.packets _

/-- As long as the numbers leave the command bit clear, every packet is classified as what it is. -/
theorem Counted.consistent (h : Counted e c) {x : Side} (hlen : (c.ends x).sent.length ≤ 2 ^ 31) :
    Consistent e c x := by
  obtain ⟨p, hlinked⟩ := h.linked
  have hpacket {k : Nat} {bytes : List UInt8} (hk : (c.packets x)[k]? = some bytes) :
      k < 2 ^ 31 ∧ ∃ m, (c.ends x).sent[k]? = some m ∧ bytes = dataPacket k m := by
    rw [h.packets x, List.getElem?_mapIdx, Option.map_eq_some_iff] at hk
    obtain ⟨m, hm, rfl⟩ := hk
    have hlt := (List.getElem?_eq_some_iff.mp hm).1
    exact ⟨by omega, m, hm, rfl⟩
  constructor
  · intro bytes hbytes
    obtain ⟨k, hk⟩ := List.getElem?_of_mem hbytes
    obtain ⟨hlt, m, -, rfl⟩ := hpacket hk
    rw [dataPacket, getUint32_leBytes (by omega)]
    exact header_of_sequenceNumber hlt
  · intro k bytes m hk hm
    obtain ⟨hlt, m', hm', rfl⟩ := hpacket hk
    obtain rfl : m = m' := Option.some.inj (hm.symm.trans hm')
    have hy := hlinked x.other
    rw [Side.other_other] at hy
    have hcarries : Carries (p x) (.data k m) := by
      show (p x).sent[k]? = some m
      rw [(hlinked x).sent, hm]
    have hdelivered : (c.ends x.other).stream.core.deliveries = (p x.other).delivered := hy.stands.deliveries
    have hle := hy.honest_other.data_le hcarries
    have hreceive : (c.ends x.other).stream.core.receiveNumber =
        (c.ends x.other).stream.core.deliveries.length := by
      rw [hdelivered]
      exact hy.stands.receive
    rw [← hdelivered] at hle
    refine ⟨hle, fun now => ?_⟩
    have hconnected : (Stream.api e).connected (c.ends x.other).stream = true :=
      decide_eq_true (h.connected x.other)
    have hcore := (Stream.api_conforms e).data (s := (c.ends x.other).stream) now m hlt
      (Nat.le_trans hle (Nat.le_of_eq hreceive.symm))
    rw [if_pos hconnected] at hcore
    have hreceived : ((c.ends x.other).stream.receivePacket e now (dataPacket k m)).core =
        (c.ends x.other).stream.core.receiveData k m := hcore
    rw [Core.receiveData, hreceive] at hreceived
    by_cases hearlier : k < (c.ends x.other).stream.core.deliveries.length
    · rw [if_pos hearlier] at hreceived ⊢
      exact ⟨congrArg Core.out hreceived, (congrArg Core.deliveries hreceived).trans rfl⟩
    · rw [if_neg hearlier] at hreceived ⊢
      refine ⟨congrArg Core.out hreceived, (congrArg Core.deliveries hreceived).trans ?_⟩
      simp [Core.deliveries, Core.notify, Core.emit, Event.data?]

/-- A number of 32 bits that has the bit of a command. -/
theorem header_of_wrapped (m : Message) : (getUint32 (dataPacket (2 ^ 31) m)).1 &&& headerTypeCommand ≠ 0 := by
  rw [dataPacket, getUint32_leBytes (by decide)]
  show 2 ^ 31 &&& headerTypeCommand ≠ 0
  decide

theorem mem_packets_next {y : Side} {bytes : List UInt8} (x : Side) (call : Call) (a : End Stream)
    (h : bytes ∈ c.packets y) : bytes ∈ (c.next x call a).packets y := by
  cases call with
  | sendData now m =>
    show bytes ∈ Function.update c.packets x _ y
    rcases Side.eq_or_eq_other x y with rfl | rfl
    · rw [Function.update_self]
      exact List.mem_append_left _ h
    · rwa [Function.update_of_ne (Side.other_ne _)]
  | waitForSendAck => exact h
  | receive now bytes => exact h
  | check now => exact h

/-- The connection is counted, or it has made a packet that is a command. -/
theorem run_cases {ends : Connection} (h : ∀ x, (ends x).Fresh)
    (hrun : Relation.ReflTransGen (Step e) (start ends) c) :
    (Counted e c ∧ ∀ x, (c.ends x).sent.length ≤ 2 ^ 31) ∨
      ∃ x, 2 ^ 31 < (c.ends x).sent.length ∧
        ∃ bytes ∈ c.packets x, (getUint32 bytes).1 &&& headerTypeCommand ≠ 0 := by
  induction hrun with
  | refl =>
    refine Or.inl ⟨counted_start h, fun x => ?_⟩
    show (ends x).sent.length ≤ 2 ^ 31
    rw [(h x).sent]
    exact Nat.zero_le _
  | tail _ hstep ih =>
    obtain @⟨x, call, a, hcall, hp⟩ := hstep
    rename_i c _
    rcases ih with ⟨hcounted, hlen⟩ | ⟨y, hlong, bytes, hmem, hcommand⟩
    · by_cases hlast : ∃ now m, call = .sendData now m ∧ (c.ends x).sent.length = 2 ^ 31
      · obtain ⟨now, m, rfl, hfull⟩ := hlast
        obtain ⟨hsent, hout⟩ := hcounted.packet hcall
        refine Or.inr ⟨x, ?_, dataPacket (2 ^ 31) m, ?_, header_of_wrapped m⟩
        · rw [ends_next, hsent, List.length_append, hfull]
          exact Nat.lt_succ_self _
        · rw [packets_next, hout, hfull]
          exact List.mem_append_right _ (List.mem_singleton_self _)
      · have hsend : ∀ now m, call = .sendData now m → (c.ends x).sent.length < 2 ^ 31 := by
          intro now m heq
          exact Nat.lt_of_le_of_ne (hlen x) fun hfull => hlast ⟨now, m, heq, hfull⟩
        refine Or.inl ⟨hcounted.step hcall hp (hlen x) hsend, fun y => ?_⟩
        rcases Side.eq_or_eq_other x y with rfl | rfl
        · rw [ends_next]
          by_cases hdata : ∃ now m, call = .sendData now m
          · obtain ⟨now, m, rfl⟩ := hdata
            have hlt := hsend now m rfl
            rw [(hcounted.packet hcall).1, List.length_append, List.length_singleton]
            exact hlt
          · rw [sent_of_call hcall fun now m heq => hdata ⟨now, m, heq⟩]
            exact hlen _
        · rw [ends_next_of_ne c (Side.other_ne _)]
          exact hlen _
    · refine Or.inr ⟨y, Nat.lt_of_lt_of_le hlong ?_, bytes, mem_packets_next x call a hmem, hcommand⟩
      rcases Side.eq_or_eq_other x y with rfl | rfl
      · rw [ends_next]
        exact End.sent_le_of_call _ hcall
      · rw [ends_next_of_ne c (Side.other_ne _)]

/-- Every packet of a connection is classified as what it is, in every state that is reached, if and only if
at most `2 ^ 31` messages are sent each way. -/
theorem consistent_iff (e : Platform) {ends : Connection} (h : ∀ x, (ends x).Fresh)
    (hrun : Relation.ReflTransGen (Step e) (start ends) c) :
    (∀ x, Consistent e c x) ↔ ∀ x, (c.ends x).sent.length ≤ 2 ^ 31 := by
  rcases run_cases h hrun with ⟨hcounted, hlen⟩ | ⟨x, hlong, bytes, hmem, hcommand⟩
  · exact ⟨fun _ => hlen, fun _ x => hcounted.consistent (hlen x)⟩
  · constructor
    · intro hconsistent
      exact absurd ((hconsistent x).clear bytes hmem) hcommand
    · intro hlen
      exact absurd (hlen x) (Nat.not_le.mpr hlong)

/-! ## A connection that goes on -/

/-- The left end sent `n` messages, and all were acknowledged. -/
structure Quiet (e : Platform) (n : Nat) (c : Exchange) : Prop where
  counted : Counted e c
  sent : (c.ends .left).sent.length = n
  semaphore : (c.ends .left).stream.sendSemaphore = 1
  other : (c.ends .right).sent = []

theorem Quiet.number {n : Nat} (h : Quiet e n c) : (c.ends .left).stream.send.sequenceNumber = n := by
  obtain ⟨p, hlinked⟩ := h.counted.linked
  have hx := hlinked .left
  have hnumber : (c.ends .left).stream.send.sequenceNumber = (p .left).acked := hx.stands.send
  have htoken : (c.ends .left).stream.sendSemaphore + (c.ends .left).reserved + (p .left).sent.length =
      (p .left).acked + 1 := hx.stands.token
  have hacked := hx.honest.acked_le
  have hdelivered := hx.honest.delivered_le
  have hsent := h.sent
  have hsemaphore := h.semaphore
  rw [← hx.sent] at hsent
  omega

/-- The left end waits for its turn. -/
theorem Quiet.waits {n : Nat} (h : Quiet e n c) (hn : n ≤ 2 ^ 31) : ∃ c', Step e c c' ∧ Counted e c' ∧
    c'.ends .left = { c.ends .left with
      stream := { (c.ends .left).stream with sendSemaphore := 0 }
      reserved := (c.ends .left).reserved + 1 } ∧
    c'.ends .right = c.ends .right := by
  have hsent := h.sent
  have hwait : (c.ends .left).call (Stream.api e) .waitForSendAck = some { c.ends .left with
      stream := { (c.ends .left).stream with sendSemaphore := 0 }
      reserved := (c.ends .left).reserved + 1 } := by
    simp only [End.call, Stream.api, Stream.waitForSendAck, h.semaphore]
    rfl
  exact ⟨_, .call hwait trivial, h.counted.step hwait trivial (by omega) fun now m heq => (by cases heq),
    ends_next .., ends_next_of_ne c (by decide) _ _⟩

/-- An end that holds its turn can send. -/
theorem call_sendData {a : End Stream} (h : 0 < a.reserved) (now : Int) :
    a.call (Stream.api e) (.sendData now [7]) =
      some ⟨a.stream.sendData now [7], a.sent ++ [[7]], a.reserved - 1⟩ := by
  have haccepts : 0 < a.reserved ∧ (Stream.api e).accepts [7] = true := ⟨h, rfl⟩
  simp only [End.call]
  rw [if_pos haccepts]
  rfl

/-- The left end waits for its turn and sends. -/
theorem Quiet.sends {n : Nat} (h : Quiet e n c) (hn : n < 2 ^ 31) :
    ∃ c', Relation.ReflTransGen (Step e) c c' ∧ Counted e c' ∧
      (∃ ms, (c'.ends .left).sent = ms ++ [[7]] ∧ ms.length = n) ∧
      dataPacket n [7] ∈ (c'.ends .left).stream.out ∧ (c'.ends .left).stream.send.sequenceNumber = n ∧
      (c'.ends .right).sent = [] := by
  obtain ⟨c₁, hstep, hcounted, hleft, hright⟩ := h.waits (Nat.le_of_lt hn)
  have hsend := call_sendData (e := e) (a := c₁.ends .left) (by rw [hleft]; exact Nat.succ_pos _) 1
  have hsent : (c₁.ends .left).sent.length = n := by
    rw [hleft]
    exact h.sent
  have hnumber : (c₁.ends .left).stream.send.sequenceNumber = n := by
    rw [hleft]
    exact h.number
  obtain ⟨-, hout⟩ := hcounted.packet hsend
  refine ⟨_, (Relation.ReflTransGen.single hstep).tail (.call hsend trivial),
    hcounted.step hsend trivial (by omega) (fun _ _ _ => by omega), ?_, ?_, ?_, ?_⟩
  · rw [ends_next]
    exact ⟨_, rfl, hsent⟩
  · rw [ends_next]
    rw [hsent] at hout
    exact List.mem_of_mem_drop (hout ▸ List.mem_singleton_self _)
  · rw [ends_next]
    exact (Stream.keeps_sendData 1 (c₁.ends .left).stream [7]).sendNumber.trans hnumber
  · rw [ends_next_of_ne c₁ (by decide), hright]
    exact h.other

/-- A packet of the other end arrives. -/
theorem Counted.receives (h : Counted e c) {x : Side} {bytes : List UInt8} (now : Int)
    (hmem : bytes ∈ (c.ends x.other).stream.out) (hlen : (c.ends x).sent.length ≤ 2 ^ 31) :
    ∃ c', Step e c c' ∧ Counted e c' ∧
      c'.ends x = { c.ends x with stream := (c.ends x).stream.receivePacket e now bytes } ∧
      c'.ends x.other = c.ends x.other := by
  have hcall : (c.ends x).call (Stream.api e) (.receive now bytes) =
    some { c.ends x with stream := (c.ends x).stream.receivePacket e now bytes } := rfl
  exact ⟨_, .call hcall hmem, h.step hcall hmem hlen fun _ _ heq => (by cases heq), ends_next ..,
    ends_next_of_ne c (Side.other_ne x) _ _⟩

theorem ackNumber_ackPacket {n : Nat} (hn : n < 2 ^ 31) : ackNumber (ackPacket n) = some n := by
  obtain ⟨hbit, hcommand⟩ := header_of_command (show commandAck < 2 ^ 31 by decide)
  rw [ackNumber, ackPacket, Stream.commandHeader, getUint32_leBytes (by decide)]
  dsimp only
  rw [if_pos ⟨hbit, hcommand⟩, getAck hn]

/-- A round with one message. -/
theorem Quiet.round {n : Nat} (h : Quiet e n c) (hn : n < 2 ^ 31) :
    ∃ c', Relation.ReflTransGen (Step e) c c' ∧ Quiet e (n + 1) c' := by
  obtain ⟨c₂, hrun, hcounted, ⟨ms, hsent, hms⟩, hmem, hnumber, hother⟩ := h.sends hn
  have hlen : (c₂.ends .left).sent.length = n + 1 := by
    rw [hsent, List.length_append, hms]
    rfl
  have hmessage : (c₂.ends .left).sent[n]? = some [7] := by
    rw [hsent, ← hms, List.getElem?_concat_length]
  have hpacket : (c₂.packets .left)[n]? = some (dataPacket n [7]) := by
    rw [hcounted.packets, List.getElem?_mapIdx, hmessage]
    rfl
  obtain ⟨-, hclassified⟩ := (hcounted.consistent (by omega)).classified n _ [7] hpacket hmessage
  obtain ⟨hout, -⟩ := hclassified 2
  obtain ⟨c₃, hstep₃, hcounted₃, hright, hleft⟩ := hcounted.receives (x := .right) 2 hmem (by simp [hother])
  have hleft : c₃.ends .left = c₂.ends .left := hleft
  have hack : ackPacket n ∈ (c₃.ends .right).stream.out := by
    rw [hright]
    exact hout ▸ List.mem_append_right _ (List.mem_singleton_self _)
  obtain ⟨c₄, hstep₄, hcounted₄, hleft₄, hright₄⟩ :=
    hcounted₃.receives (x := .left) 3 hack (by rw [hleft]; omega)
  have hright₄ : c₄.ends .right = c₃.ends .right := hright₄
  have htakes : Takes (c₂.ends .left).stream.core
      ((c₂.ends .left).stream.receivePacket e 3 (ackPacket n)).core := by
    cases Stream.receivePacket_cases e 3 (c₂.ends .left).stream (ackPacket n) with
    | inl htaken => exact htaken.2
    | inr hother => exact absurd ((ackNumber_ackPacket hn).trans (congrArg some hnumber.symm)) hother.1
  refine ⟨c₄, (hrun.tail hstep₃).tail hstep₄, hcounted₄, ?_, ?_, ?_⟩
  · rw [hleft₄, hleft]
    exact hlen
  · rw [hleft₄, hleft]
    exact htakes.semaphore
  · rw [hright₄, hright]
    exact hother

theorem exists_quiet {ends : Connection} (h : ∀ x, (ends x).Fresh) {n : Nat} (hn : n ≤ 2 ^ 31) :
    ∃ c, Relation.ReflTransGen (Step e) (start ends) c ∧ Quiet e n c := by
  induction n with
  | zero =>
    refine ⟨start ends, .refl, counted_start h, ?_, (h .left).semaphore, (h .right).sent⟩
    show (ends .left).sent.length = 0
    rw [(h .left).sent]
    rfl
  | succ n ih =>
    obtain ⟨c, hrun, hquiet⟩ := ih (Nat.le_of_succ_le hn)
    obtain ⟨c', hround, hquiet'⟩ := hquiet.round hn
    exact ⟨c', hrun.trans hround, hquiet'⟩

theorem sampleEnd_fresh (x : Side) : ((fun _ => sampleEnd : Connection) x).Fresh :=
  ⟨rfl, rfl, rfl, rfl, rfl, rfl, rfl, rfl, rfl⟩

/-- After `2 ^ 31` messages, each sent and acknowledged, the packet of the next one is a connect request. -/
theorem not_consistent_wrapped : ∃ c, Relation.ReflTransGen (Step samplePlatform) (start fun _ => sampleEnd) c ∧
    (∃ bytes ∈ c.packets .left, (getUint32 bytes).1 = headerTypeCommand + commandConnectRequest) ∧
    ¬ ∀ x, Consistent samplePlatform c x := by
  obtain ⟨c, hrun, hquiet⟩ := exists_quiet (e := samplePlatform) sampleEnd_fresh (Nat.le_refl (2 ^ 31))
  obtain ⟨c₁, hstep, hcounted, hleft, -⟩ := hquiet.waits (Nat.le_refl _)
  obtain ⟨a, hsend⟩ : ∃ a, (c₁.ends .left).call (Stream.api samplePlatform) (.sendData 1 [7]) = some a :=
    ⟨_, call_sendData (by rw [hleft]; exact Nat.succ_pos _) 1⟩
  have hsent : (c₁.ends .left).sent.length = 2 ^ 31 := by
    rw [hleft]
    exact hquiet.sent
  obtain ⟨-, hout⟩ := hcounted.packet hsend
  have hpacket : dataPacket (2 ^ 31) [7] ∈ (c₁.next .left (.sendData 1 [7]) a).packets .left := by
    rw [packets_next, hout, hsent]
    exact List.mem_append_right _ (List.mem_singleton_self _)
  refine ⟨_, (hrun.tail hstep).tail (.call hsend trivial), ⟨_, hpacket, ?_⟩, ?_⟩
  · rw [dataPacket, getUint32_leBytes (by decide)]
    decide
  · intro hconsistent
    exact header_of_wrapped [7] ((hconsistent .left).clear _ hpacket)

/-- Two messages from left to right, the first one twice. -/
theorem consistent_sample : ∃ c, Relation.ReflTransGen (Step samplePlatform) (start fun _ => sampleEnd) c ∧
    c.packets .left = [dataPacket 0 [7], dataPacket 1 [8]] ∧ ∀ x, Consistent samplePlatform c x := by
  have h₁ := Relation.ReflTransGen.single
    (@Step.call samplePlatform (start fun _ => sampleEnd) .left .waitForSendAck _ rfl trivial)
  have h₂ := h₁.tail (@Step.call _ _ .left (.sendData 1 [7]) _ rfl trivial)
  have h₃ := h₂.tail
    (@Step.call _ _ .right (.receive 2 (dataPacket 0 [7])) _ rfl (List.mem_singleton.mpr rfl))
  have h₄ := h₃.tail
    (@Step.call _ _ .right (.receive 3 (dataPacket 0 [7])) _ rfl (List.mem_singleton.mpr rfl))
  have h₅ := h₄.tail
    (@Step.call _ _ .left (.receive 4 (ackPacket 0)) _ rfl (show ackPacket 0 ∈ _ by decide))
  have h₆ := h₅.tail (@Step.call _ _ .left .waitForSendAck _ rfl trivial)
  have h₇ := h₆.tail (@Step.call _ _ .left (.sendData 5 [8]) _ rfl trivial)
  exact ⟨_, h₇, by decide,
    (consistent_iff samplePlatform sampleEnd_fresh h₇).mpr fun x => by cases x <;> decide⟩

end Exchange
end Rpc
end Firefly
