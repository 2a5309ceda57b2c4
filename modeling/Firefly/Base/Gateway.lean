import Firefly.Base.Transport

/-!
# Firefly.Base.Gateway

`fd_gateway.c`: a message for another target is sealed again and handed to the endpoint of the
target. An `Outcome` is what a call ends with: a result of its own, or the call of an endpoint or of
the dispatch, whose result it returns. Assertions that fail are counted by the program, and it goes on.
-/

namespace Firefly

structure Gateway (α : Type) where
  target : UInt8
  items : List (UInt8 × α)

namespace Gateway

inductive Outcome (α : Type) where
  | returned (value : Bool)
  | transmitted (endpoint : α) (data : List UInt8)
  | dispatched (payload : List UInt8) (envelope : Envelope)
  deriving DecidableEq

variable {α : Type}

/-- The endpoint of `fd_gateway_get_item`. -/
def getItem (g : Gateway α) (target : UInt8) : Option α :=
  (g.items.find? fun item => target = item.1).map Prod.snd

variable (g : Gateway α) (buffer : Memory)

/-- The delimiter, and the endpoint of the target. -/
def send (message : Binary) (target : UInt8) : Outcome α × Binary :=
  let message := message.putUint8 0
  if message.errors ≠ 0 then (.returned false, message)
  else match g.getItem target with
    | none => (.returned false, message)
    | some endpoint => (.transmitted endpoint message.contents, message)

/-- `fd_gateway_transmit`. -/
def transmit (message : Binary) (envelope : Envelope) : Option (Outcome α × Binary) := do
  let (encoded, message, envelope) ← Envelope.encode buffer message envelope
  if encoded then some (g.send message envelope.target) else some (.returned false, message)

def process (message : Binary) : Option (Outcome α × Binary) :=
  match Envelope.decode message with
  | (message, none) => some (.returned false, message)
  | (message, some envelope) =>
    if envelope.target = g.target then some (.dispatched message.contents envelope, message)
    else g.transmit buffer message envelope

/-- `fd_gateway_message_rx`: the outcomes of the messages that are complete. -/
def messageRx (message : Binary) : List UInt8 → Option (List (Outcome α) × Binary)
  | [] => some ([], message)
  | byte :: data =>
    if byte = 0 then
      if message.putIndex > 0 then do
        let (outcome, message) ← g.process buffer message
        let (outcomes, message) ← messageRx message.reset data
        some (outcome :: outcomes, message)
      else messageRx message data
    else messageRx (message.putUint8 byte) data

variable {g} {buffer} {limit : Nat} {payload : List UInt8} {e : Envelope} {m : Binary} {endpoint : α}

/-- The bytes on the wire before the delimiter. -/
def frame (payload : List UInt8) (e : Envelope) : List UInt8 := Cobs.encode (Envelope.message payload e)

theorem decode_frame (payload : List UInt8) (e : Envelope) :
    Cobs.decode (frame payload e) = Envelope.message payload e := Cobs.decode_encode _

/-- A frame for another target is sealed and stuffed again, and comes out as it was. -/
theorem process_eq (buffer : Memory) (h : m.Written limit (frame payload e))
    (hlimit : limit ≤ Cobs.fullLength * (Envelope.lookahead - 1)) (htarget : e.target ≠ g.target) :
    ∃ m' : Binary, m'.Written limit (frame payload e) ∧
      g.process buffer m = some (g.send m' e.target) := by
  obtain ⟨henvelope, hpayload⟩ := Envelope.Written.decode h (decode_frame payload e)
  obtain ⟨m', hencode, hframe⟩ := Envelope.encode_eq hpayload buffer (Envelope.stamp payload e) hlimit h.fits
  refine ⟨m', hframe, ?_⟩
  have hother : (Envelope.stamp payload e).target ≠ g.target := htarget
  have hdecode : Envelope.decode m = ((Envelope.decode m).1, some (Envelope.stamp payload e)) := by
    rw [← henvelope]
  rw [process, hdecode]
  simp only [if_neg hother, transmit, hencode, Option.bind_eq_bind, Option.bind_some, if_pos]
  rfl

theorem process_frame (buffer : Memory) (h : m.Written limit (frame payload e))
    (hlimit : limit ≤ Cobs.fullLength * (Envelope.lookahead - 1))
    (hroom : (frame payload e).length < limit) (htarget : e.target ≠ g.target)
    (hitem : g.getItem e.target = some endpoint) : ∃ m' : Binary,
      g.process buffer m = some (.transmitted endpoint (frame payload e ++ [0]), m') ∧
        m'.Written limit (frame payload e ++ [0]) := by
  obtain ⟨m', hframe, hprocess⟩ := process_eq buffer h hlimit htarget
  have hdelimited : (m'.putUint8 0).Written limit (frame payload e ++ [0]) := hframe.putBytes hroom
  refine ⟨m'.putUint8 0, ?_, hdelimited⟩
  rw [hprocess, send, if_neg (not_not.mpr hdelimited.errors), hitem]
  simp only [hdelimited.contents]

/-- With a frame that takes the whole buffer there is no room for the delimiter. -/
theorem process_full (buffer : Memory) (h : m.Written limit (frame payload e))
    (hlimit : limit ≤ Cobs.fullLength * (Envelope.lookahead - 1))
    (hfull : (frame payload e).length = limit) (htarget : e.target ≠ g.target) :
    ∃ m', g.process buffer m = some (.returned false, m') := by
  obtain ⟨m', hframe, hprocess⟩ := process_eq buffer h hlimit htarget
  have hover : m'.size < m'.putIndex + [(0 : UInt8)].length := by
    rw [hframe.size, Binary.putIndex_eq hframe.contents, hfull, List.length_singleton]
    exact Nat.lt_succ_self limit
  have herrors : (m'.putUint8 0).errors ≠ 0 := by
    refine Binary.putBytes_errors hover ?_
    rw [Binary.putIndex_eq hframe.contents, hfull, List.length_singleton]
    exact Nat.lt_of_le_of_lt (Nat.succ_le_succ hlimit) (by decide)
  exact ⟨m'.putUint8 0, by rw [hprocess, send, if_pos herrors]⟩

/-- Bytes before a delimiter. -/
theorem messageRx_bytes (g : Gateway α) (buffer : Memory) {bs cs : List UInt8} (h : m.Written limit cs) (hbs : 0 ∉ bs)
    (hfit : cs.length + bs.length ≤ limit) (data : List UInt8) :
    ∃ m' : Binary, m'.Written limit (cs ++ bs) ∧
      g.messageRx buffer m (bs ++ data) = g.messageRx buffer m' data := by
  induction bs generalizing m cs with
  | nil => exact ⟨m, by rwa [List.append_nil], rfl⟩
  | cons b bs ih =>
    have hb : b ≠ 0 := by
      intro h0
      exact hbs (h0 ▸ List.mem_cons_self)
    rw [List.length_cons] at hfit
    have hput : (m.putUint8 b).Written limit (cs ++ [b]) :=
      h.putBytes (by rw [List.length_singleton]; omega)
    obtain ⟨m', hm', hrx⟩ := ih hput (fun hmem => hbs (List.mem_cons_of_mem b hmem))
      (by rw [List.length_append, List.length_singleton]; omega)
    refine ⟨m', ?_, ?_⟩
    · rwa [List.append_assoc, List.singleton_append] at hm'
    · rw [List.cons_append, messageRx, if_neg hb, hrx]

/-- A frame as it comes in, for another target, and as it goes out. -/
theorem messageRx_frame (h : m.Written limit [])
    (hlimit : limit ≤ Cobs.fullLength * (Envelope.lookahead - 1))
    (hroom : (frame payload e).length < limit) (htarget : e.target ≠ g.target)
    (hitem : g.getItem e.target = some endpoint) : ∃ m' : Binary,
      g.messageRx buffer m (frame payload e ++ [0]) =
        some ([.transmitted endpoint (frame payload e ++ [0])], m') ∧ m'.Written limit [] := by
  have hencodes := Cobs.encodes_encode (Envelope.message payload e)
  obtain ⟨m₁, hm₁, hrx⟩ := messageRx_bytes g buffer h hencodes.zero_notMem
    (by rw [List.length_nil, Nat.zero_add]; exact Nat.le_of_lt hroom) [0]
  obtain ⟨m₂, hprocess, hm₂⟩ := process_frame buffer hm₁ hlimit hroom htarget hitem
  have hindex : m₁.putIndex > 0 := by
    rw [Binary.putIndex_eq hm₁.contents]
    exact List.length_pos_iff.mpr hencodes.ne_nil
  refine ⟨m₂.reset, ?_, hm₂.reset⟩
  rw [frame] at hprocess ⊢
  rw [hrx, messageRx, if_pos rfl, if_pos hindex, hprocess]
  rfl

/-- The tools accept what the decoder accepts. -/
theorem getEnvelope_iff {r : Binary} (hr : r.putIndex ≤ 1024) (payload : List UInt8) (e : Envelope) :
    Transport.getEnvelope (Envelope.unstuffed r).contents = .ok (payload, e) ↔
      (Envelope.decode r).2 = some e ∧ (Envelope.decode r).1.contents = payload := by
  have hcontents := Envelope.contents_unstuffed (rfl : r.contents = r.contents)
  have hlen := Cobs.length_decode_le r.contents
  rw [Binary.contents, Memory.length_read, ← Binary.contents] at hlen
  rw [hcontents]
  by_cases hshort : (Cobs.decode r.contents).length < Envelope.trailerSize
  · rw [Transport.getEnvelope_short hshort, Envelope.decode_short rfl hshort]
    constructor
    · intro h
      cases h
    · rintro ⟨h, -⟩
      cases h
  · obtain ⟨payload', e', hsplit⟩ := Envelope.exists_payload (Nat.le_of_not_lt hshort)
    have hpayload : payload'.length < 2 ^ 16 := by
      rw [hsplit, List.length_append] at hlen
      omega
    rw [hsplit, Transport.getEnvelope_eq hpayload, Envelope.decode_eq rfl hsplit]
    by_cases hstamp : e' = Envelope.stamp payload' e'
    · have hread : (Envelope.unstuffed r).buffer.read 0 payload'.length = payload' := by
        have happend := hcontents.trans hsplit
        rw [Binary.contents, Binary.putIndex_eq happend] at happend
        exact (Memory.read_eq_append happend).1
      rw [if_pos hstamp, if_pos hstamp, Binary.contents, hread]
      constructor
      · intro h
        cases h
        exact ⟨rfl, rfl⟩
      · rintro ⟨h, rfl⟩
        cases h
        rfl
    · rw [if_neg hstamp, if_neg hstamp]
      constructor
      · intro h
        cases h
      · rintro ⟨h, -⟩
        cases h

/-- The codec over every message whose frame fits, in five parts: the encoder leaves the frame, which
has no zero byte; the decoder gives the payload and the envelope back, and the encoder makes the same
frame of them; a gateway forwards the frame as it is, or drops one that leaves no room for the
delimiter; the tools add the same trailer; and they accept what the decoder accepts. -/
theorem round_trip (payload : List UInt8) (e : Envelope) (limit : Nat) (buffer : Memory) (m : Binary)
    (hlimit : limit ≤ 1024) (hm : m.Written limit payload)
    (hfit : (frame payload e).length ≤ limit) :
    ((∃ m', Envelope.encode buffer m e = some (true, m', Envelope.stamp payload e) ∧
        m'.contents = frame payload e) ∧ 0 ∉ frame payload e) ∧
      (∀ r : Binary, r.Written limit (frame payload e) →
        ∃ r', Envelope.decode r = (r', some (Envelope.stamp payload e)) ∧ r'.contents = payload ∧
          ∃ r'', Envelope.encode buffer r' (Envelope.stamp payload e) =
            some (true, r'', Envelope.stamp payload e) ∧ r''.contents = frame payload e) ∧
      (∀ (α : Type) (g : Gateway α) (endpoint : α) (r : Binary), r.Written limit (frame payload e) →
        e.target ≠ g.target → g.getItem e.target = some endpoint →
        ∃ r', g.process buffer r = if (frame payload e).length < limit then
          some (.transmitted endpoint (frame payload e ++ [0]), r') else some (.returned false, r')) ∧
      Transport.addEnvelope payload e = .ok (Envelope.putTrailer m e).1.contents ∧
      ∀ r : Binary, r.putIndex ≤ 1024 → ∀ payload' e',
        Transport.getEnvelope (Envelope.unstuffed r).contents = .ok (payload', e') ↔
          (Envelope.decode r).2 = some e' ∧ (Envelope.decode r).1.contents = payload' := by
  have hlimit' : limit ≤ Cobs.fullLength * (Envelope.lookahead - 1) := Nat.le_trans hlimit (by decide)
  have hencodes := Cobs.encodes_encode (Envelope.message payload e)
  have hlt : (Envelope.message payload e).length < (frame payload e).length := hencodes.length_lt
  rw [Envelope.length_message] at hlt
  refine ⟨⟨?_, hencodes.zero_notMem⟩, ?_, ?_, ?_, ?_⟩
  · obtain ⟨m', hencode, hframe⟩ := Envelope.encode_eq hm buffer e hlimit' hfit
    exact ⟨m', hencode, hframe.contents⟩
  · intro r hr
    obtain ⟨henvelope, hpayload⟩ := Envelope.Written.decode hr (decode_frame payload e)
    obtain ⟨r'', hencode, hframe⟩ := Envelope.encode_eq hpayload buffer (Envelope.stamp payload e)
      hlimit' hfit
    exact ⟨(Envelope.decode r).1, by rw [← henvelope], hpayload.contents, r'', hencode, hframe.contents⟩
  · intro α g endpoint r hr htarget hitem
    by_cases hroom : (frame payload e).length < limit
    · obtain ⟨r', hprocess, -⟩ := process_frame buffer hr hlimit' hroom htarget hitem
      exact ⟨r', by rw [hprocess, if_pos hroom]⟩
    · obtain ⟨r', hprocess⟩ := process_full buffer hr hlimit' (by omega) htarget
      exact ⟨r', by rw [hprocess, if_neg hroom]⟩
  · have hadd := Transport.addEnvelope_eq (by omega : payload.length < 2 ^ 16) e
    rw [hadd, (Envelope.putTrailer_eq hm e (by omega)).2.contents]
  · intro r hr payload' e'
    exact getEnvelope_iff hr payload' e'

/-- A request without payload from `1` to `2`, at a gateway `3` whose buffer the frame fills. -/
theorem not_forwarded_full :
    let e : Envelope := ⟨0, 0, 2, 1, 0, 0, Envelope.typeRequest, 0⟩
    let g : Gateway String := ⟨3, [(2, "uart")]⟩
    let r := (Binary.initializeWith (fun _ => 0) 11).putBytes (frame [] e)
    (frame [] e).length ≤ 11 ∧ r.contents = frame [] e ∧ r.errors = 0 ∧
      (g.process (fun _ => 0) r).map Prod.fst = some (.returned false) ∧
      (g.process (fun _ => 0) r).map Prod.fst ≠ some (.transmitted "uart" (frame [] e ++ [0])) := by
  decide +kernel

/-- An event with two bytes at the same gateway, with a buffer of 64 bytes. -/
theorem round_trip_event :
    let e : Envelope := ⟨0, 0, 2, 1, 0, 0, Envelope.typeEvent, 0⟩
    let g : Gateway String := ⟨3, [(2, "uart")]⟩
    let r := (Binary.initializeWith (fun _ => 0) 64).putBytes (frame [0, 7] e)
    ∃ r', g.process (fun _ => 0) r = some (.transmitted "uart" (frame [0, 7] e ++ [0]), r') := by
  intro e g r
  have hframe : (frame [0, 7] e).length = 13 := by decide +kernel
  have hsent : ((Binary.initializeWith (fun _ => 0) 64).putBytes [0, 7]).Written 64 [0, 7] :=
    (Binary.written_initializeWith (fun _ => 0) 64).putBytes (by decide)
  have hfit : ([] : List UInt8).length + (frame [0, 7] e).length ≤ 64 := by
    rw [hframe]
    decide
  have hreceived := (Binary.written_initializeWith (fun _ => 0) 64).putBytes hfit
  rw [List.nil_append] at hreceived
  obtain ⟨r', hprocess⟩ := (round_trip [0, 7] e 64 (fun _ => 0) _ (by decide) hsent
    (by rw [hframe]; decide)).2.2.1 String g "uart" r hreceived (by decide) (by decide)
  rw [hframe, if_pos (by decide)] at hprocess
  exact ⟨r', hprocess⟩

end Gateway
end Firefly
