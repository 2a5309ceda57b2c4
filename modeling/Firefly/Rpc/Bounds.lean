import Firefly.Base.Echo
import Firefly.Base.Envelope
import Firefly.Rpc.Transport

/-!
# Firefly.Rpc.Bounds

The buffers of the two callers of the byte stuffing. `fd_envelope_encode` makes room for the trailer and
`fd_rpc_channel_send_packet` for the header, but neither for the codes: what is written stays in the
buffer only if the encoding has room there (`encodings_confined_iff`). By then it is too late to refuse it.
-/

namespace Firefly

/-- The encoding of the first `n` bytes, as they are read, is not longer than `size`. -/
def HasRoom (data : Memory) (n size : Nat) : Prop := (Cobs.encode (InPlace.echo data 31 n)).length ≤ size

instance (data : Memory) (n size : Nat) : Decidable (HasRoom data n size) := Nat.decLe _ _

/-- Up to this length the bytes are read as they are. -/
theorem hasRoom_iff {data : Memory} {n : Nat} (h : n ≤ 7905) (size : Nat) :
    HasRoom data n size ↔ (Cobs.encode (data.read 0 n)).length ≤ size := by
  rw [HasRoom, InPlace.echo_eq (by simp only [Cobs.fullLength]; omega)]

/-- Bytes that fill the buffer leave no room for a code. -/
theorem not_hasRoom {n size : Nat} (h : size ≤ n) (data : Memory) : ¬ HasRoom data n size := by
  have hlt := (Cobs.encodes_encode (InPlace.echo data 31 n)).length_lt
  rw [InPlace.length_echo] at hlt
  rw [HasRoom]
  omega

namespace Envelope

/-- The addresses that the byte stuffing writes to in the buffer of a message. -/
def writes (queue : Memory) (message : Binary) (envelope : Envelope) : List Nat :=
  let (message, _) := putTrailer message envelope
  InPlace.writes message.buffer message.putIndex queue lookahead

/-- Nothing is written behind the buffer, and a frame that is longer is not one. -/
structure Confined (queue : Memory) (message : Binary) (envelope : Envelope) : Prop where
  writes : ∀ x ∈ writes queue message envelope, x < message.size
  refused : ∀ m e, encode queue message envelope = some (true, m, e) → m.putIndex ≤ message.size

theorem confined_iff (queue : Memory) (m : Binary) (e : Envelope) :
    Confined queue m e ↔ HasRoom (putTrailer m e).1.buffer (putTrailer m e).1.putIndex m.size := by
  have hwrites : (∀ x ∈ writes queue m e, x < m.size) ↔
      HasRoom (putTrailer m e).1.buffer (putTrailer m e).1.putIndex m.size :=
    InPlace.writes_iff (show 0 < 31 by simp) (putTrailer m e).1.buffer queue (putTrailer m e).1.putIndex m.size
  have hencode : InPlace.encode (putTrailer m e).1.buffer (putTrailer m e).1.putIndex queue lookahead = _ :=
    InPlace.encode_echo (show 0 < 31 by simp) (putTrailer m e).1.buffer queue (putTrailer m e).1.putIndex
  refine ⟨fun h => hwrites.mp h.writes, fun h => ⟨hwrites.mpr h, ?_⟩⟩
  intro m' e' hsealed
  simp only [encode, hencode, Option.bind_eq_bind, Option.bind_some, Option.some.injEq, Prod.mk.injEq]
    at hsealed
  have hindex := congrArg Binary.putIndex hsealed.2.1
  dsimp only at hindex
  rw [← hindex]
  exact h

end Envelope

namespace Rpc
namespace Nanopb

open Packet

variable (pb : Nanopb)

/-- The addresses that the byte stuffing writes to in the buffer of a packet, if it comes to that. -/
def writes (queue : Memory) (type : Nat) (packet : Binary) : List Nat :=
  if headerSize + (pb.encodeVarint type).length + packet.putIndex > packet.size then []
  else
    let (data, putIndex) := pb.putHeader type packet
    InPlace.writes data putIndex queue lookahead

/-- Nothing is written behind the buffer, and what is sent was in it. -/
structure Confined (queue : Memory) (type : Nat) (packet : Binary) : Prop where
  writes : ∀ x ∈ pb.writes queue type packet, x < packet.size
  refused : ∀ data, pb.sendPacket queue type packet = some (.written data) → data.length ≤ packet.size

theorem confined_iff (queue : Memory) (type : Nat) (p : Binary) :
    pb.Confined queue type p ↔ headerSize + (pb.encodeVarint type).length + p.putIndex ≤ p.size →
      HasRoom (pb.putHeader type p).1 (pb.putHeader type p).2 p.size := by
  by_cases hroom : headerSize + (pb.encodeVarint type).length + p.putIndex > p.size
  · refine iff_of_true ⟨?_, ?_⟩ fun hle => absurd hle (Nat.not_le.mpr hroom)
    · rw [writes, if_pos hroom]
      exact fun x hx => absurd hx List.not_mem_nil
    · intro data hsent
      rw [sendPacket, if_pos hroom] at hsent
      cases hsent
  · have hwrites : (∀ x ∈ pb.writes queue type p, x < p.size) ↔
        HasRoom (pb.putHeader type p).1 (pb.putHeader type p).2 p.size := by
      rw [writes, if_neg hroom]
      exact InPlace.writes_iff (show 0 < 31 by simp) (pb.putHeader type p).1 queue (pb.putHeader type p).2 p.size
    rw [forall_prop_of_true (Nat.le_of_not_lt hroom)]
    refine ⟨fun h => hwrites.mp h.writes, fun h => ⟨hwrites.mpr h, ?_⟩⟩
    intro data hsent
    have hencode : InPlace.encode (pb.putHeader type p).1 (pb.putHeader type p).2 queue lookahead = _ :=
      InPlace.encode_echo (show 0 < 31 by simp) (pb.putHeader type p).1 queue (pb.putHeader type p).2
    simp only [sendPacket, if_neg hroom, hencode, Option.bind_eq_bind, Option.bind_some] at hsent
    split at hsent
    · cases hsent
    · split at hsent
      · cases hsent
      · rename_i hfull
        injection hsent with hsent
        injection hsent with hdata
        rw [← hdata, Memory.length_read]
        exact Nat.lt_of_not_le hfull

end Nanopb
end Rpc

/-- What the byte stuffing writes for an envelope and for a packet stays in the buffer if and only if the
encoding has room there; a packet that is refused before has none. -/
theorem encodings_confined_iff (queue : Memory) (m : Binary) (e : Envelope) (pb : Rpc.Nanopb) (type : Nat)
    (p : Binary) :
    (Envelope.Confined queue m e ↔
      HasRoom (Envelope.putTrailer m e).1.buffer (Envelope.putTrailer m e).1.putIndex m.size) ∧
    (pb.Confined queue type p ↔
      p.size < Rpc.Packet.headerSize + (pb.encodeVarint type).length + p.putIndex ∨
        HasRoom (pb.putHeader type p).1 (pb.putHeader type p).2 p.size) := by
  refine ⟨Envelope.confined_iff queue m e, (pb.confined_iff queue type p).trans ?_⟩
  rw [← Nat.not_le]
  exact Decidable.imp_iff_not_or

/-- A message of 290 bytes in a buffer of 300, and a packet with a payload of 1019 in one of 1024. -/
theorem not_confined : (¬ ∀ (queue : Memory) (m : Binary) (e : Envelope), Envelope.Confined queue m e) ∧
    ¬ ∀ (queue : Memory) (type : Nat) (p : Binary), Rpc.Sample.nanopb.Confined queue type p := by
  constructor
  · intro h
    let m : Binary := { Binary.initializeWith (fun _ => 1) 300 with putIndex := 290 }
    let e : Envelope := ⟨0, 0, 2, 1, 0, 0, Envelope.typeRequest, 0⟩
    have hfull : m.size ≤ (Envelope.putTrailer m e).1.putIndex := by decide +kernel
    exact not_hasRoom hfull _ ((Envelope.confined_iff (fun _ => 0) m e).mp (h _ m e))
  · intro h
    let p : Binary := { Binary.initializeWith (fun _ => 1) 1024 with putIndex := 1019 }
    have hfull : p.size ≤ (Rpc.Sample.nanopb.putHeader 1 p).2 := by decide +kernel
    have hroom : Rpc.Packet.headerSize + (Rpc.Sample.nanopb.encodeVarint 1).length + p.putIndex ≤ p.size := by
      decide +kernel
    exact not_hasRoom hfull _ ((Rpc.Sample.nanopb.confined_iff (fun _ => 0) 1 p).mp (h _ 1 p) hroom)

end Firefly
