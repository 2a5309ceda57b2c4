import Firefly.Base.Transport
import Firefly.Lib.CrcPolynomial
import Firefly.Rpc.Packet

/-!
# Firefly.Rpc.Bursts

What the check of the frames detects. The check of `fd_crc16.c`, in a variable of 32 bits that is not
masked, and that of `gateway.py`, in a number that is not bounded, are both the remainder of the data by
`x^16 + x^12 + x^5 + 1`, so that errors in 16 consecutive bits are always found (`update_detects`). A packet
with such errors behind its check is not handled (`receivedPacket_burst`).
-/

namespace Firefly
namespace Crc16

open Polynomial

theorem generator_polynomial : Crc.generator polynomial = X ^ 16 + X ^ 12 + X ^ 5 + 1 := by
  have hsplit : polynomial = BitVec.twoPow 16 12 ^^^ BitVec.twoPow 16 5 ^^^ BitVec.twoPow 16 0 := rfl
  rw [Crc.generator, hsplit, Crc.word_xor, Crc.word_xor, Crc.word_twoPow (by decide),
    Crc.word_twoPow (by decide), Crc.word_twoPow (by decide), pow_zero, add_assoc, add_assoc, add_assoc]

variable {data other : List UInt8} {start : Nat}

theorem update_ne_of_burst (hlength : other.length = data.length) (hne : other ≠ data)
    (hburst : ∀ i, Crc.bit other i ≠ Crc.bit data i → start ≤ i ∧ i < start + 16) :
    update other ≠ update data := by
  intro hsame
  have hcrc : Crc.crc polynomial other = Crc.crc polynomial data := by
    rw [← toBitVec_update, ← toBitVec_update, hsame]
  exact Crc.crc_ne_of_burst (by decide) rfl hlength hne hburst hcrc

/-- `fd_crc16_update` is the remainder and the check of the gateway in Python. Other data of the same length,
with all of the bits that differ in a window of 16 consecutive bits, has another check. -/
theorem update_detects (data : List UInt8) :
    Crc.word (update data).toBitVec =
        (Crc.message data * X ^ 16) %ₘ (X ^ 16 + X ^ 12 + X ^ 5 + 1) ∧
      Transport.crc16 data = (update data).toNat ∧
      ∀ other : List UInt8, other.length = data.length → other ≠ data →
        (∃ start, ∀ i, Crc.bit other i ≠ Crc.bit data i → start ≤ i ∧ i < start + 16) →
        update other ≠ update data := by
  refine ⟨?_, Transport.crc16_eq data, ?_⟩
  · rw [toBitVec_update, Crc.word_crc (by decide), generator_polynomial]
  · rintro other hlength hne ⟨start, hburst⟩
    exact update_ne_of_burst hlength hne hburst

/-- A burst of 16 bits across three bytes. -/
theorem update_detects_across : update [0x12, 0x3b, 0xa9, 0x88] ≠ update [0x12, 0x34, 0x56, 0x78] := by
  have hwindow : ∀ i < 32, Crc.bit [0x12, 0x3b, 0xa9, 0x88] i ≠ Crc.bit [0x12, 0x34, 0x56, 0x78] i →
      12 ≤ i ∧ i < 12 + 16 := by
    decide
  refine (update_detects [0x12, 0x34, 0x56, 0x78]).2.2 _ rfl (by decide) ⟨12, fun i hi => ?_⟩
  rcases Nat.lt_or_ge i 32 with hlt | hge
  · exact hwindow i hlt hi
  · rw [Crc.bit_of_ge hge, Crc.bit_of_ge hge] at hi
    exact absurd rfl hi

end Crc16

namespace Rpc

open Bytes

variable {pb : Nanopb} {handler : PacketType → List UInt8 → Bool} {packet : Binary}
  {data other : List UInt8} {start : Nat}

/-- A packet with the check of other data. -/
theorem receivedPacket_burst (hp : packet.contents = leBytes 2 (Crc16.update data).toNat ++ other)
    (hlength : other.length = data.length) (hne : other ≠ data)
    (hburst : ∀ i, Crc.bit other i ≠ Crc.bit data i → start ≤ i ∧ i < start + 16) :
    pb.receivedPacket handler packet = (false, none) := by
  have hdiffer := Crc16.update_ne_of_burst hlength hne hburst
  have hn := Binary.putIndex_eq hp
  rw [Binary.contents, hn] at hp
  obtain ⟨hcrc, hcheck⟩ := Memory.read_eq_append hp
  rw [List.length_append, length_leBytes] at hn
  rw [length_leBytes, Nat.zero_add] at hcheck
  rw [length_leBytes] at hcrc
  have hcrc' : UInt16.ofNat (leNat (packet.buffer.read 0 2)) = Crc16.update data := by
    rw [hcrc, leNat_leBytes_of_lt (by exact UInt16.toNat_lt _), UInt16.ofNat_toNat]
  have hactual : Crc16.update (packet.buffer.read 2 (packet.putIndex - 2)) = Crc16.update other := by
    rw [hn, Nat.add_sub_cancel_left, hcheck]
  rw [Nanopb.receivedPacket]
  split
  · rfl
  · dsimp only
    rw [hcrc', hactual, if_pos hdiffer]

end Rpc
end Firefly
