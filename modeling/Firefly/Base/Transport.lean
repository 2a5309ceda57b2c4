import Firefly.Base.Envelope
import Mathlib.Data.Nat.Bitwise

/-!
# Firefly.Base.Transport

`tools/python/firefly/transport/gateway.py`: the envelope codec of the tools, on messages that are
not byte stuffed. Its numbers are not bounded, so the check keeps every bit until the end.
-/

namespace Firefly
namespace Transport

open Bytes

/-! ## The check -/

def enter (crc : Nat) (byte : UInt8) : Nat := crc ^^^ byte.toNat <<< 8

def shift (crc : Nat) : Nat :=
  let temp := crc <<< 1
  if crc &&& 0x8000 ≠ 0 then temp ^^^ 0x1021 else temp

def crc16 (data : List UInt8) : Nat :=
  data.foldl (fun crc byte => shift^[8] (enter crc byte)) 0 &&& 0xffff

/-! ## Envelopes -/

/-- `struct.unpack("<BBBBBBHH", data)`. -/
def unpack (data : List UInt8) : Envelope where
  reserved0 := data.getD 0 0
  type := data.getD 1 0
  subsystem := data.getD 2 0
  system := data.getD 3 0
  source := data.getD 4 0
  target := data.getD 5 0
  length := UInt16.ofNat (leNat ((data.drop 6).take 2))
  crc16 := UInt16.ofNat (leNat ((data.drop 8).take 2))

/-- `add_envelope`, where `struct.pack` raises if the length is not a 16-bit number. -/
def addEnvelope (message : List UInt8) (envelope : Envelope) : Except String (List UInt8) :=
  let length := message.length
  if length < 2 ^ 16 then
    let data := message ++ [envelope.reserved0, envelope.type, envelope.subsystem, envelope.system,
      envelope.source, envelope.target] ++ leBytes 2 length
    .ok (data ++ leBytes 2 (crc16 data))
  else .error "struct.error"

def getEnvelope (message : List UInt8) : Except String (List UInt8 × Envelope) :=
  if message.length < 10 then .error "invalid envelope"
  else
    let envelope := unpack (message.drop (message.length - 10))
    if envelope.length.toNat ≠ message.length - 10 then .error "invalid envelope"
    else if envelope.crc16.toNat ≠ crc16 (message.take (message.length - 2)) then
      .error "invalid envelope"
    else .ok (message.take envelope.length.toNat, envelope)

/-! ## Agreement -/

theorem ofNat_enter (crc : Nat) (byte : UInt8) :
    BitVec.ofNat 16 (enter crc byte) = Crc.enter (BitVec.ofNat 16 crc) byte := by
  have hbyte : BitVec.ofNat 16 (byte.toNat <<< 8) = byte.toBitVec.setWidth 16 <<< 8 := by
    apply BitVec.eq_of_getLsbD_eq
    intro i hi
    rw [BitVec.getLsbD_ofNat, Nat.testBit_shiftLeft, BitVec.getLsbD_shiftLeft, BitVec.getLsbD_setWidth]
    by_cases h8 : i < 8
    · simp [h8]
    · have hle : 8 ≤ i := Nat.le_of_not_lt h8
      have h16 : i - 8 < 16 := by omega
      simp [h8, hle, hi, h16, BitVec.getLsbD]
  rw [enter, BitVec.ofNat_xor, hbyte, Crc.enter]

/-- The bit that leaves the register. -/
theorem top_iff (crc : Nat) : crc &&& 0x8000 ≠ 0 ↔ (BitVec.ofNat 16 crc).msb = true := by
  have hmask : crc &&& 0x8000 = (crc.testBit 15).toNat * 2 ^ 15 := Nat.and_two_pow crc 15
  have hmsb : (BitVec.ofNat 16 crc).msb = crc.testBit 15 := by
    rw [BitVec.msb_eq_getLsbD_last, BitVec.getLsbD_ofNat]
    simp
  rw [hmask, hmsb]
  cases crc.testBit 15 with
  | false => decide
  | true => decide

theorem ofNat_shift (crc : Nat) :
    BitVec.ofNat 16 (shift crc) = Crc.shift Crc16.polynomial (BitVec.ofNat 16 crc) := by
  have hleft : BitVec.ofNat 16 (crc <<< 1) = BitVec.ofNat 16 crc <<< 1 := by
    apply BitVec.eq_of_getLsbD_eq
    intro i hi
    rw [BitVec.getLsbD_ofNat, Nat.testBit_shiftLeft, BitVec.getLsbD_shiftLeft, BitVec.getLsbD_ofNat]
    by_cases h1 : i < 1
    · simp [h1]
    · have hle : 1 ≤ i := Nat.le_of_not_lt h1
      have h16 : i - 1 < 16 := by omega
      simp [h1, hle, hi, h16]
  rw [shift, Crc.shift]
  by_cases hmsb : (BitVec.ofNat 16 crc).msb = true
  · rw [if_pos ((top_iff crc).mpr hmsb), if_pos hmsb, BitVec.ofNat_xor, hleft]
    rfl
  · rw [if_neg (mt (top_iff crc).mp hmsb), if_neg hmsb, hleft]

/-- Both checks are the same. -/
theorem crc16_eq (data : List UInt8) : crc16 data = (Crc16.update data).toNat := by
  have hcrc := Crc.crc_eq_of_image (BitVec.ofNat 16) rfl ofNat_enter ofNat_shift data
  have hmask : (0xffff : Nat) = 2 ^ 16 - 1 := by decide
  rw [← Crc16.toBitVec_update] at hcrc
  rw [crc16, hmask, Nat.and_two_pow_sub_one_eq_mod, ← BitVec.toNat_ofNat, hcrc]
  rfl

variable {payload : List UInt8} {e : Envelope}

theorem addEnvelope_eq (h : payload.length < 2 ^ 16) (e : Envelope) :
    addEnvelope payload e = .ok (Envelope.message payload e) := by
  have hlength : (UInt16.ofNat payload.length).toNat = payload.length := by
    rw [UInt16.toNat_ofNat', Nat.mod_eq_of_lt h]
  have hchecked : payload ++ [e.reserved0, e.type, e.subsystem, e.system, e.source, e.target] ++
      leBytes 2 payload.length =
      payload ++ Envelope.fields { e with length := UInt16.ofNat payload.length } := by
    rw [Envelope.fields, hlength, List.append_assoc]
  simp only [addEnvelope, if_pos h, hchecked, crc16_eq]
  rw [Envelope.message, Envelope.trailer, List.append_assoc]
  rfl

theorem unpack_trailer (e : Envelope) : unpack (Envelope.trailer e) = e := by
  have hword (n : UInt16) : UInt16.ofNat (leNat (leBytes 2 n.toNat)) = n := by
    rw [leNat_leBytes_of_lt (by exact n.toNat_lt), UInt16.ofNat_toNat]
  have hunpack : unpack (Envelope.trailer e) =
      { e with
        length := UInt16.ofNat (leNat (leBytes 2 e.length.toNat))
        crc16 := UInt16.ofNat (leNat (leBytes 2 e.crc16.toNat)) } := rfl
  rw [hunpack, hword, hword]

theorem getEnvelope_short {message : List UInt8} (h : message.length < 10) :
    getEnvelope message = .error "invalid envelope" := by
  rw [getEnvelope, if_pos h]

theorem getEnvelope_eq (h : payload.length < 2 ^ 16) (e : Envelope) :
    getEnvelope (payload ++ Envelope.trailer e) =
      if e = Envelope.stamp payload e then .ok (payload, e) else .error "invalid envelope" := by
  have hlength : (payload ++ Envelope.trailer e).length = payload.length + 10 := by
    rw [List.length_append, Envelope.length_trailer, Envelope.trailerSize]
  have hdrop : (payload ++ Envelope.trailer e).drop payload.length = Envelope.trailer e :=
    List.drop_left' rfl
  have htake : (payload ++ Envelope.trailer e).take (payload.length + 8) =
      payload ++ Envelope.fields e := by
    rw [Envelope.trailer, ← List.append_assoc]
    exact List.take_left' (by rw [List.length_append, Envelope.length_fields])
  have hlen : e.length.toNat = payload.length ↔ UInt16.ofNat payload.length = e.length := by
    rw [← UInt16.toNat_inj, UInt16.toNat_ofNat', Nat.mod_eq_of_lt h]
    exact eq_comm
  have hcrc : e.crc16.toNat = crc16 (payload ++ Envelope.fields e) ↔
      Crc16.update (payload ++ Envelope.fields e) = e.crc16 := by
    rw [crc16_eq, UInt16.toNat_inj]
    exact eq_comm
  simp only [getEnvelope, hlength, if_neg (Nat.not_lt.mpr (Nat.le_add_left 10 payload.length)),
    Nat.add_sub_cancel, hdrop, unpack_trailer, show payload.length + 10 - 2 = payload.length + 8 by omega,
    htake]
  by_cases hstamp : e = Envelope.stamp payload e
  · obtain ⟨hcrc', hlen'⟩ := Envelope.eq_stamp_iff.mp hstamp
    have htoNat := hlen.mpr hlen'
    rw [if_pos hstamp, if_neg (not_not.mpr htoNat), if_neg (not_not.mpr (hcrc.mpr hcrc')), htoNat,
      List.take_left' rfl]
  · rw [if_neg hstamp]
    by_cases htoNat : e.length.toNat = payload.length
    · have hne : e.crc16.toNat ≠ crc16 (payload ++ Envelope.fields e) := by
        intro he
        exact hstamp (Envelope.eq_stamp_iff.mpr ⟨hcrc.mp he, hlen.mp htoNat⟩)
      rw [if_neg (not_not.mpr htoNat), if_pos hne]
    · rw [if_pos htoNat]

end Transport
end Firefly
