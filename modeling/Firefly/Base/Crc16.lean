import Firefly.Lib.Crc

/-!
# Firefly.Base.Crc16

`fd_crc16.c`: the check that frames carry, with the polynomial `0x11021`. The bits that leave the
register are kept in the upper half of a 32-bit variable, and dropped when the result is returned.
-/

namespace Firefly
namespace Crc16

/-- `x^16 + x^12 + x^5 + 1`, without the leading term. -/
def polynomial : BitVec 16 := 0x1021

def enter (crc : UInt32) (byte : UInt8) : UInt32 := crc ^^^ byte.toUInt32 <<< 8

def shift (crc : UInt32) : UInt32 :=
  let temp := crc <<< 1
  if crc &&& 0x8000 ≠ 0 then temp ^^^ 0x1021 else temp

/-- `fd_crc16_update`. -/
def update (data : List UInt8) : UInt16 :=
  (data.foldl (fun crc byte => shift^[8] (enter crc byte)) 0).toUInt16

theorem toBitVec_enter (crc : UInt32) (byte : UInt8) :
    (enter crc byte).toUInt16.toBitVec = Crc.enter crc.toUInt16.toBitVec byte := by
  apply BitVec.eq_of_getLsbD_eq
  intro i hi
  simp [enter, Crc.enter]

/-- The bit that leaves the register. -/
theorem top_iff (crc : UInt32) : crc &&& 0x8000 ≠ 0 ↔ crc.toUInt16.toBitVec.msb = true := by
  have hmask : (0x8000 : UInt32).toBitVec = BitVec.twoPow 32 15 := rfl
  have hne : BitVec.twoPow 32 15 ≠ 0#32 := by decide
  have hmsb : crc.toUInt16.toBitVec.msb = crc.toBitVec.getLsbD 15 := by
    simp [BitVec.msb_eq_getLsbD_last]
  rw [ne_eq, ← UInt32.toBitVec_inj, UInt32.toBitVec_and, hmask, BitVec.and_twoPow, hmsb]
  cases crc.toBitVec.getLsbD 15 with
  | false => simp
  | true => simpa using hne

theorem toBitVec_shift (crc : UInt32) :
    (shift crc).toUInt16.toBitVec = Crc.shift polynomial crc.toUInt16.toBitVec := by
  have hleft : (crc <<< 1).toUInt16.toBitVec = crc.toUInt16.toBitVec <<< 1 := by
    apply BitVec.eq_of_getLsbD_eq
    intro i hi
    simp
  rw [shift, Crc.shift]
  by_cases hmsb : crc.toUInt16.toBitVec.msb = true
  · rw [if_pos ((top_iff crc).mpr hmsb), if_pos hmsb, UInt32.toUInt16_xor, UInt16.toBitVec_xor, hleft]
    rfl
  · rw [if_neg (mt (top_iff crc).mp hmsb), if_neg hmsb, hleft]

theorem toBitVec_update (data : List UInt8) : (update data).toBitVec = Crc.crc polynomial data :=
  Crc.crc_eq_of_image (fun crc : UInt32 => crc.toUInt16.toBitVec) rfl toBitVec_enter toBitVec_shift data

end Crc16
end Firefly
