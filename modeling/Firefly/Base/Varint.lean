import Firefly.Base.Varuint

/-!
# Firefly.Base.Varint

Numbers of 64 bits, put and taken again. `fd_binary_put_varint` puts a number with a sign as one without:
the patterns of the code are those of `Equiv.intEquivNat`. The check of `fd_binary_get_varuint` is for the
three top bits of the value so far, after every group but the last one. It takes a number whose tenth group
is its top bit for one that does not fit, unless the two bits below are clear (`returns_iff`).
-/

namespace Firefly
namespace Binary

/-- `zig_zag` of `fd_binary_put_varint`. -/
def zigZag (value : Int64) : UInt64 :=
  if value < 0 then value.toUInt64 <<< 1 ^^^ 0xffffffffffffffff else value.toUInt64 <<< 1

def putVarint (b : Binary) (value : Int64) : Binary := b.putVaruint (zigZag value).toNat

/-- `bit_pattern` of `fd_binary_get_varint`. -/
def bitPattern (zigZag : UInt64) : UInt64 :=
  if zigZag &&& 0x0000000000000001 ≠ 0 then zigZag >>> 1 ^^^ 0xffffffffffffffff else zigZag >>> 1

def getVarint (b : Binary) : Int64 × Binary := ((bitPattern b.getVaruint.1).toInt64, b.getVaruint.2)

/-- What was put is what is taken, without an error, and nothing else is consumed. -/
structure Returns (b : Binary) (value : UInt64) : Prop where
  returned : (b.putVaruint value.toNat).getVaruint.1 = value
  errors : (b.putVaruint value.toNat).getVaruint.2.errors = b.errors
  consumed : (b.putVaruint value.toNat).getVaruint.2.getIndex = (b.putVaruint value.toNat).putIndex

structure ReturnsSigned (b : Binary) (value : Int64) : Prop where
  returned : (b.putVarint value).getVarint.1 = value
  errors : (b.putVarint value).getVarint.2.errors = b.errors

/-! ## Signs -/

theorem toNat_xor_ones (x : UInt64) : (x ^^^ 0xffffffffffffffff).toNat = 2 ^ 64 - 1 - x.toNat := by
  have hones : (0xffffffffffffffff : UInt64) = -1 := rfl
  rw [hones, UInt64.xor_neg_one, UInt64.toNat_not]
  rfl

theorem toInt_eq (value : Int64) : value.toInt =
    if 2 * value.toUInt64.toNat < 2 ^ 64 then (value.toUInt64.toNat : Int) else value.toUInt64.toNat - 2 ^ 64 :=
  BitVec.toInt_eq_toNat_cond value.toBitVec

theorem toNat_zigZag (value : Int64) : (zigZag value).toNat = Equiv.intEquivNat value.toInt := by
  have hint := toInt_eq value
  have hlt := value.toUInt64.toNat_lt
  have hshift : (value.toUInt64 <<< 1).toNat = 2 * value.toUInt64.toNat % 2 ^ 64 := by
    rw [UInt64.toNat_shiftLeft, Nat.shiftLeft_eq, Nat.mul_comm]
    rfl
  have hiff : value < 0 ↔ value.toInt < 0 := Int64.lt_iff_toInt_lt
  rw [Varint.intEquivNat_eq, zigZag]
  by_cases hneg : value.toInt < 0
  · rw [if_pos (hiff.mpr hneg), if_pos hneg, toNat_xor_ones, hshift]
    split at hint <;> omega
  · rw [if_neg (mt hiff.mp hneg), if_neg hneg, hshift]
    split at hint <;> omega

theorem toNat_bitPattern (x : UInt64) : (bitPattern x).toNat =
    if x.toNat % 2 = 1 then 2 ^ 64 - 1 - x.toNat / 2 else x.toNat / 2 := by
  have hshift : (x >>> 1).toNat = x.toNat / 2 := by
    rw [UInt64.toNat_shiftRight, Nat.shiftRight_eq_div_pow]
    rfl
  have hodd : x &&& 0x0000000000000001 ≠ 0 ↔ x.toNat % 2 = 1 := by
    have hand : (x &&& 0x0000000000000001).toNat = x.toNat % 2 := by
      rw [UInt64.toNat_and]
      exact Nat.and_two_pow_sub_one_eq_mod x.toNat 1
    rw [ne_eq, ← UInt64.toNat_inj, hand, UInt64.toNat_zero]
    omega
  rw [bitPattern]
  by_cases h : x.toNat % 2 = 1
  · rw [if_pos (hodd.mpr h), if_pos h, toNat_xor_ones, hshift]
  · rw [if_neg (mt hodd.mp h), if_neg h, hshift]

theorem toInt_bitPattern (x : UInt64) : (bitPattern x).toInt64.toInt = Equiv.intEquivNat.symm x.toNat := by
  have hint := toInt_eq (bitPattern x).toInt64
  have hpattern : (bitPattern x).toInt64.toUInt64 = bitPattern x := rfl
  have hlt := x.toNat_lt
  rw [hpattern, toNat_bitPattern] at hint
  rw [Equiv.eq_symm_apply, Varint.intEquivNat_eq]
  split at hint <;> split at hint <;> split <;> omega

theorem bitPattern_zigZag (value : Int64) : (bitPattern (zigZag value)).toInt64 = value := by
  apply Int64.toInt_inj.mp
  rw [toInt_bitPattern, toNat_zigZag, Equiv.symm_apply_apply]

/-! ## Round trips -/

variable {b : Binary} {bs cs : List UInt8}

theorem append_append (h : b.putIndex + (cs ++ bs).length ≤ b.size) :
    (b.append cs).append bs = b.append (cs ++ bs) := by
  rw [List.length_append] at h
  have hindex : (b.putIndex + cs.length) % 2 ^ 32 = b.putIndex + cs.length :=
    mod_eq_of_le_size (b := b) (by omega)
  simp only [append, hindex, Memory.write_write, List.length_append, Nat.add_assoc]

/-- With room for all of the fields, they are put one behind the other. -/
theorem putAll_eq_append {fields : List (List UInt8)} (h : b.putIndex + fields.flatten.length ≤ b.size) :
    b.putAll fields = b.append fields.flatten := by
  induction fields generalizing b with
  | nil =>
    have hindex : b.putIndex % 2 ^ 32 = b.putIndex := mod_eq_of_le_size h
    rw [List.flatten_nil, append, Memory.write_nil, List.length_nil, Nat.add_zero, hindex]
    rfl
  | cons field fields ih =>
    have hroom := h
    rw [List.flatten_cons, List.length_append] at hroom
    have hindex : (b.append field).putIndex = b.putIndex + field.length :=
      mod_eq_of_le_size (b := b) (by omega)
    have hput : b.putBytes field = b.append field := by
      rw [putBytes, if_pos (putCheck_of_le (by omega))]
    have hrest : (b.append field).putIndex + fields.flatten.length ≤ (b.append field).size := by
      rw [hindex, Nat.add_assoc]
      exact hroom
    calc b.putAll (field :: fields)
        = (b.putBytes field).putAll fields := rfl
      _ = (b.append field).append fields.flatten := by rw [hput, ih hrest]
      _ = b.append (field :: fields).flatten := append_append h

theorem putVaruint_eq_append (value : UInt64) (hroom : b.putIndex + 10 ≤ b.size) :
    b.putVaruint value.toNat = b.append (Varint.encode value.toNat) ∧
      (Varint.encode value.toNat).length ≤ 10 := by
  have hlt : value.toNat < 128 ^ 10 := Nat.lt_trans value.toNat_lt (by decide)
  have hlength := Varint.length_groups_le 9 value.toNat
  rw [Varint.groups_eq_encode hlt] at hlength
  have hflatten : ((Varint.encode value.toNat).map fun x => [x]).flatten = Varint.encode value.toNat := by
    rw [← List.flatMap_def, List.flatMap_singleton']
  refine ⟨?_, hlength⟩
  rw [putVaruint_eq hlt, putAll_eq_append (by rw [hflatten]; omega), hflatten]

/-- What has just been put is what comes next. -/
theorem unread_append (h : b.getIndex = b.putIndex) (hroom : b.putIndex + cs.length ≤ b.size) :
    (b.append cs).Unread cs := by
  refine ⟨?_, h ▸ hroom⟩
  show (b.buffer.write b.putIndex cs).read b.getIndex cs.length = cs
  rw [h, Memory.read_write]

theorem getVaruint_putVaruint (h : b.getIndex = b.putIndex) (hroom : b.putIndex + 10 ≤ b.size) {value : UInt64}
    (hlt : value.toNat < 2 ^ 63 + 2 ^ 61) :
    (b.putVaruint value.toNat).getVaruint =
      (value, { b.putVaruint value.toNat with getIndex := (b.putVaruint value.toNat).putIndex }) := by
  obtain ⟨hput, hlength⟩ := putVaruint_eq_append value hroom
  have hunread : (b.append (Varint.encode value.toNat)).Unread (Varint.encode value.toNat ++ []) := by
    rw [List.append_nil]
    exact unread_append h (by omega)
  rw [hput, hunread.getVaruint hlt, UInt64.ofNat_toNat]
  simp only [skip, append, h]

theorem getVaruint_putVaruint_refused (h : b.getIndex = b.putIndex) (hroom : b.putIndex + 10 ≤ b.size)
    {value : UInt64} (hle : 2 ^ 63 + 2 ^ 61 ≤ value.toNat) : (b.putVaruint value.toNat).getVaruint.1 = 0 := by
  obtain ⟨hput, hlength⟩ := putVaruint_eq_append value hroom
  have hunread : (b.append (Varint.encode value.toNat)).Unread (Varint.encode value.toNat ++ []) := by
    rw [List.append_nil]
    exact unread_append h (by omega)
  rw [hput]
  exact hunread.getVaruint_refused hle value.toNat_lt

theorem errors_putVaruint (hroom : b.putIndex + 10 ≤ b.size) (value : UInt64) :
    (b.putVaruint value.toNat).errors = b.errors := by
  rw [(putVaruint_eq_append value hroom).1]
  rfl

theorem returns_unsigned_iff (h : b.getIndex = b.putIndex) (hroom : b.putIndex + 10 ≤ b.size) (value : UInt64) :
    b.Returns value ↔ value.toNat < 2 ^ 63 + 2 ^ 61 := by
  constructor
  · intro hreturns
    by_contra hge
    have hvalue := hreturns.returned
    rw [getVaruint_putVaruint_refused h hroom (Nat.le_of_not_lt hge)] at hvalue
    subst hvalue
    exact hge (by decide)
  · intro hlt
    have hget := getVaruint_putVaruint h hroom hlt
    constructor
    · rw [hget]
    · rw [hget]
      exact errors_putVaruint hroom value
    · rw [hget]

theorem returns_signed_iff (h : b.getIndex = b.putIndex) (hroom : b.putIndex + 10 ≤ b.size) (value : Int64) :
    b.ReturnsSigned value ↔ -(2 ^ 62 + 2 ^ 60) ≤ value.toInt ∧ value.toInt < 2 ^ 62 + 2 ^ 60 := by
  have hbound : (zigZag value).toNat < 2 ^ 63 + 2 ^ 61 ↔
      -(2 ^ 62 + 2 ^ 60) ≤ value.toInt ∧ value.toInt < 2 ^ 62 + 2 ^ 60 := by
    rw [toNat_zigZag]
    exact Varint.intEquivNat_lt_iff value.toInt (2 ^ 62 + 2 ^ 60)
  rw [← hbound]
  constructor
  · intro hreturns
    by_contra hge
    have hvalue := hreturns.returned
    rw [getVarint, putVarint, getVaruint_putVaruint_refused h hroom (Nat.le_of_not_lt hge)] at hvalue
    have hzero : (bitPattern 0).toInt64 = value := hvalue
    subst hzero
    exact hge (by decide)
  · intro hlt
    have hget := getVaruint_putVaruint h hroom hlt
    constructor
    · rw [getVarint, putVarint, hget]
      exact bitPattern_zigZag value
    · rw [getVarint, putVarint, hget]
      exact errors_putVaruint hroom (zigZag value)

/-- With room for ten bytes: the numbers that come back are those whose two bits below the top bit are clear
where the top bit is set, and the numbers with a sign that are put as such. -/
theorem returns_iff (h : b.getIndex = b.putIndex) (hroom : b.putIndex + 10 ≤ b.size) :
    (∀ value, b.Returns value ↔ value.toNat < 2 ^ 63 + 2 ^ 61) ∧
      ∀ value, b.ReturnsSigned value ↔ -(2 ^ 62 + 2 ^ 60) ≤ value.toInt ∧ value.toInt < 2 ^ 62 + 2 ^ 60 :=
  ⟨returns_unsigned_iff h hroom, returns_signed_iff h hroom⟩

/-- A buffer of ten bytes. -/
def sampleBinary : Binary := initializeWith (fun _ => 0) 10

theorem returns_sample : sampleBinary.Returns 0x8000000000000000 ∧ sampleBinary.ReturnsSigned (-300) := by
  have hreturns := returns_iff (b := sampleBinary) rfl (by decide)
  exact ⟨(hreturns.1 _).mpr (by decide), (hreturns.2 _).mpr (by decide)⟩

/-- The largest number and the least one are refused. -/
theorem not_returns_sample :
    (sampleBinary.putVaruint (0xffffffffffffffff : UInt64).toNat).getVaruint.2.errors =
        errorInvalidRepresentation ∧
      ¬ sampleBinary.Returns 0xffffffffffffffff ∧ ¬ sampleBinary.ReturnsSigned Int64.minValue := by
  refine ⟨by decide, ?_, ?_⟩
  · intro h
    exact absurd h.returned (by decide)
  · intro h
    exact absurd h.returned (by decide)

end Binary
end Firefly
