import Firefly.Base.Packing
import Firefly.Lib.Bytes
import Firefly.Lib.Varint
import Mathlib.Data.Nat.Size

/-!
# Firefly.Base.Delta

`fd_delta.c` and its counterpart `api/python/delta.py`: the numbers of an array as the first one and the
differences between neighbours, each with its sign folded in and in as many bits as the largest needs.

The encoder and the objects are in separate memories. A number that is out of the range of 32 bits with a
sign is undefined in C; it is taken modulo `2 ^ 32` here, and with fields of 16 bits there is none.
-/

namespace Firefly
namespace Delta

open Bit

/-- `__builtin_clz`, of a number that is not zero. -/
def clz (value : UInt32) : Nat := 31 - Nat.log2 value.toNat

/-- `fd_delta_get_resolution`. -/
def getResolution (value : UInt32) : Nat := if value = 0 then 0 else 32 - clz value

/-- `fd_delta_zigzag_encode`. -/
def zigzagEncode (value : Int32) : UInt32 := ((2 * value : Int32) ^^^ (value >>> 31 : Int32)).toUInt32

/-- `fd_delta_zigzag_decode`. -/
def zigzagDecode (value : UInt32) : Int32 := (value >>> 1 ^^^ -(value &&& 1)).toInt32

/-- `fd_delta_parameters_t`. -/
structure Parameters where
  valueResolution : Nat
  deltaResolution : Nat

/-- `fd_delta_array_t`. -/
structure Array where
  objects : UInt32
  count : UInt32
  objectSize : UInt32
  fieldOffset : UInt32
  fieldSize : UInt32

namespace Array

/-- The address of the field of an object. -/
def field (a : Array) (index : UInt32) : Nat := (a.objects + a.objectSize * index + a.fieldOffset).toNat

/-- The indices behind the first one, in their order. -/
def rest (a : Array) : List UInt32 := (List.range' 1 (a.count.toNat - 1)).map UInt32.ofNat

theorem indices_eq (a : Array) (h : 0 < a.count) : 0 :: a.rest = (List.range a.count.toNat).map UInt32.ofNat := by
  have hpos : 0 < a.count.toNat := UInt32.lt_iff_toNat_lt.mp h
  obtain ⟨k, hk⟩ := Nat.exists_eq_add_of_lt hpos
  rw [Nat.zero_add] at hk
  rw [rest, hk, Nat.add_sub_cancel, List.range_eq_range', List.range'_succ, List.map_cons]
  rfl

theorem mem_indices (a : Array) {i : UInt32} (hi : i < a.count) : i ∈ 0 :: a.rest := by
  have hpos : 0 < a.count := UInt32.lt_of_le_of_lt (UInt32.zero_le) hi
  rw [indices_eq a hpos, List.mem_map]
  exact ⟨i.toNat, List.mem_range.mpr (UInt32.lt_iff_toNat_lt.mp hi), UInt32.ofNat_toNat⟩

theorem lt_of_mem_indices (a : Array) (h : 0 < a.count) {i : UInt32} (hi : i ∈ 0 :: a.rest) : i < a.count := by
  rw [indices_eq a h, List.mem_map] at hi
  obtain ⟨k, hk, rfl⟩ := hi
  have hlt := a.count.toNat_lt
  have hk := List.mem_range.mp hk
  rw [UInt32.lt_iff_toNat_lt, UInt32.toNat_ofNat', Nat.mod_eq_of_lt (by omega)]
  exact hk

end Array

/-- `fd_delta_get_value`, and whether the field size is supported. -/
def getValue (m : Memory) (a : Array) (index : UInt32) : Int32 × Bool :=
  let field := a.field index
  if a.fieldSize = 4 then ((UInt32.ofNat (Bytes.leNat (m.read field 4))).toInt32, true)
  else if a.fieldSize = 2 then ((UInt16.ofNat (Bytes.leNat (m.read field 2))).toInt16.toInt32, true)
  else if a.fieldSize = 1 then ((m field).toUInt32.toInt32, true)
  else (0, false)

/-- `fd_delta_set_value`. The assertion is reached with a field of one byte as well. -/
def setValue (m : Memory) (a : Array) (index : UInt32) (value : Int32) : Memory × Bool :=
  let field := a.field index
  if a.fieldSize = 4 then (m.write field (Bytes.leBytes 4 value.toUInt32.toNat), true)
  else if a.fieldSize = 2 then (m.write field (Bytes.leBytes 2 value.toUInt32.toUInt16.toNat), true)
  else if a.fieldSize = 1 then (m.write field [value.toUInt32.toUInt8], false)
  else (m, false)

/-- The loop of `fd_delta_get_delta_resolution`. -/
def maxResolution (m : Memory) (a : Array) : List UInt32 → Nat → Int32 → Nat
  | [], resolution, _ => resolution
  | i :: is, resolution, previousValue =>
    let value := (getValue m a i).1
    let encodedDeltaResolution := getResolution (zigzagEncode (value - previousValue))
    maxResolution m a is
      (if encodedDeltaResolution > resolution then encodedDeltaResolution else resolution) value

/-- `fd_delta_get_delta_resolution`. -/
def getDeltaResolution (m : Memory) (a : Array) : Nat := maxResolution m a a.rest 0 (getValue m a 0).1

/-- The loop of `fd_delta_encode`. -/
def encodeDeltas (wide : Nat → Nat) (m : Memory) (a : Array) (deltaResolution : Nat) :
    List UInt32 → Encoder → Int32 → Encoder
  | [], e, _ => e
  | i :: is, e, previousValue =>
    let (value, supported) := getValue m a i
    let encodedDelta := zigzagEncode (value - previousValue)
    let e := (e.assert supported).assert (getResolution encodedDelta ≤ deltaResolution)
    encodeDeltas wide m a deltaResolution is (e.write wide encodedDelta.toNat deltaResolution) value

/-- `fd_delta_encode`. -/
def encode (wide : Nat → Nat) (e : Encoder) (m : Memory) (a : Array) (p : Parameters) : Bool × Encoder :=
  let (previousValue, supported) := getValue m a 0
  let e := (e.assert supported).write wide (zigzagEncode previousValue).toNat p.valueResolution
  if p.deltaResolution = 0 then (!e.overflow, e)
  else
    let e := encodeDeltas wide m a p.deltaResolution a.rest e previousValue
    (!e.overflow, e)

/-- The loop of `fd_delta_decode` for an array whose numbers are all the same. -/
def setAll (a : Array) (value : Int32) : List UInt32 → Decoder → Memory → Decoder × Memory
  | [], d, m => (d, m)
  | i :: is, d, m =>
    let (m, supported) := setValue m a i value
    setAll a value is (d.assert supported) m

/-- The loop of `fd_delta_decode`. -/
def decodeDeltas (a : Array) (deltaResolution : Nat) :
    List UInt32 → Decoder → Memory → Int32 → Decoder × Memory
  | [], d, m, _ => (d, m)
  | i :: is, d, m, previousValue =>
    let (encodedDelta, d) := d.read deltaResolution
    let value := previousValue + zigzagDecode (UInt32.ofNat encodedDelta)
    let (m, supported) := setValue m a i value
    decodeDeltas a deltaResolution is (d.assert supported) m value

/-- `fd_delta_decode`, which returns true. -/
def decode (d : Decoder) (m : Memory) (a : Array) (p : Parameters) : Decoder × Memory :=
  let (encodedValue, d) := d.read p.valueResolution
  let previousValue := zigzagDecode (UInt32.ofNat encodedValue)
  let (m, supported) := setValue m a 0 previousValue
  let d := d.assert supported
  if p.deltaResolution = 0 then setAll a previousValue a.rest d m
  else decodeDeltas a p.deltaResolution a.rest d m previousValue

/-! ## Signs and widths -/

theorem toNat_xor_ones (x : UInt32) : (x ^^^ 0xffffffff).toNat = 2 ^ 32 - 1 - x.toNat := by
  have hones : (0xffffffff : UInt32) = -1 := rfl
  rw [hones, UInt32.xor_neg_one, UInt32.toNat_not]
  rfl

theorem toInt_eq (value : Int32) : value.toInt =
    if 2 * value.toUInt32.toNat < 2 ^ 32 then (value.toUInt32.toNat : Int) else value.toUInt32.toNat - 2 ^ 32 :=
  BitVec.toInt_eq_toNat_cond value.toBitVec

/-- An arithmetic shift leaves the sign alone. -/
theorem shiftRight_sign (value : Int32) :
    (value >>> 31 : Int32).toUInt32 = if value.toInt < 0 then 0xffffffff else 0 := by
  have hint : (value >>> 31 : Int32).toInt = value.toInt >>> (31 : Nat) := by
    have h : (value >>> 31 : Int32).toBitVec = value.toBitVec.sshiftRight 31 := by simp
    rw [← Int32.toInt_toBitVec, h, BitVec.toInt_sshiftRight, Int32.toInt_toBitVec]
  have hpattern := toInt_eq (value >>> 31)
  have hvalue := toInt_eq value
  have hlt := value.toUInt32.toNat_lt
  have hlt' := (value >>> 31 : Int32).toUInt32.toNat_lt
  rw [Int.shiftRight_eq_div_pow] at hint
  apply UInt32.toNat_inj.mp
  by_cases hneg : value.toInt < 0
  · rw [if_pos hneg]
    have : (0xffffffff : UInt32).toNat = 2 ^ 32 - 1 := rfl
    split at hpattern <;> split at hvalue <;> omega
  · rw [if_neg hneg]
    have : (0 : UInt32).toNat = 0 := rfl
    split at hpattern <;> split at hvalue <;> omega

theorem toNat_zigzagEncode (value : Int32) : (zigzagEncode value).toNat = Equiv.intEquivNat value.toInt := by
  have hint := toInt_eq value
  have hlt := value.toUInt32.toNat_lt
  have htwice : (2 * value : Int32).toUInt32.toNat = 2 * value.toUInt32.toNat % 2 ^ 32 := by
    rw [Int32.toUInt32_mul, UInt32.toNat_mul]
    rfl
  rw [Varint.intEquivNat_eq, zigzagEncode, Int32.toUInt32_xor, shiftRight_sign]
  by_cases hneg : value.toInt < 0
  · rw [if_pos hneg, if_pos hneg, toNat_xor_ones, htwice]
    split at hint <;> omega
  · rw [if_neg hneg, if_neg hneg, UInt32.xor_zero, htwice]
    split at hint <;> omega

theorem neg_and_one (x : UInt32) : -(x &&& 1) = if x.toNat % 2 = 1 then 0xffffffff else 0 := by
  have hand : (x &&& 1).toNat = x.toNat % 2 := by
    rw [UInt32.toNat_and]
    exact Nat.and_two_pow_sub_one_eq_mod x.toNat 1
  by_cases h : x.toNat % 2 = 1
  · have hone : x &&& 1 = 1 := by
      apply UInt32.toNat_inj.mp
      rw [hand, h]
      rfl
    rw [if_pos h, hone]
    rfl
  · have hzero : x &&& 1 = 0 := by
      apply UInt32.toNat_inj.mp
      rw [hand, UInt32.toNat_zero]
      omega
    rw [if_neg h, hzero]
    rfl

theorem toInt_zigzagDecode (x : UInt32) : (zigzagDecode x).toInt = Equiv.intEquivNat.symm x.toNat := by
  have hint := toInt_eq (zigzagDecode x)
  have hpattern : (zigzagDecode x).toUInt32 = x >>> 1 ^^^ -(x &&& 1) := rfl
  have hshift : (x >>> 1).toNat = x.toNat / 2 := by
    rw [UInt32.toNat_shiftRight, Nat.shiftRight_eq_div_pow]
    rfl
  have hlt := x.toNat_lt
  rw [hpattern, neg_and_one] at hint
  rw [Equiv.eq_symm_apply, Varint.intEquivNat_eq]
  by_cases h : x.toNat % 2 = 1
  · rw [if_pos h, toNat_xor_ones, hshift] at hint
    split at hint <;> split <;> omega
  · rw [if_neg h, UInt32.xor_zero, hshift] at hint
    split at hint <;> split <;> omega

theorem zigzagDecode_zigzagEncode (value : Int32) : zigzagDecode (zigzagEncode value) = value := by
  apply Int32.toInt_inj.mp
  rw [toInt_zigzagDecode, toNat_zigzagEncode, Equiv.symm_apply_apply]

theorem getResolution_le_iff (value : UInt32) (n : Nat) : getResolution value ≤ n ↔ value.toNat < 2 ^ n := by
  rw [getResolution]
  by_cases hzero : value = 0
  · rw [if_pos hzero, hzero, UInt32.toNat_zero]
    exact ⟨fun _ => Nat.two_pow_pos n, fun _ => Nat.zero_le n⟩
  · have hne : value.toNat ≠ 0 := fun h => hzero (UInt32.toNat_inj.mp h)
    have htop : value.toNat.log2 < 32 := (Nat.log2_lt hne).mpr value.toNat_lt
    rw [if_neg hzero, clz, ← Nat.log2_lt hne]
    omega

/-! ## Fields of 16 bits -/

variable {m m' : Memory} {a : Array} {index : UInt32}

theorem toUInt16_toInt32 (x : UInt16) : x.toInt16.toInt32.toUInt32.toUInt16 = x := by
  apply UInt16.toBitVec_inj.mp
  ext i hi
  simp [BitVec.getLsbD_signExtend, hi]
  omega

theorem getValue_of_two (h : a.fieldSize = 2) (m : Memory) (index : UInt32) :
    getValue m a index =
      ((UInt16.ofNat (Bytes.leNat (m.read (a.field index) 2))).toInt16.toInt32, true) := by
  have hne : ¬ a.fieldSize = 4 := by rw [h]; decide
  rw [getValue]
  simp only [if_neg hne, if_pos h]

theorem setValue_of_two (h : a.fieldSize = 2) (m : Memory) (index : UInt32) (value : Int32) :
    setValue m a index value =
      (m.write (a.field index) (Bytes.leBytes 2 value.toUInt32.toUInt16.toNat), true) := by
  have hne : ¬ a.fieldSize = 4 := by rw [h]; decide
  rw [setValue]
  simp only [if_neg hne, if_pos h]

theorem getValue_range (h : a.fieldSize = 2) (m : Memory) (index : UInt32) :
    -2 ^ 15 ≤ (getValue m a index).1.toInt ∧ (getValue m a index).1.toInt < 2 ^ 15 := by
  rw [getValue_of_two h, Int16.toInt_toInt32]
  exact ⟨Int16.le_toInt _, Int16.toInt_lt _⟩

/-- The number of a field, set again, brings its bytes back. -/
theorem setValue_getValue (h : a.fieldSize = 2) (m m' : Memory) (index : UInt32) :
    setValue m' a index (getValue m a index).1 =
      (m'.write (a.field index) (m.read (a.field index) 2), true) := by
  have hpow : 256 ^ 2 = 2 ^ 16 := by decide
  have hlt := Bytes.leNat_lt (m.read (a.field index) 2)
  have hle := Bytes.leBytes_leNat (m.read (a.field index) 2)
  rw [Memory.length_read, hpow] at hlt
  rw [Memory.length_read] at hle
  rw [setValue_of_two h, getValue_of_two h, toUInt16_toInt32, UInt16.toNat_ofNat', Nat.mod_eq_of_lt hlt, hle]

theorem getValue_congr (h : a.fieldSize = 2)
    (heq : m'.read (a.field index) 2 = m.read (a.field index) 2) : getValue m' a index = getValue m a index := by
  rw [getValue_of_two h, getValue_of_two h, heq]

/-! ## The numbers of bits -/

variable {wide : Nat → Nat} {e : Encoder} {n : Nat} {is : List UInt32} {previousValue : Int32}

/-- The numbers at the indices. -/
def values (m : Memory) (a : Array) (is : List UInt32) : List Int32 := is.map fun i => (getValue m a i).1

/-- The differences between neighbours, each in `n` bits. -/
def deltas (n : Nat) : Int32 → List Int32 → List (Nat × Nat)
  | _, [] => []
  | previousValue, value :: vs => ((zigzagEncode (value - previousValue)).toNat, n) :: deltas n value vs

/-- The resolution is the least one in which every difference fits. -/
theorem maxResolution_le_iff (resolution k : Nat) :
    maxResolution m a is resolution previousValue ≤ n ↔
      resolution ≤ n ∧ ∀ f ∈ deltas k previousValue (values m a is), f.1 < 2 ^ n := by
  induction is generalizing resolution previousValue with
  | nil =>
    constructor
    · intro h
      exact ⟨h, fun f hf => absurd hf List.not_mem_nil⟩
    · exact And.left
  | cons i is ih =>
    have hmax : ∀ x : Nat, (if x > resolution then x else resolution) ≤ n ↔ resolution ≤ n ∧ x ≤ n := by
      intro x
      split <;> omega
    have hcons : values m a (i :: is) = (getValue m a i).1 :: values m a is := rfl
    rw [maxResolution, ih, hmax, getResolution_le_iff, and_assoc, hcons, deltas, List.forall_mem_cons]

theorem toInt_sub_getValue (h : a.fieldSize = 2) (m : Memory) (i j : UInt32) :
    ((getValue m a i).1 - (getValue m a j).1).toInt = (getValue m a i).1.toInt - (getValue m a j).1.toInt := by
  have hi := getValue_range h m i
  have hj := getValue_range h m j
  rw [Int32.toInt_sub]
  apply Int.bmod_eq_of_le <;> omega

/-- A difference of two numbers of 16 bits has 17 bits with its sign. -/
theorem zigzagEncode_sub_lt (h : a.fieldSize = 2) (m : Memory) (i j : UInt32) :
    (zigzagEncode ((getValue m a i).1 - (getValue m a j).1)).toNat < 2 ^ 17 := by
  have hi := getValue_range h m i
  have hj := getValue_range h m j
  rw [toNat_zigzagEncode, toInt_sub_getValue h]
  have hrange := Varint.intEquivNat_lt_iff ((getValue m a i).1.toInt - (getValue m a j).1.toInt) (2 ^ 16)
  exact hrange.mpr (by omega)

theorem deltas_lt (h : a.fieldSize = 2) (m : Memory) (is : List UInt32) (i : UInt32) :
    ∀ f ∈ deltas n (getValue m a i).1 (values m a is), f.1 < 2 ^ 17 := by
  induction is generalizing i with
  | nil =>
    intro f hf
    cases hf
  | cons j is ih =>
    intro f hf
    cases hf with
    | head => exact zigzagEncode_sub_lt h m j i
    | tail _ hf => exact ih j f hf

theorem getDeltaResolution_le (h : a.fieldSize = 2) (m : Memory) : getDeltaResolution m a ≤ 17 :=
  (maxResolution_le_iff 0 0).mpr ⟨Nat.zero_le _, deltas_lt h m a.rest 0⟩

theorem deltas_widths (previousValue : Int32) (vs : List Int32) :
    (deltas n previousValue vs).map Prod.snd = List.replicate vs.length n := by
  induction vs generalizing previousValue with
  | nil => rfl
  | cons v vs ih => rw [deltas, List.map_cons, ih, List.length_cons, List.replicate_succ]

/-! ## Encoding -/

/-- The numbers that `fd_delta_encode` writes. -/
def fields (m : Memory) (a : Array) (p : Parameters) : List (Nat × Nat) :=
  ((zigzagEncode (getValue m a 0).1).toNat, p.valueResolution) ::
    if p.deltaResolution = 0 then []
    else deltas p.deltaResolution (getValue m a 0).1 (values m a a.rest)

theorem encodeDeltas_eq (h : a.fieldSize = 2)
    (hfit : ∀ f ∈ deltas n previousValue (values m a is), f.1 < 2 ^ n) :
    encodeDeltas wide m a n is e previousValue = e.writeAll wide (deltas n previousValue (values m a is)) := by
  induction is generalizing e previousValue with
  | nil => rfl
  | cons i is ih =>
    have hhead := hfit _ List.mem_cons_self
    have hassert : decide (getResolution (zigzagEncode ((getValue m a i).1 - previousValue)) ≤ n) = true :=
      decide_eq_true ((getResolution_le_iff _ _).mpr hhead)
    have hsupported : (getValue m a i).2 = true := by rw [getValue_of_two h]
    rw [encodeDeltas]
    simp only
    rw [Encoder.assert_eq_self _ hsupported, Encoder.assert_eq_self _ hassert]
    exact ih fun f hf => hfit f (List.mem_cons_of_mem _ hf)

theorem encode_eq (wide : Nat → Nat) (e : Encoder) (h : a.fieldSize = 2) {p : Parameters}
    (hp : p.deltaResolution = getDeltaResolution m a) :
    encode wide e m a p = (!(e.writeAll wide (fields m a p)).overflow, e.writeAll wide (fields m a p)) := by
  have hsupported : (getValue m a 0).2 = true := by rw [getValue_of_two h]
  have hfit := ((maxResolution_le_iff (m := m) (a := a) 0 p.deltaResolution).mp (Nat.le_of_eq hp.symm)).2
  rw [encode]
  simp only
  rw [Encoder.assert_eq_self _ hsupported]
  by_cases hzero : p.deltaResolution = 0
  · rw [if_pos hzero, fields, if_pos hzero]
    rfl
  · rw [if_neg hzero, fields, if_neg hzero, encodeDeltas_eq h hfit]
    rfl

theorem width_fields (m : Memory) (a : Array) (p : Parameters) :
    Bits.width (fields m a p) = p.valueResolution + (a.count.toNat - 1) * p.deltaResolution := by
  rw [fields, Bits.width_cons]
  by_cases hzero : p.deltaResolution = 0
  · rw [if_pos hzero, hzero, Bits.width_nil, Nat.mul_zero]
  · rw [if_neg hzero, Bits.width, deltas_widths, List.sum_replicate_nat, values, List.length_map, Array.rest,
      List.length_map, List.length_range']

/-! ## Decoding -/

variable {d : Decoder}

theorem add_difference (previousValue value : Int32) : previousValue + (value - previousValue) = value := by
  rw [Int32.add_comm, Int32.sub_add_cancel]

/-- A number that is read is the difference that was written. -/
theorem zigzagDecode_ofNat (value : Int32) :
    zigzagDecode (UInt32.ofNat (zigzagEncode value).toNat) = value := by
  rw [UInt32.ofNat_toNat, zigzagDecode_zigzagEncode]

theorem decodeDeltas_eq (h : a.fieldSize = 2) (hd : d.Offers (deltas n previousValue (values m a is)))
    (m' : Memory) :
    (decodeDeltas a n is d m' previousValue).1.assertCount = d.assertCount ∧
      (decodeDeltas a n is d m' previousValue).2 = m.restore 2 m' (is.map a.field) := by
  induction is generalizing d m' previousValue with
  | nil => exact ⟨rfl, rfl⟩
  | cons i is ih =>
    obtain ⟨hvalue, hrest, hassert⟩ := hd.read
    rw [decodeDeltas]
    simp only
    rw [hvalue, zigzagDecode_ofNat, add_difference, setValue_getValue h, Decoder.assert_eq_self _ rfl]
    obtain ⟨hcount, hmemory⟩ := ih hrest _
    exact ⟨hcount.trans hassert, hmemory⟩

/-- In an array whose differences have no bits all of the numbers are the same. -/
theorem values_eq_of_deltas_lt (hzero : ∀ f ∈ deltas n previousValue (values m a is), f.1 < 2 ^ 0) :
    ∀ i ∈ is, (getValue m a i).1 = previousValue := by
  induction is generalizing previousValue with
  | nil =>
    intro i hi
    cases hi
  | cons j is ih =>
    have hhead : zigzagEncode ((getValue m a j).1 - previousValue) = zigzagEncode 0 := by
      apply UInt32.toNat_inj.mp
      exact Nat.lt_one_iff.mp (hzero _ List.mem_cons_self)
    have hsub := congrArg zigzagDecode hhead
    rw [zigzagDecode_zigzagEncode, zigzagDecode_zigzagEncode] at hsub
    have heq : (getValue m a j).1 = previousValue := by
      rw [← add_difference previousValue (getValue m a j).1, hsub, Int32.add_zero]
    intro i hi
    cases hi with
    | head => exact heq
    | tail _ hi => exact (ih (fun f hf => hzero f (List.mem_cons_of_mem _ hf)) i hi).trans heq

theorem setAll_eq (h : a.fieldSize = 2) {value : Int32} (hsame : ∀ i ∈ is, (getValue m a i).1 = value) :
    setAll a value is d m' = (d, m.restore 2 m' (is.map a.field)) := by
  induction is generalizing m' with
  | nil => rfl
  | cons i is ih =>
    have hset := setValue_getValue h m m' i
    rw [hsame i List.mem_cons_self] at hset
    rw [setAll]
    simp only
    rw [hset, Decoder.assert_eq_self _ rfl]
    exact ih fun j hj => hsame j (List.mem_cons_of_mem _ hj)

/-- Decoding brings the bytes of every field back, and no others. -/
theorem decode_eq (h : a.fieldSize = 2) {p : Parameters} (hp : p.deltaResolution = getDeltaResolution m a)
    (hd : d.Offers (fields m a p)) (m' : Memory) :
    (decode d m' a p).1.assertCount = d.assertCount ∧
      (decode d m' a p).2 = m.restore 2 m' ((0 :: a.rest).map a.field) := by
  obtain ⟨hvalue, hrest, hassert⟩ := hd.read
  have hfit := ((maxResolution_le_iff (m := m) (a := a) 0 p.deltaResolution).mp (Nat.le_of_eq hp.symm)).2
  rw [decode]
  simp only
  rw [hvalue, zigzagDecode_ofNat, setValue_getValue h, Decoder.assert_eq_self _ rfl]
  by_cases hzero : p.deltaResolution = 0
  · rw [if_pos hzero]
    rw [hzero] at hfit
    rw [setAll_eq h (values_eq_of_deltas_lt hfit)]
    exact ⟨hassert, rfl⟩
  · rw [if_neg hzero] at hrest ⊢
    obtain ⟨hcount, hmemory⟩ := decodeDeltas_eq h hrest (m'.write (a.field 0) (m.read (a.field 0) 2))
    exact ⟨hcount.trans hassert, hmemory⟩

end Delta
end Firefly
