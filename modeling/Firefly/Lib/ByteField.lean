import Firefly.Lib.CrcPolynomial
import Mathlib.Tactic.LinearCombination

/-!
# Firefly.Lib.ByteField

Bytes as the elements of the field with 256 elements: the bits of a byte are the coefficients of a
polynomial over the field of two elements, modulo `X ^ 8 + X ^ 4 + X ^ 3 + X + 1` (`element`). The sum is
the exclusive or, and `times` computes the product with the shift of the register of a cyclic redundancy
check, which is the product with `X`. Every byte but zero has an inverse (`times_inverse`).
-/

namespace ByteField

open Crc Polynomial

/-- The modulus without its leading term. -/
def modulus : BitVec 8 := 0x1b

abbrev Element := AdjoinRoot (generator modulus)

noncomputable def element (b : UInt8) : Element := residue modulus (word b.toBitVec)

/-- The product with `X`. -/
def double (b : UInt8) : UInt8 := ⟨shift modulus b.toBitVec⟩

/-- A further bit of the second factor, after the more significant ones. -/
def timesStep (a b s : UInt8) (i : Nat) : UInt8 :=
  if b.toBitVec.getLsbD i then double s ^^^ a else double s

def times (a b : UInt8) : UInt8 := [7, 6, 5, 4, 3, 2, 1, 0].foldl (timesStep a b) 0

def inverses : List UInt8 :=
  [ 0x00, 0x01, 0x8d, 0xf6, 0xcb, 0x52, 0x7b, 0xd1, 0xe8, 0x4f, 0x29, 0xc0, 0xb0, 0xe1, 0xe5, 0xc7,
    0x74, 0xb4, 0xaa, 0x4b, 0x99, 0x2b, 0x60, 0x5f, 0x58, 0x3f, 0xfd, 0xcc, 0xff, 0x40, 0xee, 0xb2,
    0x3a, 0x6e, 0x5a, 0xf1, 0x55, 0x4d, 0xa8, 0xc9, 0xc1, 0x0a, 0x98, 0x15, 0x30, 0x44, 0xa2, 0xc2,
    0x2c, 0x45, 0x92, 0x6c, 0xf3, 0x39, 0x66, 0x42, 0xf2, 0x35, 0x20, 0x6f, 0x77, 0xbb, 0x59, 0x19,
    0x1d, 0xfe, 0x37, 0x67, 0x2d, 0x31, 0xf5, 0x69, 0xa7, 0x64, 0xab, 0x13, 0x54, 0x25, 0xe9, 0x09,
    0xed, 0x5c, 0x05, 0xca, 0x4c, 0x24, 0x87, 0xbf, 0x18, 0x3e, 0x22, 0xf0, 0x51, 0xec, 0x61, 0x17,
    0x16, 0x5e, 0xaf, 0xd3, 0x49, 0xa6, 0x36, 0x43, 0xf4, 0x47, 0x91, 0xdf, 0x33, 0x93, 0x21, 0x3b,
    0x79, 0xb7, 0x97, 0x85, 0x10, 0xb5, 0xba, 0x3c, 0xb6, 0x70, 0xd0, 0x06, 0xa1, 0xfa, 0x81, 0x82,
    0x83, 0x7e, 0x7f, 0x80, 0x96, 0x73, 0xbe, 0x56, 0x9b, 0x9e, 0x95, 0xd9, 0xf7, 0x02, 0xb9, 0xa4,
    0xde, 0x6a, 0x32, 0x6d, 0xd8, 0x8a, 0x84, 0x72, 0x2a, 0x14, 0x9f, 0x88, 0xf9, 0xdc, 0x89, 0x9a,
    0xfb, 0x7c, 0x2e, 0xc3, 0x8f, 0xb8, 0x65, 0x48, 0x26, 0xc8, 0x12, 0x4a, 0xce, 0xe7, 0xd2, 0x62,
    0x0c, 0xe0, 0x1f, 0xef, 0x11, 0x75, 0x78, 0x71, 0xa5, 0x8e, 0x76, 0x3d, 0xbd, 0xbc, 0x86, 0x57,
    0x0b, 0x28, 0x2f, 0xa3, 0xda, 0xd4, 0xe4, 0x0f, 0xa9, 0x27, 0x53, 0x04, 0x1b, 0xfc, 0xac, 0xe6,
    0x7a, 0x07, 0xae, 0x63, 0xc5, 0xdb, 0xe2, 0xea, 0x94, 0x8b, 0xc4, 0xd5, 0x9d, 0xf8, 0x90, 0x6b,
    0xb1, 0x0d, 0xd6, 0xeb, 0xc6, 0x0e, 0xcf, 0xad, 0x08, 0x4e, 0xd7, 0xe3, 0x5d, 0x50, 0x1e, 0xb3,
    0x5b, 0x23, 0x38, 0x34, 0x68, 0x46, 0x03, 0x8c, 0xdd, 0x9c, 0x7d, 0xa0, 0xcd, 0x1a, 0x41, 0x1c ]

def inverse (b : UInt8) : UInt8 := inverses.getD b.toNat 0

theorem element_injective : Function.Injective element := by
  intro a b h
  have hdegree : ∀ c : UInt8, (word c.toBitVec).degree < (generator modulus).degree := by
    intro c
    rw [degree_generator]
    exact degree_word_lt _
  have hword : word a.toBitVec = word b.toBitVec := by
    have hmod := modByMonic_eq_of_dvd_sub (generator_monic modulus) (AdjoinRoot.mk_eq_mk.mp h)
    rwa [(modByMonic_eq_self_iff (generator_monic modulus)).mpr (hdegree a),
      (modByMonic_eq_self_iff (generator_monic modulus)).mpr (hdegree b)] at hmod
  apply UInt8.toBitVec_inj.mp
  apply BitVec.eq_of_getLsbD_eq
  intro i _
  rw [← coefficient_inj, ← coeff_word, hword, coeff_word]

@[simp] theorem element_zero : element 0 = 0 := by
  have hzero : (0 : UInt8).toBitVec = 0#8 := rfl
  rw [element, hzero, word_zero, map_zero]

theorem element_xor (a b : UInt8) : element (a ^^^ b) = element a + element b := by
  rw [element, UInt8.toBitVec_xor, word_xor, map_add]
  rfl

/-- `X` itself. -/
noncomputable def root : Element := element 2

theorem element_two_pow {i : Nat} (h : i < 8) : element ⟨BitVec.twoPow 8 i⟩ = root ^ i := by
  have htwo : (2 : UInt8).toBitVec = BitVec.twoPow 8 1 := rfl
  rw [root, element, element, word_twoPow h, htwo, word_twoPow (by decide), pow_one, ← map_pow]

@[simp] theorem element_one : element 1 = 1 := element_two_pow (i := 0) (by decide)

theorem element_double (b : UInt8) : element (double b) = root * element b := by
  have htwo : (2 : UInt8).toBitVec = BitVec.twoPow 8 1 := rfl
  rw [element, double, residue_shift, map_mul, mul_comm, root, element, element, htwo,
    word_twoPow (by decide), pow_one]

theorem residue_coefficient (b : Bool) : residue modulus (C (coefficient b)) = if b then 1 else 0 := by
  cases b with
  | false => simp
  | true => simp

/-- A byte is the sum of the powers that it has. -/
theorem element_eq_sum (b : UInt8) :
    element b = ∑ i ∈ Finset.range 8, (if b.toBitVec.getLsbD i then 1 else 0) * root ^ i := by
  have hdegree : (word b.toBitVec).natDegree < 8 := by
    have hlt := degree_word_lt b.toBitVec
    by_cases hzero : word b.toBitVec = 0
    · simp [hzero]
    · exact (natDegree_lt_iff_degree_lt hzero).mpr hlt
  have hroot : ∀ i, residue modulus (X ^ i) = root ^ i := by
    intro i
    rw [map_pow, root, element, show (2 : UInt8).toBitVec = BitVec.twoPow 8 1 from rfl,
      word_twoPow (by decide), pow_one]
  rw [element, as_sum_range_C_mul_X_pow' _ hdegree, map_sum]
  refine Finset.sum_congr rfl fun i _ => ?_
  rw [map_mul, coeff_word, residue_coefficient, hroot]

theorem element_timesStep (a b s : UInt8) (i : Nat) : element (timesStep a b s i) =
    root * element s + (if b.toBitVec.getLsbD i then 1 else 0) * element a := by
  rw [timesStep]
  split
  · rw [element_xor, element_double, one_mul]
  · rw [element_double, zero_mul, add_zero]

theorem element_times (a b : UInt8) : element (times a b) = element a * element b := by
  rw [element_eq_sum b, times]
  simp only [List.foldl_cons, List.foldl_nil, element_timesStep, element_zero, Finset.sum_range_succ,
    Finset.sum_range_zero]
  ring

theorem times_inverse_table : ∀ i < 256, i ≠ 0 → times (UInt8.ofNat i) (inverse (UInt8.ofNat i)) = 1 := by
  decide +kernel

theorem times_inverse {b : UInt8} (h : b ≠ 0) : times b (inverse b) = 1 := by
  have htable := times_inverse_table b.toNat b.toNat_lt (by simpa [← UInt8.toNat_inj] using h)
  rwa [UInt8.ofNat_toNat] at htable

@[simp] theorem inverse_zero : inverse 0 = 0 := by decide +kernel

/-- The inverse of a byte other than zero is the only one with the product 1. -/
theorem eq_inverse {b c : UInt8} (h : times b c = 1) : c = inverse b := by
  have hne : b ≠ 0 := by
    rintro rfl
    have hone := congrArg element h
    rw [element_times, element_zero, zero_mul, ← element_zero] at hone
    exact absurd (element_injective hone) (by decide)
  apply element_injective
  have hc := congrArg element h
  have hinverse := congrArg element (times_inverse hne)
  rw [element_times, element_one] at hc hinverse
  calc element c = element c * (element b * element (inverse b)) := by rw [hinverse, mul_one]
    _ = element b * element c * element (inverse b) := by ring
    _ = element (inverse b) := by rw [hc, one_mul]

theorem inverse_inverse (b : UInt8) : inverse (inverse b) = b := by
  by_cases hzero : b = 0
  · rw [hzero, inverse_zero, inverse_zero]
  · have hone : times (inverse b) b = 1 := by
      apply element_injective
      rw [element_times, mul_comm, ← element_times, times_inverse hzero]
    exact (eq_inverse hone).symm

end ByteField
