import Mathlib.Algebra.Ring.Nat
import Mathlib.Data.List.Basic

/-!
# Firefly.Lib.Bits

Strings of bits as numbers, the first bit in the lowest place. `pack` puts fields of given widths one
behind the other and `unpack` takes them apart again; a byte of the string is the remainder of a
quotient of the number.
-/

namespace Bits

/-- The number of a list of values with their widths. -/
def pack : List (Nat × Nat) → Nat
  | [] => 0
  | (v, n) :: fields => v + 2 ^ n * pack fields

def width (fields : List (Nat × Nat)) : Nat := (fields.map Prod.snd).sum

/-- The fields of the given widths. -/
def unpack (s : Nat) : List Nat → List Nat
  | [] => []
  | n :: ns => s % 2 ^ n :: unpack (s / 2 ^ n) ns

/-- The bits from place `8 * i` on, up to the next byte. -/
def byte (s i : Nat) : Nat := s / 2 ^ (8 * i) % 2 ^ 8

@[simp] theorem width_nil : width [] = 0 := rfl

@[simp] theorem width_cons (v n : Nat) (fields : List (Nat × Nat)) :
    width ((v, n) :: fields) = n + width fields := rfl

theorem unpack_pack {fields : List (Nat × Nat)} (h : ∀ f ∈ fields, f.1 < 2 ^ f.2) :
    unpack (pack fields) (fields.map Prod.snd) = fields.map Prod.fst := by
  induction fields with
  | nil => rfl
  | cons field fields ih =>
    obtain ⟨v, n⟩ := field
    have hv : v < 2 ^ n := h (v, n) List.mem_cons_self
    have hrest := ih fun f hf => h f (List.mem_cons_of_mem _ hf)
    rw [List.map_cons, List.map_cons, unpack, pack, Nat.add_mul_mod_self_left, Nat.mod_eq_of_lt hv,
      Nat.add_mul_div_left _ _ (Nat.two_pow_pos n), Nat.div_eq_of_lt hv, Nat.zero_add, hrest]

theorem add_mul_lt {s v o n : Nat} (hs : s < 2 ^ o) (hv : v < 2 ^ n) : s + 2 ^ o * v < 2 ^ (o + n) := by
  have hle : 2 ^ o * (v + 1) ≤ 2 ^ o * 2 ^ n := Nat.mul_le_mul_left _ hv
  rw [Nat.pow_add]
  rw [Nat.mul_succ] at hle
  omega

/-- What is put behind a byte leaves it as it is. -/
theorem byte_add_mul {s v o i : Nat} (h : 8 * (i + 1) ≤ o) : byte (s + 2 ^ o * v) i = byte s i := by
  obtain ⟨k, rfl⟩ := Nat.exists_eq_add_of_le h
  have hpow : 2 ^ (8 * (i + 1) + k) * v = 2 ^ (8 * i) * (2 ^ 8 * (2 ^ k * v)) := by
    rw [Nat.mul_succ, Nat.pow_add, Nat.pow_add, Nat.mul_assoc, Nat.mul_assoc]
  rw [byte, byte, hpow, Nat.add_mul_div_left _ _ (Nat.two_pow_pos _), Nat.add_mul_mod_self_left]

/-- The higher bits of a byte. -/
theorem byte_div (s i k : Nat) (hk : k ≤ 8) : byte s i / 2 ^ k = s / 2 ^ (8 * i + k) % 2 ^ (8 - k) := by
  have hpow : 2 ^ 8 = 2 ^ k * 2 ^ (8 - k) := by rw [← Nat.pow_add, Nat.add_sub_cancel' hk]
  rw [byte, hpow, Nat.mod_mul_right_div_self, Nat.div_div_eq_div_mul, ← Nat.pow_add]

theorem mod_two_pow_min (s a b : Nat) : s % 2 ^ a % 2 ^ b = s % 2 ^ min a b := by
  by_cases h : a ≤ b
  · rw [Nat.min_eq_left h, Nat.mod_eq_of_lt]
    exact Nat.lt_of_lt_of_le (Nat.mod_lt _ (Nat.two_pow_pos a)) (Nat.pow_le_pow_right (by decide) h)
  · have hle : b ≤ a := Nat.le_of_not_le h
    rw [Nat.min_eq_right hle, Nat.mod_mod_of_dvd _ (Nat.pow_dvd_pow 2 hle)]

/-- A field as its lower bits and the rest. -/
theorem mod_two_pow_add (s a b : Nat) : s % 2 ^ (a + b) = s % 2 ^ a + 2 ^ a * (s / 2 ^ a % 2 ^ b) := by
  rw [Nat.pow_add, Nat.mod_mul]

/-- A mask of `k` bits from the place `i` on. -/
theorem and_mask (n i k : Nat) : n &&& (2 ^ k - 1) * 2 ^ i = n / 2 ^ i % 2 ^ k * 2 ^ i := by
  apply Nat.eq_of_testBit_eq
  intro j
  rw [Nat.testBit_and, Nat.testBit_mul_two_pow, Nat.testBit_mul_two_pow, Nat.testBit_two_pow_sub_one,
    Nat.testBit_mod_two_pow]
  by_cases hij : i ≤ j
  · rw [Nat.testBit_div_two_pow, Nat.sub_add_cancel hij]
    simp only [hij, decide_true, Bool.true_and]
    exact Bool.and_comm _ _
  · simp [hij]

end Bits
