import Firefly.Lib.Crc
import Mathlib.Algebra.CharP.Two
import Mathlib.Algebra.Field.ZMod
import Mathlib.Algebra.Polynomial.Div
import Mathlib.Algebra.Polynomial.OfFn
import Mathlib.RingTheory.AdjoinRoot

/-!
# Firefly.Lib.CrcPolynomial

The check as arithmetic of polynomials over the field of two elements. A register is the polynomial with
its bits as coefficients (`word`), and the data is the polynomial with its bits as coefficients, the first
bit that of the highest power (`message`). The check is the remainder of the data, moved up by the width of
the register, by the generator (`word_crc`). A generator with a constant term detects every burst that is
not wider than the register (`crc_ne_of_burst`).
-/

namespace Crc

open Polynomial

variable {w : Nat}

/-! ## Registers -/

def coefficient (b : Bool) : ZMod 2 := if b then 1 else 0

@[simp] theorem coefficient_false : coefficient false = 0 := rfl
@[simp] theorem coefficient_true : coefficient true = 1 := rfl

theorem coefficient_xor (a b : Bool) : coefficient (a ^^ b) = coefficient a + coefficient b := by
  cases a <;> cases b <;> decide

theorem coefficient_inj {a b : Bool} : coefficient a = coefficient b ↔ a = b := by
  cases a <;> cases b <;> decide

noncomputable def word (r : BitVec w) : (ZMod 2)[X] := ofFn w fun i => coefficient (r.getLsbD i)

@[simp] theorem coeff_word (r : BitVec w) (k : Nat) : (word r).coeff k = coefficient (r.getLsbD k) := by
  rcases Nat.lt_or_ge k w with hlt | hge
  · rw [word, ofFn_coeff_eq_val_of_lt _ hlt]
  · rw [word, ofFn_coeff_eq_zero_of_ge _ hge, BitVec.getLsbD_of_ge r k hge, coefficient_false]

theorem degree_word_lt (r : BitVec w) : (word r).degree < w := ofFn_degree_lt _

@[simp] theorem word_zero : word 0#w = 0 := by
  ext k
  simp

theorem word_xor (r s : BitVec w) : word (r ^^^ s) = word r + word s := by
  ext k
  rw [coeff_add, coeff_word, coeff_word, coeff_word, BitVec.getLsbD_xor, coefficient_xor]

theorem word_twoPow {i : Nat} (h : i < w) : word (BitVec.twoPow w i) = X ^ i := by
  ext k
  rw [coeff_word, coeff_X_pow, BitVec.getLsbD_twoPow, decide_eq_true h, Bool.true_and]
  by_cases hk : k = i
  · simp [hk]
  · simp [hk, Ne.symm hk]

/-- The bit that leaves the register is the term of degree `w`. -/
theorem word_mul_X (r : BitVec w) :
    word r * X = word (r <<< 1) + C (coefficient r.msb) * X ^ w := by
  ext k
  rw [coeff_add, coeff_C_mul_X_pow, coeff_word, BitVec.getLsbD_shiftLeft]
  cases k with
  | zero =>
    have hw : 0 = w → coefficient r.msb = 0 := by
      rintro rfl
      simp [BitVec.of_length_zero]
    rw [mul_coeff_zero, coeff_X_zero, mul_zero]
    split
    · rename_i h
      simp [hw h]
    · simp
  | succ k =>
    rw [coeff_mul_X, coeff_word]
    rcases Nat.lt_trichotomy (k + 1) w with hlt | heq | hgt
    · simp [hlt, Nat.ne_of_lt hlt]
    · subst heq
      simp [BitVec.msb_eq_getLsbD_last]
    · simp [BitVec.getLsbD_of_ge r k (by omega), Nat.ne_of_gt hgt, Nat.not_lt.mpr (Nat.le_of_lt hgt)]

/-- Bits that enter at the significant end. -/
theorem word_setWidth_shiftLeft (b : BitVec 8) (h : 8 ≤ w) :
    word (b.setWidth w <<< (w - 8)) = word b * X ^ (w - 8) := by
  ext k
  rw [coeff_mul_X_pow', coeff_word, coeff_word, BitVec.getLsbD_shiftLeft, BitVec.getLsbD_setWidth]
  by_cases hk : w - 8 ≤ k
  · rcases Nat.lt_or_ge k w with hlt | hge
    · have hin : k - (w - 8) < w := by omega
      simp [hlt, hin, hk, Nat.not_lt.mpr hk]
    · simp [hk, Nat.not_lt.mpr hge, BitVec.getLsbD_of_ge b (k - (w - 8)) (by omega)]
  · simp [hk, Nat.lt_of_not_ge hk]

theorem word_enter (r : BitVec w) (b : UInt8) (h : 8 ≤ w) :
    word (enter r b) = word r + word b.toBitVec * X ^ (w - 8) := by
  rw [enter, word_xor, word_setWidth_shiftLeft _ h]

/-! ## The remainder -/

/-- The polynomial with its leading term. -/
noncomputable def generator (polynomial : BitVec w) : (ZMod 2)[X] := X ^ w + word polynomial

theorem generator_monic (polynomial : BitVec w) : (generator polynomial).Monic :=
  monic_X_pow_add (degree_word_lt polynomial)

theorem degree_generator (polynomial : BitVec w) : (generator polynomial).degree = w := by
  rw [generator, degree_add_eq_left_of_degree_lt, degree_X_pow]
  rw [degree_X_pow]
  exact degree_word_lt polynomial

/-- The ring of the remainders. -/
noncomputable abbrev residue (polynomial : BitVec w) : (ZMod 2)[X] →+* AdjoinRoot (generator polynomial) :=
  AdjoinRoot.mk (generator polynomial)

variable {polynomial : BitVec w}

theorem residue_word_polynomial : residue polynomial (word polynomial) = residue polynomial (X ^ w) := by
  rw [AdjoinRoot.mk_eq_mk, CharTwo.sub_eq_add, add_comm]
  exact dvd_rfl

theorem residue_shift (r : BitVec w) :
    residue polynomial (word (shift polynomial r)) = residue polynomial (word r * X) := by
  rw [shift, word_mul_X]
  cases r.msb with
  | false => simp
  | true => simp [word_xor, residue_word_polynomial]

theorem residue_shifts (n : Nat) (r : BitVec w) :
    residue polynomial (word ((shift polynomial)^[n] r)) = residue polynomial (word r * X ^ n) := by
  induction n generalizing r with
  | zero => simp
  | succ n ih =>
    rw [Function.iterate_succ_apply, ih, map_mul, residue_shift, ← map_mul, mul_assoc, ← pow_succ']

theorem residue_step (h : 8 ≤ w) (r : BitVec w) (b : UInt8) :
    residue polynomial (word (step polynomial r b)) =
      residue polynomial (word r * X ^ 8 + word b.toBitVec * X ^ w) := by
  have hw : w - 8 + 8 = w := Nat.sub_add_cancel h
  rw [step, residue_shifts, word_enter r b h, add_mul, mul_assoc, ← pow_add, hw]

/-! ## The data -/

/-- The data as one number, of which the bytes are the digits. -/
noncomputable def message (data : List UInt8) : (ZMod 2)[X] :=
  data.foldl (fun m b => m * X ^ 8 + word b.toBitVec) 0

theorem message_append_singleton (data : List UInt8) (b : UInt8) :
    message (data ++ [b]) = message data * X ^ 8 + word b.toBitVec := by
  rw [message, List.foldl_append]
  rfl

theorem residue_crc (h : 8 ≤ w) (polynomial : BitVec w) (data : List UInt8) :
    residue polynomial (word (crc polynomial data)) = residue polynomial (message data * X ^ w) := by
  induction data using List.reverseRecOn with
  | nil => simp [crc, message]
  | append_singleton data b ih =>
    have hcrc : crc polynomial (data ++ [b]) = step polynomial (crc polynomial data) b := by
      rw [crc, List.foldl_append]
      rfl
    rw [hcrc, residue_step h, map_add, map_mul, ih, message_append_singleton, ← map_mul, ← map_add]
    congr 1
    ring

/-- The check is a remainder. -/
theorem word_crc (h : 8 ≤ w) (polynomial : BitVec w) (data : List UInt8) :
    word (crc polynomial data) = (message data * X ^ w) %ₘ generator polynomial := by
  have hdegree : (word (crc polynomial data)).degree < (generator polynomial).degree := by
    rw [degree_generator]
    exact degree_word_lt _
  have hsame := AdjoinRoot.mk_eq_mk.mp (residue_crc h polynomial data)
  rw [← (modByMonic_eq_self_iff (generator_monic polynomial)).mpr hdegree]
  exact modByMonic_eq_of_dvd_sub (generator_monic polynomial) hsame

/-! ## Bursts -/

/-- The bits of the data, the most significant one of each byte first. -/
def bit (data : List UInt8) (i : Nat) : Bool := (data.getD (i / 8) 0).toBitVec.getMsbD (i % 8)

theorem bit_of_ge {data : List UInt8} {i : Nat} (h : 8 * data.length ≤ i) : bit data i = false := by
  rw [bit, List.getD_eq_default _ _ (by omega)]
  simp

theorem coeff_message (data : List UInt8) (k : Nat) :
    (message data).coeff k = coefficient ((data.reverse.getD (k / 8) 0).toBitVec.getLsbD (k % 8)) := by
  induction data using List.reverseRecOn generalizing k with
  | nil => simp [message]
  | append_singleton data b ih =>
    rw [message_append_singleton, coeff_add, coeff_mul_X_pow', coeff_word, List.reverse_append,
      List.reverse_singleton, List.singleton_append]
    rcases Nat.lt_or_ge k 8 with hlt | hge
    · rw [if_neg (by omega), Nat.div_eq_of_lt hlt, Nat.mod_eq_of_lt hlt, zero_add]
      rfl
    · obtain ⟨j, rfl⟩ : ∃ j, k = j + 8 := ⟨k - 8, by omega⟩
      rw [if_pos hge, BitVec.getLsbD_of_ge _ _ hge, coefficient_false, add_zero, Nat.add_sub_cancel, ih,
        Nat.add_div_right j (by decide), Nat.add_mod_right, List.getD_cons_succ]

/-- The first bit is the coefficient of the highest power. -/
theorem coeff_message_bit (data : List UInt8) {i : Nat} (h : i < 8 * data.length) :
    (message data).coeff (8 * data.length - 1 - i) = coefficient (bit data i) := by
  have hdiv : (8 * data.length - 1 - i) / 8 = data.length - 1 - i / 8 := by omega
  have hmod : (8 * data.length - 1 - i) % 8 = 7 - i % 8 := by omega
  have hlt : data.length - 1 - i / 8 < data.reverse.length := by
    rw [List.length_reverse]
    omega
  have hindex : data.length - 1 - (data.length - 1 - i / 8) = i / 8 := by omega
  rw [coeff_message, hdiv, hmod, bit, BitVec.getMsbD_eq_getLsbD, decide_eq_true (Nat.mod_lt i (by decide)),
    Bool.true_and, List.getD_eq_getElem _ _ hlt, List.getElem_reverse, List.getD_eq_getElem _ _ (by omega)]
  simp only [hindex]

theorem coeff_message_of_ge (data : List UInt8) {k : Nat} (h : 8 * data.length ≤ k) :
    (message data).coeff k = 0 := by
  have hge : data.reverse.length ≤ k / 8 := by
    rw [List.length_reverse]
    omega
  rw [coeff_message, List.getD_eq_default _ _ hge]
  simp

theorem message_inj {a b : List UInt8} (hlength : a.length = b.length) (h : message a = message b) :
    a = b := by
  rw [← List.reverse_inj]
  refine List.ext_getElem (by simpa using hlength) fun j ha hb => ?_
  apply UInt8.toBitVec_inj.mp
  apply BitVec.eq_of_getLsbD_eq
  intro i hi
  have hcoeff := congrArg (fun m => m.coeff (8 * j + i)) h
  have hdiv : (8 * j + i) / 8 = j := by omega
  have hmod : (8 * j + i) % 8 = i := by omega
  simp only [coeff_message, hdiv, hmod, coefficient_inj] at hcoeff
  rwa [List.getD_eq_getElem _ _ ha, List.getD_eq_getElem _ _ hb] at hcoeff

/-- The generator has a constant term, so that a power of `X` can be divided out. -/
theorem generator_coprime (hodd : polynomial.getLsbD 0 = true) (n : Nat) :
    IsCoprime (generator polynomial) (X ^ n : (ZMod 2)[X]) := by
  have hw : w ≠ 0 := by
    rintro rfl
    simp [BitVec.of_length_zero] at hodd
  refine (IsCoprime.symm ?_).pow_right
  rw [irreducible_X.coprime_iff_not_dvd, X_dvd_iff, generator, coeff_add, coeff_word, hodd,
    coeff_X_pow, if_neg (Ne.symm hw), zero_add, coefficient_true]
  exact one_ne_zero

/-- A polynomial with coefficients in a window of `w` powers is not a multiple of the generator. -/
theorem eq_zero_of_dvd (low : Nat) {d : (ZMod 2)[X]} (hodd : polynomial.getLsbD 0 = true)
    (hlow : ∀ k, k < low → d.coeff k = 0) (hhigh : ∀ k, low + w ≤ k → d.coeff k = 0)
    (hdvd : generator polynomial ∣ d) : d = 0 := by
  obtain ⟨e, rfl⟩ := X_pow_dvd_iff.mpr hlow
  have hdegree : e.degree < (generator polynomial).degree := by
    rw [degree_generator, degree_lt_iff_coeff_zero]
    intro j hj
    have hcoeff := hhigh (j + low) (by omega)
    rwa [coeff_X_pow_mul] at hcoeff
  have he := eq_zero_of_dvd_of_degree_lt ((generator_coprime hodd low).dvd_of_dvd_mul_left hdvd) hdegree
  rw [he, mul_zero]

/-- Data of one length that differ in a window of bits as wide as the register have different checks. -/
theorem crc_ne_of_burst (h : 8 ≤ w) (hodd : polynomial.getLsbD 0 = true) {a b : List UInt8}
    (hlength : a.length = b.length) (hne : a ≠ b) {start : Nat}
    (hburst : ∀ i, bit a i ≠ bit b i → start ≤ i ∧ i < start + w) :
    crc polynomial a ≠ crc polynomial b := by
  intro hcrc
  have hdvd : generator polynomial ∣ message a - message b := by
    have ha := residue_crc h polynomial a
    have hsame := ha.symm.trans (hcrc ▸ residue_crc h polynomial b)
    rw [AdjoinRoot.mk_eq_mk, ← sub_mul] at hsame
    exact (generator_coprime hodd w).dvd_of_dvd_mul_right hsame
  -- a coefficient in which they differ is that of a bit of the window
  have hwindow : ∀ k, (message a - message b).coeff k ≠ 0 →
      k < 8 * a.length ∧ start ≤ 8 * a.length - 1 - k ∧ 8 * a.length - 1 - k < start + w := by
    intro k hk
    rw [coeff_sub] at hk
    have hlt : k < 8 * a.length := by
      by_contra hge
      rw [coeff_message_of_ge a (by omega), coeff_message_of_ge b (by omega), sub_zero] at hk
      exact hk rfl
    have hindex : 8 * a.length - 1 - (8 * a.length - 1 - k) = k := by omega
    have ha := coeff_message_bit a (i := 8 * a.length - 1 - k) (by omega)
    have hb := coeff_message_bit b (i := 8 * a.length - 1 - k) (by omega)
    rw [← hlength, hindex] at hb
    rw [hindex] at ha
    refine ⟨hlt, hburst _ fun hsame => hk ?_⟩
    rw [ha, hb, hsame, sub_self]
  refine hne (message_inj hlength (sub_eq_zero.mp ?_))
  refine eq_zero_of_dvd (8 * a.length - (start + w)) hodd (fun k hk => ?_) (fun k hk => ?_) hdvd
  · by_contra hcoeff
    have := hwindow k hcoeff
    omega
  · by_contra hcoeff
    have := hwindow k hcoeff
    omega

end Crc
