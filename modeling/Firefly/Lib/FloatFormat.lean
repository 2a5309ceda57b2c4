import Mathlib.Order.Monotone.Basic
import Mathlib.Tactic.Linarith
import Mathlib.Tactic.Ring

/-!
# Firefly.Lib.FloatFormat

Binary floating-point formats by the codes of their magnitudes. A code has `p` bits of fraction below the
exponent; `value p c` is what the code stands for, in units of the smallest number of the format. Codes are
in the order of their values (`value_strictMono`). `Rounds p s top x c` says that `c` is the code nearest to
`x / s`, the greater of two that are equally near, where the codes end with `top`, which stands for
everything from half a step below its own value on. There is one such code (`Rounds.unique`), a number of
the format is its own (`rounds_value`), and `rounds_grid` is the rule for code that shifts a significand.
-/

namespace FloatFormat

/-- Codes of exponent 0 are the subnormal numbers. -/
def value (p c : Nat) : Nat := if c < 2 ^ p then c else (2 ^ p + c % 2 ^ p) * 2 ^ (c / 2 ^ p - 1)

/-- From a code to the next the value grows by a unit of the exponent. -/
def step (p c : Nat) : Nat := 2 ^ (c / 2 ^ p - 1)

theorem value_of_lt {p c : Nat} (h : c < 2 ^ p) : value p c = c := if_pos h

theorem value_normal {p e m : Nat} (he : 0 < e) (hm : m < 2 ^ p) :
    value p (e * 2 ^ p + m) = (2 ^ p + m) * 2 ^ (e - 1) := by
  have hle : 2 ^ p ≤ e * 2 ^ p := Nat.le_mul_of_pos_left _ he
  have hdiv : (e * 2 ^ p + m) / 2 ^ p = e := by
    rw [Nat.mul_comm, Nat.mul_add_div (Nat.two_pow_pos p), Nat.div_eq_of_lt hm, Nat.add_zero]
  have hmod : (e * 2 ^ p + m) % 2 ^ p = m := by
    rw [Nat.mul_comm, Nat.mul_add_mod, Nat.mod_eq_of_lt hm]
  rw [value, if_neg (by omega), hdiv, hmod]

/-- The values of one exponent, and the first of the next, are multiples of one unit. -/
theorem value_grid {p j r : Nat} (hr : r ≤ 2 ^ (p + 1)) (hj : j = 0 ∨ 2 ^ p ≤ r) :
    value p (j * 2 ^ p + r) = r * 2 ^ j := by
  rw [Nat.pow_succ] at hr
  by_cases hsmall : r < 2 ^ p
  · obtain rfl : j = 0 := by omega
    rw [Nat.zero_mul, Nat.zero_add, value_of_lt hsmall, Nat.pow_zero, Nat.mul_one]
  · obtain ⟨m, rfl⟩ : ∃ m, r = 2 ^ p + m := ⟨r - 2 ^ p, by omega⟩
    by_cases hm : m < 2 ^ p
    · have hcode : j * 2 ^ p + (2 ^ p + m) = (j + 1) * 2 ^ p + m := by ring
      rw [hcode, value_normal (Nat.succ_pos j) hm, Nat.succ_sub_one]
    · obtain rfl : m = 2 ^ p := by omega
      have hcode : j * 2 ^ p + (2 ^ p + 2 ^ p) = (j + 2) * 2 ^ p + 0 := by ring
      rw [hcode, value_normal (by omega) (Nat.two_pow_pos p), show j + 2 - 1 = j + 1 by omega, Nat.pow_succ]
      ring

/-- Every code is one of the grid of its exponent. -/
theorem exists_grid (p c : Nat) : ∃ j r, c = j * 2 ^ p + r ∧ r < 2 ^ (p + 1) ∧ (j = 0 ∨ 2 ^ p ≤ r) ∧
    step p c = 2 ^ j := by
  have hmod := Nat.mod_lt c (Nat.two_pow_pos p)
  have hdiv := Nat.div_add_mod c (2 ^ p)
  by_cases hzero : c / 2 ^ p = 0
  · refine ⟨0, c, by omega, ?_, Or.inl rfl, by rw [step, hzero]⟩
    rw [Nat.pow_succ]
    rw [hzero] at hdiv
    omega
  · obtain ⟨j, hj⟩ := Nat.exists_eq_succ_of_ne_zero hzero
    refine ⟨j, 2 ^ p + c % 2 ^ p, ?_, ?_, Or.inr (Nat.le_add_right _ _), by rw [step, hj, Nat.succ_sub_one]⟩
    · rw [hj, Nat.mul_succ, Nat.mul_comm] at hdiv
      omega
    · rw [Nat.pow_succ]
      omega

theorem value_succ (p c : Nat) : value p (c + 1) = value p c + step p c := by
  obtain ⟨j, r, hc, hr, hj, hstep⟩ := exists_grid p c
  have hnext : value p (j * 2 ^ p + (r + 1)) = (r + 1) * 2 ^ j := value_grid hr (by omega)
  rw [hstep, hc, value_grid hr.le hj, Nat.add_assoc, hnext, Nat.succ_mul]

theorem value_strictMono (p : Nat) : StrictMono (value p) := by
  refine strictMono_nat_of_lt_succ fun c => ?_
  rw [value_succ]
  exact Nat.lt_add_of_pos_right (Nat.two_pow_pos _)

theorem value_le {p b c : Nat} (h : b ≤ c) : value p b ≤ value p c := (value_strictMono p).monotone h

/-! ## Rounding -/

/-- The nearest of the codes up to `top` to `x / s`. -/
structure Rounds (p s top x c : Nat) : Prop where
  le : c ≤ top
  below : c < top → 2 * x < s * (value p c + value p (c + 1))
  above : ∀ b, c = b + 1 → s * (value p b + value p (b + 1)) ≤ 2 * x

/-- The middle between two codes. -/
theorem middle_le {p s b c : Nat} (h : b ≤ c) :
    s * (value p b + value p (b + 1)) ≤ s * (value p c + value p (c + 1)) :=
  Nat.mul_le_mul_left s (Nat.add_le_add (value_le h) (value_le (Nat.succ_le_succ h)))

/-- A greater number is not rounded to a smaller code. -/
theorem Rounds.mono {p s top x y c d : Nat} (hx : Rounds p s top x c) (hy : Rounds p s top y d) (h : x ≤ y) :
    c ≤ d := by
  by_contra hlt
  obtain ⟨b, rfl⟩ : ∃ b, c = b + 1 := ⟨c - 1, by omega⟩
  have habove := hx.above b rfl
  have hbelow := hy.below (by have := hx.le; omega)
  have hmiddle := middle_le (p := p) (s := s) (show d ≤ b by omega)
  omega

theorem Rounds.unique {p s top x c d : Nat} (hc : Rounds p s top x c) (hd : Rounds p s top x d) : c = d :=
  Nat.le_antisymm (hc.mono hd (Nat.le_refl x)) (hd.mono hc (Nat.le_refl x))

theorem rounds_value {p s top c : Nat} (hs : 0 < s) (h : c ≤ top) : Rounds p s top (s * value p c) c where
  le := h
  below _ := by
    have hlt : s * value p c < s * value p (c + 1) :=
      Nat.mul_lt_mul_of_pos_left (value_strictMono p (Nat.lt_succ_self c)) hs
    rw [Nat.mul_add]
    omega
  above b hb := by
    subst hb
    have hle : s * value p b ≤ s * value p (b + 1) := Nat.mul_le_mul_left s (value_le (Nat.le_succ b))
    rw [Nat.mul_add]
    omega

/-- The unit does not matter. -/
theorem Rounds.scale {p s top x c t : Nat} (h : Rounds p s top x c) (ht : 0 < t) :
    Rounds p (s * t) top (x * t) c where
  le := h.le
  below hlt := by
    have hbelow := Nat.mul_lt_mul_of_pos_right (h.below hlt) ht
    calc 2 * (x * t) = 2 * x * t := by ring
      _ < s * (value p c + value p (c + 1)) * t := hbelow
      _ = s * t * (value p c + value p (c + 1)) := by ring
  above b hb := by
    have habove := Nat.mul_le_mul_right t (h.above b hb)
    calc s * t * (value p b + value p (b + 1)) = s * (value p b + value p (b + 1)) * t := by ring
      _ ≤ 2 * x * t := habove
      _ = 2 * (x * t) := by ring

/-- No other code is nearer. -/
theorem Rounds.nearest {p s top x c : Nat} (h : Rounds p s top x c) (hlt : c < top) (d : Nat) :
    |(x : Int) - (s * value p c : Nat)| ≤ |(x : Int) - (s * value p d : Nat)| := by
  rcases Nat.lt_trichotomy d c with hd | rfl | hd
  · obtain ⟨b, rfl⟩ : ∃ b, c = b + 1 := ⟨c - 1, by omega⟩
    have habove := h.above b rfl
    have hle : s * value p d ≤ s * value p b := Nat.mul_le_mul_left s (value_le (Nat.le_of_lt_succ hd))
    have hstep : s * value p b ≤ s * value p (b + 1) := Nat.mul_le_mul_left s (value_le (Nat.le_succ b))
    rw [Nat.mul_add] at habove
    rw [abs_of_nonneg (show (0 : Int) ≤ x - (s * value p d : Nat) by omega)]
    exact abs_le.mpr ⟨by omega, by omega⟩
  · exact le_refl _
  · have hbelow := h.below hlt
    have hle : s * value p (c + 1) ≤ s * value p d := Nat.mul_le_mul_left s (value_le hd)
    have hstep : s * value p c ≤ s * value p (c + 1) := Nat.mul_le_mul_left s (value_le (Nat.le_succ c))
    rw [Nat.mul_add] at hbelow
    rw [abs_of_nonpos (show (x : Int) - (s * value p d : Nat) ≤ 0 by omega)]
    exact abs_le.mpr ⟨by omega, by omega⟩

/-- A shift that adds the last bit shifted out. -/
theorem shift_round {k m r : Nat} (hr : r = m / 2 ^ (k + 1) + m / 2 ^ k % 2) :
    2 ^ (k + 1) * (2 * r) ≤ 2 * m + 2 ^ (k + 1) ∧ 2 * m < 2 ^ (k + 1) * (2 * r + 1) := by
  have hdiv := Nat.div_add_mod m (2 ^ k)
  have hmod := Nat.mod_lt m (Nat.two_pow_pos k)
  rw [Nat.pow_succ, ← Nat.div_div_eq_div_mul] at hr
  generalize m / 2 ^ k = q at hdiv hr
  have hq : q ≤ 2 * r ∧ 2 * r ≤ q + 1 := by omega
  have hlow : 2 ^ k * (2 * r) ≤ 2 ^ k * (q + 1) := Nat.mul_le_mul_left _ hq.2
  have hhigh : 2 ^ k * q ≤ 2 ^ k * (2 * r) := Nat.mul_le_mul_left _ hq.1
  have hshift : ∀ n, 2 ^ k * 2 * n = 2 * (2 ^ k * n) := fun n => by ring
  have hlast : 2 ^ k * (2 * r + 1) = 2 ^ k * (2 * r) + 2 ^ k := Nat.mul_succ _ _
  rw [Nat.mul_succ] at hlow
  rw [Nat.pow_succ, hshift, hshift, hlast]
  omega

/-- A significand that is shifted by `k` places and rounded, at an exponent. -/
theorem rounds_grid {p j k m r top : Nat} (hlow : 2 ^ k * (2 * r) ≤ 2 * m + 2 ^ k)
    (hhigh : 2 * m < 2 ^ k * (2 * r + 1)) (hr : r ≤ 2 ^ (p + 1)) (hj : j = 0 ∨ 2 ^ p * 2 ^ k ≤ m ∧ 2 ^ p ≤ r)
    (htop : j * 2 ^ p + r ≤ top) : Rounds p (2 ^ k) top (m * 2 ^ j) (j * 2 ^ p + r) where
  le := htop
  below _ := by
    have hvalue : value p (j * 2 ^ p + r) = r * 2 ^ j := value_grid hr (by omega)
    have hstep : 2 ^ j ≤ step p (j * 2 ^ p + r) := by
      refine Nat.pow_le_pow_right (by decide) ?_
      rcases hj with rfl | ⟨-, hj⟩
      · exact Nat.zero_le _
      · have hdiv : (j + 1) ≤ (j * 2 ^ p + r) / 2 ^ p := by
          rw [Nat.le_div_iff_mul_le (Nat.two_pow_pos p), Nat.succ_mul]
          omega
        omega
    rw [value_succ, hvalue]
    calc 2 * (m * 2 ^ j) = 2 * m * 2 ^ j := by ring
      _ < 2 ^ k * (2 * r + 1) * 2 ^ j := Nat.mul_lt_mul_of_pos_right hhigh (Nat.two_pow_pos j)
      _ = 2 ^ k * (r * 2 ^ j + (r * 2 ^ j + 2 ^ j)) := by ring
      _ ≤ 2 ^ k * (r * 2 ^ j + (r * 2 ^ j + step p (j * 2 ^ p + r))) := by gcongr
  above b hb := by
    have hvalue : value p (b + 1) = r * 2 ^ j := by
      rw [← hb]
      exact value_grid hr (by omega)
    by_cases hfirst : j = 0 ∨ 2 ^ p < r
    · have hpos : 0 < r := by
        rcases hfirst with rfl | h
        · omega
        · omega
      obtain ⟨q, rfl⟩ := Nat.exists_eq_succ_of_ne_zero hpos.ne'
      have hprevious : value p b = q * 2 ^ j := by
        obtain rfl : b = j * 2 ^ p + q := by omega
        exact value_grid (by omega) (by omega)
      have hlow' : 2 ^ k * (2 * q + 1) ≤ 2 * m := by
        rw [Nat.mul_succ, Nat.mul_add, Nat.mul_two (2 ^ k)] at hlow
        rw [Nat.mul_succ]
        omega
      rw [hvalue, hprevious]
      calc 2 ^ k * (q * 2 ^ j + (q + 1) * 2 ^ j) = 2 ^ k * (2 * q + 1) * 2 ^ j := by ring
        _ ≤ 2 * m * 2 ^ j := Nat.mul_le_mul_right _ hlow'
        _ = 2 * (m * 2 ^ j) := by ring
    · -- the least number of its exponent, which has not been rounded up
      obtain rfl : r = 2 ^ p := by omega
      have hm : 2 ^ p * 2 ^ k ≤ m := by omega
      have hprevious : value p b ≤ 2 ^ p * 2 ^ j := by
        rw [← hvalue]
        exact value_le (Nat.le_succ b)
      rw [hvalue]
      calc 2 ^ k * (value p b + 2 ^ p * 2 ^ j) ≤ 2 ^ k * (2 ^ p * 2 ^ j + 2 ^ p * 2 ^ j) := by gcongr
        _ = 2 * (2 ^ p * 2 ^ k) * 2 ^ j := by ring
        _ ≤ 2 * m * 2 ^ j := by gcongr
        _ = 2 * (m * 2 ^ j) := by ring

end FloatFormat
