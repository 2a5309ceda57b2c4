import Firefly.Lib.Bits
import Firefly.Lib.FloatFormat
import Mathlib.Data.UInt

/-!
# Firefly.Base.Ieee754

`fd_ieee754.c`: numbers of single and of half precision as their bits. The format of the platform is checked
on the first call; here it is the one of the standard.

A half is the nearest number to a single, and of two that are equally near the one away from zero; from half a
step below 2 ^ 16 on it is infinite (`floatToUint16_nearest`). A single is the number of its half exactly, so
that a half comes back from it (`floatToUint16_uint16ToFloat`).
-/

namespace Firefly
namespace Ieee754

open FloatFormat

/-! ## Conversions -/

/-- `fd_ieee754_float_to_uint16`, which is the pass of `singles2halfp` for one number. -/
def floatToUint16 (x : UInt32) : UInt16 :=
  if x &&& 0x7FFFFFFF = 0 then (x >>> 16).toUInt16
  else
    let xs := x &&& 0x80000000
    let xe := x &&& 0x7F800000
    let xm := x &&& 0x007FFFFF
    if xe = 0 then (xs >>> 16).toUInt16
    else if xe = 0x7F800000 then
      if xm = 0 then (xs >>> 16 ||| 0x7C00).toUInt16 else 0xFE00
    else
      let hs := (xs >>> 16).toUInt16
      let hes : Int := (xe >>> 23).toNat - 127 + 15
      if 0x1F ≤ hes then (xs >>> 16 ||| 0x7C00).toUInt16
      else if hes ≤ 0 then
        if 14 - hes > 24 then hs ||| 0
        else
          let xm := xm ||| 0x00800000
          let hm := (xm >>> UInt32.ofNat (14 - hes).toNat).toUInt16
          -- the rounding may carry into the exponent
          let hm := if (xm >>> UInt32.ofNat (13 - hes).toNat) &&& 1 ≠ 0 then hm + 1 else hm
          hs ||| hm
      else
        let he := UInt16.ofNat (hes.toNat <<< 10)
        let hm := (xm >>> 13).toUInt16
        if xm &&& 0x00001000 ≠ 0 then (hs ||| he ||| hm) + 1 else hs ||| he ||| hm

/-- The loop that shifts a subnormal significand until it has the leading bit: the shifts but one, and the
significand. -/
def normalize : Nat → Nat → UInt16 → Option (Nat × UInt16)
  | 0, _, _ => none
  | fuel + 1, e, hm =>
    let hm := hm <<< 1
    if hm &&& 0x0400 = 0 then normalize fuel (e + 1) hm else some (e, hm)

/-- `fd_ieee754_uint16_to_float`, which is the pass of `halfp2singles` for one number. -/
def uint16ToFloat (h : UInt16) : Option UInt32 :=
  if h &&& 0x7FFF = 0 then some (h.toUInt32 <<< 16)
  else
    let hs := h &&& 0x8000
    let he := h &&& 0x7C00
    let hm := h &&& 0x03FF
    let xs := hs.toUInt32 <<< 16
    if he = 0 then do
      let (e, hm) ← normalize 16 0 hm
      let xes : Int := (he >>> 10).toNat - 15 + 127 - e
      let xe := UInt32.ofNat xes.toNat <<< 23
      let xm := (hm &&& 0x03FF).toUInt32 <<< 13
      return xs ||| xe ||| xm
    else if he = 0x7C00 then
      if hm = 0 then some (xs ||| 0x7F800000) else some 0xFFC00000
    else
      let xes : Int := (he >>> 10).toNat - 15 + 127
      let xe := UInt32.ofNat xes.toNat <<< 23
      let xm := hm.toUInt32 <<< 13
      some (xs ||| xe ||| xm)

/-! ## Fields -/

/-- The code of infinity, and the end of the halves. -/
def infinite : Nat := 31 * 2 ^ 10

theorem toNat_sign (x : UInt32) : ((x &&& 0x80000000) >>> 16).toUInt16.toNat = x.toNat / 2 ^ 31 * 2 ^ 15 := by
  have hmask := Bits.and_mask x.toNat 31 1
  have hlt := x.toNat_lt
  have hand : (x &&& 0x80000000).toNat = x.toNat / 2 ^ 31 % 2 ^ 1 * 2 ^ 31 := hmask
  rw [UInt32.toNat_toUInt16, UInt32.toNat_shiftRight, hand, Nat.shiftRight_eq_div_pow]
  change _ / 2 ^ 16 % 2 ^ 16 = _
  omega

theorem toNat_exponent (x : UInt32) : (x &&& 0x7F800000).toNat = x.toNat / 2 ^ 23 % 2 ^ 8 * 2 ^ 23 :=
  Bits.and_mask x.toNat 23 8

theorem toNat_fraction (x : UInt32) : (x &&& 0x007FFFFF).toNat = x.toNat % 2 ^ 23 := by
  have hmask := Bits.and_mask x.toNat 0 23
  rw [Nat.pow_zero, Nat.div_one, Nat.mul_one, Nat.mul_one] at hmask
  exact hmask

theorem toNat_magnitude (x : UInt32) : (x &&& 0x7FFFFFFF).toNat = x.toNat % 2 ^ 31 := by
  have hmask := Bits.and_mask x.toNat 0 31
  rw [Nat.pow_zero, Nat.div_one, Nat.mul_one, Nat.mul_one] at hmask
  exact hmask

theorem uint32_eq_iff (x y : UInt32) : x = y ↔ x.toNat = y.toNat := UInt32.toNat_inj.symm

/-- The sign and the rest of a half. -/
theorem or_sign (s : Nat) {c : Nat} (h : c < 2 ^ 15) : s * 2 ^ 15 ||| c = s * 2 ^ 15 + c := by
  rw [Nat.mul_comm]
  exact (Nat.two_pow_add_eq_or_of_lt h s).symm

theorem toNat_infinite (x : UInt32) :
    ((x &&& 0x80000000) >>> 16 ||| 0x7C00).toUInt16.toNat = x.toNat / 2 ^ 31 * 2 ^ 15 + infinite := by
  have hsign := toNat_sign x
  have hlt := x.toNat_lt
  rw [UInt32.toNat_toUInt16] at hsign
  have hshift : ((x &&& 0x80000000) >>> 16).toNat = x.toNat / 2 ^ 31 * 2 ^ 15 := by
    have hsmall : ((x &&& 0x80000000) >>> 16).toNat < 2 ^ 16 := by
      rw [UInt32.toNat_shiftRight, Nat.shiftRight_eq_div_pow]
      have := (x &&& 0x80000000).toNat_lt
      change _ / 2 ^ 16 < _
      omega
    rwa [Nat.mod_eq_of_lt hsmall] at hsign
  rw [UInt32.toNat_toUInt16, UInt32.toNat_or, hshift]
  change (_ ||| 31 * 2 ^ 10) % 2 ^ 16 = _
  rw [or_sign _ (by decide), infinite]
  omega

/-! ## Rounding -/

theorem magnitude_eq (x : UInt32) :
    x.toNat % 2 ^ 31 = x.toNat / 2 ^ 23 % 2 ^ 8 * 2 ^ 23 + x.toNat % 2 ^ 23 := by
  omega

/-- Less than half of the smallest half. -/
theorem rounds_zero {x : Nat} (h : 2 * x < 2 ^ 125) : Rounds 10 (2 ^ 125) infinite x 0 where
  le := Nat.zero_le _
  below _ := h
  above _ hb := by omega

theorem rounds_infinite {x : Nat} (h : 2 ^ 166 ≤ 2 * x) : Rounds 10 (2 ^ 125) infinite x infinite where
  le := Nat.le_refl _
  below hlt := by omega
  above b hb := by
    have htop : value 10 (b + 1) = 2 ^ 40 := by
      rw [← hb]
      exact value_normal (p := 10) (m := 0) (by decide) (by decide)
    have hle : value 10 b ≤ 2 ^ 40 := htop ▸ value_le (Nat.le_succ b)
    rw [htop]
    calc 2 ^ 125 * (value 10 b + 2 ^ 40) ≤ 2 ^ 125 * (2 ^ 40 + 2 ^ 40) :=
          Nat.mul_le_mul_left _ (Nat.add_le_add_right hle _)
      _ = 2 ^ 166 := by rw [← Nat.two_mul, ← Nat.pow_succ', ← Nat.pow_add]
      _ ≤ 2 * x := h

/-- A significand that is shifted into a subnormal half. -/
theorem rounds_subnormal {m k : Nat} (hm : m < 2 ^ 24) (hk : 13 ≤ k) (hk' : k ≤ 23) :
    Rounds 10 (2 ^ 125) infinite (m * 2 ^ (124 - k)) (m / 2 ^ (k + 1) + m / 2 ^ k % 2) := by
  obtain ⟨hlow, hhigh⟩ := shift_round (k := k) (m := m) rfl
  have hle : m / 2 ^ (k + 1) ≤ 2 ^ 10 - 1 := by
    have hdiv : m / 2 ^ (k + 1) < 2 ^ 10 := by
      rw [Nat.div_lt_iff_lt_mul (Nat.two_pow_pos _), ← Nat.pow_add]
      exact Nat.lt_of_lt_of_le hm (Nat.pow_le_pow_right (by decide) (by omega))
    omega
  have hgrid := rounds_grid (p := 10) (j := 0) hlow hhigh (by omega) (Or.inl rfl)
    (show _ ≤ infinite by rw [infinite]; omega)
  have hscale := hgrid.scale (Nat.two_pow_pos (124 - k))
  rw [← Nat.pow_add, Nat.zero_mul, Nat.zero_add, Nat.pow_zero, Nat.mul_one,
    show k + 1 + (124 - k) = 125 by omega] at hscale
  exact hscale

theorem rounds_normal {m j : Nat} (hm : m < 2 ^ 24) (hm' : 2 ^ 23 ≤ m) (hj : j < 30) :
    Rounds 10 (2 ^ 125) infinite (m * 2 ^ (j + 112)) (j * 2 ^ 10 + (m / 2 ^ 13 + m / 2 ^ 12 % 2)) := by
  obtain ⟨hlow, hhigh⟩ := shift_round (k := 12) (m := m) rfl
  have hgrid := rounds_grid (p := 10) (j := j) hlow hhigh (by omega)
    (Or.inr ⟨by omega, by omega⟩) (show _ ≤ infinite by rw [infinite]; omega)
  have hscale := hgrid.scale (Nat.two_pow_pos 112)
  rw [← Nat.pow_add, Nat.mul_assoc, ← Nat.pow_add] at hscale
  exact hscale

/-- The bit that is the last to be shifted out. -/
theorem shifted_bit (m : UInt32) (k : Nat) (hk : k < 32) :
    (m >>> UInt32.ofNat k) &&& 1 ≠ 0 ↔ m.toNat / 2 ^ k % 2 = 1 := by
  have hnat : ((m >>> UInt32.ofNat k) &&& 1).toNat = m.toNat / 2 ^ k % 2 := by
    rw [UInt32.toNat_and, UInt32.toNat_shiftRight, Nat.shiftRight_eq_div_pow,
      UInt32.toNat_ofNat_of_lt' (Nat.lt_trans hk (by decide)),
      Nat.mod_eq_of_lt hk]
    exact Nat.and_one_is_mod _
  rw [Ne, uint32_eq_iff, hnat]
  change ¬_ = 0 ↔ _
  omega

theorem toNat_shifted {m : UInt32} {k : Nat} (hk : k < 32) (hm : m.toNat / 2 ^ k < 2 ^ 16) :
    (m >>> UInt32.ofNat k).toUInt16.toNat = m.toNat / 2 ^ k := by
  rw [UInt32.toNat_toUInt16, UInt32.toNat_shiftRight, Nat.shiftRight_eq_div_pow,
    UInt32.toNat_ofNat_of_lt' (Nat.lt_trans hk (by decide)),
    Nat.mod_eq_of_lt hk, Nat.mod_eq_of_lt hm]

/-- The significand with its hidden bit, shifted and rounded. -/
theorem toNat_rounded {xm : UInt32} {m k : Nat} (hxm : xm.toNat = m) (hm : m < 2 ^ 23) (hk : 13 ≤ k)
    (hk' : k ≤ 23) :
    (if ((xm ||| 0x00800000) >>> UInt32.ofNat k) &&& 1 ≠ 0 then
        ((xm ||| 0x00800000) >>> UInt32.ofNat (k + 1)).toUInt16 + 1
      else ((xm ||| 0x00800000) >>> UInt32.ofNat (k + 1)).toUInt16).toNat =
      (2 ^ 23 + m) / 2 ^ (k + 1) + (2 ^ 23 + m) / 2 ^ k % 2 := by
  have hhidden : (xm ||| 0x00800000).toNat = 2 ^ 23 + m := by
    rw [UInt32.toNat_or, hxm, Nat.or_comm]
    exact (Nat.two_pow_add_eq_or_of_lt hm 1).symm
  have hsmall : (2 ^ 23 + m) / 2 ^ (k + 1) < 2 ^ 10 := by
    rw [Nat.div_lt_iff_lt_mul (Nat.two_pow_pos _), ← Nat.pow_add]
    exact Nat.lt_of_lt_of_le (show 2 ^ 23 + m < 2 ^ 24 by omega) (Nat.pow_le_pow_right (by decide) (by omega))
  have hshift : ((xm ||| 0x00800000) >>> UInt32.ofNat (k + 1)).toUInt16.toNat = (2 ^ 23 + m) / 2 ^ (k + 1) := by
    rw [toNat_shifted (by omega) (by rw [hhidden]; omega), hhidden]
  have hbit := shifted_bit (xm ||| 0x00800000) k (by omega)
  rw [hhidden] at hbit
  have hparity := Nat.mod_lt ((2 ^ 23 + m) / 2 ^ k) (show 0 < 2 by decide)
  split
  · rename_i hset
    rw [UInt16.toNat_add, hshift, hbit.mp hset]
    exact Nat.mod_eq_of_lt (by change _ + 1 < _; omega)
  · rename_i hclear
    rw [hshift]
    rw [hbit] at hclear
    omega

/-- The three fields of a half. -/
theorem toNat_packed {hs hm : UInt16} {s h f : Nat} (hsign : hs.toNat = s * 2 ^ 15) (hexponent : h < 31)
    (hfraction : hm.toNat = f) (hf : f < 2 ^ 10) :
    (hs ||| UInt16.ofNat (h <<< 10) ||| hm).toNat = s * 2 ^ 15 + (h * 2 ^ 10 + f) := by
  have he : (UInt16.ofNat (h <<< 10)).toNat = h * 2 ^ 10 := by
    rw [Nat.shiftLeft_eq, UInt16.toNat_ofNat_of_lt' (by change _ < 2 ^ 16; omega)]
  have hor : h * 2 ^ 10 ||| f = h * 2 ^ 10 + f := by
    rw [Nat.mul_comm]
    exact (Nat.two_pow_add_eq_or_of_lt hf h).symm
  rw [UInt16.toNat_or, UInt16.toNat_or, hsign, he, hfraction, Nat.or_assoc, hor, or_sign _ (by omega)]

theorem floatToUint16_rounds (x : UInt32) (h : x.toNat % 2 ^ 31 ≤ 255 * 2 ^ 23) :
    (floatToUint16 x).toNat / 2 ^ 15 = x.toNat / 2 ^ 31 ∧
      Rounds 10 (2 ^ 125) infinite (value 23 (x.toNat % 2 ^ 31)) ((floatToUint16 x).toNat % 2 ^ 15) := by
  suffices hcode : ∃ c, (floatToUint16 x).toNat = x.toNat / 2 ^ 31 * 2 ^ 15 + c ∧
      Rounds 10 (2 ^ 125) infinite (value 23 (x.toNat % 2 ^ 31)) c by
    obtain ⟨c, hc, hrounds⟩ := hcode
    have hle : c ≤ 31 * 2 ^ 10 := hrounds.le
    have hmod : (floatToUint16 x).toNat % 2 ^ 15 = c := by omega
    exact ⟨by omega, hmod ▸ hrounds⟩
  have hlt := x.toNat_lt
  have hmagnitude := magnitude_eq x
  have hfraction := toNat_fraction x
  have hexponent := toNat_exponent x
  have hm : x.toNat % 2 ^ 23 < 2 ^ 23 := Nat.mod_lt _ (by decide)
  have he : x.toNat / 2 ^ 23 % 2 ^ 8 < 2 ^ 8 := Nat.mod_lt _ (by decide)
  rw [floatToUint16]
  generalize x.toNat / 2 ^ 23 % 2 ^ 8 = e at *
  generalize x.toNat % 2 ^ 23 = m at *
  have hexponent23 : (((x &&& 0x7F800000) >>> 23).toNat : Int) = e := by
    rw [UInt32.toNat_shiftRight, hexponent, Nat.shiftRight_eq_div_pow]
    change ((e * 2 ^ 23 / 2 ^ 23 : Nat) : Int) = e
    rw [Nat.mul_div_cancel _ (by decide)]
  split
  · -- zero
    rename_i hzero
    rw [uint32_eq_iff, toNat_magnitude] at hzero
    refine ⟨0, ?_, rounds_zero (by rw [hzero]; decide)⟩
    rw [UInt32.toNat_toUInt16, UInt32.toNat_shiftRight, Nat.shiftRight_eq_div_pow]
    change x.toNat / 2 ^ 16 % 2 ^ 16 = _
    change x.toNat % 2 ^ 31 = 0 at hzero
    omega
  dsimp only
  split
  · -- subnormal
    rename_i hzero
    rw [uint32_eq_iff, hexponent] at hzero
    obtain rfl : e = 0 := by
      change e * 2 ^ 23 = 0 at hzero
      omega
    refine ⟨0, by rw [toNat_sign, Nat.add_zero], rounds_zero ?_⟩
    rw [hmagnitude, Nat.zero_mul, Nat.zero_add, value_of_lt hm]
    exact Nat.lt_of_lt_of_le (Nat.mul_lt_mul_of_pos_left hm (by decide)) (by decide)
  rename_i hnormal
  have hpos : 0 < e := by
    refine Nat.pos_of_ne_zero fun hzero => hnormal ?_
    rw [uint32_eq_iff, hexponent, hzero]
    rfl
  rw [hmagnitude, value_normal hpos hm]
  split
  · -- infinite
    rename_i hfull
    rw [uint32_eq_iff, hexponent] at hfull
    obtain rfl : e = 255 := by
      change e * 2 ^ 23 = 255 * 2 ^ 23 at hfull
      omega
    obtain rfl : m = 0 := by omega
    rw [if_pos (by rw [uint32_eq_iff, hfraction]; rfl), toNat_infinite]
    exact ⟨infinite, rfl, rounds_infinite (by decide)⟩
  rename_i hfinite
  have hlarge : e < 255 := by
    have hne : e ≠ 255 := by
      intro hfull
      refine hfinite ?_
      rw [uint32_eq_iff, hexponent, hfull]
      rfl
    omega
  rw [hexponent23]
  split
  · -- overflow
    rename_i hover
    rw [toNat_infinite]
    refine ⟨infinite, rfl, rounds_infinite ?_⟩
    have hpow : 2 ^ 142 ≤ 2 ^ (e - 1) := Nat.pow_le_pow_right (by decide) (by omega)
    calc 2 ^ 166 = 2 * (2 ^ 23 * 2 ^ 142) := by rw [← Nat.pow_add, ← Nat.pow_succ']
      _ ≤ 2 * ((2 ^ 23 + m) * 2 ^ (e - 1)) := by gcongr; exact Nat.le_add_right _ _
  rename_i hover
  split
  · rename_i hunder
    split
    · -- too small to be rounded up
      rename_i hsmall
      refine ⟨0, ?_, rounds_zero ?_⟩
      · rw [UInt16.or_zero, toNat_sign, Nat.add_zero]
      · have hpow : 2 ^ (e - 1) ≤ 2 ^ 100 := Nat.pow_le_pow_right (by decide) (by omega)
        calc 2 * ((2 ^ 23 + m) * 2 ^ (e - 1)) ≤ 2 * ((2 ^ 23 + m) * 2 ^ 100) := by gcongr
          _ < 2 * (2 ^ 24 * 2 ^ 100) := by gcongr; omega
          _ = 2 ^ 125 := by rw [← Nat.pow_add, ← Nat.pow_succ']
    · rename_i hsmall
      obtain ⟨k, rfl⟩ : ∃ k, e = 125 - k := ⟨125 - e, by omega⟩
      have hk : 13 ≤ k ∧ k ≤ 23 := by omega
      have hround := toNat_rounded hfraction hm hk.1 hk.2
      have hhidden : 2 ^ 23 + m < 2 ^ 24 := by omega
      have hrounds := rounds_subnormal hhidden hk.1 hk.2
      have hle : (2 ^ 23 + m) / 2 ^ (k + 1) + (2 ^ 23 + m) / 2 ^ k % 2 ≤ 31 * 2 ^ 10 := hrounds.le
      rw [show ((14 : Int) - ((125 - k : Nat) - 127 + 15)).toNat = k + 1 by omega,
        show ((13 : Int) - ((125 - k : Nat) - 127 + 15)).toNat = k by omega,
        UInt16.toNat_or, toNat_sign, hround, or_sign _ (by omega), show 125 - k - 1 = 124 - k by omega]
      exact ⟨_, rfl, hrounds⟩
  · rename_i hunder
    obtain ⟨j, rfl⟩ : ∃ j, e = j + 113 := ⟨e - 113, by omega⟩
    have hj : j < 30 := by omega
    have hrounds := rounds_normal (show 2 ^ 23 + m < 2 ^ 24 by omega) (Nat.le_add_right _ _) hj
    have hle : j * 2 ^ 10 + ((2 ^ 23 + m) / 2 ^ 13 + (2 ^ 23 + m) / 2 ^ 12 % 2) ≤ 31 * 2 ^ 10 := hrounds.le
    refine ⟨_, ?_, hrounds⟩
    have hbit : x &&& 0x007FFFFF &&& 0x00001000 ≠ 0 ↔ m / 2 ^ 12 % 2 = 1 := by
      have hmask := Bits.and_mask m 12 1
      have hand : (x &&& 0x007FFFFF &&& 0x00001000).toNat = m / 2 ^ 12 % 2 ^ 1 * 2 ^ 12 := by
        rw [UInt32.toNat_and, hfraction]
        exact hmask
      rw [Ne, uint32_eq_iff, hand]
      change ¬_ = 0 ↔ _
      omega
    have hpacked := toNat_packed (toNat_sign x) (show (j + 1) < 31 by omega)
      (toNat_shifted (m := x &&& 0x007FFFFF) (k := 13) (by decide) (by rw [hfraction]; omega))
      (by rw [hfraction]; omega)
    rw [hfraction] at hpacked
    rw [show (((j + 113 : Nat) : Int) - 127 + 15).toNat = j + 1 by omega]
    change (if x &&& 0x007FFFFF &&& 0x00001000 ≠ 0 then
        (((x &&& 0x80000000) >>> 16).toUInt16 ||| UInt16.ofNat ((j + 1) <<< 10) |||
          ((x &&& 0x007FFFFF) >>> UInt32.ofNat 13).toUInt16) + 1
      else ((x &&& 0x80000000) >>> 16).toUInt16 ||| UInt16.ofNat ((j + 1) <<< 10) |||
        ((x &&& 0x007FFFFF) >>> UInt32.ofNat 13).toUInt16).toNat = _
    split
    · rename_i hset
      rw [hbit] at hset
      rw [UInt16.toNat_add, hpacked, Nat.mod_eq_of_lt (by change _ + 1 < _; omega)]
      change _ + 1 = _
      omega
    · rename_i hclear
      rw [hbit] at hclear
      rw [hpacked]
      omega

/-! ## Halves as singles -/

theorem toNat_half_sign (h : UInt16) : ((h &&& 0x8000).toUInt32 <<< 16).toNat = h.toNat / 2 ^ 15 * 2 ^ 31 := by
  have hlt := h.toNat_lt
  have hand : (h &&& 0x8000).toNat = h.toNat / 2 ^ 15 % 2 ^ 1 * 2 ^ 15 := Bits.and_mask h.toNat 15 1
  rw [UInt32.toNat_shiftLeft, UInt16.toNat_toUInt32, hand, Nat.shiftLeft_eq]
  change _ * 2 ^ 16 % 2 ^ 32 = _
  omega

theorem toNat_half_exponent (h : UInt16) : (h &&& 0x7C00).toNat = h.toNat / 2 ^ 10 % 2 ^ 5 * 2 ^ 10 :=
  Bits.and_mask h.toNat 10 5

theorem toNat_half_fraction (h : UInt16) : (h &&& 0x03FF).toNat = h.toNat % 2 ^ 10 := by
  have hmask := Bits.and_mask h.toNat 0 10
  rw [Nat.pow_zero, Nat.div_one, Nat.mul_one, Nat.mul_one] at hmask
  exact hmask

theorem uint16_eq_iff (x y : UInt16) : x = y ↔ x.toNat = y.toNat := UInt16.toNat_inj.symm

/-- The three fields of a single. -/
theorem toNat_packed_single {xs xm : UInt32} {s e f : Nat} (hsign : xs.toNat = s * 2 ^ 31) (he : e < 255)
    (hfraction : xm.toNat = f) (hf : f < 2 ^ 23) :
    (xs ||| UInt32.ofNat e <<< 23 ||| xm).toNat = s * 2 ^ 31 + (e * 2 ^ 23 + f) := by
  have hexponent : (UInt32.ofNat e <<< 23).toNat = e * 2 ^ 23 := by
    rw [UInt32.toNat_shiftLeft, UInt32.toNat_ofNat_of_lt' (Nat.lt_trans he (by decide)), Nat.shiftLeft_eq]
    change _ * 2 ^ 23 % 2 ^ 32 = _
    omega
  have hor : e * 2 ^ 23 ||| f = e * 2 ^ 23 + f := by
    rw [Nat.mul_comm]
    exact (Nat.two_pow_add_eq_or_of_lt hf e).symm
  have hor' : s * 2 ^ 31 ||| (e * 2 ^ 23 + f) = s * 2 ^ 31 + (e * 2 ^ 23 + f) := by
    rw [Nat.mul_comm]
    exact (Nat.two_pow_add_eq_or_of_lt (by omega) s).symm
  rw [UInt32.toNat_or, UInt32.toNat_or, hsign, hexponent, hfraction, Nat.or_assoc, hor, hor']

/-- The loop ends with the leading bit in its place. -/
theorem normalize_eq (fuel e : Nat) (hm : UInt16) (hlt : hm.toNat < 2 ^ 10) (hfuel : 2 ^ 10 ≤ hm.toNat * 2 ^ fuel) :
    ∃ k hm', normalize fuel e hm = some (e + k, hm') ∧ hm'.toNat = hm.toNat * 2 ^ (k + 1) ∧
      2 ^ 10 ≤ hm'.toNat ∧ hm'.toNat < 2 ^ 11 := by
  induction fuel generalizing e hm with
  | zero => omega
  | succ fuel ih =>
    have hdouble : (hm <<< 1).toNat = hm.toNat * 2 := by
      rw [UInt16.toNat_shiftLeft, Nat.shiftLeft_eq]
      change hm.toNat * 2 ^ 1 % 2 ^ 16 = _
      omega
    have hbit : (hm <<< 1) &&& 0x0400 = 0 ↔ hm.toNat * 2 < 2 ^ 10 := by
      have hand : ((hm <<< 1) &&& 0x0400).toNat = hm.toNat * 2 / 2 ^ 10 % 2 ^ 1 * 2 ^ 10 := by
        rw [UInt16.toNat_and, hdouble]
        exact Bits.and_mask _ 10 1
      rw [uint16_eq_iff, hand]
      change _ = 0 ↔ _
      omega
    rw [normalize]
    split
    · rename_i hshort
      rw [hbit] at hshort
      obtain ⟨k, hm', hrun, hvalue, hbounds⟩ := ih (e + 1) (hm <<< 1) (by omega)
        (by rw [hdouble, Nat.mul_assoc, ← Nat.pow_succ']; exact hfuel)
      refine ⟨k + 1, hm', by rw [hrun, Nat.add_assoc, Nat.add_comm 1], ?_, hbounds⟩
      rw [hvalue, hdouble, Nat.mul_assoc, ← Nat.pow_succ']
    · rename_i hlong
      rw [hbit] at hlong
      exact ⟨0, hm <<< 1, rfl, hdouble, by omega, by omega⟩

/-- The number of a normal single with the significand of a half. -/
theorem value_widened {e m : Nat} (hm : 2 ^ 10 ≤ m) (hm' : m < 2 ^ 11) (he : 0 < e) :
    value 23 (e * 2 ^ 23 + (m - 2 ^ 10) * 2 ^ 13) = m * 2 ^ (e + 12) := by
  rw [value_normal he (by omega), show 2 ^ 23 + (m - 2 ^ 10) * 2 ^ 13 = m * 2 ^ 13 by omega, Nat.mul_assoc,
    ← Nat.pow_add, show 13 + (e - 1) = e + 12 by omega]

/-- The fraction of a half at the place where a single has it. -/
theorem toNat_widened (hm : UInt16) : ((hm &&& 0x03FF).toUInt32 <<< 13).toNat = hm.toNat % 2 ^ 10 * 2 ^ 13 := by
  have hlt := Nat.mod_lt hm.toNat (show 0 < 2 ^ 10 by decide)
  rw [UInt32.toNat_shiftLeft, UInt16.toNat_toUInt32, toNat_half_fraction, Nat.shiftLeft_eq]
  change _ * 2 ^ 13 % 2 ^ 32 = _
  omega

/-- A subnormal half, with its significand shifted until it has the leading bit. -/
theorem value_subnormal {m k q : Nat} (hm : 0 < m) (hm' : m < 2 ^ 10) (hq : q = m * 2 ^ (k + 1)) (hlow : 2 ^ 10 ≤ q)
    (hhigh : q < 2 ^ 11) : k < 10 ∧ q % 2 ^ 10 < 2 ^ 10 ∧
      value 23 ((112 - k) * 2 ^ 23 + q % 2 ^ 10 * 2 ^ 13) = 2 ^ 125 * value 10 m := by
  have hk : k < 10 := by
    by_contra hge
    have hpow : 2 ^ 11 ≤ 2 ^ (k + 1) := Nat.pow_le_pow_right (by decide) (by omega)
    have hle : 1 * 2 ^ 11 ≤ m * 2 ^ (k + 1) := Nat.mul_le_mul hm hpow
    rw [← hq] at hle
    omega
  refine ⟨hk, Nat.mod_lt _ (by decide), ?_⟩
  have hvalue := value_widened hlow hhigh (show 0 < 112 - k by omega)
  rw [show q % 2 ^ 10 = q - 2 ^ 10 by omega, hvalue, hq, value_of_lt hm', Nat.mul_assoc, ← Nat.pow_add,
    show k + 1 + (112 - k + 12) = 125 by omega, Nat.mul_comm]

theorem uint16ToFloat_value (h : UInt16) (hnan : h.toNat % 2 ^ 15 ≤ infinite) :
    ∃ x, uint16ToFloat h = some x ∧ x.toNat / 2 ^ 31 = h.toNat / 2 ^ 15 ∧
      (h.toNat % 2 ^ 15 < infinite → value 23 (x.toNat % 2 ^ 31) = 2 ^ 125 * value 10 (h.toNat % 2 ^ 15)) ∧
      (h.toNat % 2 ^ 15 = infinite → x.toNat % 2 ^ 31 = 255 * 2 ^ 23) := by
  suffices hcode : ∃ x c, uint16ToFloat h = some x ∧ x.toNat = h.toNat / 2 ^ 15 * 2 ^ 31 + c ∧ c < 2 ^ 31 ∧
      (h.toNat % 2 ^ 15 < infinite → value 23 c = 2 ^ 125 * value 10 (h.toNat % 2 ^ 15)) ∧
      (h.toNat % 2 ^ 15 = infinite → c = 255 * 2 ^ 23) by
    obtain ⟨x, c, hx, hc, hlt, hvalue⟩ := hcode
    have hmod : x.toNat % 2 ^ 31 = c := by omega
    exact ⟨x, hx, by omega, by rwa [hmod]⟩
  have hshift : ∀ k : Nat, (((0 : Nat) : Int) - 15 + 127 - (0 + k : Nat)).toNat = 112 - k := by
    intro k
    omega
  have hlt := h.toNat_lt
  have hfraction := toNat_half_fraction h
  have hexponent := toNat_half_exponent h
  have hwidened := toNat_widened h
  have hmagnitude : h.toNat % 2 ^ 15 = h.toNat / 2 ^ 10 % 2 ^ 5 * 2 ^ 10 + h.toNat % 2 ^ 10 := by omega
  have hm : h.toNat % 2 ^ 10 < 2 ^ 10 := Nat.mod_lt _ (by decide)
  have he : h.toNat / 2 ^ 10 % 2 ^ 5 < 2 ^ 5 := Nat.mod_lt _ (by decide)
  rw [uint16ToFloat]
  generalize h.toNat / 2 ^ 10 % 2 ^ 5 = e at *
  generalize h.toNat % 2 ^ 10 = m at *
  have hand : (h &&& 0x7FFF).toNat = h.toNat % 2 ^ 15 := by
    have hmask := Bits.and_mask h.toNat 0 15
    rw [Nat.pow_zero, Nat.div_one, Nat.mul_one, Nat.mul_one] at hmask
    exact hmask
  have hexponent10 : (((h &&& 0x7C00) >>> 10).toNat : Int) = e := by
    rw [UInt16.toNat_shiftRight, hexponent, Nat.shiftRight_eq_div_pow]
    change ((e * 2 ^ 10 / 2 ^ 10 : Nat) : Int) = e
    rw [Nat.mul_div_cancel _ (by decide)]
  split
  · -- zero
    rename_i hzero
    rw [uint16_eq_iff, hand] at hzero
    change h.toNat % 2 ^ 15 = 0 at hzero
    refine ⟨_, 0, rfl, ?_, by decide, fun _ => by rw [hzero]; rfl, fun hinf => ?_⟩
    · rw [UInt32.toNat_shiftLeft, UInt16.toNat_toUInt32, Nat.shiftLeft_eq]
      change _ * 2 ^ 16 % 2 ^ 32 = _
      omega
    · rw [hzero] at hinf
      exact absurd hinf (by decide)
  rename_i hnonzero
  dsimp only
  split
  · -- subnormal
    rename_i hzero
    rw [uint16_eq_iff, hexponent] at hzero
    obtain rfl : e = 0 := by
      change e * 2 ^ 10 = 0 at hzero
      omega
    have hmpos : 0 < m := by
      refine Nat.pos_of_ne_zero fun hm0 => hnonzero ?_
      rw [uint16_eq_iff, hand, hmagnitude, hm0]
      rfl
    obtain ⟨k, hm', hrun, hq, hlow, hhigh⟩ := normalize_eq 16 0 (h &&& 0x03FF) (by rw [hfraction]; exact hm)
      (by rw [hfraction]; omega)
    rw [hfraction] at hq
    obtain ⟨hk, hfield, hvalue⟩ := value_subnormal hmpos hm hq hlow hhigh
    have hpacked := toNat_packed_single (toNat_half_sign h) (show 112 - k < 255 by omega) (toNat_widened hm')
      (Nat.mul_lt_mul_of_pos_right hfield (by decide))
    rw [hexponent10, hmagnitude, hrun, Nat.zero_mul, Nat.zero_add m]
    refine ⟨_, (112 - k) * 2 ^ 23 + hm'.toNat % 2 ^ 10 * 2 ^ 13, rfl, ?_, ?_, fun _ => hvalue, fun hinf => ?_⟩
    · rw [hshift k]
      exact hpacked
    · clear hq hlow hhigh hvalue hpacked
      omega
    · exact absurd hinf (Nat.ne_of_lt (Nat.lt_trans hm (by decide)))
  rename_i hnormal
  have hpos : 0 < e := by
    refine Nat.pos_of_ne_zero fun hzero => hnormal ?_
    rw [uint16_eq_iff, hexponent, hzero]
    rfl
  split
  · -- infinite
    rename_i hfull
    rw [uint16_eq_iff, hexponent] at hfull
    obtain rfl : e = 31 := by
      change e * 2 ^ 10 = 31 * 2 ^ 10 at hfull
      omega
    rw [infinite] at hnan
    obtain rfl : m = 0 := by omega
    rw [if_pos (by rw [uint16_eq_iff, hfraction]; rfl), hmagnitude]
    refine ⟨_, 255 * 2 ^ 23, rfl, ?_, by decide, fun hlt => absurd hlt (by decide), fun _ => rfl⟩
    rw [UInt32.toNat_or, toNat_half_sign, Nat.mul_comm]
    exact (Nat.two_pow_add_eq_or_of_lt (by decide) _).symm
  · rename_i hfinite
    have hlarge : e < 31 := by
      have hne : e ≠ 31 := by
        intro hfull
        refine hfinite ?_
        rw [uint16_eq_iff, hexponent, hfull]
        rfl
      omega
    have hpacked := toNat_packed_single (toNat_half_sign h) (show e + 112 < 255 by omega) hwidened
      (show m * 2 ^ 13 < 2 ^ 23 by omega)
    rw [hexponent10, show ((e : Int) - 15 + 127).toNat = e + 112 by omega, hmagnitude]
    refine ⟨_, (e + 112) * 2 ^ 23 + m * 2 ^ 13, rfl, hpacked, by omega, fun _ => ?_, fun hinf => ?_⟩
    · have hvalue := value_widened (m := 2 ^ 10 + m) (e := e + 112) (by omega) (by omega) (by omega)
      rw [Nat.add_sub_cancel_left] at hvalue
      rw [hvalue, value_normal hpos hm, show e + 112 + 12 = 125 + (e - 1) by omega, Nat.pow_add]
      ring
    · exact absurd hinf (Nat.ne_of_lt (show e * 2 ^ 10 + m < 31 * 2 ^ 10 by omega))

/-! ## Both directions -/

theorem floatToUint16_nan {x : UInt32} (h : 255 * 2 ^ 23 < x.toNat % 2 ^ 31) : floatToUint16 x = 0xFE00 := by
  have hmagnitude := magnitude_eq x
  have hm : x.toNat % 2 ^ 23 < 2 ^ 23 := Nat.mod_lt _ (by decide)
  have he : x.toNat / 2 ^ 23 % 2 ^ 8 < 2 ^ 8 := Nat.mod_lt _ (by decide)
  have hexponent : x &&& 0x7F800000 = 0x7F800000 := by
    rw [uint32_eq_iff, toNat_exponent]
    change _ = 255 * 2 ^ 23
    omega
  have hfraction : x &&& 0x007FFFFF ≠ 0 := by
    rw [Ne, uint32_eq_iff, toNat_fraction]
    change ¬_ = 0
    omega
  have hnonzero : x &&& 0x7FFFFFFF ≠ 0 := by
    rw [Ne, uint32_eq_iff, toNat_magnitude]
    change ¬_ = 0
    omega
  rw [floatToUint16, if_neg hnonzero]
  dsimp only
  rw [hexponent, if_neg (by decide), if_pos rfl, if_neg hfraction]

/-- A single is rounded to the nearest half, and what is no number stays none. -/
theorem floatToUint16_nearest (x : UInt32) :
    if x.toNat % 2 ^ 31 ≤ 255 * 2 ^ 23 then
      (floatToUint16 x).toNat / 2 ^ 15 = x.toNat / 2 ^ 31 ∧
        Rounds 10 (2 ^ 125) infinite (value 23 (x.toNat % 2 ^ 31)) ((floatToUint16 x).toNat % 2 ^ 15) ∧
        ((floatToUint16 x).toNat % 2 ^ 15 < infinite → ∀ d,
          |(value 23 (x.toNat % 2 ^ 31) : Int) -
              (2 ^ 125 * value 10 ((floatToUint16 x).toNat % 2 ^ 15) : Nat)| ≤
            |(value 23 (x.toNat % 2 ^ 31) : Int) - (2 ^ 125 * value 10 d : Nat)|)
    else infinite < (floatToUint16 x).toNat % 2 ^ 15 := by
  split
  · rename_i hnumber
    obtain ⟨hsign, hrounds⟩ := floatToUint16_rounds x hnumber
    exact ⟨hsign, hrounds, fun hlt => hrounds.nearest hlt⟩
  · rename_i hnan
    rw [floatToUint16_nan (Nat.lt_of_not_le hnan)]
    decide

/-- A half as a single is the same number, and comes back as the same half. -/
theorem floatToUint16_uint16ToFloat (h : UInt16) (hnan : h.toNat % 2 ^ 15 ≤ infinite) :
    ∃ x, uint16ToFloat h = some x ∧ x.toNat / 2 ^ 31 = h.toNat / 2 ^ 15 ∧
      (h.toNat % 2 ^ 15 < infinite → value 23 (x.toNat % 2 ^ 31) = 2 ^ 125 * value 10 (h.toNat % 2 ^ 15)) ∧
      floatToUint16 x = h := by
  obtain ⟨x, hx, hsign, hvalue, hinfinite⟩ := uint16ToFloat_value h hnan
  refine ⟨x, hx, hsign, hvalue, ?_⟩
  have hrounded : x.toNat % 2 ^ 31 ≤ 255 * 2 ^ 23 ∧
      Rounds 10 (2 ^ 125) infinite (value 23 (x.toNat % 2 ^ 31)) (h.toNat % 2 ^ 15) := by
    by_cases hfinite : h.toNat % 2 ^ 15 < infinite
    · have hexact := hvalue hfinite
      refine ⟨?_, hexact ▸ rounds_value (Nat.two_pow_pos 125) hnan⟩
      by_contra hlarge
      have htop : value 10 infinite = 2 ^ 40 := value_normal (p := 10) (m := 0) (by decide) (by decide)
      have hend : value 23 (255 * 2 ^ 23 + 0) = (2 ^ 23 + 0) * 2 ^ 254 := value_normal (by decide) (by decide)
      have hsmall : 2 ^ 125 * value 10 (h.toNat % 2 ^ 15) ≤ 2 ^ 125 * 2 ^ 40 :=
        Nat.mul_le_mul_left _ (htop ▸ value_le hnan)
      have hbig : value 23 (255 * 2 ^ 23 + 0) ≤ value 23 (x.toNat % 2 ^ 31) := value_le (Nat.le_of_not_le hlarge)
      rw [hexact, hend] at hbig
      exact absurd (Nat.le_trans hbig hsmall) (by decide)
    · have htop : h.toNat % 2 ^ 15 = infinite := Nat.le_antisymm hnan (Nat.le_of_not_lt hfinite)
      rw [hinfinite htop, htop]
      exact ⟨Nat.le_refl _, rounds_infinite (by decide)⟩
  obtain ⟨hsign', hrounds⟩ := floatToUint16_rounds x hrounded.1
  have hcode := hrounds.unique hrounded.2
  rw [uint16_eq_iff]
  have hleft := Nat.div_add_mod (floatToUint16 x).toNat (2 ^ 15)
  have hright := Nat.div_add_mod h.toNat (2 ^ 15)
  rw [← hleft, ← hright, hsign', hsign, hcode]

theorem floatToUint16_uint16ToFloat_sample :
    ∃ x, uint16ToFloat 0x3555 = some x ∧ x.toNat / 2 ^ 31 = (0x3555 : UInt16).toNat / 2 ^ 15 ∧
      ((0x3555 : UInt16).toNat % 2 ^ 15 < infinite →
        value 23 (x.toNat % 2 ^ 31) = 2 ^ 125 * value 10 ((0x3555 : UInt16).toNat % 2 ^ 15)) ∧
      floatToUint16 x = 0x3555 :=
  floatToUint16_uint16ToFloat 0x3555 (by decide)

example : floatToUint16 0x40490fdb = 0x4248 := by decide +kernel

example : uint16ToFloat 0x0001 = some 0x33800000 := by decide +kernel

end Ieee754
end Firefly
