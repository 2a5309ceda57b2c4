import Mathlib.Data.List.Basic
import Mathlib.Data.UInt
import Mathlib.Logic.Equiv.Nat

/-!
# Firefly.Lib.Varint

Numbers as byte strings of seven bits a byte, the least significant first, where all bytes but the
last have their top bit set. `decode` reads one number and leaves the bytes behind it. A number with a
sign goes as the natural number that `Equiv.intEquivNat` gives for it.
-/

namespace Varint

/-- The groups of a number that has at most `k + 1` of them. -/
def groups : Nat → Nat → List UInt8
  | 0, n => [UInt8.ofNat n]
  | k + 1, n => if n < 128 then [UInt8.ofNat n] else UInt8.ofNat (n % 128 + 128) :: groups k (n / 128)

def encode (n : Nat) : List UInt8 := groups n n

def decode : List UInt8 → Option (Nat × List UInt8)
  | [] => none
  | b :: bs =>
    if b.toNat < 128 then some (b.toNat, bs)
    else match decode bs with
      | none => none
      | some (n, rest) => some (b.toNat - 128 + 128 * n, rest)

/-- A byte that goes on. -/
theorem decode_cons {x : UInt8} (h : 128 ≤ x.toNat) (bs : List UInt8) :
    decode (x :: bs) = (decode bs).map fun r => (x.toNat % 128 + 128 * r.1, r.2) := by
  have hmod : x.toNat - 128 = x.toNat % 128 := by
    have hlt := x.toNat_lt
    omega
  rw [decode, if_neg (Nat.not_lt.mpr h), hmod]
  cases decode bs with
  | none => rfl
  | some r => rfl

/-- What is left is behind at least one byte. -/
theorem eq_append_of_decode {bs rest : List UInt8} {n : Nat} (h : decode bs = some (n, rest)) :
    ∃ x front, bs = x :: front ++ rest := by
  induction bs generalizing n with
  | nil => cases h
  | cons x bs ih =>
    by_cases hx : x.toNat < 128
    · rw [decode, if_pos hx] at h
      obtain ⟨-, rfl⟩ := Prod.mk.inj (Option.some.inj h)
      exact ⟨x, [], rfl⟩
    · rw [decode_cons (Nat.le_of_not_lt hx)] at h
      obtain ⟨⟨m, rest'⟩, hm, heq⟩ := Option.map_eq_some_iff.mp h
      obtain ⟨-, rfl⟩ := Prod.mk.inj heq
      obtain ⟨y, front, rfl⟩ := ih hm
      exact ⟨x, y :: front, rfl⟩

theorem length_lt_of_decode {bs rest : List UInt8} {n : Nat} (h : decode bs = some (n, rest)) :
    rest.length < bs.length := by
  obtain ⟨x, front, rfl⟩ := eq_append_of_decode h
  rw [List.length_append, List.length_cons]
  omega

theorem encode_of_lt {n : Nat} (h : n < 128) : encode n = [UInt8.ofNat n] := by
  cases n with
  | zero => rfl
  | succ n => rw [encode, groups, if_pos h]

/-- How many groups are allowed for does not matter when the number has no more. -/
theorem groups_congr {j k n : Nat} (hj : n < 128 ^ (j + 1)) (hk : n < 128 ^ (k + 1)) :
    groups j n = groups k n := by
  induction j generalizing k n with
  | zero =>
    have hlast : n < 128 := by simpa using hj
    cases k with
    | zero => rfl
    | succ k => rw [groups, groups, if_pos hlast]
  | succ j ih =>
    by_cases hlast : n < 128
    · cases k with
      | zero => rw [groups, groups, if_pos hlast]
      | succ k => rw [groups, groups, if_pos hlast, if_pos hlast]
    · cases k with
      | zero => exact absurd (by simpa using hk) hlast
      | succ k =>
        rw [Nat.pow_succ] at hj hk
        have hrest : groups j (n / 128) = groups k (n / 128) := ih (by omega) (by omega)
        rw [groups, groups, if_neg hlast, if_neg hlast, hrest]

theorem groups_eq_encode {k n : Nat} (h : n < 128 ^ (k + 1)) : groups k n = encode n := by
  have hself : n < 128 ^ n := Nat.lt_pow_self (by decide)
  exact groups_congr h (Nat.lt_of_lt_of_le hself (Nat.pow_le_pow_right (by decide) (Nat.le_succ n)))

theorem length_groups_pos (k n : Nat) : 0 < (groups k n).length := by
  cases k with
  | zero => exact Nat.one_pos
  | succ k =>
    rw [groups]
    by_cases hlast : n < 128
    · rw [if_pos hlast]
      exact Nat.one_pos
    · rw [if_neg hlast]
      exact Nat.succ_pos _

theorem length_groups_le (k n : Nat) : (groups k n).length ≤ k + 1 := by
  induction k generalizing n with
  | zero => exact Nat.le_refl 1
  | succ k ih =>
    rw [groups]
    by_cases hlast : n < 128
    · rw [if_pos hlast]
      exact Nat.succ_le_succ (Nat.zero_le _)
    · rw [if_neg hlast]
      exact Nat.succ_le_succ (ih (n / 128))

/-- Only the number zero has a group that is zero. -/
theorem groups_ne_zero {k n : Nat} (h : n < 128 ^ (k + 1)) (hn : 0 < n) : ∀ b ∈ groups k n, b ≠ 0 := by
  have hne : ∀ m, 0 < m → m < 256 → UInt8.ofNat m ≠ 0 := by
    intro m hpos hlt h0
    have htoNat := congrArg UInt8.toNat h0
    rw [UInt8.toNat_ofNat', Nat.mod_eq_of_lt hlt] at htoNat
    exact absurd htoNat (Nat.ne_of_gt hpos)
  induction k generalizing n with
  | zero =>
    intro b hb
    rw [List.mem_singleton.mp hb]
    exact hne n hn (Nat.lt_of_lt_of_le h (by decide))
  | succ k ih =>
    intro b hb
    rw [groups] at hb
    by_cases hlast : n < 128
    · rw [if_pos hlast] at hb
      rw [List.mem_singleton.mp hb]
      exact hne n hn (by omega)
    · rw [if_neg hlast] at hb
      rw [Nat.pow_succ] at h
      cases List.mem_cons.mp hb with
      | inl hhead =>
        rw [hhead]
        exact hne _ (by omega) (by omega)
      | inr hrest => exact ih (by omega) (by omega) b hrest

theorem decode_last {n : Nat} (h : n < 128) (rest : List UInt8) :
    decode (UInt8.ofNat n :: rest) = some (n, rest) := by
  have htoNat : (UInt8.ofNat n).toNat = n := by
    rw [UInt8.toNat_ofNat', Nat.mod_eq_of_lt (by omega)]
  rw [decode, htoNat, if_pos h]

theorem decode_groups {k n : Nat} (h : n ≤ k) (rest : List UInt8) :
    decode (groups k n ++ rest) = some (n, rest) := by
  induction k generalizing n with
  | zero => exact decode_last (by omega) rest
  | succ k ih =>
    rw [groups]
    by_cases hlast : n < 128
    · rw [if_pos hlast]
      exact decode_last hlast rest
    · have htoNat : (UInt8.ofNat (n % 128 + 128)).toNat = n % 128 + 128 := by
        rw [UInt8.toNat_ofNat', Nat.mod_eq_of_lt (by omega)]
      have hrest := ih (n := n / 128) (by omega)
      rw [if_neg hlast, List.cons_append, decode, htoNat, if_neg (by omega), hrest]
      simp only [Nat.add_sub_cancel, Nat.mod_add_div]

theorem decode_encode (n : Nat) (rest : List UInt8) : decode (encode n ++ rest) = some (n, rest) :=
  decode_groups (Nat.le_refl n) rest

/-! ## Signs -/

theorem intEquivNat_eq (i : Int) :
    Equiv.intEquivNat i = if i < 0 then (-2 * i - 1).toNat else (2 * i).toNat := by
  cases i with
  | ofNat n =>
    have hnat : Equiv.intEquivNat (Int.ofNat n) = 2 * n := rfl
    rw [hnat, Int.ofNat_eq_natCast, if_neg (Int.not_lt.mpr (Int.natCast_nonneg n))]
    omega
  | negSucc n =>
    have hnat : Equiv.intEquivNat (Int.negSucc n) = 2 * n + 1 := rfl
    rw [hnat, if_pos (Int.negSucc_lt_zero n)]
    omega

theorem intEquivNat_lt_iff (i : Int) (n : Nat) : Equiv.intEquivNat i < 2 * n ↔ -n ≤ i ∧ i < n := by
  rw [intEquivNat_eq]
  split
  · omega
  · omega

end Varint
