import Firefly.Base.Binary
import Firefly.Lib.Varint

/-!
# Firefly.Base.Varuint

The length prefixes of strings. `fd_binary_put_varuint` puts the groups of seven bits of `Varint` one
by one, and `fd_binary_get_varuint` puts the number together again in 64 bits.
-/

namespace Firefly
namespace Binary

variable {b : Binary} {limit : Nat} {bs cs : List UInt8}

theorem ofNat_or_eq (n : Nat) : UInt8.ofNat (n ||| 0x80) = UInt8.ofNat (n % 128 + 128) := by
  have hbits : ∀ m < 256, m ||| 128 = m % 128 + 128 := by decide +kernel
  have hlow := hbits (n % 2 ^ 8) (by omega)
  have h128 : 0x80 % 2 ^ 8 = 128 := rfl
  apply UInt8.toNat_inj.mp
  rw [UInt8.toNat_ofNat', UInt8.toNat_ofNat', Nat.or_mod_two_pow, h128, hlow]
  omega

theorem putGroups_eq (k : Nat) (b : Binary) (n : Nat) :
    putGroups k b n = b.putAll ((Varint.groups k n).map fun x => [x]) := by
  induction k generalizing b n with
  | zero => rfl
  | succ k ih =>
    rw [putGroups, Varint.groups]
    by_cases hlast : n < 128
    · rw [if_pos (Nat.le_of_lt_succ hlast), if_pos hlast]
      rfl
    · rw [if_neg (by omega), if_neg hlast, ih, ofNat_or_eq, Nat.shiftRight_eq_div_pow]
      rfl

theorem putVaruint_eq {n : Nat} (h : n < 128 ^ 10) :
    b.putVaruint n = b.putAll ((Varint.encode n).map fun x => [x]) := by
  rw [putVaruint, putGroups_eq, Varint.groups_eq_encode h]

theorem Written.putVaruint {n : Nat} (h : b.Written limit bs) (hn : n < 128 ^ 10)
    (hfit : bs.length + (Varint.encode n).length ≤ limit) :
    (b.putVaruint n).Written limit (bs ++ Varint.encode n) := by
  have hflatten : ((Varint.encode n).map fun x => [x]).flatten = Varint.encode n := by
    rw [← List.flatMap_def, List.flatMap_singleton']
  have hput := h.putAll (by rw [hflatten]; exact hfit)
  rwa [hflatten, ← putVaruint_eq hn] at hput

/-- The seven bits of a byte, in the place of the group that it is, as far as 64 bits go. -/
theorem or_group {value : UInt64} {byte : UInt8} {index : Nat} (hvalue : value.toNat < 2 ^ (index * 7))
    (hindex : index * 7 < 64) :
    value ||| (byte &&& 0x7f).toUInt64 <<< UInt64.ofNat (index * 7) =
      UInt64.ofNat (value.toNat + byte.toNat % 128 * 2 ^ (index * 7)) := by
  have hgroup : (byte &&& 0x7f).toNat = byte.toNat % 128 := by
    rw [UInt8.toNat_and]
    exact Nat.and_two_pow_sub_one_eq_mod byte.toNat 7
  have hshift : (UInt64.ofNat (index * 7)).toNat = index * 7 := by
    rw [UInt64.toNat_ofNat', Nat.mod_eq_of_lt (by omega)]
  have hpow : 2 ^ 64 = 2 ^ (64 - index * 7) * 2 ^ (index * 7) := by
    rw [← Nat.pow_add, Nat.sub_add_cancel (Nat.le_of_lt hindex)]
  have hmod : byte.toNat % 128 * 2 ^ (index * 7) % 2 ^ 64 =
      byte.toNat % 128 % 2 ^ (64 - index * 7) * 2 ^ (index * 7) := by
    rw [hpow, Nat.mul_mod_mul_right]
  have hfits : value.toNat + byte.toNat % 128 * 2 ^ (index * 7) % 2 ^ 64 < 2 ^ 64 := by
    have hquot : byte.toNat % 128 % 2 ^ (64 - index * 7) < 2 ^ (64 - index * 7) :=
      Nat.mod_lt _ (Nat.two_pow_pos _)
    have hmul := Nat.mul_le_mul_right (2 ^ (index * 7)) (Nat.succ_le_of_lt hquot)
    rw [← hpow, Nat.succ_mul, ← hmod] at hmul
    omega
  apply UInt64.toNat_inj.mp
  rw [UInt64.toNat_ofNat', ← Nat.add_mod_mod, Nat.mod_eq_of_lt hfits, UInt64.toNat_or, UInt64.toNat_shiftLeft,
    UInt8.toNat_toUInt64, hgroup, hshift, Nat.mod_eq_of_lt hindex, Nat.shiftLeft_eq, hmod, Nat.or_comm,
    ← Nat.shiftLeft_eq, ← Nat.shiftLeft_add_eq_or_of_lt hvalue, Nat.add_comm]

theorem last_group (byte : UInt8) : byte &&& 0x80 = 0 ↔ byte.toNat < 128 := by
  have hbits : ∀ m < 256, m &&& 128 = 0 ↔ m < 128 := by decide +kernel
  rw [← UInt8.toNat_inj, UInt8.toNat_and]
  exact hbits byte.toNat byte.toNat_lt

theorem top_clear (value : UInt64) : value &&& 0xe000000000000000 = 0 ↔ value.toNat < 2 ^ 61 := by
  have hmask : (0xe000000000000000 : UInt64).toNat = (2 ^ 3 - 1) <<< 61 := rfl
  have htop : (value &&& 0xe000000000000000).toNat >>> 61 = value.toNat / 2 ^ 61 % 2 ^ 3 := by
    rw [UInt64.toNat_and, hmask, Nat.shiftRight_and_distrib, Nat.shiftLeft_shiftRight,
      Nat.and_two_pow_sub_one_eq_mod, Nat.shiftRight_eq_div_pow]
  have hvalue := value.toNat_lt
  constructor
  · intro h
    rw [h] at htop
    have hzero : value.toNat / 2 ^ 61 % 2 ^ 3 = 0 := htop.symm
    omega
  · intro h
    rw [← UInt64.toNat_inj, UInt64.toNat_and, hmask]
    apply Nat.eq_of_testBit_eq
    intro i
    rw [Nat.testBit_and, Nat.testBit_shiftLeft, UInt64.toNat_zero, Nat.zero_testBit]
    by_cases hi : 61 ≤ i
    · rw [Nat.testBit_lt_two_pow (Nat.lt_of_lt_of_le h (Nat.pow_le_pow_right (by decide) hi)), Bool.false_and]
    · rw [decide_eq_false (by omega), Bool.false_and, Bool.and_false]

/-- One pass of the loop, as long as the shift is less than the width. -/
theorem getGroups_succ {index : Nat} {value : UInt64} (hvalue : value.toNat < 2 ^ (index * 7))
    (hindex : index * 7 < 64) (left : Nat) (b : Binary) :
    b.getGroups (left + 1) index value =
      let next := UInt64.ofNat (value.toNat + (b.buffer b.getIndex).toNat % 128 * 2 ^ (index * 7))
      if (b.buffer b.getIndex).toNat < 128 then (next, b.skip 1)
      else if next.toNat < 2 ^ 61 then (b.skip 1).getGroups left (index + 1) next
      else (0, { b.skip 1 with errors := b.errors ||| errorInvalidRepresentation }) := by
  simp only [getGroups, or_group hvalue hindex, last_group, ← top_clear, ne_eq, ite_not]
  rfl

theorem skip_eq {n : Nat} (h : b.getIndex + n ≤ b.size) :
    b.skip n = { b with getIndex := b.getIndex + n } := by
  rw [skip, mod_eq_of_le_size h]

theorem skip_skip (b : Binary) (m n : Nat) : (b.skip m).skip n = b.skip (m + n) := by
  simp only [skip, Nat.mod_add_mod, Nat.add_assoc]

theorem Unread.skip (h : b.Unread (cs ++ bs)) : (b.skip cs.length).Unread bs := by
  have hfits := h.fits
  rw [List.length_append] at hfits
  rw [skip_eq (by omega)]
  refine ⟨(Memory.read_eq_append h.bytes).2, ?_⟩
  simp only
  omega

theorem Unread.head {x : UInt8} (h : b.Unread (x :: bs)) : b.buffer b.getIndex = x := by
  have hread := h.bytes
  rw [List.length_cons, Memory.read_succ] at hread
  exact (List.cons.inj hread).1

theorem Unread.tail {x : UInt8} (h : b.Unread (x :: bs)) : (b.skip 1).Unread bs :=
  Unread.skip (show b.Unread ([x] ++ bs) from h)

theorem split_group (n p : Nat) : n * p = n % 128 * p + n / 128 * (p * 128) := by
  have hsplit : (n % 128 + 128 * (n / 128)) * p = n % 128 * p + n / 128 * (p * 128) := by
    rw [Nat.add_mul, Nat.mul_comm 128, Nat.mul_assoc, Nat.mul_comm 128]
  rwa [Nat.mod_add_div] at hsplit

theorem pow_index_succ (index : Nat) : 2 ^ ((index + 1) * 7) = 2 ^ (index * 7) * 128 := by
  rw [Nat.add_mul, Nat.pow_add]

/-- A number of `index` groups, with one more. -/
theorem add_group_lt {value group index : Nat} (hvalue : value < 2 ^ (index * 7)) (hgroup : group < 128) :
    value + group * 2 ^ (index * 7) < 2 ^ ((index + 1) * 7) := by
  have hmul : group * 2 ^ (index * 7) ≤ 127 * 2 ^ (index * 7) :=
    Nat.mul_le_mul_right _ (Nat.le_of_lt_succ hgroup)
  rw [pow_index_succ]
  omega

/-- The last group ends the number. -/
theorem Unread.getGroups_last {n index : Nat} {value : UInt64} (h : b.Unread (UInt8.ofNat n :: bs))
    (hn : n < 128) (hindex : index * 7 < 64) (hvalue : value.toNat < 2 ^ (index * 7)) (left : Nat) :
    b.getGroups (left + 1) index value =
      (UInt64.ofNat (value.toNat + n * 2 ^ (index * 7)), b.skip 1) := by
  have hbyte : (UInt8.ofNat n).toNat = n := by rw [UInt8.toNat_ofNat', Nat.mod_eq_of_lt (by omega)]
  rw [getGroups_succ hvalue hindex]
  dsimp only
  rw [h.head, hbyte, if_pos hn, Nat.mod_eq_of_lt hn]

/-- A group that is not the last one. -/
theorem Unread.getGroups_next {n index : Nat} {value : UInt64}
    (h : b.Unread (UInt8.ofNat (n % 128 + 128) :: bs))
    (hindex : (index + 1) * 7 < 64) (hvalue : value.toNat < 2 ^ (index * 7)) (left : Nat) :
    ∃ next : UInt64, next.toNat = value.toNat + n % 128 * 2 ^ (index * 7) ∧
      next.toNat < 2 ^ ((index + 1) * 7) ∧
      b.getGroups (left + 1) index value =
        if next.toNat < 2 ^ 61 then (b.skip 1).getGroups left (index + 1) next
        else (0, { b.skip 1 with errors := b.errors ||| errorInvalidRepresentation }) := by
  have hbyte : (UInt8.ofNat (n % 128 + 128)).toNat = n % 128 + 128 := by
    rw [UInt8.toNat_ofNat', Nat.mod_eq_of_lt (by omega)]
  have hsmall := add_group_lt hvalue (Nat.mod_lt n (show 0 < 128 by decide))
  have hwidth : 2 ^ ((index + 1) * 7) ≤ 2 ^ 64 := Nat.pow_le_pow_right (by decide) (Nat.le_of_lt hindex)
  have hnext : (UInt64.ofNat (value.toNat + n % 128 * 2 ^ (index * 7))).toNat =
      value.toNat + n % 128 * 2 ^ (index * 7) := by
    rw [UInt64.toNat_ofNat', Nat.mod_eq_of_lt (Nat.lt_of_lt_of_le hsmall hwidth)]
  refine ⟨_, hnext, lt_of_eq_of_lt hnext hsmall, ?_⟩
  rw [getGroups_succ hvalue (by omega)]
  dsimp only
  rw [h.head, hbyte, if_neg (by omega), Nat.add_mod_right, Nat.mod_mod]

theorem pow_index_le {n : Nat} (hn : 128 ≤ n) (index : Nat) : 2 ^ ((index + 1) * 7) ≤ n * 2 ^ (index * 7) := by
  rw [pow_index_succ, Nat.mul_comm n]
  exact Nat.mul_le_mul_left _ hn

/-- Each group adds its bits to the value. The induction is on the groups that may follow. -/
theorem Unread.getGroups {k n index : Nat} {value : UInt64} (h : b.Unread (Varint.groups k n ++ bs))
    (hk : n < 128 ^ (k + 1)) (hindex : index * 7 < 64) (hvalue : value.toNat < 2 ^ (index * 7))
    (hlt : value.toNat + n * 2 ^ (index * 7) < 2 ^ 63 + 2 ^ 61) (left : Nat) :
    b.getGroups (left + (Varint.groups k n).length) index value =
      (UInt64.ofNat (value.toNat + n * 2 ^ (index * 7)), b.skip (Varint.groups k n).length) := by
  induction k generalizing b n index value with
  | zero => exact getGroups_last h (by simpa using hk) hindex hvalue left
  | succ k ih =>
    rw [Varint.groups] at h ⊢
    by_cases hlast : n < 128
    · rw [if_pos hlast] at h ⊢
      exact getGroups_last h hlast hindex hvalue left
    · rw [if_neg hlast] at h ⊢
      have hpow := pow_index_le (Nat.le_of_not_lt hlast) index
      have hindex' : (index + 1) * 7 < 64 := by
        by_contra hge
        have hbig : 2 ^ 64 ≤ 2 ^ ((index + 1) * 7) := Nat.pow_le_pow_right (by decide) (by omega)
        omega
      have hsplit := split_group n (2 ^ (index * 7))
      rw [← pow_index_succ] at hsplit
      obtain ⟨next, hnext, hlow, hpass⟩ :=
        h.getGroups_next hindex' hvalue (left + (Varint.groups k (n / 128)).length)
      have htop : next.toNat < 2 ^ 61 := by
        -- Behind the ninth group, what is left of the number is its top bit.
        by_cases hninth : index = 8
        · subst hninth
          have hrest : 2 ^ 63 ≤ n / 128 * 2 ^ ((8 + 1) * 7) := Nat.le_mul_of_pos_left _ (by omega)
          omega
        · exact Nat.lt_of_lt_of_le hlow (Nat.pow_le_pow_right (by decide) (by omega))
      have hrest := ih h.tail (by rw [Nat.pow_succ] at hk; omega) hindex' hlow (by omega)
      rw [hnext, Nat.add_assoc, ← hsplit, skip_skip, Nat.add_comm 1] at hrest
      rw [List.length_cons, ← Nat.add_assoc, hpass, if_pos htop, hrest]

theorem add_last_lt {n index value : Nat} (hn : n < 128) (hindex : (index + 1) * 7 < 64)
    (hvalue : value < 2 ^ (index * 7)) : value + n * 2 ^ (index * 7) < 2 ^ 63 :=
  Nat.lt_of_lt_of_le (add_group_lt hvalue hn) (Nat.pow_le_pow_right (by decide) (by omega))

/-- The check finds a bit behind the ninth group, with the top bit of the number to come. -/
theorem Unread.getGroups_refused {k n index : Nat} {value : UInt64} (h : b.Unread (Varint.groups k n ++ bs))
    (hk : n < 128 ^ (k + 1)) (hindex : (index + 1) * 7 < 64) (hvalue : value.toNat < 2 ^ (index * 7))
    (hle : 2 ^ 63 + 2 ^ 61 ≤ value.toNat + n * 2 ^ (index * 7))
    (hlt : value.toNat + n * 2 ^ (index * 7) < 2 ^ 64) (left : Nat) :
    (b.getGroups (left + (Varint.groups k n).length) index value).1 = 0 := by
  have hlarge (hn : n < 128) : False := by
    have hsmall := add_last_lt hn hindex hvalue
    omega
  induction k generalizing b n index value with
  | zero => exact (hlarge (by simpa using hk)).elim
  | succ k ih =>
    have hnot : ¬ n < 128 := hlarge
    rw [Varint.groups, if_neg hnot] at h ⊢
    have hsplit := split_group n (2 ^ (index * 7))
    rw [← pow_index_succ] at hsplit
    obtain ⟨next, hnext, hlow, hpass⟩ :=
      h.getGroups_next hindex hvalue (left + (Varint.groups k (n / 128)).length)
    rw [List.length_cons, ← Nat.add_assoc, hpass]
    by_cases hninth : index = 8
    · subst hninth
      have htop : ¬ next.toNat < 2 ^ 61 := by
        intro htop
        have hone : n / 128 * 2 ^ ((8 + 1) * 7) < 2 * 2 ^ ((8 + 1) * 7) := by omega
        have hrest := Nat.le_of_lt_succ (Nat.lt_of_mul_lt_mul_right hone)
        have hbound := Nat.mul_le_mul_right (2 ^ ((8 + 1) * 7)) hrest
        omega
      rw [if_neg htop]
    · have htop : next.toNat < 2 ^ 61 :=
        Nat.lt_of_lt_of_le hlow (Nat.pow_le_pow_right (by decide) (by omega))
      have hrest : value.toNat + n * 2 ^ (index * 7) = next.toNat + n / 128 * 2 ^ ((index + 1) * 7) := by
        rw [hnext, hsplit, Nat.add_assoc]
      rw [if_pos htop]
      refine ih h.tail (by rw [Nat.pow_succ] at hk; omega) (by omega) hlow (hrest ▸ hle) (hrest ▸ hlt) ?_
      intro hn
      have hsmall : next.toNat + n / 128 * 2 ^ ((index + 1) * 7) < 2 ^ 63 := add_last_lt hn (by omega) hlow
      omega

theorem Unread.remaining (h : b.Unread (cs ++ bs)) :
    ∃ left, (2 ^ 32 - b.getIndex + b.size) % 2 ^ 32 = left + cs.length := by
  have hfits := h.fits
  have hlt := b.size_lt
  rw [List.length_append] at hfits
  exact ⟨b.size - b.getIndex - cs.length, by omega⟩

theorem lt_pow_self_succ (n : Nat) : n < 128 ^ (n + 1) :=
  Nat.lt_of_lt_of_le (Nat.lt_pow_self (by decide)) (Nat.pow_le_pow_right (by decide) (Nat.le_succ n))

theorem Unread.getVaruint {n : Nat} (h : b.Unread (Varint.encode n ++ bs)) (hn : n < 2 ^ 63 + 2 ^ 61) :
    b.getVaruint = (UInt64.ofNat n, b.skip (Varint.encode n).length) := by
  obtain ⟨left, hleft⟩ := h.remaining
  have hgroups : b.getGroups (left + (Varint.encode n).length) 0 0 =
      (UInt64.ofNat (0 + n * 2 ^ (0 * 7)), b.skip (Varint.encode n).length) :=
    Unread.getGroups h (lt_pow_self_succ n) (by decide) (by decide) (by simpa using hn) left
  rw [Binary.getVaruint, hleft, hgroups, Nat.zero_mul, Nat.pow_zero, Nat.mul_one, Nat.zero_add]

theorem Unread.getVaruint_refused {n : Nat} (h : b.Unread (Varint.encode n ++ bs)) (hle : 2 ^ 63 + 2 ^ 61 ≤ n)
    (hlt : n < 2 ^ 64) : b.getVaruint.1 = 0 := by
  obtain ⟨left, hleft⟩ := h.remaining
  have hgroups : (b.getGroups (left + (Varint.encode n).length) 0 0).1 = 0 :=
    Unread.getGroups_refused h (lt_pow_self_succ n) (by decide) (by decide) (by simpa using hle)
      (by simpa using hlt) left
  rw [Binary.getVaruint, hleft, hgroups]

end Binary
end Firefly
