import Firefly.Base.Varuint

/-!
# Firefly.Base.Shifts

`fd_binary_get_varuint` on any bytes. Nothing bounds the number of its passes but the bytes that are left and
the check for the three top bits of the value. A run of the loop is as long as its shifts, and up to the ninth
byte every pass is exact. What goes wrong is in the tenth byte (`Loses`): all but one of its bits are lost, and
where that bit is clear and another byte follows, the loop shifts by 70. Everywhere else the number is that of
the bytes that are consumed, or an error is set (`sound_iff`).
-/

namespace Firefly
namespace Binary

/-- The shifts of the loop, pass by pass. -/
def groupShifts : Nat → Nat → UInt64 → Binary → List Nat
  | 0, _, _, _ => []
  | remaining + 1, index, value, b =>
    let byte := b.buffer b.getIndex
    let b := b.skip 1
    let value := value ||| (byte &&& 0x7f).toUInt64 <<< UInt64.ofNat (index * 7)
    index * 7 ::
      if byte &&& 0x80 = 0 then []
      else if value &&& 0xe000000000000000 ≠ 0 then []
      else groupShifts remaining (index + 1) value b

def varuintShifts (b : Binary) : List Nat :=
  groupShifts ((2 ^ 32 - b.getIndex + b.size) % 2 ^ 32) 0 0 b

/-- The errors without those that were set before. -/
def clear (b : Binary) : Binary := { b with errors := 0 }

/-- `fd_binary_get_varuint` takes at most ten bytes, and gives the number that they are or sets an error. -/
structure Sound (b : Binary) : Prop where
  shifts : ∀ n ∈ b.varuintShifts, n < 64
  consumed : b.getVaruint.2.getIndex ≤ b.getIndex + 10
  size : b.getVaruint.2.getIndex ≤ b.size
  decoded : b.clear.getVaruint.2.errors ≠ 0 ∨
    Varint.decode (b.buffer.read b.getIndex (b.getVaruint.2.getIndex - b.getIndex)) =
      some (b.getVaruint.1.toNat, [])

/-- Nine bytes are not the last one and leave the top bits clear, and the tenth has bits that 64 do not hold,
or is not the last one either and adds nothing. -/
def Loses (bytes : List UInt8) : Prop :=
  (∀ i < 9, 128 ≤ (bytes.getD i 0).toNat) ∧ (bytes.getD 8 0).toNat % 128 < 32 ∧
    (2 ≤ (bytes.getD 9 0).toNat ∧ (bytes.getD 9 0).toNat < 128 ∨
      128 ≤ (bytes.getD 9 0).toNat ∧ (bytes.getD 9 0).toNat % 2 = 0 ∧ 10 < bytes.length)

instance (bytes : List UInt8) : Decidable (Loses bytes) := instDecidableAnd

variable {b : Binary} {bs cs bytes : List UInt8}

/-! ## Errors -/

/-- The errors that were set before stay, and make no difference. -/
theorem getGroups_clear (left index : Nat) (value : UInt64) (b : Binary) :
    b.getGroups left index value =
      ((b.clear.getGroups left index value).1,
        { (b.clear.getGroups left index value).2 with
          errors := b.errors ||| (b.clear.getGroups left index value).2.errors }) := by
  induction left generalizing index value b with
  | zero => simp only [getGroups, clear, Nat.zero_or]
  | succ left ih =>
    have hbyte : b.clear.buffer b.clear.getIndex = b.buffer b.getIndex := rfl
    simp only [getGroups, hbyte]
    split
    · rw [Prod.mk.injEq]
      refine ⟨rfl, ?_⟩
      simp only [skip, clear, Nat.or_zero]
    · split
      · simp only [skip, clear, Nat.zero_or]
      · exact ih ..

theorem groupShifts_clear (left index : Nat) (value : UInt64) (b : Binary) :
    b.clear.groupShifts left index value = b.groupShifts left index value := by
  induction left generalizing index value b with
  | zero => rfl
  | succ left ih =>
    have hbyte : b.clear.buffer b.clear.getIndex = b.buffer b.getIndex := rfl
    have hskip : b.clear.skip 1 = (b.skip 1).clear := rfl
    simp only [groupShifts, hbyte, hskip, ih]

/-! ## Passes -/

/-- The shift of one pass, and those of the passes behind it. -/
theorem groupShifts_succ {index : Nat} {value : UInt64} (hvalue : value.toNat < 2 ^ (index * 7))
    (hindex : index * 7 < 64) (left : Nat) (b : Binary) :
    b.groupShifts (left + 1) index value =
      let next := UInt64.ofNat (value.toNat + (b.buffer b.getIndex).toNat % 128 * 2 ^ (index * 7))
      index * 7 ::
        if (b.buffer b.getIndex).toNat < 128 then []
        else if next.toNat < 2 ^ 61 then (b.skip 1).groupShifts left (index + 1) next
        else [] := by
  simp only [groupShifts, or_group hvalue hindex, last_group, ← top_clear, ne_eq, ite_not]

theorem length_groupShifts_le (left index : Nat) (value : UInt64) (b : Binary) :
    (b.groupShifts left index value).length ≤ left := by
  induction left generalizing index value b with
  | zero => exact Nat.le_refl 0
  | succ left ih =>
    rw [groupShifts, List.length_cons]
    refine Nat.succ_le_succ ?_
    split
    · exact Nat.zero_le _
    · split
      · exact Nat.zero_le _
      · exact ih ..

/-- Each pass consumes one byte. -/
theorem getIndex_getGroups (left index : Nat) (value : UInt64) (h : b.getIndex < 2 ^ 32) :
    (b.getGroups left index value).2.getIndex =
      (b.getIndex + (b.groupShifts left index value).length) % 2 ^ 32 := by
  induction left generalizing index value b with
  | zero => exact (Nat.mod_eq_of_lt h).symm
  | succ left ih =>
    simp only [getGroups, groupShifts]
    split
    · rfl
    · split
      · rfl
      · have hskip : (b.skip 1).getIndex = (b.getIndex + 1) % 2 ^ 32 := rfl
        rw [ih _ _ (Nat.mod_lt _ (by decide)), hskip, Nat.mod_add_mod, List.length_cons, Nat.add_assoc,
          Nat.add_comm 1]

/-- The loop takes the number that starts with `value` from the bytes that are left, or sets an error. -/
structure Exact (bytes : List UInt8) (index : Nat) (value : UInt64) (b : Binary) : Prop where
  shifts : ∀ n ∈ b.groupShifts bytes.length index value, n < 64
  passes : index + (b.groupShifts bytes.length index value).length ≤ 10
  decoded : (b.getGroups bytes.length index value).2.errors ≠ 0 ∨
    ∃ n, Varint.decode (bytes.take (b.groupShifts bytes.length index value).length) = some (n, []) ∧
      (b.getGroups bytes.length index value).1.toNat = value.toNat + n * 2 ^ (index * 7)

section Pass

variable {index : Nat} {value : UInt64} {x : UInt8}

/-- The value with the group of a byte. -/
def addGroup (value : UInt64) (x : UInt8) (index : Nat) : UInt64 :=
  UInt64.ofNat (value.toNat + x.toNat % 128 * 2 ^ (index * 7))

theorem Unread.getGroups_pass (h : b.Unread (x :: bs)) (hindex : index ≤ 9)
    (hvalue : value.toNat < 2 ^ (index * 7)) : b.getGroups (x :: bs).length index value =
      if x.toNat < 128 then (addGroup value x index, b.skip 1)
      else if (addGroup value x index).toNat < 2 ^ 61 then
        (b.skip 1).getGroups bs.length (index + 1) (addGroup value x index)
      else (0, { b.skip 1 with errors := b.errors ||| errorInvalidRepresentation }) := by
  rw [List.length_cons, getGroups_succ hvalue (by omega), h.head]
  rfl

theorem Unread.groupShifts_pass (h : b.Unread (x :: bs)) (hindex : index ≤ 9)
    (hvalue : value.toNat < 2 ^ (index * 7)) : b.groupShifts (x :: bs).length index value =
      index * 7 ::
        if x.toNat < 128 then []
        else if (addGroup value x index).toNat < 2 ^ 61 then
          (b.skip 1).groupShifts bs.length (index + 1) (addGroup value x index)
        else [] := by
  rw [List.length_cons, groupShifts_succ hvalue (by omega), h.head]
  rfl

/-- Up to the ninth byte no bit is lost. -/
theorem addGroup_lt (hindex : index ≤ 8) (hvalue : value.toNat < 2 ^ (index * 7)) :
    (addGroup value x index).toNat = value.toNat + x.toNat % 128 * 2 ^ (index * 7) ∧
      (addGroup value x index).toNat < 2 ^ ((index + 1) * 7) := by
  have hsmall := add_group_lt hvalue (Nat.mod_lt x.toNat (show 0 < 128 by decide))
  have hwidth : 2 ^ ((index + 1) * 7) ≤ 2 ^ 63 := Nat.pow_le_pow_right (by decide) (by omega)
  have hsum : (addGroup value x index).toNat = value.toNat + x.toNat % 128 * 2 ^ (index * 7) := by
    rw [addGroup, UInt64.toNat_ofNat', Nat.mod_eq_of_lt (by omega)]
  exact ⟨hsum, hsum ▸ hsmall⟩

/-- Of the tenth byte only the lowest bit is kept. -/
theorem addGroup_tenth (hvalue : value.toNat < 2 ^ 61) :
    (addGroup value x 9).toNat < 2 ^ 61 ↔ x.toNat % 2 = 0 := by
  rw [addGroup, UInt64.toNat_ofNat']
  omega

/-- The number behind a group. -/
theorem add_groups (value group n index : Nat) : value + (group + 128 * n) * 2 ^ (index * 7) =
    value + group * 2 ^ (index * 7) + n * 2 ^ ((index + 1) * 7) := by
  rw [pow_index_succ, Nat.add_mul, ← Nat.add_assoc, Nat.mul_comm 128 n, Nat.mul_assoc, Nat.mul_comm 128]

/-- The first eight bytes that go on can be left out of what passes keep. -/
theorem pass_append {P : List UInt8 → Nat → UInt64 → Binary → Prop}
    (hpass : ∀ (b : Binary) x bs index (value : UInt64), b.Unread (x :: bs) → index < 8 →
      value.toNat < 2 ^ (index * 7) → 128 ≤ x.toNat →
      (P (x :: bs) index value b ↔ P bs (index + 1) (addGroup value x index) (b.skip 1)))
    (h : b.Unread (cs ++ bs)) (hcs : ∀ x ∈ cs, 128 ≤ x.toNat) (hindex : index + cs.length ≤ 8)
    (hvalue : value.toNat < 2 ^ (index * 7)) :
    ∃ next : UInt64, next.toNat < 2 ^ ((index + cs.length) * 7) ∧
      (P (cs ++ bs) index value b ↔ P bs (index + cs.length) next (b.skip cs.length)) := by
  induction cs generalizing b index value with
  | nil =>
    refine ⟨value, hvalue, ?_⟩
    have hskip := skip_eq (b := b) (n := 0) (by have := h.fits; omega)
    rw [List.length_nil, hskip]
    exact Iff.rfl
  | cons x cs ih =>
    rw [List.length_cons] at hindex
    have hfirst := hpass b x (cs ++ bs) index value h (by omega) hvalue (hcs x List.mem_cons_self)
    obtain ⟨next, hlow, hrest⟩ := ih h.tail (fun y hy => hcs y (List.mem_cons_of_mem _ hy)) (by omega)
      (addGroup_lt (by omega) hvalue).2
    rw [Nat.add_right_comm, Nat.add_assoc] at hlow hrest
    rw [skip_skip, Nat.add_comm 1] at hrest
    exact ⟨next, hlow, hfirst.trans hrest⟩

theorem exact_nil (hindex : index ≤ 10) : Exact [] index value b := by
  refine ⟨fun n hn => absurd hn List.not_mem_nil, hindex, Or.inl ?_⟩
  intro h0
  exact absurd (Nat.or_eq_zero_iff.mp h0).2 (by decide)

/-- The last byte is lost in part if the number has more than 64 bits. -/
theorem exact_last (h : b.Unread (x :: bs)) (herrors : b.errors = 0) (hindex : index ≤ 9)
    (hvalue : value.toNat < 2 ^ (index * 7)) (hx : x.toNat < 128) :
    Exact (x :: bs) index value b ↔ value.toNat + x.toNat * 2 ^ (index * 7) < 2 ^ 64 := by
  have hshifts : b.groupShifts (x :: bs).length index value = [index * 7] := by
    rw [h.groupShifts_pass hindex hvalue, if_pos hx]
  have hgroups : b.getGroups (x :: bs).length index value =
      (UInt64.ofNat (value.toNat + x.toNat * 2 ^ (index * 7)), b.skip 1) := by
    rw [h.getGroups_pass hindex hvalue, if_pos hx, addGroup, Nat.mod_eq_of_lt hx]
  have hdecode : Varint.decode [x] = some (x.toNat, []) := by rw [Varint.decode, if_pos hx]
  constructor
  · intro hexact
    rcases hexact.decoded with herror | ⟨n, hn, hvalue⟩
    · rw [hgroups] at herror
      exact absurd herrors herror
    · rw [hshifts] at hn
      obtain rfl : x.toNat = n := congrArg Prod.fst (Option.some.inj (hdecode.symm.trans hn))
      rw [← hvalue]
      exact UInt64.toNat_lt _
  · intro hlt
    constructor
    · rw [hshifts]
      intro n hn
      rw [List.mem_singleton.mp hn]
      omega
    · rw [hshifts]
      exact Nat.succ_le_succ hindex
    · rw [hshifts, hgroups]
      refine Or.inr ⟨x.toNat, hdecode, ?_⟩
      rw [UInt64.toNat_ofNat', Nat.mod_eq_of_lt hlt]

/-- The check finds a bit, and an error is set. -/
theorem exact_refused (h : b.Unread (x :: bs)) (hindex : index ≤ 9) (hvalue : value.toNat < 2 ^ (index * 7))
    (hx : 128 ≤ x.toNat) (htop : ¬ (addGroup value x index).toNat < 2 ^ 61) : Exact (x :: bs) index value b := by
  have hshifts : b.groupShifts (x :: bs).length index value = [index * 7] := by
    rw [h.groupShifts_pass hindex hvalue, if_neg (Nat.not_lt.mpr hx), if_neg htop]
  constructor
  · rw [hshifts]
    intro n hn
    rw [List.mem_singleton.mp hn]
    omega
  · rw [hshifts]
    exact Nat.succ_le_succ hindex
  · refine Or.inl ?_
    rw [h.getGroups_pass hindex hvalue, if_neg (Nat.not_lt.mpr hx), if_neg htop]
    intro h0
    exact absurd (Nat.or_eq_zero_iff.mp h0).2 (by decide)

/-- Up to the ninth byte a pass that goes on adds the bits of its byte. -/
theorem exact_next (h : b.Unread (x :: bs)) (hindex : index ≤ 8) (hvalue : value.toNat < 2 ^ (index * 7))
    (hx : 128 ≤ x.toNat) (htop : (addGroup value x index).toNat < 2 ^ 61) :
    Exact (x :: bs) index value b ↔ Exact bs (index + 1) (addGroup value x index) (b.skip 1) := by
  have hshifts : b.groupShifts (x :: bs).length index value =
      index * 7 :: (b.skip 1).groupShifts bs.length (index + 1) (addGroup value x index) := by
    rw [h.groupShifts_pass (by omega) hvalue, if_neg (Nat.not_lt.mpr hx), if_pos htop]
  have hgroups : b.getGroups (x :: bs).length index value =
      (b.skip 1).getGroups bs.length (index + 1) (addGroup value x index) := by
    rw [h.getGroups_pass (by omega) hvalue, if_neg (Nat.not_lt.mpr hx), if_pos htop]
  have hnumber (n : Nat) : value.toNat + (x.toNat % 128 + 128 * n) * 2 ^ (index * 7) =
      (addGroup value x index).toNat + n * 2 ^ ((index + 1) * 7) := by
    rw [(addGroup_lt hindex hvalue).1, add_groups]
  constructor
  · rintro ⟨hlt, hpasses, hdecoded⟩
    rw [hshifts] at hlt hpasses
    rw [List.length_cons] at hpasses
    refine ⟨fun n hn => hlt n (List.mem_cons_of_mem _ hn), by omega, ?_⟩
    rw [hshifts, hgroups, List.length_cons, List.take_succ_cons, Varint.decode_cons hx] at hdecoded
    refine hdecoded.imp id ?_
    rintro ⟨n, hn, hreturned⟩
    obtain ⟨⟨m, rest⟩, hm, heq⟩ := Option.map_eq_some_iff.mp hn
    obtain ⟨rfl, rfl⟩ := Prod.mk.inj heq
    exact ⟨m, hm, hreturned.trans (hnumber m)⟩
  · rintro ⟨hlt, hpasses, hdecoded⟩
    constructor
    · rw [hshifts]
      intro n hn
      cases List.mem_cons.mp hn with
      | inl hhead => omega
      | inr hrest => exact hlt n hrest
    · rw [hshifts, List.length_cons]
      omega
    · rw [hshifts, hgroups, List.length_cons, List.take_succ_cons, Varint.decode_cons hx]
      refine hdecoded.imp id ?_
      rintro ⟨m, hm, hreturned⟩
      rw [hm]
      exact ⟨_, rfl, hreturned.trans (hnumber m).symm⟩

/-- Behind a tenth byte that goes on and adds nothing, the shift is by 70. -/
theorem exact_tenth (h : b.Unread (x :: bs)) (hvalue : value.toNat < 2 ^ (9 * 7)) (hx : 128 ≤ x.toNat)
    (htop : (addGroup value x 9).toNat < 2 ^ 61) : Exact (x :: bs) 9 value b ↔ bs = [] := by
  have hshifts : b.groupShifts (x :: bs).length 9 value =
      9 * 7 :: (b.skip 1).groupShifts bs.length 10 (addGroup value x 9) := by
    rw [h.groupShifts_pass (Nat.le_refl 9) hvalue, if_neg (Nat.not_lt.mpr hx), if_pos htop]
  cases bs with
  | nil =>
    refine ⟨fun _ => rfl, fun _ => ?_⟩
    constructor
    · rw [hshifts]
      intro n hn
      rw [List.mem_singleton.mp hn]
      decide
    · rw [hshifts]
      exact Nat.le_refl 10
    · refine Or.inl ?_
      rw [h.getGroups_pass (Nat.le_refl 9) hvalue, if_neg (Nat.not_lt.mpr hx), if_pos htop]
      intro h0
      exact absurd (Nat.or_eq_zero_iff.mp h0).2 (by decide)
  | cons y bs =>
    refine ⟨fun hexact => ?_, fun h0 => absurd h0 (List.cons_ne_nil y bs)⟩
    have hlt := hexact.shifts (10 * 7) (by
      rw [hshifts]
      exact List.mem_cons_of_mem _ (List.mem_cons_self ..))
    exact absurd hlt (by decide)

theorem exact_append (h : b.Unread (cs ++ bs)) (hcs : ∀ x ∈ cs, 128 ≤ x.toNat) (hindex : index + cs.length ≤ 8)
    (hvalue : value.toNat < 2 ^ (index * 7)) :
    ∃ next : UInt64, next.toNat < 2 ^ ((index + cs.length) * 7) ∧
      (Exact (cs ++ bs) index value b ↔ Exact bs (index + cs.length) next (b.skip cs.length)) := by
  refine pass_append (fun b x bs index value h hindex hvalue hx => ?_) h hcs hindex hvalue
  have hlow := (addGroup_lt (x := x) (Nat.le_of_lt hindex) hvalue).2
  have hwidth : 2 ^ ((index + 1) * 7) ≤ 2 ^ 56 := Nat.pow_le_pow_right (by decide) (by omega)
  exact exact_next h (Nat.le_of_lt hindex) hvalue hx (by omega)

end Pass

/-! ## Nine bytes -/

/-- The bytes that go on are there. -/
theorem exists_append {i : Nat} (h : ∀ j < i, 128 ≤ (bytes.getD j 0).toNat) :
    ∃ cs bs, bytes = cs ++ bs ∧ cs.length = i ∧ ∀ x ∈ cs, 128 ≤ x.toNat := by
  have hle : i ≤ bytes.length := by
    by_contra hlt
    have hzero := h bytes.length (Nat.lt_of_not_le hlt)
    rw [List.getD_eq_default bytes 0 (Nat.le_refl _)] at hzero
    exact absurd hzero (by decide)
  refine ⟨bytes.take i, bytes.drop i, (List.take_append_drop i bytes).symm, List.length_take_of_le hle, ?_⟩
  intro x hx
  obtain ⟨j, hj, rfl⟩ := List.mem_take_iff_getElem.mp hx
  have hlt := Nat.lt_of_lt_of_le hj (Nat.min_le_right i bytes.length)
  rw [← List.getD_eq_getElem bytes 0 hlt]
  exact h j (Nat.lt_of_lt_of_le hj (Nat.min_le_left i bytes.length))

/-- Where eight bytes go on, the ninth byte and what is behind it decide. -/
theorem ninth_iff (hlength : cs.length = 8) (hcs : ∀ i < 8, 128 ≤ ((cs ++ bs).getD i 0).toNat)
    (P : UInt8 → UInt8 → Nat → Prop) :
    (∀ i < 9, 128 ≤ ((cs ++ bs).getD i 0).toNat) ∧
        P ((cs ++ bs).getD 8 0) ((cs ++ bs).getD 9 0) (cs ++ bs).length ↔
      128 ≤ (bs.getD 0 0).toNat ∧ P (bs.getD 0 0) (bs.getD 1 0) (8 + bs.length) := by
  have hget (i : Nat) : (cs ++ bs).getD (8 + i) 0 = bs.getD i 0 := by
    rw [List.getD_append_right _ _ _ _ (by omega), hlength, Nat.add_sub_cancel_left]
  rw [hget 0, hget 1, List.length_append, hlength]
  refine and_congr_left fun _ => ⟨fun hnine => hget 0 ▸ hnine 8 (by decide), fun height i hi => ?_⟩
  rcases Nat.lt_succ_iff_lt_or_eq.mp hi with hlt | rfl
  · exact hcs i hlt
  · exact hget 0 ▸ height

theorem exact_of_short (h : b.Unread bytes) (herrors : b.errors = 0)
    (hshort : ∃ i, i < 8 ∧ (bytes.getD i 0).toNat < 128) : Exact bytes 0 0 b := by
  -- The first byte that does not go on, if it is there at all.
  obtain ⟨hi, hlast⟩ := Nat.find_spec hshort
  have hmin (j : Nat) (hj : j < Nat.find hshort) : 128 ≤ (bytes.getD j 0).toNat := by
    by_contra hlt
    exact Nat.find_min hshort hj ⟨Nat.lt_trans hj hi, Nat.lt_of_not_le hlt⟩
  generalize Nat.find hshort = i at hi hlast hmin
  obtain ⟨cs, bs, rfl, rfl, hcs⟩ := exists_append hmin
  have hzero : (0 : UInt64).toNat < 2 ^ (0 * 7) := by decide
  obtain ⟨next, hlow, hiff⟩ := exact_append h hcs (by omega) hzero
  rw [Nat.zero_add] at hlow hiff
  refine hiff.mpr ?_
  cases bs with
  | nil => exact exact_nil (by omega)
  | cons x bs =>
    rw [List.getD_append_right _ _ _ _ (Nat.le_refl _), Nat.sub_self] at hlast
    have hx : x.toNat < 128 := hlast
    refine (exact_last h.skip herrors (by omega) hlow hx).mpr ?_
    have hgroup : x.toNat * 2 ^ (cs.length * 7) ≤ 127 * 2 ^ (cs.length * 7) :=
      Nat.mul_le_mul_right _ (by omega)
    have hwidth : 2 ^ (cs.length * 7) ≤ 2 ^ 49 := Nat.pow_le_pow_right (by decide) (by omega)
    omega

/-- The loop behind nine bytes that go on. -/
theorem exact_nine_iff {value : UInt64} (h : b.Unread bytes) (herrors : b.errors = 0)
    (hvalue : value.toNat < 2 ^ 61) : Exact bytes 9 value b ↔
      ¬ (2 ≤ (bytes.getD 0 0).toNat ∧ (bytes.getD 0 0).toNat < 128 ∨
        128 ≤ (bytes.getD 0 0).toNat ∧ (bytes.getD 0 0).toNat % 2 = 0 ∧ 1 < bytes.length) := by
  cases bytes with
  | nil =>
    refine ⟨fun _ => ?_, fun _ => exact_nil (by decide)⟩
    rw [List.getD_nil]
    decide
  | cons y bs =>
    rw [List.getD_cons_zero, List.length_cons]
    have hlow : value.toNat < 2 ^ (9 * 7) := by omega
    by_cases hy : y.toNat < 128
    · rw [exact_last h herrors (Nat.le_refl 9) hlow hy]
      omega
    · by_cases hodd : y.toNat % 2 = 1
      · have htop : ¬ (addGroup value y 9).toNat < 2 ^ 61 := by
          rw [addGroup_tenth hvalue]
          omega
        refine ⟨fun _ => by omega, fun _ => ?_⟩
        exact exact_refused h (Nat.le_refl 9) hlow (Nat.le_of_not_lt hy) htop
      · have htop : (addGroup value y 9).toNat < 2 ^ 61 := by
          rw [addGroup_tenth hvalue]
          omega
        rw [exact_tenth h hlow (Nat.le_of_not_lt hy) htop, ← List.length_eq_zero_iff]
        omega

/-- What the loop does with the bytes that are left. -/
theorem exact_iff (h : b.Unread bytes) (herrors : b.errors = 0) : Exact bytes 0 0 b ↔ ¬ Loses bytes := by
  by_cases hshort : ∃ i, i < 8 ∧ (bytes.getD i 0).toNat < 128
  · refine ⟨fun _ hloses => ?_, fun _ => exact_of_short h herrors hshort⟩
    obtain ⟨i, hi, hlast⟩ := hshort
    exact absurd (hloses.1 i (by omega)) (Nat.not_le.mpr hlast)
  · have hall (i : Nat) (hi : i < 8) : 128 ≤ (bytes.getD i 0).toNat := by
      by_contra hlt
      exact hshort ⟨i, hi, Nat.lt_of_not_le hlt⟩
    obtain ⟨cs, bs, rfl, hlength, hcs⟩ := exists_append hall
    have hzero : (0 : UInt64).toNat < 2 ^ (0 * 7) := by decide
    obtain ⟨next, hlow, hiff⟩ := exact_append h hcs (by omega) hzero
    rw [Nat.zero_add, hlength] at hlow hiff
    have hloses : Loses (cs ++ bs) ↔ 128 ≤ (bs.getD 0 0).toNat ∧ (bs.getD 0 0).toNat % 128 < 32 ∧
        (2 ≤ (bs.getD 1 0).toNat ∧ (bs.getD 1 0).toNat < 128 ∨
          128 ≤ (bs.getD 1 0).toNat ∧ (bs.getD 1 0).toNat % 2 = 0 ∧ 10 < 8 + bs.length) :=
      ninth_iff hlength hall fun x y n => x.toNat % 128 < 32 ∧
        (2 ≤ y.toNat ∧ y.toNat < 128 ∨ 128 ≤ y.toNat ∧ y.toNat % 2 = 0 ∧ 10 < n)
    have hunread := (hlength ▸ h.skip : (b.skip 8).Unread bs)
    rw [hiff, hloses]
    cases bs with
    | nil =>
      refine ⟨fun _ hnine => ?_, fun _ => exact_nil (by decide)⟩
      exact absurd hnine.1 (by decide)
    | cons x bs =>
      rw [List.getD_cons_zero, List.getD_cons_succ, List.length_cons]
      by_cases hx : x.toNat < 128
      · refine ⟨fun _ => by omega, fun _ => ?_⟩
        refine (exact_last hunread herrors (by decide) hlow hx).mpr ?_
        omega
      · have hnext := (addGroup_lt (x := x) (Nat.le_refl 8) hlow).1
        by_cases hclear : x.toNat % 128 < 32
        · rw [exact_next hunread (Nat.le_refl 8) hlow (Nat.le_of_not_lt hx) (by omega),
            exact_nine_iff hunread.tail herrors (by omega)]
          omega
        · refine ⟨fun _ => by omega, fun _ => ?_⟩
          exact exact_refused hunread (by decide) hlow (Nat.le_of_not_lt hx) (by omega)

/-- The bytes that are left. -/
def unread (b : Binary) : List UInt8 := b.buffer.read b.getIndex (b.size - b.getIndex)

theorem sound_iff_exact (h : b.getIndex ≤ b.size) : b.Sound ↔ Exact b.unread 0 0 b.clear := by
  have hsize := b.size_lt
  have hlength : b.unread.length = b.size - b.getIndex := Memory.length_read ..
  have hleft : (2 ^ 32 - b.getIndex + b.size) % 2 ^ 32 = b.unread.length := by omega
  have hshifts : b.clear.groupShifts b.unread.length 0 0 = b.varuintShifts := by
    rw [groupShifts_clear, ← hleft]
    rfl
  have hpasses : b.varuintShifts.length ≤ b.size - b.getIndex := by
    rw [← hshifts, ← hlength]
    exact length_groupShifts_le ..
  have hgroups : b.clear.getGroups b.unread.length 0 0 = b.clear.getVaruint := by
    rw [← hleft]
    rfl
  have hvalue : b.clear.getVaruint.1 = b.getVaruint.1 := by
    rw [getVaruint, getVaruint, getGroups_clear _ 0 0 b]
    rfl
  have hfits : b.getIndex + b.varuintShifts.length ≤ b.size := by omega
  have hindex : b.getVaruint.2.getIndex = b.getIndex + b.varuintShifts.length := by
    rw [getVaruint, getIndex_getGroups _ 0 0 (by omega)]
    exact mod_eq_of_le_size hfits
  have hread : b.buffer.read b.getIndex b.varuintShifts.length = b.unread.take b.varuintShifts.length :=
    (Memory.take_read hpasses).symm
  have hdecoded : (∃ n, Varint.decode (b.unread.take b.varuintShifts.length) = some (n, []) ∧
      b.getVaruint.1.toNat = (0 : UInt64).toNat + n * 2 ^ (0 * 7)) ↔
      Varint.decode (b.unread.take b.varuintShifts.length) = some (b.getVaruint.1.toNat, []) := by
    rw [UInt64.toNat_zero, Nat.zero_mul, Nat.pow_zero]
    simp only [Nat.mul_one, Nat.zero_add, exists_eq_right']
  constructor
  · rintro ⟨hlt, hconsumed, -, hsound⟩
    rw [hindex] at hconsumed hsound
    rw [Nat.add_sub_cancel_left, hread, ← hdecoded] at hsound
    constructor
    · rwa [hshifts]
    · rw [hshifts]
      omega
    · rwa [hshifts, hgroups, hvalue]
  · rintro ⟨hlt, hten, hexact⟩
    rw [hshifts] at hlt hten
    rw [Nat.zero_add] at hten
    rw [hshifts, hgroups, hvalue, hdecoded] at hexact
    constructor
    · exact hlt
    · rw [hindex]
      exact Nat.add_le_add_left hten _
    · rw [hindex]
      exact hfits
    · rwa [hindex, Nat.add_sub_cancel_left, hread]

/-- For every content of the buffer: the number is taken without a shift that is too far and without a loss, or
an error is set, unless the bytes that are left are such that `Loses` holds. -/
theorem sound_iff (h : b.getIndex ≤ b.size) : b.Sound ↔ ¬ Loses b.unread := by
  have hunread : b.clear.Unread b.unread := by
    have hlength : b.unread.length = b.size - b.getIndex := Memory.length_read ..
    refine ⟨congrArg _ hlength, ?_⟩
    show b.getIndex + b.unread.length ≤ b.size
    omega
  exact (sound_iff_exact h).trans (exact_iff hunread rfl)

/-- Zero, padded to two bytes. -/
def paddedZero : Binary := initializeWith (fun i => if i = 0 then 0x80 else 0) 3

theorem sound_padded : paddedZero.getVaruint.1 = 0 ∧ paddedZero.getVaruint.2.getIndex = 2 ∧ paddedZero.Sound :=
  ⟨by decide, by decide, (sound_iff (b := paddedZero) (by decide)).mpr (by decide)⟩

/-- Nine bytes that go on and add nothing, and a tenth with a bit for the place 64. -/
def lostBit : Binary := initializeWith (fun i => if i < 9 then 0x80 else 0x02) 10

/-- Bytes that all go on and add nothing. -/
def endless : Binary := initializeWith (fun _ => 0x80) 11

theorem not_sound_samples :
    lostBit.getVaruint.1 = 0 ∧ lostBit.getVaruint.2.errors = 0 ∧ ¬ lostBit.Sound ∧
      70 ∈ endless.varuintShifts ∧ ¬ endless.Sound := by
  have hshift : 70 ∈ endless.varuintShifts := by decide
  refine ⟨by decide, by decide, ?_, hshift, ?_⟩
  · intro h
    have hclear : lostBit.clear.getVaruint.2.errors = 0 := by decide
    rcases h.decoded with herror | hdecoded
    · exact herror hclear
    · exact absurd hdecoded (by decide)
  · intro h
    exact absurd (h.shifts 70 hshift) (by decide)

end Binary
end Firefly
