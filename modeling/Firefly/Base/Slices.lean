import Firefly.Base.Shifts

/-!
# Firefly.Base.Slices

`fd_binary_get_string` gives the place of a string in the buffer. It compares the length with the room
that is left for putting, `size - put_index`, and not with the bytes that are left for taking. So the
slice is the string that is in the buffer if and only if the two agree on whether there is such a string
(`stays_iff`), and the prefix is one that the loop of `fd_binary_get_varuint` takes without a shift that
is too far.
-/

namespace Firefly
namespace Binary

/-- `fd_binary_string_t`, with the index that `data` points at. -/
structure Slice where
  data : Nat
  length : Nat
  deriving DecidableEq

/-- `fd_binary_get_string`. -/
def getSlice (b : Binary) : Slice × Binary :=
  let length := b.getVaruint.1.toNat
  let b := b.getVaruint.2
  let remaining := b.remainingLength
  let (length, b) :=
    if remaining < length then (0, { b with errors := b.errors ||| errorInvalidRepresentation })
    else (length, b)
  (⟨b.getIndex, length⟩, b.skip length)

/-- The slice is in the buffer and so is the index behind it. It is empty, with an error, if the length is
more than what is behind its prefix, and else it is the string. -/
structure Stays (b : Binary) : Prop where
  shifts : ∀ n ∈ b.varuintShifts, n < 64
  slice : b.getSlice.1.data + b.getSlice.1.length ≤ b.size
  getIndex : b.getSlice.2.getIndex ≤ b.size
  exceeds : ∀ n rest, Varint.decode b.unread = some (n, rest) → rest.length < n →
    b.clear.getSlice.2.errors ≠ 0 ∧ b.getSlice.1.length = 0
  present : ∀ n rest, Varint.decode b.unread = some (n, rest) → n ≤ rest.length →
    b.clear.getSlice.2.errors = 0 ∧
      b.buffer.read b.getSlice.1.data b.getSlice.1.length = rest.take n

/-- Nine bytes are not the last one and leave the top bits clear, and the tenth is not the last one either
and adds nothing. -/
def Overshifts (bytes : List UInt8) : Prop :=
  (∀ i < 9, 128 ≤ (bytes.getD i 0).toNat) ∧ (bytes.getD 8 0).toNat % 128 < 32 ∧
    128 ≤ (bytes.getD 9 0).toNat ∧ (bytes.getD 9 0).toNat % 2 = 0 ∧ 10 < bytes.length

instance (bytes : List UInt8) : Decidable (Overshifts bytes) := instDecidableAnd

variable {b : Binary} {bs cs bytes rest : List UInt8}

/-! ## Passes -/

section Pass

variable {index : Nat} {value : UInt64} {x : UInt8}

/-- The shifts of the loop are less than the width of the number. -/
def Fine (bytes : List UInt8) (index : Nat) (value : UInt64) (b : Binary) : Prop :=
  ∀ n ∈ b.groupShifts bytes.length index value, n < 64

theorem fine_nil : Fine [] index value b := fun _ hn => absurd hn List.not_mem_nil

theorem fine_cons (h : b.Unread (x :: bs)) (hindex : index ≤ 9) (hvalue : value.toNat < 2 ^ (index * 7)) :
    Fine (x :: bs) index value b ↔ (128 ≤ x.toNat → (addGroup value x index).toNat < 2 ^ 61 →
      Fine bs (index + 1) (addGroup value x index) (b.skip 1)) := by
  have hfirst : index * 7 < 64 := by omega
  rw [Fine, h.groupShifts_pass hindex hvalue, List.forall_mem_cons]
  by_cases hx : x.toNat < 128
  · rw [if_pos hx]
    exact ⟨fun _ hge => absurd hx (Nat.not_lt.mpr hge), fun _ => ⟨hfirst, fun _ hn => absurd hn List.not_mem_nil⟩⟩
  · rw [if_neg hx]
    by_cases htop : (addGroup value x index).toNat < 2 ^ 61
    · rw [if_pos htop]
      exact ⟨fun hall _ _ => hall.2, fun hrest => ⟨hfirst, hrest (Nat.le_of_not_lt hx) htop⟩⟩
    · rw [if_neg htop]
      exact ⟨fun _ _ hlt => absurd hlt htop, fun _ => ⟨hfirst, fun _ hn => absurd hn List.not_mem_nil⟩⟩

/-- Behind the tenth byte there is none. -/
theorem fine_ten : Fine bs 10 value b ↔ bs = [] := by
  cases bs with
  | nil => exact ⟨fun _ => rfl, fun _ => fine_nil⟩
  | cons x bs =>
    refine ⟨fun h => ?_, fun h => absurd h (List.cons_ne_nil x bs)⟩
    have hlt := h (10 * 7) List.mem_cons_self
    exact absurd hlt (by decide)

/-- A byte that is the last one ends the loop in time. -/
theorem fine_short (h : b.Unread bytes) (hvalue : value.toNat < 2 ^ (index * 7)) {k : Nat}
    (hk : index + k ≤ 9) (hlast : (bytes.getD k 0).toNat < 128) : Fine bytes index value b := by
  induction k generalizing b bytes index value with
  | zero =>
    cases bytes with
    | nil => exact fine_nil
    | cons x bs => exact (fine_cons h hk hvalue).mpr fun hge => absurd hlast (Nat.not_lt.mpr hge)
  | succ k ih =>
    cases bytes with
    | nil => exact fine_nil
    | cons x bs =>
      rw [fine_cons h (by omega) hvalue]
      intro _ _
      rw [List.getD_cons_succ] at hlast
      exact ih h.tail (addGroup_lt (by omega) hvalue).2 (by omega) hlast

theorem fine_append (h : b.Unread (cs ++ bs)) (hcs : ∀ x ∈ cs, 128 ≤ x.toNat) (hindex : index + cs.length ≤ 8)
    (hvalue : value.toNat < 2 ^ (index * 7)) :
    ∃ next : UInt64, next.toNat < 2 ^ ((index + cs.length) * 7) ∧
      (Fine (cs ++ bs) index value b ↔ Fine bs (index + cs.length) next (b.skip cs.length)) := by
  refine pass_append (fun b x bs index value h hindex hvalue hx => ?_) h hcs hindex hvalue
  have hlow := (addGroup_lt (x := x) (Nat.le_of_lt hindex) hvalue).2
  have hwidth : 2 ^ ((index + 1) * 7) ≤ 2 ^ 56 := Nat.pow_le_pow_right (by decide) (by omega)
  rw [fine_cons h (by omega) hvalue]
  exact ⟨fun hall => hall hx (by omega), fun hrest _ _ => hrest⟩

/-- The loop behind nine bytes that go on. -/
theorem fine_nine (h : b.Unread bytes) (hvalue : value.toNat < 2 ^ 61) : Fine bytes 9 value b ↔
    ¬ (128 ≤ (bytes.getD 0 0).toNat ∧ (bytes.getD 0 0).toNat % 2 = 0 ∧ 1 < bytes.length) := by
  cases bytes with
  | nil =>
    refine ⟨fun _ => ?_, fun _ => fine_nil⟩
    rw [List.getD_nil]
    decide
  | cons y bs =>
    rw [fine_cons h (Nat.le_refl 9) (by omega), addGroup_tenth hvalue, fine_ten, List.getD_cons_zero, List.length_cons,
      ← List.length_eq_zero_iff]
    omega

theorem fine_iff (h : b.Unread bytes) : Fine bytes 0 0 b ↔ ¬ Overshifts bytes := by
  have hzero : (0 : UInt64).toNat < 2 ^ (0 * 7) := by decide
  by_cases hshort : ∃ i, i < 8 ∧ (bytes.getD i 0).toNat < 128
  · obtain ⟨i, hi, hlast⟩ := hshort
    refine ⟨fun _ hover => ?_, fun _ => fine_short h hzero (by omega) hlast⟩
    exact absurd (hover.1 i (by omega)) (Nat.not_le.mpr hlast)
  · have hall (i : Nat) (hi : i < 8) : 128 ≤ (bytes.getD i 0).toNat := by
      by_contra hlt
      exact hshort ⟨i, hi, Nat.lt_of_not_le hlt⟩
    obtain ⟨cs, bs, rfl, hlength, hcs⟩ := exists_append hall
    obtain ⟨next, hlow, hiff⟩ := fine_append h hcs (by omega) hzero
    rw [Nat.zero_add, hlength] at hlow hiff
    have hover : Overshifts (cs ++ bs) ↔ 128 ≤ (bs.getD 0 0).toNat ∧ (bs.getD 0 0).toNat % 128 < 32 ∧
        128 ≤ (bs.getD 1 0).toNat ∧ (bs.getD 1 0).toNat % 2 = 0 ∧ 10 < 8 + bs.length :=
      ninth_iff hlength hall fun x y n => x.toNat % 128 < 32 ∧ 128 ≤ y.toNat ∧ y.toNat % 2 = 0 ∧ 10 < n
    have hunread := (hlength ▸ h.skip : (b.skip 8).Unread bs)
    rw [hiff, hover]
    cases bs with
    | nil =>
      refine ⟨fun _ hnine => ?_, fun _ => fine_nil⟩
      exact absurd hnine.1 (by decide)
    | cons x bs =>
      have hsum := (addGroup_lt (x := x) (Nat.le_refl 8) hlow).1
      rw [List.getD_cons_zero, List.getD_cons_succ, List.length_cons, fine_cons hunread (by decide) hlow]
      by_cases hclear : x.toNat % 128 < 32
      · rw [fine_nine hunread.tail (by omega)]
        omega
      · refine ⟨fun _ => by omega, fun _ _ htop => ?_⟩
        omega

/-! ## The length -/

/-- Bytes that all go on end with an error. -/
theorem getGroups_none (h : b.Unread bytes) (hdecode : Varint.decode bytes = none) :
    (b.getGroups bytes.length index value).1 = 0 := by
  induction bytes generalizing b index value with
  | nil => rfl
  | cons x bs ih =>
    have hx : ¬ x.toNat < 128 := by
      intro hlt
      rw [Varint.decode, if_pos hlt] at hdecode
      cases hdecode
    rw [Varint.decode_cons (Nat.le_of_not_lt hx), Option.map_eq_none_iff] at hdecode
    have hgo : ¬ x &&& 0x80 = 0 := fun h0 => hx ((last_group x).mp h0)
    simp only [List.length_cons, getGroups, h.head, hgo, if_false]
    split
    · rfl
    · exact ih h.tail hdecode

/-- The loop takes the number as far as 64 bits go, or refuses one that is large. -/
theorem getGroups_some {n : Nat} (h : b.Unread bytes) (hindex : index ≤ 9)
    (hvalue : value.toNat < 2 ^ (index * 7)) (hfine : Fine bytes index value b)
    (hdecode : Varint.decode bytes = some (n, rest)) :
    b.getGroups bytes.length index value = (UInt64.ofNat (value.toNat + n * 2 ^ (index * 7)),
        b.skip (bytes.length - rest.length)) ∨
      (b.getGroups bytes.length index value).1 = 0 ∧
        (b.getGroups bytes.length index value).2.errors = b.errors ||| errorInvalidRepresentation ∧
        2 ^ 61 ≤ (value.toNat + n * 2 ^ (index * 7)) % 2 ^ 64 := by
  induction bytes generalizing b index value n with
  | nil => cases hdecode
  | cons x bs ih =>
    rw [h.getGroups_pass hindex hvalue]
    by_cases hx : x.toNat < 128
    · rw [Varint.decode, if_pos hx] at hdecode
      obtain ⟨rfl, rfl⟩ := Prod.mk.inj (Option.some.inj hdecode)
      rw [if_pos hx, addGroup, Nat.mod_eq_of_lt hx, List.length_cons, Nat.add_sub_cancel_left]
      exact Or.inl rfl
    · rw [Varint.decode_cons (Nat.le_of_not_lt hx)] at hdecode
      obtain ⟨⟨m, rest'⟩, hm, heq⟩ := Option.map_eq_some_iff.mp hdecode
      obtain ⟨rfl, rfl⟩ := Prod.mk.inj heq
      have hshorter := Varint.length_lt_of_decode hm
      have hnumber := add_groups value.toNat (x.toNat % 128) m index
      rw [if_neg hx]
      by_cases htop : (addGroup value x index).toNat < 2 ^ 61
      · rw [if_pos htop]
        have hrest := (fine_cons h hindex hvalue).mp hfine (Nat.le_of_not_lt hx) htop
        have height : index ≤ 8 := by
          by_contra hnine
          obtain rfl : index = 9 := by omega
          rw [fine_ten.mp hrest] at hshorter
          exact absurd hshorter (Nat.not_lt_zero _)
        obtain ⟨hsum, hlow⟩ := addGroup_lt (x := x) height hvalue
        have hnext := ih h.tail (by omega) hlow hrest hm
        rw [hsum, ← hnumber, skip_skip] at hnext
        rw [List.length_cons, Nat.add_comm bs.length 1, Nat.add_sub_assoc (Nat.le_of_lt hshorter)]
        exact hnext
      · rw [if_neg htop]
        refine Or.inr ⟨rfl, rfl, ?_⟩
        rw [hnumber]
        by_cases height : index ≤ 8
        · obtain ⟨hsum, hlow⟩ := addGroup_lt (x := x) height hvalue
          have hninth : index = 8 := by
            by_contra hne
            have hwidth : 2 ^ ((index + 1) * 7) ≤ 2 ^ 56 := Nat.pow_le_pow_right (by decide) (by omega)
            omega
          subst hninth
          omega
        · obtain rfl : index = 9 := by omega
          rw [addGroup, UInt64.toNat_ofNat'] at htop
          omega

end Pass

/-- The loop leaves everything else as it is. -/
theorem getGroups_frame (left index : Nat) (value : UInt64) (b : Binary) :
    ∃ i e, (b.getGroups left index value).2 = { b with getIndex := i, errors := e } := by
  induction left generalizing index value b with
  | zero => exact ⟨_, _, rfl⟩
  | succ left ih =>
    simp only [getGroups]
    split
    · exact ⟨_, _, rfl⟩
    · split
      · exact ⟨_, _, rfl⟩
      · exact ih ..

/-! ## The slice -/

theorem remainingLength_getVaruint (hput : b.putIndex ≤ b.size) :
    b.getVaruint.2.remainingLength = b.size - b.putIndex := by
  have hsize := b.size_lt
  obtain ⟨i, e, hframe⟩ := getGroups_frame ((2 ^ 32 - b.getIndex + b.size) % 2 ^ 32) 0 0 b
  rw [getVaruint, hframe, remainingLength]
  simp only
  omega

theorem getSlice_taken (hput : b.putIndex ≤ b.size) (h : b.getVaruint.1.toNat ≤ b.size - b.putIndex) :
    b.getSlice = (⟨b.getVaruint.2.getIndex, b.getVaruint.1.toNat⟩,
      b.getVaruint.2.skip b.getVaruint.1.toNat) := by
  simp only [getSlice, remainingLength_getVaruint hput, if_neg (Nat.not_lt.mpr h)]

theorem getSlice_refused (hput : b.putIndex ≤ b.size) (h : b.size - b.putIndex < b.getVaruint.1.toNat) :
    b.getSlice.1 = ⟨b.getVaruint.2.getIndex, 0⟩ ∧
      b.getSlice.2.getIndex = b.getVaruint.2.getIndex % 2 ^ 32 ∧ b.getSlice.2.errors ≠ 0 := by
  simp only [getSlice, remainingLength_getVaruint hput, if_pos h]
  refine ⟨trivial, rfl, fun h0 => ?_⟩
  exact absurd (Nat.or_eq_zero_iff.mp h0).2 (by decide)

theorem getSlice_eq (b : Binary) :
    let length := if b.getVaruint.2.remainingLength < b.getVaruint.1.toNat then 0 else b.getVaruint.1.toNat
    b.getSlice.1 = ⟨b.getVaruint.2.getIndex, length⟩ ∧
      b.getSlice.2.getIndex = (b.getVaruint.2.getIndex + length) % 2 ^ 32 := by
  simp only [getSlice]
  split <;> exact ⟨rfl, rfl⟩

/-- The bytes of the string are those of the slice. -/
theorem getString_eq_getSlice (h : b.getIndex ≤ b.size) :
    b.getString = (b.buffer.read b.getSlice.1.data b.getSlice.1.length, b.getSlice.2) := by
  have hsize := b.size_lt
  have hindex : b.getVaruint.2.getIndex % 2 ^ 32 = b.getVaruint.2.getIndex := by
    rw [getVaruint, getIndex_getGroups _ 0 0 (by omega), Nat.mod_mod]
  obtain ⟨i, e, hframe⟩ := getGroups_frame ((2 ^ 32 - b.getIndex + b.size) % 2 ^ 32) 0 0 b
  have hbuffer : b.getVaruint.2.buffer = b.buffer := by rw [getVaruint, hframe]
  simp only [getString, getSlice, hbuffer]
  split
  · rw [skip, Nat.add_zero, hindex, Memory.read_zero]
  · rfl

theorem getSlice_clear (b : Binary) : b.clear.getSlice.1 = b.getSlice.1 ∧
    b.clear.getSlice.2.getIndex = b.getSlice.2.getIndex := by
  have hvaruint : b.getVaruint = (b.clear.getVaruint.1,
      { b.clear.getVaruint.2 with errors := b.errors ||| b.clear.getVaruint.2.errors }) :=
    getGroups_clear ..
  obtain ⟨hslice, hindex⟩ := getSlice_eq b
  obtain ⟨hslice', hindex'⟩ := getSlice_eq b.clear
  rw [hslice, hindex, hslice', hindex', hvaruint]
  exact ⟨rfl, rfl⟩

/-- The bytes that are left, as the loop sees them. -/
theorem getVaruint_unread (h : b.getIndex ≤ b.size) : b.Unread b.unread ∧
    b.unread.length = b.size - b.getIndex ∧ b.getVaruint = b.getGroups b.unread.length 0 0 ∧
    ((∀ n ∈ b.varuintShifts, n < 64) ↔ Fine b.unread 0 0 b) ∧ b.getVaruint.2.getIndex ≤ b.size := by
  have hsize := b.size_lt
  have hlength : b.unread.length = b.size - b.getIndex := Memory.length_read ..
  have hleft : (2 ^ 32 - b.getIndex + b.size) % 2 ^ 32 = b.unread.length := by omega
  have hpasses := length_groupShifts_le b.unread.length 0 0 b
  have hshifts : b.groupShifts b.unread.length 0 0 = b.varuintShifts := by
    rw [← hleft]
    rfl
  refine ⟨⟨congrArg _ hlength, by omega⟩, hlength, by rw [getVaruint, hleft], by rw [Fine, hshifts], ?_⟩
  rw [getVaruint, hleft, getIndex_getGroups _ 0 0 (by omega), mod_eq_of_le_size (b := b) (by omega)]
  omega

/-- What the length comes to: the whole number, or an error and zero. -/
theorem getVaruint_some {n : Nat} (h : b.getIndex ≤ b.size) (herrors : b.errors = 0)
    (hshifts : ∀ n ∈ b.varuintShifts, n < 64) (hdecode : Varint.decode b.unread = some (n, rest)) :
    b.getVaruint.1.toNat = n % 2 ^ 64 ∧ b.getVaruint.2.errors = 0 ∧
        b.getVaruint.2.getIndex + rest.length = b.size ∨
      b.getVaruint.1 = 0 ∧ b.getVaruint.2.errors ≠ 0 ∧ 2 ^ 61 ≤ n % 2 ^ 64 := by
  obtain ⟨hunread, hlength, hvaruint, hfine, -⟩ := getVaruint_unread h
  have hshorter := Varint.length_lt_of_decode hdecode
  have hsome := getGroups_some hunread (Nat.zero_le 9) (by decide) (hfine.mp hshifts) hdecode
  rw [UInt64.toNat_zero, Nat.zero_mul, Nat.pow_zero, Nat.mul_one, Nat.zero_add, ← hvaruint] at hsome
  rcases hsome with htaken | ⟨hzero, herror, hlarge⟩
  · rw [htaken, skip_eq (by omega), UInt64.toNat_ofNat']
    refine Or.inl ⟨rfl, herrors, ?_⟩
    simp only
    omega
  · refine Or.inr ⟨hzero, ?_, hlarge⟩
    rw [herror]
    intro h0
    exact absurd (Nat.or_eq_zero_iff.mp h0).2 (by decide)

theorem getVaruint_none (h : b.getIndex ≤ b.size) (hdecode : Varint.decode b.unread = none) :
    b.getVaruint.1 = 0 := by
  obtain ⟨hunread, -, hvaruint, -⟩ := getVaruint_unread h
  rw [hvaruint]
  exact getGroups_none hunread hdecode

/-- Both rooms agree on the length of the string. -/
def Agrees (b : Binary) : Prop :=
  ∀ n rest, Varint.decode b.unread = some (n, rest) → (n % 2 ^ 64 ≤ b.size - b.putIndex ↔ n ≤ rest.length)

theorem Stays.agrees (h : b.Stays) (hget : b.getIndex ≤ b.size) (hput : b.putIndex ≤ b.size)
    (herrors : b.errors = 0) : b.Agrees := by
  intro n rest hdecode
  have hclear : b.clear = b := by rw [clear, ← herrors]
  have hsize := b.size_lt
  obtain ⟨-, hlength, -⟩ := getVaruint_unread hget
  have hshorter := Varint.length_lt_of_decode hdecode
  have hexceeds := h.exceeds n rest hdecode
  have hpresent := h.present n rest hdecode
  rw [hclear] at hexceeds hpresent
  rcases getVaruint_some hget herrors h.shifts hdecode with ⟨hvalue, hnone, -⟩ | ⟨-, -, hlarge⟩
  · constructor
    · intro hle
      by_contra hlt
      rw [getSlice_taken hput (by omega)] at hexceeds
      exact (hexceeds (Nat.lt_of_not_le hlt)).1 hnone
    · intro hle
      by_contra hlt
      have hrefused := getSlice_refused hput (by omega)
      exact hrefused.2.2 (hpresent hle).1
  · omega

theorem stays_of_agrees (hget : b.getIndex ≤ b.size) (hput : b.putIndex ≤ b.size) (herrors : b.errors = 0)
    (hshifts : ∀ n ∈ b.varuintShifts, n < 64) (hagrees : b.Agrees) : b.Stays := by
  have hclear : b.clear = b := by rw [clear, ← herrors]
  have hsize := b.size_lt
  obtain ⟨-, hlength, -, -, hindex⟩ := getVaruint_unread hget
  -- An empty slice is at the index behind the prefix, whatever that is.
  have hempty (hslice : b.getSlice.1 = ⟨b.getVaruint.2.getIndex, 0⟩)
      (hsame : b.getSlice.2.getIndex = b.getVaruint.2.getIndex % 2 ^ 32) :
      b.getSlice.1.data + b.getSlice.1.length ≤ b.size ∧ b.getSlice.2.getIndex ≤ b.size := by
    rw [hslice, hsame, mod_eq_of_le_size hindex]
    exact ⟨hindex, hindex⟩
  have hzero (hnone : b.getVaruint.1 = 0) : b.getSlice = (⟨b.getVaruint.2.getIndex, 0⟩, b.getVaruint.2.skip 0) := by
    rw [getSlice_taken hput (by rw [hnone]; exact Nat.zero_le _), hnone]
    rfl
  cases hdecode : Varint.decode b.unread with
  | none =>
    have hslice := hzero (getVaruint_none hget hdecode)
    obtain ⟨hin, hbehind⟩ := hempty (congrArg Prod.fst hslice) (by rw [hslice]; rfl)
    have hnone (r : Nat × List UInt8) : Varint.decode b.unread ≠ some r := by
      rw [hdecode]
      exact Option.some_ne_none r ∘ Eq.symm
    exact ⟨hshifts, hin, hbehind, fun n rest hsome => absurd hsome (hnone _),
      fun n rest hsome => absurd hsome (hnone _)⟩
  | some r =>
    obtain ⟨n, rest⟩ := r
    have hshorter := Varint.length_lt_of_decode hdecode
    have hiff := hagrees n rest hdecode
    have hthis {P : Nat → List UInt8 → Prop} (h : P n rest) :
        ∀ n' rest', Varint.decode b.unread = some (n', rest') → P n' rest' := by
      intro n' rest' hsome
      rw [hdecode] at hsome
      cases hsome
      exact h
    rcases getVaruint_some hget herrors hshifts hdecode with ⟨hvalue, hnone, hbehind⟩ | ⟨hnone, herror, hlarge⟩
    · by_cases hle : n ≤ rest.length
      · have htaken := getSlice_taken hput (by rw [hvalue]; exact hiff.mpr hle)
        have hnumber : b.getVaruint.1.toNat = n := by
          rw [hvalue]
          omega
        rw [hnumber] at htaken
        obtain ⟨x, front, hbytes⟩ := Varint.eq_append_of_decode hdecode
        have hread := (Memory.read_eq_append hbytes).2
        have hplace : b.getIndex + (x :: front).length = b.getVaruint.2.getIndex := by
          rw [hbytes, List.length_append] at hlength
          omega
        rw [hplace] at hread
        have hmod : (b.getVaruint.2.getIndex + n) % 2 ^ 32 = b.getVaruint.2.getIndex + n :=
          mod_eq_of_le_size (b := b) (by omega)
        have hskip : (b.getVaruint.2.skip n).getIndex ≤ b.size := by
          rw [skip, hmod]
          simp only
          omega
        refine ⟨hshifts, ?_, ?_, hthis fun hlt => absurd hle (Nat.not_le.mpr hlt), hthis fun _ => ?_⟩
        · rw [htaken]
          simp only
          omega
        · rw [htaken]
          exact hskip
        · rw [hclear, htaken]
          exact ⟨hnone, by rw [← Memory.take_read hle, hread]⟩
      · obtain ⟨hslice, hsame, herror⟩ := getSlice_refused (b := b) hput (by omega)
        obtain ⟨hin, hbehind⟩ := hempty hslice hsame
        refine ⟨hshifts, hin, hbehind, hthis fun _ => ?_, hthis fun hle' => absurd hle' hle⟩
        rw [hclear, hslice]
        exact ⟨herror, rfl⟩
    · have hslice := hzero hnone
      obtain ⟨hin, hbehind⟩ := hempty (congrArg Prod.fst hslice) (by rw [hslice]; rfl)
      refine ⟨hshifts, hin, hbehind, hthis fun _ => ?_, hthis fun hle => ?_⟩
      · rw [hclear, hslice]
        exact ⟨herror, rfl⟩
      · omega

theorem stays_clear (b : Binary) : b.clear.Stays ↔ b.Stays := by
  obtain ⟨hslice, hindex⟩ := getSlice_clear b
  have hshifts : b.clear.varuintShifts = b.varuintShifts := groupShifts_clear ..
  constructor
  · rintro ⟨hfine, hin, hbehind, hexceeds, hpresent⟩
    rw [hshifts] at hfine
    rw [hslice] at hin hexceeds hpresent
    rw [hindex] at hbehind
    exact ⟨hfine, hin, hbehind, hexceeds, hpresent⟩
  · rintro ⟨hfine, hin, hbehind, hexceeds, hpresent⟩
    rw [← hshifts] at hfine
    rw [← hslice] at hin hexceeds hpresent
    rw [← hindex] at hbehind
    exact ⟨hfine, hin, hbehind, hexceeds, hpresent⟩

theorem stays_iff (hget : b.getIndex ≤ b.size) (hput : b.putIndex ≤ b.size) :
    b.Stays ↔ ¬ Overshifts b.unread ∧ b.Agrees := by
  have hfine : (∀ n ∈ b.clear.varuintShifts, n < 64) ↔ ¬ Overshifts b.unread := by
    obtain ⟨hunread, -, -, hiff, -⟩ := getVaruint_unread (b := b.clear) hget
    exact hiff.trans (fine_iff hunread)
  rw [← stays_clear]
  constructor
  · intro h
    exact ⟨hfine.mp h.shifts, h.agrees hget hput rfl⟩
  · intro h
    exact stays_of_agrees hget hput rfl (hfine.mpr h.1) h.2

/-- A string of one byte behind a prefix of one, which has not all been put. -/
theorem stays_sample :
    let b := { initializeWith (fun i => if i = 0 then 1 else 0x61) 3 with putIndex := 2 }
    b.Stays := by
  have hdecode : Varint.decode [1, 0x61, 0x61] = some (1, [0x61, 0x61]) := by decide
  refine (stays_iff (by decide) (by decide)).mpr ⟨by decide, fun n rest hsome => ?_⟩
  obtain ⟨rfl, rfl⟩ := Prod.mk.inj (Option.some.inj (hdecode.symm.trans hsome))
  decide

/-- A string of two bytes at the end of the buffer, where one byte was put: the length is at most the room
for putting and more than what is there. And one that has been put so that the buffer is full. -/
theorem not_stays_samples :
    let beyond := { initializeWith (fun _ => 2) 2 with putIndex := 0, getIndex := 0 }
    let full := { initializeWith (fun i => if i = 0 then 1 else 0x61) 2 with putIndex := 2 }
    beyond.getSlice.1 = ⟨1, 2⟩ ∧ beyond.getSlice.2.getIndex = 3 ∧ ¬ beyond.Stays ∧
      full.getSlice.1 = ⟨1, 0⟩ ∧ full.getSlice.2.errors = errorInvalidRepresentation ∧ ¬ full.Stays := by
  refine ⟨by decide, by decide, fun h => ?_, by decide, by decide, fun h => ?_⟩
  · exact absurd h.slice (by decide)
  · exact absurd (h.present 1 [0x61] (by decide) (by decide)).1 (by decide)

end Binary
end Firefly
