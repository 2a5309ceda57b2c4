import Firefly.Lib.Crc

/-!
# Firefly.Lib.CrcTable

The check that takes the bits one by one (`bitwise`), and a byte at a time. A shift of the register is
linear, so that eight of them are those of its top byte, for which a program may have a table, and the
rest of the register moved up (`step_eq`).
-/

namespace Crc

variable {w : Nat} {polynomial : BitVec w}

/-- A byte at the significant end of a register. -/
def lift (w : Nat) (b : BitVec 8) : BitVec w := b.setWidth w <<< (w - 8)

theorem enter_eq (r : BitVec w) (b : UInt8) : enter r b = r ^^^ lift w b.toBitVec := rfl

theorem getMsbD_lift (h : 8 ≤ w) (b : BitVec 8) (i : Nat) : (lift w b).getMsbD i = b.getMsbD i := by
  have hindex : i + (w - 8) + 8 - w = i := by omega
  rw [lift, BitVec.getMsbD_shiftLeft, BitVec.getMsbD_setWidth, hindex]
  simp

theorem lift_xor (b c : BitVec 8) : lift w (b ^^^ c) = lift w b ^^^ lift w c := by
  rw [lift, BitVec.setWidth_xor, BitVec.shiftLeft_xor_distrib]
  rfl

theorem lift_shiftLeft (h : 8 ≤ w) (b : BitVec 8) (n : Nat) : lift w (b <<< n) = lift w b <<< n := by
  apply BitVec.eq_of_getMsbD_eq
  intro i _
  rw [getMsbD_lift h, BitVec.getMsbD_shiftLeft, BitVec.getMsbD_shiftLeft, getMsbD_lift h]

/-! ## Bit by bit -/

/-- The bits of a byte, the most significant one first. -/
def bits (b : UInt8) : List Bool := (List.range 8).map b.toBitVec.getMsbD

/-- A bit enters, and what leaves the register together with it is subtracted. -/
def bitStep (polynomial r : BitVec w) (bit : Bool) : BitVec w :=
  if r.msb ^^ bit then r <<< 1 ^^^ polynomial else r <<< 1

def bitwise (polynomial start : BitVec w) (data : List UInt8) : BitVec w :=
  (data.flatMap bits).foldl (bitStep polynomial) start

theorem shift_lift (h : 8 ≤ w) (r : BitVec w) (b : BitVec 8) :
    shift polynomial (r ^^^ lift w b) = bitStep polynomial r b.msb ^^^ lift w (b <<< 1) := by
  have hmsb : (r ^^^ lift w b).msb = (r.msb ^^ b.msb) := by
    simp [BitVec.msb, getMsbD_lift h]
  rw [shift, bitStep, hmsb, lift_shiftLeft h, BitVec.shiftLeft_xor_distrib]
  split
  · rw [BitVec.xor_assoc, BitVec.xor_assoc, BitVec.xor_comm (lift w b <<< 1)]
  · rfl

/-- After some shifts, the bits of the byte that have not entered yet. -/
theorem shifts_lift (h : 8 ≤ w) (r : BitVec w) (b : BitVec 8) (n : Nat) :
    (shift polynomial)^[n] (r ^^^ lift w b) =
      ((List.range n).map b.getMsbD).foldl (bitStep polynomial) r ^^^ lift w (b <<< n) := by
  induction n with
  | zero => simp
  | succ n ih =>
    have hmsb : (b <<< n).msb = b.getMsbD n := by simp [BitVec.msb]
    rw [Function.iterate_succ_apply', ih, shift_lift h, hmsb, List.range_succ, List.map_append,
      List.foldl_append, ← BitVec.shiftLeft_add]
    rfl

theorem step_eq_bits (h : 8 ≤ w) (r : BitVec w) (b : UInt8) :
    step polynomial r b = (bits b).foldl (bitStep polynomial) r := by
  rw [step, enter_eq, shifts_lift h, bits]
  simp [lift]

/-- Eight shifts for each byte take its bits one by one. -/
theorem foldl_step_eq (h : 8 ≤ w) (data : List UInt8) (r : BitVec w) :
    data.foldl (step polynomial) r = bitwise polynomial r data := by
  rw [bitwise, List.foldl_flatMap]
  congr 1
  funext r b
  exact step_eq_bits h r b

/-! ## A byte at a time -/

theorem shift_xor (r s : BitVec w) :
    shift polynomial (r ^^^ s) = shift polynomial r ^^^ shift polynomial s := by
  have hmsb : (r ^^^ s).msb = (r.msb ^^ s.msb) := by simp [BitVec.msb]
  rw [shift, shift, shift, hmsb, BitVec.shiftLeft_xor_distrib]
  cases r.msb <;> cases s.msb
  · rfl
  · simp [BitVec.xor_assoc]
  · simp only [Bool.true_xor, Bool.not_false, if_true, Bool.false_eq_true, if_false]
    rw [BitVec.xor_assoc, BitVec.xor_assoc, BitVec.xor_comm (s <<< 1)]
  · simp only [Bool.true_xor, Bool.not_true, if_true, Bool.false_eq_true, if_false]
    rw [BitVec.xor_assoc, BitVec.xor_comm (s <<< 1), ← BitVec.xor_assoc polynomial, BitVec.xor_self,
      BitVec.zero_xor]

theorem shifts_xor (n : Nat) (r s : BitVec w) : (shift polynomial)^[n] (r ^^^ s) =
    (shift polynomial)^[n] r ^^^ (shift polynomial)^[n] s := by
  induction n generalizing r s with
  | zero => rfl
  | succ n ih => rw [Function.iterate_succ_apply, shift_xor, ih, ← Function.iterate_succ_apply,
      ← Function.iterate_succ_apply]

/-- A register of which the top bits are clear only moves up. -/
theorem shifts_of_clear {r : BitVec w} (n : Nat) (h : ∀ i, i < n → r.getMsbD i = false) :
    (shift polynomial)^[n] r = r <<< n := by
  induction n with
  | zero => simp
  | succ n ih =>
    have hmsb : (r <<< n).msb = false := by simp [BitVec.msb, h n (Nat.lt_succ_self n)]
    rw [Function.iterate_succ_apply', ih fun i hi => h i (Nat.lt_succ_of_lt hi), shift, hmsb,
      if_neg Bool.false_ne_true, BitVec.shiftLeft_add]

/-- The byte at the significant end. -/
def top (r : BitVec w) : UInt8 := ⟨(r >>> (w - 8)).setWidth 8⟩

theorem getMsbD_top (h : 8 ≤ w) (r : BitVec w) {i : Nat} (hi : i < 8) :
    (top r).toBitVec.getMsbD i = r.getMsbD i := by
  have hlt : i + w - 8 < w := by omega
  have hge : ¬ i + w - 8 < w - 8 := by omega
  have hindex : i + w - 8 - (w - 8) = i := by omega
  rw [top, BitVec.getMsbD_setWidth, BitVec.getMsbD_ushiftRight, hindex]
  simp [hlt, hge, Nat.sub_eq_zero_of_le h]

theorem step_eq (h : 8 ≤ w) (r : BitVec w) (b : UInt8) :
    step polynomial r b = r <<< 8 ^^^ step polynomial 0#w (top r ^^^ b) := by
  -- the register without its top byte
  let low := r ^^^ lift w (top r).toBitVec
  have hclear : ∀ i, i < 8 → low.getMsbD i = false := by
    intro i hi
    simp [low, getMsbD_lift h, getMsbD_top h r hi]
  have hsplit : enter r b = low ^^^ enter 0#w (top r ^^^ b) := by
    rw [enter_eq, enter_eq, UInt8.toBitVec_xor, lift_xor, BitVec.zero_xor, ← BitVec.xor_assoc,
      BitVec.xor_assoc r, BitVec.xor_self, BitVec.xor_zero]
  have hlow : low <<< 8 = r <<< 8 := by
    rw [BitVec.shiftLeft_xor_distrib, ← lift_shiftLeft h]
    simp [lift]
  rw [step, hsplit, shifts_xor, shifts_of_clear 8 hclear, hlow]
  rfl

end Crc
