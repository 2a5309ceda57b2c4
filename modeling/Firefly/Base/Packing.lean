import Firefly.Base.Bit

/-!
# Firefly.Base.Packing

The assertions of `fd_bit.c`. None fails while the numbers have fewer than 32 bits and there is room for
them in the buffer. Without the room, either the overflow flag is set, or the count of bits has started
again at zero and `fd_bit_encoder_finalize` finds that it does not go with the index
(`Encoder.Counts.lt_of_finalize`).
-/

namespace Firefly
namespace Bit

open Encoder

/-! ## The encoder -/

namespace Encoder

variable {wide : Nat → Nat} {e : Encoder} {s v n : Nat}

theorem assert_eq_self (e : Encoder) {c : Bool} (h : c = true) : e.assert c = e := by
  rw [assert, if_pos h]

/-- An assertion that is not counted held. -/
theorem of_assert_assertCount {c : Bool} (h : (e.assert c).assertCount = 0) : c = true := by
  cases c with
  | true => rfl
  | false => exact absurd h (Nat.succ_ne_zero _)

@[simp] theorem flush_assertCount (k : Nat) (e : Encoder) : (flush k e).assertCount = e.assertCount := by
  induction k generalizing e with
  | zero => rfl
  | succ k ih => rw [flush, ih]

/-- Less than a byte is in the accumulator between two numbers. -/
theorem Holds.byte_lt (h : e.Holds s) : e.byte < 256 := by
  rw [h.filled.byte, h.index, Nat.div_lt_iff_lt_mul (Nat.two_pow_pos _)]
  have hle : 2 ^ e.bitCount ≤ 2 ^ (8 + 8 * (e.bitCount / 8)) := Nat.pow_le_pow_right (by decide) (by omega)
  rw [Nat.pow_add] at hle
  exact Nat.lt_of_lt_of_le h.lt hle

theorem Holds.put_assertCount (h : e.Holds s) (hv : v < 2 ^ n)
    (hroom : e.bitCount + n ≤ e.size * 8 % 2 ^ 32) : (e.put v n).assertCount = e.assertCount := by
  have hmod : (e.bitCount + n) % 2 ^ 32 = e.bitCount + n :=
    Nat.mod_eq_of_lt (Nat.lt_of_le_of_lt hroom (Nat.mod_lt _ (by decide)))
  have hbyte := (h.put hv hroom).1.byte_lt
  rw [Encoder.put, if_neg (by rw [hmod]; exact Nat.not_lt.mpr hroom)] at hbyte ⊢
  simp only [assert_byte] at hbyte ⊢
  rw [assert_eq_self _ (decide_eq_true hbyte), flush_assertCount]

theorem Holds.write_assertCount (h : e.Holds s) (hn : n < 32) (hv : v < 2 ^ n)
    (hroom : e.bitCount + n ≤ e.size * 8 % 2 ^ 32) : (e.write wide v n).assertCount = e.assertCount := by
  have hzero : v >>> n = 0 := by rw [Nat.shiftRight_eq_div_pow, Nat.div_eq_of_lt hv]
  rw [Encoder.write, if_pos hn, hzero, assert_eq_self _ (beq_self_eq_true 0)]
  exact h.put_assertCount hv hroom

theorem Holds.writeAll_assertCount {fields : List (Nat × Nat)} (h : e.Holds s) (hvalid : Valid fields)
    (hnarrow : ∀ f ∈ fields, f.2 < 32) (hroom : e.bitCount + Bits.width fields ≤ e.size * 8 % 2 ^ 32) :
    (e.writeAll wide fields).assertCount = e.assertCount := by
  induction fields generalizing e s with
  | nil => rfl
  | cons f fields ih =>
    obtain ⟨v, n⟩ := f
    rw [Bits.width_cons] at hroom
    have hv : v < 2 ^ n := (hvalid (v, n) List.mem_cons_self).2.2
    have hn : n < 32 := hnarrow (v, n) List.mem_cons_self
    obtain ⟨hholds, hcount, hsize⟩ := @Holds.write wide _ _ _ _ h hv (by omega)
    have hrest := ih hholds (fun f hf => hvalid f (List.mem_cons_of_mem _ hf))
      (fun f hf => hnarrow f (List.mem_cons_of_mem _ hf)) (by rw [hcount, hsize]; omega)
    exact hrest.trans (h.write_assertCount hn hv (by omega))

/-- What `fd_bit_encoder_finalize` leaves, when its last assertion holds. -/
theorem Holds.finalize_index (h : e.Holds s) (hlt : e.bitCount + 7 < 2 ^ 32) :
    e.finalize.assertCount = e.assertCount ∧ e.finalize.index = (e.bitCount + 7) / 8 ∧
      e.finalize.bitCount = e.bitCount := by
  have hover : (!e.overflow) = true := by rw [h.overflow]; rfl
  have hmod : (e.bitCount + 7) % 2 ^ 32 = e.bitCount + 7 := Nat.mod_eq_of_lt hlt
  rw [Encoder.finalize, assert_eq_self e hover]
  by_cases hpart : e.bitCount % 8 > 0
  · have hindex : (e.index + 1) % 2 ^ 32 = (e.bitCount + 7) / 8 := by
      rw [h.index]
      omega
    rw [if_pos hpart]
    simp only [hmod, hindex, assert_index, assert_bitCount]
    rw [assert_eq_self _ (beq_self_eq_true _)]
    exact ⟨rfl, trivial, trivial⟩
  · have hindex : e.index = (e.bitCount + 7) / 8 := by
      rw [h.index]
      omega
    rw [if_neg hpart]
    simp only [hmod, hindex, assert_index, assert_bitCount]
    rw [assert_eq_self _ (beq_self_eq_true _)]
    exact ⟨rfl, trivial, trivial⟩

/-! ## Without room -/

/-- `total` bits have been written without the overflow flag, counted in 32 bits. -/
structure Counts (e : Encoder) (total : Nat) : Prop where
  overflow : e.overflow = false
  bitCount : e.bitCount = total % 2 ^ 32
  index : e.index = total / 8 % 2 ^ 32

theorem counts_initializeWith (data : Memory) (size : Nat) : (initializeWith data size).Counts 0 :=
  ⟨rfl, rfl, rfl⟩

theorem Counts.assert {total : Nat} (h : e.Counts total) (c : Bool) : (e.assert c).Counts total := by
  refine ⟨?_, ?_, ?_⟩
  · rw [assert_overflow, h.overflow]
  · rw [assert_bitCount, h.bitCount]
  · rw [assert_index, h.index]

theorem flush_index (k : Nat) (e : Encoder) (h : e.index < 2 ^ 32) :
    (flush k e).index = (e.index + k) % 2 ^ 32 := by
  induction k generalizing e with
  | zero => rw [flush, Nat.add_zero, Nat.mod_eq_of_lt h]
  | succ k ih =>
    rw [flush, ih _ (Nat.mod_lt _ (by decide))]
    simp only
    omega

theorem Counts.put {total : Nat} (h : e.Counts total) (v n : Nat) (hflag : (e.put v n).overflow = false) :
    (e.put v n).Counts (total + n) := by
  have hindex : e.index < 2 ^ 32 := by
    rw [h.index]
    exact Nat.mod_lt _ (by decide)
  rw [Encoder.put] at hflag ⊢
  split
  · rename_i hfull
    rw [if_pos hfull] at hflag
    cases hflag
  · refine ⟨?_, ?_, ?_⟩
    · simp only [assert_overflow, flush_overflow]
      exact h.overflow
    · simp only [assert_bitCount, flush_bitCount]
      rw [h.bitCount]
      omega
    · simp only [assert_index]
      rw [flush_index _ _ (by simp only; exact hindex)]
      simp only
      rw [h.index, h.bitCount]
      omega

/-- As long as the flag is not set, every bit is counted. -/
theorem Counts.writeAll {total : Nat} {fields : List (Nat × Nat)} (h : e.Counts total)
    (hflag : (e.writeAll wide fields).overflow = false) :
    (e.writeAll wide fields).Counts (total + Bits.width fields) := by
  induction fields generalizing e total with
  | nil => exact h
  | cons f fields ih =>
    obtain ⟨v, n⟩ := f
    have hnow : (e.write wide v n).overflow = false := by
      rw [← Bool.not_eq_true]
      intro hset
      have hlater : (e.writeAll wide ((v, n) :: fields)).overflow = true := writeAll_overflow hset fields
      rw [hlater] at hflag
      cases hflag
    have hwrite : (e.write wide v n).Counts (total + n) := (h.assert _).put v n hnow
    rw [Bits.width_cons, ← Nat.add_assoc]
    exact ih hwrite hflag

/-- In a buffer that has room for the bits, the last assertion fails when they are too many for the
count. -/
theorem Counts.lt_of_finalize {total : Nat} (h : e.Counts total) (hfits : total ≤ 8 * (2 ^ 32 - 1))
    (hassert : e.finalize.assertCount = 0) : total < 2 ^ 32 := by
  have hindex := of_assert_assertCount hassert
  have hcount := h.bitCount
  have hplace := h.index
  simp only [assert_bitCount] at hindex
  split at hindex
  · simp only [assert_index, beq_iff_eq] at hindex
    omega
  · simp only [assert_index, beq_iff_eq] at hindex
    omega

end Encoder

/-! ## The decoder -/

namespace Decoder

variable {d : Decoder} {n : Nat}

theorem assert_eq_self (d : Decoder) {c : Bool} (h : c = true) : d.assert c = d := by
  rw [assert, if_pos h]

@[simp] theorem assert_bitCount (d : Decoder) (c : Bool) : (d.assert c).bitCount = d.bitCount := by
  unfold assert; split <;> rfl

@[simp] theorem assert_size (d : Decoder) (c : Bool) : (d.assert c).size = d.size := by
  unfold assert; split <;> rfl

/-- Every byte of the number is in the buffer. -/
theorem extract_assertCount {fuel extracted mask value : Nat} (hx : extracted ≤ n)
    (hfits : d.bitIndex + (n - extracted) ≤ d.bitCount) (hsize : d.bitCount ≤ 8 * d.size)
    (hlt : d.bitCount < 2 ^ 32) :
    (extract n fuel d extracted mask value).2.assertCount = d.assertCount ∧
      (extract n fuel d extracted mask value).2.bitCount = d.bitCount ∧
      (extract n fuel d extracted mask value).2.size = d.size := by
  induction fuel generalizing d extracted mask value with
  | zero => exact ⟨rfl, rfl, rfl⟩
  | succ fuel ih =>
    rw [extract]
    split
    · rename_i hmore
      have hindex : d.bitIndex / 8 < d.size := by omega
      simp only [assert_eq_self d (decide_eq_true hindex)]
      have hmod : (d.bitIndex + min (8 - d.bitIndex % 8) (n - extracted)) % 2 ^ 32 =
          d.bitIndex + min (8 - d.bitIndex % 8) (n - extracted) := Nat.mod_eq_of_lt (by omega)
      rw [hmod]
      exact ih (d := { d with bitIndex := d.bitIndex + min (8 - d.bitIndex % 8) (n - extracted) })
        (by omega) (by simp only; omega) hsize hlt
    · exact ⟨rfl, rfl, rfl⟩

theorem read_assertCount (hfits : d.bitIndex + n ≤ d.bitCount) (hsize : d.bitCount ≤ 8 * d.size)
    (hlt : d.bitCount < 2 ^ 32) :
    (d.read n).2.assertCount = d.assertCount ∧ (d.read n).2.bitCount = d.bitCount ∧
      (d.read n).2.size = d.size := by
  have hmod : (d.bitIndex + n) % 2 ^ 32 ≤ d.bitCount := Nat.le_trans (Nat.mod_le _ _) hfits
  rw [read, assert_eq_self d (decide_eq_true hmod)]
  exact extract_assertCount (Nat.zero_le n) hfits hsize hlt

/-- The decoder has the bits `s`, and every byte that they are in. -/
structure Supplies (d : Decoder) (s : Nat) : Prop where
  reads : d.Reads s d.bitCount
  size : d.bitCount ≤ 8 * d.size
  lt : d.bitCount < 2 ^ 32

theorem Supplies.read {s : Nat} (h : d.Supplies s) (hn : n ≤ 32) (hfits : d.bitIndex + n ≤ d.bitCount) :
    (d.read n).1 = s / 2 ^ d.bitIndex % 2 ^ n ∧ (d.read n).2.Supplies s ∧
      (d.read n).2.bitIndex = d.bitIndex + n ∧ (d.read n).2.bitCount = d.bitCount ∧
      (d.read n).2.assertCount = d.assertCount := by
  obtain ⟨hvalue, hreads, hindex⟩ := read_eq h.reads hn hfits h.lt
  obtain ⟨hassert, hcount, hsize⟩ := read_assertCount hfits h.size h.lt
  refine ⟨hvalue, ⟨?_, ?_, ?_⟩, hindex, hcount, hassert⟩
  · rw [hcount]
    exact hreads
  · rw [hcount, hsize]
    exact h.size
  · rw [hcount]
    exact h.lt

/-- The numbers that are read next, one after the other, in the numbers of bits that are given. -/
def Offers (d : Decoder) (fields : List (Nat × Nat)) : Prop :=
  ∃ s, d.Supplies s ∧ (∀ f ∈ fields, f.2 ≤ 32) ∧ d.bitIndex + Bits.width fields ≤ d.bitCount ∧
    Bits.unpack (s / 2 ^ d.bitIndex) (fields.map Prod.snd) = fields.map Prod.fst

theorem Offers.read {fields : List (Nat × Nat)} {v : Nat} (h : d.Offers ((v, n) :: fields)) :
    (d.read n).1 = v ∧ (d.read n).2.Offers fields ∧ (d.read n).2.assertCount = d.assertCount := by
  obtain ⟨s, hsupplies, hn, hfits, hbits⟩ := h
  rw [Bits.width_cons] at hfits
  rw [List.map_cons, List.map_cons, Bits.unpack, List.cons.injEq] at hbits
  obtain ⟨hvalue, hsupplies', hindex, hcount, hassert⟩ :=
    hsupplies.read (hn _ List.mem_cons_self) (by omega)
  refine ⟨hvalue.trans hbits.1, ⟨s, hsupplies', ?_, ?_, ?_⟩, hassert⟩
  · exact fun f hf => hn f (List.mem_cons_of_mem _ hf)
  · rw [hindex, hcount]
    omega
  · rw [hindex, Nat.pow_add, ← Nat.div_div_eq_div_mul]
    exact hbits.2

end Decoder

/-! ## Numbers of up to 25 bits -/

variable {fields : List (Nat × Nat)}

/-- At most seven bits of a number are shifted out of its place in the accumulator. -/
theorem stored_eq_self (h : ∀ f ∈ fields, f.2 ≤ 25 ∧ f.1 < 2 ^ f.2) (o : Nat) : stored o fields = fields := by
  induction fields generalizing o with
  | nil => rfl
  | cons f fields ih =>
    obtain ⟨v, n⟩ := f
    obtain ⟨hn, hv⟩ := h (v, n) List.mem_cons_self
    have hle : n ≤ 32 - o % 8 := by
      have hmod : o % 8 < 8 := Nat.mod_lt _ (by decide)
      simp only at hn
      omega
    have hfit : v < 2 ^ (32 - o % 8) := Nat.lt_of_lt_of_le hv (Nat.pow_le_pow_right (by decide) hle)
    rw [stored, Nat.mod_eq_of_lt hfit, ih fun f hf => h f (List.mem_cons_of_mem _ hf)]

/-- With room for the numbers no assertion fails, and the decoder finds them in what was finalized. -/
theorem offers_writeAll (wide : Nat → Nat) (data : Memory) {size : Nat}
    (h : ∀ f ∈ fields, 1 ≤ f.2 ∧ f.2 ≤ 25 ∧ f.1 < 2 ^ f.2) (hroom : Bits.width fields ≤ size * 8 % 2 ^ 32) :
    let e := ((Encoder.initializeWith data size).writeAll wide fields).finalize
    e.overflow = false ∧ e.assertCount = 0 ∧
      (Decoder.initializeWith e.data e.index e.bitCount).Offers fields := by
  have hwrap : size * 8 % 2 ^ 32 ≤ 2 ^ 32 - 8 := by omega
  have hvalid : Valid fields := fun f hf => ⟨(h f hf).1, by have := (h f hf).2.1; omega, (h f hf).2.2⟩
  have hzero : (Encoder.initializeWith data size).bitCount = 0 := rfl
  have hfits : (Encoder.initializeWith data size).bitCount + Bits.width fields ≤
      (Encoder.initializeWith data size).size * 8 % 2 ^ 32 := by
    rw [hzero, Nat.zero_add]
    exact hroom
  obtain ⟨hholds, hcount⟩ := @Encoder.Holds.writeAll wide _ _ _ (holds_initializeWith data size) hvalid hfits
  have hassert := @Encoder.Holds.writeAll_assertCount wide _ _ _ (holds_initializeWith data size) hvalid
    (fun f hf => by have := (h f hf).2.1; omega) hfits
  rw [hzero, Nat.pow_zero, Nat.one_mul, Nat.zero_add,
    stored_eq_self (fun f hf => (h f hf).2) 0] at hholds
  rw [hzero, Nat.zero_add] at hcount
  obtain ⟨hfinal, hindex, hbits⟩ := hholds.finalize_index (by omega)
  obtain ⟨hover, hdata⟩ := hholds.finalize
  rw [hcount] at hdata hindex hbits
  refine ⟨hover, hfinal.trans hassert, Bits.pack fields, ⟨?_, ?_, ?_⟩, ?_, ?_, ?_⟩
  · simp only [Decoder.initializeWith, hbits]
    exact hdata
  · simp only [Decoder.initializeWith, hbits, hindex]
    omega
  · simp only [Decoder.initializeWith, hbits]
    omega
  · exact fun f hf => (hvalid f hf).2.1
  · simp only [Decoder.initializeWith, hbits]
    omega
  · simp only [Decoder.initializeWith, Nat.pow_zero, Nat.div_one]
    exact Bits.unpack_pack fun f hf => (h f hf).2.2

/-- Without room for the numbers either the flag is set or an assertion fails. -/
theorem room_of_writeAll (wide : Nat → Nat) (data : Memory) {size : Nat} (hvalid : Valid fields)
    (hfits : Bits.width fields ≤ 8 * (2 ^ 32 - 1))
    (hflag : ((Encoder.initializeWith data size).writeAll wide fields).overflow = false)
    (hassert : ((Encoder.initializeWith data size).writeAll wide fields).finalize.assertCount = 0) :
    Bits.width fields ≤ size * 8 % 2 ^ 32 := by
  have hcounts := (Encoder.counts_initializeWith data size).writeAll hflag
  rw [Nat.zero_add] at hcounts
  have hlt := hcounts.lt_of_finalize hfits hassert
  apply Nat.le_of_not_lt
  intro hfull
  have hset := @Encoder.Holds.writeAll_overflow wide _ _ _ (holds_initializeWith data size) hvalid
    (by rw [initializeWith, Nat.zero_add]; exact hlt) (by rw [initializeWith, Nat.zero_add]; exact hfull)
    (Nat.zero_le _)
  rw [hset] at hflag
  cases hflag

end Bit
end Firefly
