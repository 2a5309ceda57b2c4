import Firefly.Lib.Bits
import Firefly.Lib.Memory

/-!
# Firefly.Base.Bit

`fd_bit.c`: numbers of up to 32 bits put one behind the other, the lowest bit first, and taken out
again. The encoder collects bits in an accumulator of 32 bits; up to seven bits of the last byte are
still in it when the next number is shifted behind them, so a number of nearly 32 bits loses its
highest ones. What was written is found again if and only if no number lost any
(`Bit.readAll_writeAll_iff`).

Counts and indices are 32-bit numbers, and so is `size_t`.
-/

namespace Firefly
namespace Bit

/-! ## The encoder -/

structure Encoder where
  data : Memory
  size : Nat
  bitCount : Nat
  index : Nat
  byte : Nat
  overflow : Bool
  assertCount : Nat

namespace Encoder

/-- `fd_bit_encoder_initialize`. -/
def initializeWith (data : Memory) (size : Nat) : Encoder := ⟨data, size, 0, 0, 0, false, 0⟩

def assert (e : Encoder) (c : Bool) : Encoder :=
  if c then e else { e with assertCount := e.assertCount + 1 }

/-- The loop of `fd_bit_encoder_write`, which runs `bit_index / 8` times. -/
def flush : Nat → Encoder → Encoder
  | 0, e => e
  | k + 1, e =>
    flush k
      { e with
        data := e.data.write e.index [UInt8.ofNat e.byte]
        index := (e.index + 1) % 2 ^ 32
        byte := e.byte >>> 8 }

/-- `fd_bit_encoder_write` behind its assertion. -/
def put (e : Encoder) (value bitCount : Nat) : Encoder :=
  if (e.bitCount + bitCount) % 2 ^ 32 > e.size * 8 % 2 ^ 32 then
    { e with overflow := true }
  else
    let bitIndex := e.bitCount % 8
    let e := flush ((bitIndex + bitCount) / 8) { e with byte := e.byte ||| (value <<< bitIndex) % 2 ^ 32 }
    let e := e.assert (e.byte < 256)
    { e with bitCount := (e.bitCount + bitCount) % 2 ^ 32 }

/-- `fd_bit_encoder_write`. A shift by 32 is undefined in C, and `wide` is what it gives; only the
assertion depends on it. -/
def write (wide : Nat → Nat) (e : Encoder) (value bitCount : Nat) : Encoder :=
  (e.assert ((if bitCount < 32 then value >>> bitCount else wide value) == 0)).put value bitCount

/-- `fd_bit_encoder_finalize`. -/
def finalize (e : Encoder) : Encoder :=
  let e := e.assert (!e.overflow)
  let e :=
    if e.bitCount % 8 > 0 then
      { e with
        data := e.data.write e.index [UInt8.ofNat e.byte]
        index := (e.index + 1) % 2 ^ 32 }
    else e
  e.assert (e.index == (e.bitCount + 7) % 2 ^ 32 / 8)

def writeAll (wide : Nat → Nat) (e : Encoder) (fields : List (Nat × Nat)) : Encoder :=
  fields.foldl (fun e f => e.write wide f.1 f.2) e

end Encoder

/-! ## The decoder -/

structure Decoder where
  data : Memory
  size : Nat
  bitCount : Nat
  bitIndex : Nat
  assertCount : Nat

namespace Decoder

/-- `fd_bit_decoder_initialize`. -/
def initializeWith (data : Memory) (size bitCount : Nat) : Decoder := ⟨data, size, bitCount, 0, 0⟩

def assert (d : Decoder) (c : Bool) : Decoder :=
  if c then d else { d with assertCount := d.assertCount + 1 }

/-- The loop of `fd_bit_decoder_read`, which takes at least one bit each time. -/
def extract (bitCount : Nat) : Nat → Decoder → Nat → Nat → Nat → Nat × Decoder
  | 0, d, _, _, value => (value, d)
  | fuel + 1, d, extracted, mask, value =>
    if extracted < bitCount then
      let index := d.bitIndex / 8
      let d := d.assert (index < d.size)
      let byte := (d.data index).toNat
      let byteBitIndex := d.bitIndex % 8
      let byteBitCount := min (8 - byteBitIndex) (bitCount - extracted)
      extract bitCount fuel { d with bitIndex := (d.bitIndex + byteBitCount) % 2 ^ 32 }
        (extracted + byteBitCount) (mask >>> byteBitCount)
        (value ||| ((mask &&& (byte >>> byteBitIndex)) <<< extracted) % 2 ^ 32)
    else (value, d)

/-- `fd_bit_decoder_read`. -/
def read (d : Decoder) (bitCount : Nat) : Nat × Decoder :=
  let d := d.assert ((d.bitIndex + bitCount) % 2 ^ 32 ≤ d.bitCount)
  extract bitCount bitCount d 0 (0xffffffff >>> (32 - bitCount)) 0

def readAll (d : Decoder) : List Nat → List Nat
  | [] => []
  | n :: ns => (d.read n).1 :: readAll (d.read n).2 ns

end Decoder

/-! ## Writing -/

namespace Encoder

variable {wide : Nat → Nat} {e : Encoder} {s v n : Nat}

@[simp] theorem assert_overflow (e : Encoder) (c : Bool) : (e.assert c).overflow = e.overflow := by
  unfold assert; split <;> rfl

@[simp] theorem assert_bitCount (e : Encoder) (c : Bool) : (e.assert c).bitCount = e.bitCount := by
  unfold assert; split <;> rfl

@[simp] theorem assert_size (e : Encoder) (c : Bool) : (e.assert c).size = e.size := by
  unfold assert; split <;> rfl

@[simp] theorem assert_index (e : Encoder) (c : Bool) : (e.assert c).index = e.index := by
  unfold assert; split <;> rfl

@[simp] theorem assert_byte (e : Encoder) (c : Bool) : (e.assert c).byte = e.byte := by
  unfold assert; split <;> rfl

@[simp] theorem assert_data (e : Encoder) (c : Bool) : (e.assert c).data = e.data := by
  unfold assert; split <;> rfl

@[simp] theorem flush_overflow (k : Nat) (e : Encoder) : (flush k e).overflow = e.overflow := by
  induction k generalizing e with
  | zero => rfl
  | succ k ih => rw [flush, ih]

@[simp] theorem flush_bitCount (k : Nat) (e : Encoder) : (flush k e).bitCount = e.bitCount := by
  induction k generalizing e with
  | zero => rfl
  | succ k ih => rw [flush, ih]

@[simp] theorem flush_size (k : Nat) (e : Encoder) : (flush k e).size = e.size := by
  induction k generalizing e with
  | zero => rfl
  | succ k ih => rw [flush, ih]

/-- The full bytes of `s` are in the buffer and the rest is in the accumulator. -/
structure Filled (e : Encoder) (s : Nat) : Prop where
  byte : e.byte = s / 2 ^ (8 * e.index)
  data : ∀ i, i < e.index → (e.data i).toNat = Bits.byte s i

theorem Filled.assert (h : e.Filled s) (c : Bool) : (e.assert c).Filled s := by
  refine ⟨?_, ?_⟩
  · rw [assert_byte, assert_index, h.byte]
  · intro i hi
    rw [assert_index] at hi
    rw [assert_data, h.data i hi]

/-- The lower eight bits of the accumulator are the next byte. -/
theorem Filled.store (h : e.Filled s) {i : Nat} (hi : i < e.index + 1) :
    (e.data.write e.index [UInt8.ofNat e.byte] i).toNat = Bits.byte s i := by
  by_cases heq : i = e.index
  · rw [heq, Memory.write_singleton_self, UInt8.toNat_ofNat', h.byte, Bits.byte]
  · have hlt : i < e.index := by omega
    rw [Memory.write_of_outside (Or.inl hlt), h.data i hlt]

theorem Filled.flush {k : Nat} (h : e.Filled s) (hfits : e.index + k < 2 ^ 32) :
    (flush k e).Filled s ∧ (flush k e).index = e.index + k := by
  induction k generalizing e with
  | zero => exact ⟨h, rfl⟩
  | succ k ih =>
    have hindex : (e.index + 1) % 2 ^ 32 = e.index + 1 := Nat.mod_eq_of_lt (by omega)
    rw [Encoder.flush, hindex]
    have hnext : Filled { e with
        data := e.data.write e.index [UInt8.ofNat e.byte]
        index := e.index + 1
        byte := e.byte >>> 8 } s := by
      refine ⟨?_, fun i hi => h.store hi⟩
      rw [h.byte, Nat.shiftRight_eq_div_pow, Nat.div_div_eq_div_mul, ← Nat.pow_add, Nat.mul_succ]
    obtain ⟨hfilled, hk⟩ := ih hnext (by simp only; omega)
    refine ⟨hfilled, ?_⟩
    rw [hk]
    simp only
    omega

/-- The bits `s` have been written. -/
structure Holds (e : Encoder) (s : Nat) : Prop where
  filled : e.Filled s
  overflow : e.overflow = false
  lt : s < 2 ^ e.bitCount
  index : e.index = e.bitCount / 8

theorem holds_initializeWith (data : Memory) (size : Nat) : (initializeWith data size).Holds 0 := by
  refine ⟨⟨(Nat.zero_div _).symm, ?_⟩, rfl, Nat.zero_lt_one, (Nat.zero_div 8).symm⟩
  intro i hi
  exact absurd hi (Nat.not_lt_zero i)

/-- What is left of a number that is shifted by `r` bits in the accumulator. -/
theorem or_shiftLeft {b r : Nat} (hb : b < 2 ^ r) (hr : r ≤ 32) (v : Nat) :
    b ||| (v <<< r) % 2 ^ 32 = b + 2 ^ r * (v % 2 ^ (32 - r)) := by
  have hpow : 2 ^ 32 = 2 ^ r * 2 ^ (32 - r) := by rw [← Nat.pow_add, Nat.add_sub_cancel' hr]
  rw [Nat.shiftLeft_eq, Nat.mul_comm v, hpow, Nat.mul_mod_mul_left, Nat.or_comm,
    ← Nat.two_pow_add_eq_or_of_lt hb, Nat.add_comm]

/-- One number behind the others, cut off at the end of the accumulator. -/
theorem Holds.filled_or (h : e.Holds s) (v : Nat) :
    Filled { e with byte := e.byte ||| (v <<< (e.bitCount % 8)) % 2 ^ 32 }
      (s + 2 ^ e.bitCount * (v % 2 ^ (32 - e.bitCount % 8))) := by
  have hsplit : e.bitCount = 8 * (e.bitCount / 8) + e.bitCount % 8 := (Nat.div_add_mod _ 8).symm
  have hmod : e.bitCount % 8 < 8 := Nat.mod_lt _ (by decide)
  have hbyte : e.byte < 2 ^ (e.bitCount % 8) := by
    rw [h.filled.byte, h.index, Nat.div_lt_iff_lt_mul (Nat.two_pow_pos _), ← Nat.pow_add,
      Nat.add_comm, ← hsplit]
    exact h.lt
  have hpow : 2 ^ e.bitCount = 2 ^ (8 * e.index) * 2 ^ (e.bitCount % 8) := by
    rw [h.index, ← Nat.pow_add, ← hsplit]
  refine ⟨?_, ?_⟩
  · simp only
    rw [or_shiftLeft hbyte (by omega), h.filled.byte, hpow, Nat.mul_assoc,
      Nat.add_mul_div_left _ _ (Nat.two_pow_pos _)]
  · intro i hi
    simp only at hi ⊢
    have hle : 8 * (i + 1) ≤ e.bitCount := by
      rw [h.index] at hi
      omega
    rw [Bits.byte_add_mul hle, h.filled.data i hi]

theorem Holds.assert (h : e.Holds s) (c : Bool) : (e.assert c).Holds s := by
  refine ⟨h.filled.assert c, ?_, ?_, ?_⟩
  · rw [assert_overflow, h.overflow]
  · rw [assert_bitCount]
    exact h.lt
  · rw [assert_index, assert_bitCount, h.index]

theorem Holds.put (h : e.Holds s) (hv : v < 2 ^ n) (hroom : e.bitCount + n ≤ e.size * 8 % 2 ^ 32) :
    (e.put v n).Holds (s + 2 ^ e.bitCount * (v % 2 ^ (32 - e.bitCount % 8))) ∧
      (e.put v n).bitCount = e.bitCount + n ∧ (e.put v n).size = e.size := by
  have hlt : e.bitCount + n < 2 ^ 32 := Nat.lt_of_le_of_lt hroom (Nat.mod_lt _ (by decide))
  have hmod : (e.bitCount + n) % 2 ^ 32 = e.bitCount + n := Nat.mod_eq_of_lt hlt
  have hkept : v % 2 ^ (32 - e.bitCount % 8) < 2 ^ n := Nat.lt_of_le_of_lt (Nat.mod_le _ _) hv
  have hindex : e.index + (e.bitCount % 8 + n) / 8 = (e.bitCount + n) / 8 := by
    rw [h.index]
    omega
  have hor := h.filled_or v
  obtain ⟨hfilled, hflush⟩ :=
    Filled.flush (k := (e.bitCount % 8 + n) / 8) hor (by simp only; omega)
  rw [Encoder.put, if_neg (by rw [hmod]; exact Nat.not_lt.mpr hroom)]
  simp only [assert_bitCount, flush_bitCount, hmod]
  refine ⟨⟨⟨?_, ?_⟩, ?_, ?_, ?_⟩, trivial, ?_⟩
  · exact (hfilled.assert _).byte
  · exact (hfilled.assert _).data
  · simp [h.overflow]
  · exact Bits.add_mul_lt h.lt hkept
  · simp only [assert_index, hflush, hindex]
  · simp

theorem Holds.write (h : e.Holds s) (hv : v < 2 ^ n)
    (hroom : e.bitCount + n ≤ e.size * 8 % 2 ^ 32) :
    (e.write wide v n).Holds (s + 2 ^ e.bitCount * (v % 2 ^ (32 - e.bitCount % 8))) ∧
      (e.write wide v n).bitCount = e.bitCount + n ∧ (e.write wide v n).size = e.size := by
  have hput := (h.assert ((if n < 32 then v >>> n else wide v) == 0)).put hv
    (by rw [assert_bitCount, assert_size]; exact hroom)
  rw [assert_bitCount, assert_size] at hput
  exact hput

theorem put_overflow (h : e.overflow = true) (v n : Nat) : (e.put v n).overflow = true := by
  rw [put]
  split
  · rfl
  · simp only [assert_overflow, flush_overflow]
    exact h

theorem write_overflow (h : e.overflow = true) (v n : Nat) : (e.write wide v n).overflow = true :=
  put_overflow (by rw [assert_overflow]; exact h) v n

theorem write_of_full (hfull : e.size * 8 % 2 ^ 32 < e.bitCount + n) (hlt : e.bitCount + n < 2 ^ 32) :
    (e.write wide v n).overflow = true := by
  rw [write, put, if_pos]
  rw [assert_bitCount, assert_size, Nat.mod_eq_of_lt hlt]
  exact hfull

theorem writeAll_overflow (h : e.overflow = true) (fields : List (Nat × Nat)) :
    (e.writeAll wide fields).overflow = true := by
  induction fields generalizing e with
  | nil => exact h
  | cons f fields ih => exact ih (write_overflow h f.1 f.2)

/-- The numbers as they come out of the accumulator, the first one at bit `o`. -/
def stored : Nat → List (Nat × Nat) → List (Nat × Nat)
  | _, [] => []
  | o, (v, n) :: fields => (v % 2 ^ (32 - o % 8), n) :: stored (o + n) fields

/-- The numbers have at most as many bits as is said, between 1 and 32. -/
def Valid (fields : List (Nat × Nat)) : Prop := ∀ f ∈ fields, 1 ≤ f.2 ∧ f.2 ≤ 32 ∧ f.1 < 2 ^ f.2

theorem Holds.writeAll {fields : List (Nat × Nat)} (h : e.Holds s) (hvalid : Valid fields)
    (hroom : e.bitCount + Bits.width fields ≤ e.size * 8 % 2 ^ 32) :
    (e.writeAll wide fields).Holds (s + 2 ^ e.bitCount * Bits.pack (stored e.bitCount fields)) ∧
      (e.writeAll wide fields).bitCount = e.bitCount + Bits.width fields := by
  induction fields generalizing e s with
  | nil =>
    rw [stored, Bits.pack, Nat.mul_zero]
    exact ⟨h, rfl⟩
  | cons f fields ih =>
    obtain ⟨v, n⟩ := f
    rw [Bits.width_cons] at hroom
    have hv : v < 2 ^ n := (hvalid (v, n) List.mem_cons_self).2.2
    obtain ⟨hholds, hcount, hsize⟩ := @Holds.write wide _ _ _ _ h hv (by omega)
    have hrest := ih hholds (fun f hf => hvalid f (List.mem_cons_of_mem _ hf))
      (by rw [hcount, hsize]; omega)
    rw [hcount, Nat.pow_add, Nat.mul_assoc, Nat.add_assoc, ← Nat.mul_add, Nat.add_assoc] at hrest
    exact hrest

/-- A number that does not fit sets the flag, and it stays set. -/
theorem Holds.writeAll_overflow {fields : List (Nat × Nat)} (h : e.Holds s) (hvalid : Valid fields)
    (hlt : e.bitCount + Bits.width fields < 2 ^ 32)
    (hfull : e.size * 8 % 2 ^ 32 < e.bitCount + Bits.width fields)
    (hstart : e.bitCount ≤ e.size * 8 % 2 ^ 32) :
    (e.writeAll wide fields).overflow = true := by
  induction fields generalizing e s with
  | nil => exact absurd hfull (Nat.not_lt.mpr hstart)
  | cons f fields ih =>
    obtain ⟨v, n⟩ := f
    rw [Bits.width_cons] at hlt hfull
    by_cases hroom : e.bitCount + n ≤ e.size * 8 % 2 ^ 32
    · have hv : v < 2 ^ n := (hvalid (v, n) List.mem_cons_self).2.2
      obtain ⟨hholds, hcount, hsize⟩ := @Holds.write wide _ _ _ _ h hv hroom
      exact ih hholds (fun f hf => hvalid f (List.mem_cons_of_mem _ hf))
        (by rw [hcount]; omega) (by rw [hcount, hsize]; omega) (by rw [hcount, hsize]; exact hroom)
    · exact Encoder.writeAll_overflow
        (write_of_full (Nat.lt_of_not_le hroom) (by omega)) fields

/-- Every byte of `s` that has been begun is in the buffer. -/
theorem Holds.finalize (h : e.Holds s) :
    e.finalize.overflow = false ∧
      ∀ i, 8 * i < e.bitCount → (e.finalize.data i).toNat = Bits.byte s i := by
  rw [Encoder.finalize]
  simp only [assert_overflow, assert_bitCount, assert_data, assert_index]
  split
  · rename_i hpart
    refine ⟨by simp [h.overflow], ?_⟩
    intro i hi
    simp only [assert_byte]
    apply h.filled.store
    rw [h.index]
    omega
  · rename_i hfull
    refine ⟨by simp [h.overflow], ?_⟩
    intro i hi
    rw [assert_data, h.filled.data i]
    rw [h.index]
    omega

end Encoder

/-! ## Reading -/

namespace Decoder

variable {d : Decoder} {s o n : Nat}

@[simp] theorem assert_data (d : Decoder) (c : Bool) : (d.assert c).data = d.data := by
  unfold assert; split <;> rfl

@[simp] theorem assert_bitIndex (d : Decoder) (c : Bool) : (d.assert c).bitIndex = d.bitIndex := by
  unfold assert; split <;> rfl

/-- The first `total` bits of `s` are in the buffer. -/
def Reads (d : Decoder) (s total : Nat) : Prop :=
  ∀ i, 8 * i < total → (d.data i).toNat = Bits.byte s i

/-- What is masked out of a byte are the next bits, up to its end or that of the number. -/
theorem fragment_eq {total x : Nat} (h : d.Reads s total) (hx : x < n) (hfits : o + n ≤ total) :
    (2 ^ (n - x) - 1) &&& ((d.data ((o + x) / 8)).toNat >>> ((o + x) % 8)) =
      s / 2 ^ (o + x) % 2 ^ min (8 - (o + x) % 8) (n - x) := by
  have hsplit : 8 * ((o + x) / 8) + (o + x) % 8 = o + x := Nat.div_add_mod _ 8
  have hmod : (o + x) % 8 < 8 := Nat.mod_lt _ (by decide)
  rw [h _ (by omega), Nat.shiftRight_eq_div_pow, Bits.byte_div _ _ _ (by omega), hsplit, Nat.and_comm,
    Nat.and_two_pow_sub_one_eq_mod, Bits.mod_two_pow_min]

theorem shiftRight_mask (a b : Nat) (h : b ≤ a) : (2 ^ a - 1) >>> b = 2 ^ (a - b) - 1 := by
  obtain ⟨k, rfl⟩ := Nat.exists_eq_add_of_le h
  have hpow : 2 ^ (b + k) - 1 = (2 ^ b - 1) + 2 ^ b * (2 ^ k - 1) := by
    have h₁ := Nat.two_pow_pos b
    have h₂ : 2 ^ b ≤ 2 ^ b * 2 ^ k := Nat.le_mul_of_pos_right _ (Nat.two_pow_pos k)
    rw [Nat.pow_add, Nat.mul_sub_one]
    omega
  rw [Nat.shiftRight_eq_div_pow, hpow, Nat.add_mul_div_left _ _ (Nat.two_pow_pos b),
    Nat.div_eq_of_lt (Nat.sub_lt (Nat.two_pow_pos b) Nat.one_pos), Nat.zero_add, Nat.add_sub_cancel_left]

/-- The next bits behind those that have been extracted. -/
theorem or_fragment {x y : Nat} (hxy : x + y ≤ 32) :
    (s % 2 ^ x) ||| ((s / 2 ^ x % 2 ^ y) <<< x) % 2 ^ 32 = s % 2 ^ (x + y) := by
  have hlt : s % 2 ^ x < 2 ^ x := Nat.mod_lt _ (Nat.two_pow_pos x)
  have hfit : s / 2 ^ x % 2 ^ y < 2 ^ (32 - x) :=
    Nat.lt_of_lt_of_le (Nat.mod_lt _ (Nat.two_pow_pos y)) (Nat.pow_le_pow_right (by decide) (by omega))
  rw [Encoder.or_shiftLeft hlt (by omega), Nat.mod_eq_of_lt hfit, ← Bits.mod_two_pow_add]

theorem extract_eq {total fuel x : Nat} (h : d.Reads s total) (hn : n ≤ 32) (hfits : o + n ≤ total)
    (hlt : total < 2 ^ 32) (hx : x ≤ n) (hfuel : n ≤ x + fuel) (hindex : d.bitIndex = o + x) :
    (extract n fuel d x (2 ^ (n - x) - 1) (s / 2 ^ o % 2 ^ x)).1 = s / 2 ^ o % 2 ^ n ∧
      (extract n fuel d x (2 ^ (n - x) - 1) (s / 2 ^ o % 2 ^ x)).2.Reads s total ∧
      (extract n fuel d x (2 ^ (n - x) - 1) (s / 2 ^ o % 2 ^ x)).2.bitIndex = o + n := by
  induction fuel generalizing d x with
  | zero =>
    obtain rfl : x = n := by omega
    exact ⟨rfl, h, hindex⟩
  | succ fuel ih =>
    rw [extract]
    split
    · rename_i hmore
      have hmod : (o + x) % 8 < 8 := Nat.mod_lt _ (by decide)
      simp only [assert_data, assert_bitIndex, hindex]
      rw [fragment_eq h hmore hfits]
      generalize hy : min (8 - (o + x) % 8) (n - x) = y
      have hpos : 0 < y := by omega
      have hle : x + y ≤ n := by omega
      have hdiv : s / 2 ^ (o + x) = s / 2 ^ o / 2 ^ x := by rw [Nat.pow_add, Nat.div_div_eq_div_mul]
      have hwrap : (o + x + y) % 2 ^ 32 = o + (x + y) := by
        rw [Nat.mod_eq_of_lt (by omega), Nat.add_assoc]
      have hmask : (2 ^ (n - x) - 1) >>> y = 2 ^ (n - (x + y)) - 1 := by
        rw [shiftRight_mask _ _ (by omega), Nat.sub_sub]
      rw [hdiv, or_fragment (by omega), hmask, hwrap]
      exact ih h (by omega) (by omega) rfl
    · obtain rfl : x = n := by omega
      exact ⟨rfl, h, hindex⟩

theorem read_eq {total : Nat} (h : d.Reads s total) (hn : n ≤ 32)
    (hfits : d.bitIndex + n ≤ total) (hlt : total < 2 ^ 32) :
    (d.read n).1 = s / 2 ^ d.bitIndex % 2 ^ n ∧ (d.read n).2.Reads s total ∧
      (d.read n).2.bitIndex = d.bitIndex + n := by
  have hmask : 0xffffffff >>> (32 - n) = 2 ^ n - 1 := by
    have h32 := shiftRight_mask 32 (32 - n) (Nat.sub_le _ _)
    rw [Nat.sub_sub_self hn] at h32
    exact h32
  have hstart : ∀ c, (d.assert c).Reads s total := by
    intro c i hi
    rw [assert_data]
    exact h i hi
  have hextract := @extract_eq _ _ _ _ _ n _ (hstart ((d.bitIndex + n) % 2 ^ 32 ≤ d.bitCount)) hn hfits
    hlt (Nat.zero_le n) (by omega) (by rw [assert_bitIndex, Nat.add_zero])
  rw [Nat.pow_zero, Nat.mod_one, Nat.sub_zero] at hextract
  rw [read, hmask]
  exact hextract

theorem readAll_eq {total : Nat} {ns : List Nat} (h : d.Reads s total)
    (hns : ∀ n ∈ ns, n ≤ 32) (hfits : d.bitIndex + ns.sum ≤ total) (hlt : total < 2 ^ 32) :
    d.readAll ns = Bits.unpack (s / 2 ^ d.bitIndex) ns := by
  induction ns generalizing d with
  | nil => rfl
  | cons n ns ih =>
    rw [List.sum_cons] at hfits
    have hn : n ≤ 32 := hns n List.mem_cons_self
    obtain ⟨hvalue, hreads, hindex⟩ := read_eq h hn (by omega) hlt
    have hrest := ih hreads (fun n hn => hns n (List.mem_cons_of_mem _ hn)) (by rw [hindex]; omega)
    rw [readAll, Bits.unpack, hvalue, hrest, hindex, Nat.pow_add, Nat.div_div_eq_div_mul]

end Decoder

/-! ## Round trip -/

open Encoder

variable {fields : List (Nat × Nat)}

/-- No number has a one above the end of the accumulator, the first number at bit `o`. -/
def Kept : Nat → List (Nat × Nat) → Prop
  | _, [] => True
  | o, (v, n) :: fields => v * 2 ^ (o % 8) < 2 ^ 32 ∧ Kept (o + n) fields

theorem stored_widths (o : Nat) (fields : List (Nat × Nat)) :
    (stored o fields).map Prod.snd = fields.map Prod.snd := by
  induction fields generalizing o with
  | nil => rfl
  | cons f fields ih => rw [stored, List.map_cons, List.map_cons, ih]

theorem stored_lt (hvalid : Valid fields) (o : Nat) : ∀ f ∈ stored o fields, f.1 < 2 ^ f.2 := by
  induction fields generalizing o with
  | nil =>
    intro f hf
    cases hf
  | cons f fields ih =>
    obtain ⟨v, n⟩ := f
    intro g hg
    cases hg with
    | head => exact Nat.lt_of_le_of_lt (Nat.mod_le _ _) (hvalid (v, n) List.mem_cons_self).2.2
    | tail _ hg => exact ih (fun f hf => hvalid f (List.mem_cons_of_mem _ hf)) _ g hg

theorem mod_eq_self_iff (v r : Nat) (hr : r ≤ 32) : v % 2 ^ (32 - r) = v ↔ v * 2 ^ r < 2 ^ 32 := by
  have hpow : 2 ^ 32 = 2 ^ (32 - r) * 2 ^ r := by rw [← Nat.pow_add, Nat.sub_add_cancel hr]
  rw [hpow, Nat.mul_lt_mul_right (Nat.two_pow_pos r)]
  constructor
  · intro h
    rw [← h]
    exact Nat.mod_lt _ (Nat.two_pow_pos _)
  · exact Nat.mod_eq_of_lt

theorem stored_values_iff (o : Nat) (fields : List (Nat × Nat)) :
    (stored o fields).map Prod.fst = fields.map Prod.fst ↔ Kept o fields := by
  induction fields generalizing o with
  | nil => exact ⟨fun _ => trivial, fun _ => rfl⟩
  | cons f fields ih =>
    obtain ⟨v, n⟩ := f
    have hmod : o % 8 < 8 := Nat.mod_lt _ (by decide)
    rw [stored, List.map_cons, List.map_cons, List.cons.injEq, ih, Kept,
      mod_eq_self_iff v (o % 8) (by omega)]

/-- The numbers are written without overflow and read again from the bytes. -/
def RoundTrips (wide : Nat → Nat) (data : Memory) (size : Nat) (fields : List (Nat × Nat)) : Prop :=
  let e := ((Encoder.initializeWith data size).writeAll wide fields).finalize
  e.overflow = false ∧
    (Decoder.initializeWith e.data e.index e.bitCount).readAll (fields.map Prod.snd) = fields.map Prod.fst

instance (wide : Nat → Nat) (data : Memory) (size : Nat) (fields : List (Nat × Nat)) :
    Decidable (RoundTrips wide data size fields) := inferInstanceAs (Decidable (_ ∧ _))

@[simp] theorem finalize_overflow (e : Encoder) : e.finalize.overflow = e.overflow := by
  rw [Encoder.finalize]
  simp only [assert_overflow]
  split
  · rfl
  · exact assert_overflow e _

/-- The numbers that are read are the ones that came out of the accumulator. -/
theorem readAll_writeAll (wide : Nat → Nat) (data : Memory) {size : Nat} (hvalid : Valid fields)
    (hroom : Bits.width fields ≤ size * 8 % 2 ^ 32) :
    let e := ((Encoder.initializeWith data size).writeAll wide fields).finalize
    e.overflow = false ∧
      (Decoder.initializeWith e.data e.index e.bitCount).readAll (fields.map Prod.snd) =
        (stored 0 fields).map Prod.fst := by
  have hlt : Bits.width fields < 2 ^ 32 := Nat.lt_of_le_of_lt hroom (Nat.mod_lt _ (by decide))
  obtain ⟨hholds, hcount⟩ := @Encoder.Holds.writeAll wide _ _ _ (holds_initializeWith data size) hvalid
    (by rw [initializeWith]; simpa using hroom)
  have hzero : (Encoder.initializeWith data size).bitCount = 0 := rfl
  rw [hzero, Nat.pow_zero, Nat.one_mul, Nat.zero_add] at hholds
  rw [hzero, Nat.zero_add] at hcount
  obtain ⟨hover, hdata⟩ := hholds.finalize
  rw [hcount] at hdata
  refine ⟨hover, ?_⟩
  have hwidths : ∀ n ∈ fields.map Prod.snd, n ≤ 32 := by
    intro n hn
    obtain ⟨f, hf, rfl⟩ := List.mem_map.mp hn
    exact (hvalid f hf).2.1
  generalize hd : Decoder.initializeWith _ _ _ = d
  have hreads : d.Reads (Bits.pack (stored 0 fields)) (Bits.width fields) := by
    rw [← hd]
    exact hdata
  have hindex : d.bitIndex = 0 := by rw [← hd, Decoder.initializeWith]
  rw [Decoder.readAll_eq hreads hwidths (by rw [hindex, Nat.zero_add]; exact Nat.le_refl _) hlt, hindex,
    Nat.pow_zero, Nat.div_one, ← stored_widths 0 fields]
  exact Bits.unpack_pack (stored_lt hvalid 0)

/-- The numbers are found again if and only if the encoder has room for them by its own count and no
number is shifted beyond its accumulator. The decoder takes the number of bits as a 32-bit number. -/
theorem readAll_writeAll_iff (wide : Nat → Nat) (data : Memory) (size : Nat) (hvalid : Valid fields)
    (hbits : Bits.width fields < 2 ^ 32) :
    RoundTrips wide data size fields ↔ Bits.width fields ≤ size * 8 % 2 ^ 32 ∧ Kept 0 fields := by
  by_cases hroom : Bits.width fields ≤ size * 8 % 2 ^ 32
  · obtain ⟨hover, hread⟩ := readAll_writeAll wide data hvalid hroom
    rw [RoundTrips, hread, stored_values_iff]
    exact ⟨fun h => ⟨hroom, h.2⟩, fun h => ⟨hover, h.2⟩⟩
  · constructor
    · intro h
      have hfull := @Encoder.Holds.writeAll_overflow wide _ _ _ (holds_initializeWith data size) hvalid
        (by rw [initializeWith, Nat.zero_add]; exact hbits)
        (by rw [initializeWith, Nat.zero_add]; exact Nat.lt_of_not_le hroom) (Nat.zero_le _)
      have hno := h.1
      rw [finalize_overflow, hfull] at hno
      cases hno
    · intro h
      exact absurd h.1 hroom

theorem readAll_writeAll_sample :
    RoundTrips (fun _ => 0) (fun _ => 0) 6 [(5, 3), (0x1fffffff, 32), (1000, 13)] := by
  have hvalid : Valid [(5, 3), (0x1fffffff, 32), (1000, 13)] := by
    intro f hf
    simp only [List.mem_cons, List.not_mem_nil, or_false] at hf
    obtain rfl | rfl | rfl := hf <;> decide
  refine (readAll_writeAll_iff _ _ 6 hvalid (by decide)).mpr ⟨by decide, ?_⟩
  exact ⟨by decide, by decide, by decide, trivial⟩

/-- A number of 32 bits behind a single bit: it is cut to 31. -/
theorem readAll_writeAll_cut :
    Valid [(0, 1), (0xffffffff, 32)] ∧ Bits.width [(0, 1), (0xffffffff, 32)] ≤ 8 * 5 ∧
      ¬ RoundTrips (fun _ => 0) (fun _ => 0) 5 [(0, 1), (0xffffffff, 32)] := by
  refine ⟨?_, by decide, by decide +kernel⟩
  intro f hf
  simp only [List.mem_cons, List.not_mem_nil, or_false] at hf
  obtain rfl | rfl := hf <;> decide

end Bit
end Firefly
