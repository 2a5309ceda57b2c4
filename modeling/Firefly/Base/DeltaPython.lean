import Firefly.Base.Delta

/-!
# Firefly.Base.DeltaPython

The decoder of `api/python/delta.py`, which has numbers without a bound and raises an exception where
`fd_bit.c` has an assertion. It reads what `fd_bit_decoder_read` reads (`BitDecoder.read_follows`). Arrays of
16-bit fields come back on both sides, unless the buffer of the encoder is so large that its size in bits is
counted in 32 bits (`roundTrips_iff`).
-/

namespace Firefly
namespace Delta

open Bit

/-! ## The decoder of delta.py -/

structure BitDecoder where
  data : List UInt8
  bitCount : Nat
  bitIndex : Nat

namespace BitDecoder

/-- The loop of `read`; no result where it raises an exception. -/
def extract (bitCount : Nat) : Nat → BitDecoder → Nat → Nat → Nat → Option (Nat × BitDecoder)
  | 0, d, _, _, value => some (value, d)
  | fuel + 1, d, extracted, mask, value =>
    if extracted < bitCount then
      let index := d.bitIndex / 8
      if index ≥ d.data.length then none
      else
        let byte := (d.data.getD index 0).toNat
        let byteBitIndex := d.bitIndex % 8
        let byteBitCount := min (8 - byteBitIndex) (bitCount - extracted)
        extract bitCount fuel { d with bitIndex := d.bitIndex + byteBitCount } (extracted + byteBitCount)
          (mask >>> byteBitCount) (value ||| ((mask &&& (byte >>> byteBitIndex)) <<< extracted))
    else some (value, d)

/-- `read`. The mask cannot be shifted by a negative number. -/
def read (d : BitDecoder) (bitCount : Nat) : Option (Nat × BitDecoder) :=
  if d.bitIndex + bitCount > d.bitCount ∨ bitCount > 32 then none
  else extract bitCount bitCount d 0 (0xffffffff >>> (32 - bitCount)) 0

end BitDecoder

namespace Python

/-- `Delta.zigzag_decode`. -/
def zigzagDecode (value : Nat) : Int :=
  if value &&& 1 ≠ 0 then (-(value : Int)) >>> (1 : Nat) else (value : Int) >>> (1 : Nat)

/-- The second loop of `Delta.decode`. -/
def decodeDeltas (deltaResolution : Nat) : Nat → BitDecoder → Int → List Int → Option (List Int)
  | 0, _, _, values => some values
  | k + 1, d, previousValue, values =>
    (d.read deltaResolution).bind fun (encodedDelta, d) =>
      let value := previousValue + zigzagDecode encodedDelta
      decodeDeltas deltaResolution k d value (values ++ [value])

/-- `Delta.decode`. -/
def decode (d : BitDecoder) (valueResolution count deltaResolution : Nat) : Option (List Int) :=
  (d.read valueResolution).bind fun (encodedValue, d) =>
    let previousValue := zigzagDecode encodedValue
    if deltaResolution = 0 then some ([previousValue] ++ List.replicate (count - 1) previousValue)
    else decodeDeltas deltaResolution (count - 1) d previousValue [previousValue]

end Python

/-! ## Both decoders -/

namespace BitDecoder

variable {b : BitDecoder} {d : Decoder} {n : Nat}

/-- The same bytes, and the same place in them. -/
structure Follows (b : BitDecoder) (d : Decoder) : Prop where
  data : b.data = d.data.read 0 d.size
  bitCount : b.bitCount = d.bitCount
  bitIndex : b.bitIndex = d.bitIndex

/-- What is masked out fits above what has been extracted, so nothing is lost in 32 bits. -/
theorem shiftLeft_mod {mask x extracted : Nat} (hx : extracted ≤ n) (hn : n ≤ 32)
    (hmask : mask < 2 ^ (n - extracted)) :
    ((mask &&& x) <<< extracted) % 2 ^ 32 = (mask &&& x) <<< extracted := by
  have hlt : mask &&& x < 2 ^ (n - extracted) := Nat.lt_of_le_of_lt Nat.and_le_left hmask
  apply Nat.mod_eq_of_lt
  rw [Nat.shiftLeft_eq]
  calc (mask &&& x) * 2 ^ extracted < 2 ^ (n - extracted) * 2 ^ extracted :=
        Nat.mul_lt_mul_of_pos_right hlt (Nat.two_pow_pos extracted)
    _ = 2 ^ n := by rw [← Nat.pow_add, Nat.sub_add_cancel hx]
    _ ≤ 2 ^ 32 := Nat.pow_le_pow_right (by decide) hn

theorem extract_follows {fuel extracted mask value : Nat} (h : b.Follows d) (hn : n ≤ 32) (hx : extracted ≤ n)
    (hmask : mask < 2 ^ (n - extracted)) (hfits : d.bitIndex + (n - extracted) ≤ d.bitCount)
    (hsize : d.bitCount ≤ 8 * d.size) (hlt : d.bitCount < 2 ^ 32) :
    ∃ b', extract n fuel b extracted mask value = some ((Decoder.extract n fuel d extracted mask value).1, b') ∧
      b'.Follows (Decoder.extract n fuel d extracted mask value).2 := by
  induction fuel generalizing b d extracted mask value with
  | zero => exact ⟨b, rfl, h⟩
  | succ fuel ih =>
    rw [extract, Decoder.extract]
    by_cases hmore : extracted < n
    · have hindex : d.bitIndex / 8 < d.size := by omega
      have hlength : ¬ b.bitIndex / 8 ≥ b.data.length := by
        rw [h.data, Memory.length_read, h.bitIndex]
        exact Nat.not_le.mpr hindex
      have hbyte : b.data.getD (b.bitIndex / 8) 0 = d.data (d.bitIndex / 8) := by
        rw [h.data, h.bitIndex, List.getD_eq_getElem?_getD, Memory.getElem?_read, if_pos hindex, Nat.zero_add]
        rfl
      have hwrap : (d.bitIndex + min (8 - d.bitIndex % 8) (n - extracted)) % 2 ^ 32 =
          d.bitIndex + min (8 - d.bitIndex % 8) (n - extracted) := Nat.mod_eq_of_lt (by omega)
      rw [if_pos hmore, if_pos hmore]
      simp only
      rw [if_neg hlength, hbyte, h.bitIndex, Decoder.assert_eq_self d (decide_eq_true hindex),
        shiftLeft_mod hx hn hmask, hwrap]
      generalize hy : min (8 - d.bitIndex % 8) (n - extracted) = y
      have hnext : Follows { b with bitIndex := d.bitIndex + y } { d with bitIndex := d.bitIndex + y } :=
        ⟨h.data, h.bitCount, rfl⟩
      have hrest : mask >>> y < 2 ^ (n - (extracted + y)) := by
        have hsplit : 2 ^ (n - extracted) = 2 ^ (n - (extracted + y)) * 2 ^ y := by
          rw [← Nat.pow_add]
          congr 1
          omega
        rw [Nat.shiftRight_eq_div_pow, Nat.div_lt_iff_lt_mul (Nat.two_pow_pos y), ← hsplit]
        exact hmask
      exact ih hnext (by omega) hrest (by simp only; omega) hsize hlt
    · rw [if_neg hmore, if_neg hmore]
      exact ⟨b, rfl, h⟩

/-- One decoder reads the number that the other one reads. -/
theorem read_follows (h : b.Follows d) (hn : n ≤ 32) (hfits : d.bitIndex + n ≤ d.bitCount)
    (hsize : d.bitCount ≤ 8 * d.size) (hlt : d.bitCount < 2 ^ 32) :
    ∃ b', b.read n = some ((d.read n).1, b') ∧ b'.Follows (d.read n).2 := by
  have hguard : ¬ (b.bitIndex + n > b.bitCount ∨ n > 32) := by
    rw [h.bitIndex, h.bitCount]
    omega
  have hmask : 0xffffffff >>> (32 - n) < 2 ^ (n - 0) := by
    have hpow : 2 ^ 32 = 2 ^ n * 2 ^ (32 - n) := by rw [← Nat.pow_add, Nat.add_sub_cancel' hn]
    rw [Nat.sub_zero, Nat.shiftRight_eq_div_pow, Nat.div_lt_iff_lt_mul (Nat.two_pow_pos _), ← hpow]
    decide
  have hmod : (d.bitIndex + n) % 2 ^ 32 ≤ d.bitCount := Nat.le_trans (Nat.mod_le _ _) hfits
  rw [read, if_neg hguard, Decoder.read, Decoder.assert_eq_self d (decide_eq_true hmod)]
  exact extract_follows h hn (Nat.zero_le n) hmask hfits hsize hlt

theorem Follows.read {v : Nat} {fields : List (Nat × Nat)} (h : b.Follows d) (hd : d.Offers ((v, n) :: fields)) :
    ∃ b', b.read n = some (v, b') ∧ b'.Follows (d.read n).2 := by
  have hvalue := hd.read.1
  obtain ⟨s, hsupplies, hn, hfits, -⟩ := hd
  rw [Bits.width_cons] at hfits
  obtain ⟨b', hread, hfollows⟩ :=
    read_follows h (hn _ List.mem_cons_self) (by omega) hsupplies.size hsupplies.lt
  rw [hvalue] at hread
  exact ⟨b', hread, hfollows⟩

end BitDecoder

namespace Python

variable {b : BitDecoder} {d : Decoder} {n : Nat} {m : Memory} {a : Array} {is : List UInt32}

theorem zigzagDecode_eq (x : Nat) : zigzagDecode x = Equiv.intEquivNat.symm x := by
  have hbit : x &&& 1 = x % 2 := Nat.and_one_is_mod x
  rw [Equiv.eq_symm_apply, Varint.intEquivNat_eq]
  by_cases h : x % 2 = 1
  · have hodd : zigzagDecode x = -(x : Int) / 2 ^ 1 := by
      rw [zigzagDecode, hbit, if_pos (by omega), Int.shiftRight_eq_div_pow]
      rfl
    rw [hodd]
    split <;> omega
  · have heven : zigzagDecode x = (x : Int) / 2 ^ 1 := by
      rw [zigzagDecode, hbit, if_neg (by omega), Int.shiftRight_eq_div_pow]
      rfl
    rw [heven]
    split <;> omega

theorem zigzagDecode_zigzagEncode (value : Int32) : zigzagDecode (zigzagEncode value).toNat = value.toInt := by
  rw [zigzagDecode_eq, toNat_zigzagEncode, Equiv.symm_apply_apply]

theorem decodeDeltas_eq (h : a.fieldSize = 2) (i : UInt32) (hb : b.Follows d)
    (hd : d.Offers (deltas n (getValue m a i).1 (values m a is))) (vs : List Int) :
    decodeDeltas n is.length b (getValue m a i).1.toInt vs = some (vs ++ (values m a is).map Int32.toInt) := by
  induction is generalizing b d i vs with
  | nil => rw [values, List.map_nil, List.map_nil, List.append_nil, List.length_nil, decodeDeltas]
  | cons j is ih =>
    obtain ⟨b', hread, hfollows⟩ := hb.read hd
    have hvalue : (getValue m a i).1.toInt + ((getValue m a j).1 - (getValue m a i).1).toInt =
        (getValue m a j).1.toInt := by
      rw [toInt_sub_getValue h]
      omega
    rw [List.length_cons, decodeDeltas, hread, Option.bind_some]
    simp only
    rw [zigzagDecode_zigzagEncode, hvalue, ih j hfollows hd.read.2.1]
    simp [values]

/-- `Delta.decode` returns the numbers of the array. -/
theorem decode_eq (h : a.fieldSize = 2) {p : Parameters} (hp : p.deltaResolution = getDeltaResolution m a)
    (hb : b.Follows d) (hd : d.Offers (fields m a p)) :
    decode b p.valueResolution a.count.toNat p.deltaResolution =
      some ((values m a (0 :: a.rest)).map Int32.toInt) := by
  obtain ⟨b', hread, hfollows⟩ := hb.read hd
  have hrest := hd.read.2.1
  have hfit := ((maxResolution_le_iff (m := m) (a := a) 0 p.deltaResolution).mp (Nat.le_of_eq hp.symm)).2
  have hlength : a.rest.length = a.count.toNat - 1 := by
    rw [Array.rest, List.length_map, List.length_range']
  rw [decode, hread, Option.bind_some]
  simp only
  rw [zigzagDecode_zigzagEncode, ← hlength]
  by_cases hzero : p.deltaResolution = 0
  · rw [hzero] at hfit
    have hsame := values_eq_of_deltas_lt hfit
    have hrep : (values m a a.rest).map Int32.toInt =
        List.replicate a.rest.length (getValue m a 0).1.toInt := by
      apply List.eq_replicate_iff.mpr
      refine ⟨by simp [values], ?_⟩
      intro x hx
      simp only [values, List.map_map, List.mem_map, Function.comp_apply] at hx
      obtain ⟨i, hi, rfl⟩ := hx
      rw [hsame i hi]
    rw [if_pos hzero, ← hrep]
    rfl
  · rw [if_neg hzero] at hrest ⊢
    exact decodeDeltas_eq h 0 hfollows hrest _

end Python

/-! ## Round trip -/

/-- The parameters go with an array of fields of 16 bits. -/
structure Suits (m : Memory) (a : Array) (p : Parameters) : Prop where
  nonempty : 0 < a.count
  fieldSize : a.fieldSize = 2
  value : max 1 (getResolution (zigzagEncode (getValue m a 0).1)) ≤ p.valueResolution
  valueMax : p.valueResolution ≤ 25
  delta : p.deltaResolution = getDeltaResolution m a

/-- The encoder behind `fd_delta_encode` and `fd_bit_encoder_finalize`. -/
def finalized (wide : Nat → Nat) (m : Memory) (a : Array) (p : Parameters) (data : Memory) (size : UInt32) : Encoder :=
  (encode wide (Encoder.initializeWith data size.toNat) m a p).2.finalize

/-- `fd_bit_decoder_initialize` on what an encoder has finalized, and `BitDecoder` on its bytes. -/
def decoder (e : Encoder) : Decoder := Decoder.initializeWith e.data e.index e.bitCount

def bitDecoder (e : Encoder) : BitDecoder := ⟨e.data.read 0 e.index, e.bitCount, 0⟩

/-- The numbers go through the encoder and either decoder, and no assertion fails. -/
structure RoundTrips (wide : Nat → Nat) (m : Memory) (a : Array) (p : Parameters) (data : Memory) (size : UInt32) :
    Prop where
  returned : (encode wide (Encoder.initializeWith data size.toNat) m a p).1 = true
  encoded : (finalized wide m a p data size).assertCount = 0
  decoded : ∀ m', (decode (decoder (finalized wide m a p data size)) m' a p).1.assertCount = 0
  values : ∀ m' i, i < a.count →
    getValue (decode (decoder (finalized wide m a p data size)) m' a p).2 a i = getValue m a i
  apart : ∀ m' x, (∀ i < a.count, x < a.field i ∨ a.field i + 2 ≤ x) →
    (decode (decoder (finalized wide m a p data size)) m' a p).2 x = m' x
  python : Python.decode (bitDecoder (finalized wide m a p data size)) p.valueResolution a.count.toNat
    p.deltaResolution = some ((List.range a.count.toNat).map fun i => (getValue m a (UInt32.ofNat i)).1.toInt)

variable {m : Memory} {a : Array} {p : Parameters} {size : UInt32}

theorem Suits.fields_valid (h : Suits m a p) :
    ∀ f ∈ fields m a p, 1 ≤ f.2 ∧ f.2 ≤ 25 ∧ f.1 < 2 ^ f.2 := by
  have hvalue := h.value
  have hmax := h.valueMax
  have hfit := ((maxResolution_le_iff (m := m) (a := a) 0 p.deltaResolution).mp (Nat.le_of_eq h.delta.symm)).2
  have hdelta : p.deltaResolution ≤ 17 := by
    rw [h.delta]
    exact getDeltaResolution_le h.fieldSize m
  rw [fields, List.forall_mem_cons]
  refine ⟨⟨by omega, hmax, (getResolution_le_iff _ _).mp (by omega)⟩, ?_⟩
  by_cases hzero : p.deltaResolution = 0
  · rw [if_pos hzero]
    exact fun f hf => absurd hf List.not_mem_nil
  · rw [if_neg hzero]
    intro f hf
    have hwidth : f.2 = p.deltaResolution := by
      have hmem : f.2 ∈ (deltas p.deltaResolution (getValue m a 0).1 (Delta.values m a a.rest)).map Prod.snd :=
        List.mem_map_of_mem hf
      rw [deltas_widths] at hmem
      exact List.eq_of_mem_replicate hmem
    rw [hwidth]
    exact ⟨by omega, by omega, hfit f hf⟩

/-- The numbers come back if and only if there is room for them in the size of the buffer as
`fd_bit_encoder_write` computes it. -/
theorem roundTrips_iff (wide : Nat → Nat) (data : Memory) (h : Suits m a p)
    (hbuffer : p.valueResolution + (a.count.toNat - 1) * p.deltaResolution ≤ 8 * size.toNat) :
    RoundTrips wide m a p data size ↔
      p.valueResolution + (a.count.toNat - 1) * p.deltaResolution ≤ size.toNat * 8 % 2 ^ 32 := by
  have hencode := encode_eq wide (Encoder.initializeWith data size.toNat) h.fieldSize h.delta
  have hvalid := h.fields_valid
  rw [← width_fields m a p] at hbuffer ⊢
  constructor
  · intro hround
    have hreturned := hround.returned
    have hassert := hround.encoded
    rw [finalized] at hassert
    rw [hencode] at hreturned hassert
    have hlt := size.toNat_lt
    apply room_of_writeAll wide data _ (by omega) _ hassert
    · exact fun f hf => ⟨(hvalid f hf).1, by have := (hvalid f hf).2.1; omega, (hvalid f hf).2.2⟩
    · simpa using hreturned
  · intro hroom
    obtain ⟨hover, hassert, hoffers⟩ := offers_writeAll wide data hvalid hroom
    rw [finalize_overflow] at hover
    have hfinalized : finalized wide m a p data size =
        ((Encoder.initializeWith data size.toNat).writeAll wide (fields m a p)).finalize := by
      rw [finalized, hencode]
    have hindices := a.indices_eq h.nonempty
    rw [← hfinalized] at hassert hoffers
    refine ⟨?_, hassert, ?_, ?_, ?_, ?_⟩
    · rw [hencode, hover]
      rfl
    · intro m'
      exact (decode_eq h.fieldSize h.delta hoffers m').1
    · intro m' i hi
      apply getValue_congr h.fieldSize
      rw [decoder, (decode_eq h.fieldSize h.delta hoffers _).2]
      exact Memory.read_restore (List.mem_map_of_mem (a.mem_indices hi))
    · intro m' x hout
      rw [decoder, (decode_eq h.fieldSize h.delta hoffers _).2]
      apply Memory.restore_of_outside
      intro address haddress
      obtain ⟨i, hi, rfl⟩ := List.mem_map.mp haddress
      exact hout i (a.lt_of_mem_indices h.nonempty hi)
    · have hfollows : (bitDecoder (finalized wide m a p data size)).Follows
          (decoder (finalized wide m a p data size)) := ⟨rfl, rfl, rfl⟩
      rw [Python.decode_eq h.fieldSize h.delta hfollows hoffers, hindices, Delta.values, List.map_map, List.map_map]
      rfl

/-- The numbers 5, -3 and 100 behind a half word each. -/
def sampleMemory : Memory := fun x =>
  if x = 2 then 5 else if x = 6 then 0xfd else if x = 7 then 0xff else if x = 10 then 100 else 0

def sampleArray : Array := ⟨0, 3, 4, 2, 2⟩

theorem sample_suits : Suits sampleMemory sampleArray ⟨16, 8⟩ := by
  refine ⟨by decide, rfl, by decide, by decide, by decide +kernel⟩

theorem roundTrips_sample : RoundTrips (fun _ => 0) sampleMemory sampleArray ⟨16, 8⟩ (fun _ => 0) 4 :=
  (roundTrips_iff (fun _ => 0) (fun _ => 0) sample_suits (by decide)).mpr (by decide)

/-- A buffer of half a gigabyte has no bits as `fd_bit_encoder_write` counts them. -/
theorem not_roundTrips_sample :
    Suits sampleMemory sampleArray ⟨16, 8⟩ ∧
      16 + (sampleArray.count.toNat - 1) * 8 ≤ 8 * (0x20000000 : UInt32).toNat ∧
      ¬ RoundTrips (fun _ => 0) sampleMemory sampleArray ⟨16, 8⟩ (fun _ => 0) 0x20000000 := by
  refine ⟨sample_suits, by decide, ?_⟩
  intro h
  have hreturned : (encode (fun _ => 0) (Encoder.initializeWith (fun _ => 0) (0x20000000 : UInt32).toNat)
      sampleMemory sampleArray ⟨16, 8⟩).1 = false := by decide +kernel
  rw [h.returned] at hreturned
  cases hreturned

end Delta
end Firefly
