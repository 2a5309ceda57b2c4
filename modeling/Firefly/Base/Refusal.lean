import Firefly.Base.Fields

/-!
# Firefly.Base.Refusal

Fields for which there is no room. They are left out as a whole, except for a string: the first bytes
of its length may still fit. The sum of a check that wraps in 32 bits lets through what does not fit.
-/

namespace Firefly
namespace Binary

open Bytes

variable {b : Binary} {cs : List UInt8}

/-- The overflow error is set, and the buffer and `put_index` are as before. -/
structure Refused (b b' : Binary) : Prop where
  errors : b'.errors &&& errorOverflow ≠ 0
  putIndex : b'.putIndex = b.putIndex
  buffer : b'.buffer = b.buffer

theorem refused_overflow (b : Binary) : Refused b b.overflow := by
  refine ⟨?_, rfl, rfl⟩
  rw [overflow, Nat.and_or_distrib_right]
  intro h0
  exact absurd (Nat.or_eq_zero_iff.mp h0).2 (by decide)

/-- What does not fit is refused unless the sum of the check wraps. -/
theorem putCheck_iff {n : Nat} (hput : b.putIndex ≤ b.size) (hfull : b.size < b.putIndex + n)
    (hn : n < 2 ^ 32) : b.PutCheck n ↔ 2 ^ 32 ≤ b.putIndex + n := by
  have hlt := b.size_lt
  rw [PutCheck]
  constructor
  · intro h
    by_contra hnowrap
    rw [Nat.mod_eq_of_lt (by omega)] at h
    omega
  · intro h
    rw [Nat.mod_eq_sub_mod h, Nat.mod_eq_of_lt (by omega)]
    omega

theorem append_putIndex_ne (hput : b.putIndex ≤ b.size) (hpos : 0 < cs.length)
    (hlt : cs.length < 2 ^ 32) : (b.append cs).putIndex ≠ b.putIndex := by
  have hsize := b.size_lt
  rw [append]
  simp only
  by_cases hwrap : b.putIndex + cs.length < 2 ^ 32
  · rw [Nat.mod_eq_of_lt hwrap]
    omega
  · rw [Nat.mod_eq_sub_mod (Nat.le_of_not_lt hwrap), Nat.mod_eq_of_lt (by omega)]
    omega

theorem append_nil (h : b.putIndex ≤ b.size) : b.append [] = b := by
  have hwrite : b.buffer.write b.putIndex [] = b.buffer := by
    funext x
    exact Memory.write_of_outside (by rw [List.length_nil, Nat.add_zero]; exact Nat.lt_or_ge x _)
  rw [append, hwrite, List.length_nil, Nat.add_zero, mod_eq_of_le_size h]

/-- A field that is checked once, for `n` bytes. -/
theorem refused_ite_iff {n : Nat} (hput : b.putIndex ≤ b.size) (hfull : b.size < b.putIndex + cs.length)
    (hle : cs.length ≤ n) (hn : n < 2 ^ 32) :
    Refused b (if b.PutCheck n then b.append cs else b.overflow) ↔ b.putIndex + n < 2 ^ 32 := by
  have hcheck : b.PutCheck n ↔ 2 ^ 32 ≤ b.putIndex + n := putCheck_iff hput (by omega) hn
  by_cases hwrap : b.PutCheck n
  · rw [if_pos hwrap]
    constructor
    · intro h
      exact absurd h.putIndex (append_putIndex_ne hput (by omega) (by omega))
    · intro h
      exact absurd (hcheck.mp hwrap) (Nat.not_le.mpr h)
  · rw [if_neg hwrap]
    exact ⟨fun _ => Nat.lt_of_not_le (mt hcheck.mpr hwrap), fun _ => refused_overflow b⟩

/-! ### Strings -/

theorem refused_putAll (x : UInt8) (xs : List UInt8) (hfull : ¬ b.PutCheck 1) :
    Refused b (b.putAll ((x :: xs).map fun x => [x])) ∧
      (b.putAll ((x :: xs).map fun x => [x])).size = b.size := by
  have hput : ∀ y, b.putBytes [y] = b.overflow := fun y => if_neg hfull
  induction xs generalizing b x with
  | nil =>
    rw [List.map_singleton, putAll, List.foldl_cons, List.foldl_nil, hput]
    exact ⟨refused_overflow b, rfl⟩
  | cons y ys ih =>
    have hfull' : ¬ b.overflow.PutCheck 1 := hfull
    obtain ⟨hrest, hsize⟩ := ih y hfull' (fun y => if_neg hfull')
    rw [List.map_cons, putAll, List.foldl_cons, hput]
    exact ⟨⟨hrest.errors, hrest.putIndex, hrest.buffer⟩, hsize⟩

/-- Bytes that are not zero leave no zero where none was. -/
theorem buffer_ne_zero_of_putBytes {a : Nat} (h : b.buffer a ≠ 0) (hcs : ∀ x ∈ cs, x ≠ 0) :
    (b.putBytes cs).buffer a ≠ 0 := by
  rw [Binary.putBytes]
  by_cases hcheck : b.PutCheck cs.length
  · rw [if_pos hcheck, append]
    by_cases hin : b.putIndex ≤ a ∧ a < b.putIndex + cs.length
    · obtain ⟨i, rfl⟩ := Nat.exists_eq_add_of_le hin.1
      have hi : i < cs.length := by omega
      simp only
      rw [Memory.write_apply _ _ _ hi, List.getD_eq_getElem _ _ hi]
      exact hcs _ (List.getElem_mem hi)
    · simp only
      rw [Memory.write_of_outside (by omega)]
      exact h
  · rw [if_neg hcheck]
    exact h

theorem buffer_ne_zero_of_putAll {a : Nat} (h : b.buffer a ≠ 0) (hcs : ∀ x ∈ cs, x ≠ 0) :
    (b.putAll (cs.map fun x => [x])).buffer a ≠ 0 := by
  induction cs generalizing b with
  | nil => exact h
  | cons x xs ih =>
    have hput : (b.putBytes [x]).buffer a ≠ 0 :=
      buffer_ne_zero_of_putBytes h (fun y hy => by
        rw [List.mem_singleton.mp hy]
        exact hcs x List.mem_cons_self)
    exact ih hput fun y hy => hcs y (List.mem_cons_of_mem x hy)

theorem buffer_putBytes {x : UInt8} (hcheck : b.PutCheck (x :: cs).length) :
    (b.putBytes (x :: cs)).buffer b.putIndex = x := by
  rw [Binary.putBytes, if_pos hcheck, append]
  simp only
  have hwrite := Memory.write_apply b.buffer b.putIndex (x :: cs) (i := 0) (Nat.succ_pos _)
  rwa [Nat.add_zero] at hwrite

theorem encode_eq_cons (n : Nat) : ∃ x xs, Varint.encode n = x :: xs := by
  have hpos : 0 < (Varint.encode n).length := Varint.length_groups_pos n n
  cases hencode : Varint.encode n with
  | nil =>
    rw [hencode] at hpos
    exact absurd hpos (Nat.lt_irrefl 0)
  | cons x xs => exact ⟨x, xs, rfl⟩

theorem encode_ne_zero {n : Nat} (hpos : 0 < n) : ∀ x ∈ Varint.encode n, x ≠ 0 := by
  have hself : n < 128 ^ (n + 1) :=
    Nat.lt_of_lt_of_le (Nat.lt_pow_self (by decide)) (Nat.pow_le_pow_right (by decide) (Nat.le_succ n))
  exact Varint.groups_ne_zero hself hpos

/-- Nothing of a string is put into a full buffer. -/
theorem refused_putString {s : List UInt8} (hput : b.putIndex = b.size)
    (hlt : b.putIndex + max 1 s.length < 2 ^ 32) : Refused b (b.putString s) := by
  obtain ⟨x, xs, hencode⟩ := encode_eq_cons s.length
  have hfull : ¬ b.PutCheck 1 := by
    rw [putCheck_iff (Nat.le_of_eq hput) (by omega) (by decide)]
    omega
  obtain ⟨hlength, hsize⟩ := refused_putAll x xs hfull
  rw [← hencode, ← putVaruint_eq (length_lt_pow (by omega))] at hlength hsize
  have hindex := hlength.putIndex
  rw [putString]
  cases s with
  | nil =>
    have hle : (b.putVaruint ([] : List UInt8).length).putIndex ≤
        (b.putVaruint ([] : List UInt8).length).size := by
      rw [hindex, hsize]
      exact Nat.le_of_eq hput
    rw [Binary.putBytes, if_pos (putCheck_of_le hle), append_nil hle]
    exact hlength
  | cons y ys =>
    have hcheck : ¬ (b.putVaruint (y :: ys).length).PutCheck (y :: ys).length := by
      have hpos : 0 < (y :: ys).length := Nat.succ_pos _
      rw [putCheck_iff (by omega) (by omega) (by omega), hindex]
      omega
    rw [Binary.putBytes, if_neg hcheck]
    have hrefused := refused_overflow (b.putVaruint (y :: ys).length)
    exact ⟨hrefused.errors, hindex, hlength.buffer⟩

/-- In a buffer of zeros a string that is not refused leaves a trace. -/
theorem putString_not_refused {s : List UInt8} (hzero : b.buffer = fun _ => 0)
    (hput : b.putIndex ≤ b.size) (hlt : s.length < 2 ^ 32) (hs : 0 ∉ s)
    (hfull : b.size < b.putIndex + (Varint.encode s.length ++ s).length)
    (hrefused : Refused b (b.putString s)) :
    b.putIndex = b.size ∧ b.putIndex + max 1 s.length < 2 ^ 32 := by
  have hnonzero : ∀ x ∈ s, x ≠ 0 := fun x hx h0 => hs (h0 ▸ hx)
  have hunwritten : ∀ a, (b.putString s).buffer a = 0 := by
    intro a
    rw [hrefused.buffer, hzero]
  have hstring : b.putString s = (b.putAll ((Varint.encode s.length).map fun x => [x])).putBytes s := by
    rw [putString, putVaruint_eq (length_lt_pow hlt)]
  have hsize := b.size_lt
  cases s with
  | nil =>
    have hlength : (Varint.encode ([] : List UInt8).length ++ []).length = 1 := rfl
    rw [hlength] at hfull
    by_cases hcheck : b.PutCheck 1
    · have hput0 : b.putAll ((Varint.encode ([] : List UInt8).length).map fun x => [x]) = b.append [0] :=
        if_pos hcheck
      have hle : (b.append [0]).putIndex ≤ (b.append [0]).size := hcheck
      rw [hstring, hput0, Binary.putBytes, if_pos (putCheck_of_le hle), append_nil hle] at hrefused
      exact absurd hrefused.putIndex (append_putIndex_ne hput Nat.one_pos (by decide))
    · rw [putCheck_iff hput hfull (by decide)] at hcheck
      rw [List.length_nil]
      omega
  | cons y ys =>
    have hpos : 0 < (y :: ys).length := Nat.succ_pos _
    have hgroups := encode_ne_zero hpos
    obtain ⟨x, xs, hencode⟩ := encode_eq_cons (y :: ys).length
    rw [hencode] at hstring hgroups
    have hcheck : ¬ b.PutCheck 1 := by
      intro hcheck
      have hfirst : (b.putBytes [x]).buffer b.putIndex ≠ 0 := by
        rw [buffer_putBytes hcheck]
        exact hgroups x List.mem_cons_self
      have hrest := buffer_ne_zero_of_putAll hfirst fun z hz => hgroups z (List.mem_cons_of_mem x hz)
      have hwritten := buffer_ne_zero_of_putBytes hrest hnonzero
      have hzero' := hunwritten b.putIndex
      rw [hstring] at hzero'
      exact hwritten hzero'
    have hfull' : b.putIndex = b.size := by
      by_contra hne
      exact hcheck (putCheck_of_le (by omega))
    rw [putCheck_iff hput (by omega) (by decide)] at hcheck
    have hcheck' : ¬ b.PutCheck 1 := by
      rw [putCheck_iff hput (by omega) (by decide)]
      exact hcheck
    obtain ⟨hlength, hsize'⟩ := refused_putAll x xs hcheck'
    have hindex := hlength.putIndex
    refine ⟨hfull', ?_⟩
    by_contra hwrap
    have hroom : (b.putAll ((x :: xs).map fun x => [x])).PutCheck (y :: ys).length := by
      rw [putCheck_iff (by omega) (by omega) hlt, hindex]
      omega
    have hwritten := buffer_putBytes hroom
    have hzero' := hunwritten b.putIndex
    rw [hstring, ← hindex, hwritten] at hzero'
    exact hnonzero y List.mem_cons_self hzero'

/-- For a string the buffer must be full already; the sum of a check must not wrap. -/
def Field.Refusable (size putIndex : Nat) : Field → Prop
  | .string s => putIndex = size ∧ putIndex + max 1 s.length < 2 ^ 32
  | f => putIndex + f.room < 2 ^ 32

theorem refused_putField_iff (size : UInt32) {putIndex : Nat} {f : Field} (hvalid : f.Valid)
    (hput : putIndex ≤ size.toNat) (hfull : size.toNat < putIndex + f.encoding.length) :
    (∀ b : Binary, b.size = size.toNat → b.putIndex = putIndex → Refused b (f.put b)) ↔
      f.Refusable size.toNat putIndex := by
  let zeros : Binary := ⟨fun _ => 0, size.toNat, putIndex, 0, 0, size.toNat_lt⟩
  have honce : ∀ (cs : List UInt8) (n : Nat), size.toNat < putIndex + cs.length → cs.length ≤ n →
      n < 2 ^ 32 →
      ((∀ b : Binary, b.size = size.toNat → b.putIndex = putIndex →
        Refused b (if b.PutCheck n then b.append cs else b.overflow)) ↔ putIndex + n < 2 ^ 32) := by
    intro cs n hcs hle hn
    constructor
    · intro h
      exact (refused_ite_iff (b := zeros) hput hcs hle hn).mp (h zeros rfl rfl)
    · rintro h b hsize rfl
      exact (refused_ite_iff (hsize ▸ hput) (hsize ▸ hcs) hle hn).mpr h
  cases f with
  | uint8 value => exact honce [value] 1 hfull (Nat.le_refl 1) (by decide)
  | uint16 value | uint24 value | uint32 value | uint64 value =>
    exact honce _ _ hfull (Nat.le_refl _) (by rw [length_leBytes]; decide)
  | uint48 value => exact honce _ 8 hfull (by rw [length_leBytes]; decide) (by decide)
  | bytes data => exact honce _ _ hfull (Nat.le_refl _) hvalid
  | string s =>
    constructor
    · intro h
      exact putString_not_refused rfl hput hvalid.1 hvalid.2 hfull (h zeros rfl rfl)
    · rintro ⟨hindex, hlt⟩ b hsize rfl
      exact refused_putString (hindex.trans hsize.symm) hlt

/-- Sequences of fields, in two parts: whether they come back from a buffer that they fit, and whether
a field that does not fit is refused whatever the buffer and its flags are. -/
theorem fields_round_trip (size : UInt32) :
    (∀ (buffer : Memory) (fields : List Field), (∀ f ∈ fields, f.Valid) →
      (encodings fields).length ≤ size.toNat →
        (RoundTrip buffer size fields ↔ HaveRoom size.toNat 0 fields ∧
          ∀ s, .string s ∈ fields → s.length ≤ size.toNat - (encodings fields).length)) ∧
      ∀ (putIndex : Nat) (f : Field), f.Valid → putIndex ≤ size.toNat →
        size.toNat < putIndex + f.encoding.length →
          ((∀ b : Binary, b.size = size.toNat → b.putIndex = putIndex → Refused b (f.put b)) ↔
            f.Refusable size.toNat putIndex) :=
  ⟨fun buffer _ hvalid hfit => roundTrip_iff buffer size hvalid hfit,
    fun _ _ hvalid hput hfull => refused_putField_iff size hvalid hput hfull⟩

/-- A 48-bit number in a buffer of six bytes, and a string in one of its own size. -/
theorem fields_not_kept :
    (encodings [.uint48 1]).length ≤ (6 : UInt32).toNat ∧ ¬ RoundTrip (fun _ => 0) 6 [.uint48 1] ∧
      (encodings [.string [0x61, 0x62]]).length ≤ (3 : UInt32).toNat ∧
        ¬ RoundTrip (fun _ => 0) 3 [.string [0x61, 0x62]] := by
  simp only [RoundTrip]
  decide +kernel

/-- Two numbers with a string between them, and room to spare; and a number for which there is none. -/
theorem fields_kept :
    RoundTrip (fun _ => 0) 16 [.uint16 0x0201, .string [0x61, 0x62], .uint48 7] ∧
      ∀ b : Binary, b.size = (3 : UInt32).toNat → b.putIndex = 2 → Refused b ((Field.uint16 1).put b) := by
  have hvalid : ∀ f ∈ [Field.uint16 0x0201, .string [0x61, 0x62], .uint48 7], f.Valid := by
    simp only [List.forall_mem_cons]
    exact ⟨trivial, ⟨by decide, by decide⟩, (by decide : (7 : UInt64).toNat < 2 ^ 48), nofun⟩
  have hstring : ∀ s, .string s ∈ [Field.uint16 0x0201, .string [0x61, 0x62], .uint48 7] →
      s.length ≤ (16 : UInt32).toNat - (encodings [.uint16 0x0201, .string [0x61, 0x62], .uint48 7]).length := by
    intro s hs
    obtain rfl : s = [0x61, 0x62] := by simpa using hs
    decide
  have hrefusable : (Field.uint16 1).Refusable (3 : UInt32).toNat 2 :=
    (by decide : 2 + (Field.uint16 1).room < 2 ^ 32)
  exact ⟨((fields_round_trip 16).1 _ _ hvalid (by decide)).mpr
      ⟨⟨by decide, by decide, by decide, trivial⟩, hstring⟩,
    ((fields_round_trip 3).2 2 (.uint16 1) trivial (by decide) (by decide)).mpr hrefusable⟩

end Binary
end Firefly
