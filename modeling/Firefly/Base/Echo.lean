import Firefly.Base.Overlap

/-!
# Firefly.Base.Echo

The encoder of `fd_cobs.c` on a string of any length. Behind enough full blocks it writes over bytes
that are still to be taken, and takes what it wrote. `echo` is the string as it is read then: each byte
is the one of the memory, unless the encoding of the bytes in front of the queue has got there. What the
encoder leaves is the encoding of that string (`encode_echo`).

`writes` are the addresses that it writes to. They are those of the encoding, down to the last
(`writes_iff`), and the size of the memory has no part in it.
-/

namespace Firefly
namespace InPlace

open Cobs (fullLength parts push block)

/-- The memory with the blocks that are closed, and the run of the open one, in its place behind the code
that is to come. -/
def drawn (data : Memory) (p : List UInt8 × List UInt8) : Memory :=
  (data.write 0 p.1).write (p.1.length + 1) p.2

/-- The first `n` bytes of the string as they are read, with `ahead` bytes in the queue. -/
def echo (data : Memory) (ahead : Nat) : Nat → List UInt8
  | 0 => []
  | n + 1 => echo data ahead n ++ [drawn data (parts ((echo data ahead n).take (n - ahead))) n]

namespace Encoder

/-- The addresses written to by the passes that remain, and by the last code. -/
def addresses (length : Nat) : Nat → Encoder → List Nat
  | 0, e => [e.codePointer]
  | remaining + 1, e =>
    match e.take length with
    | none => []
    | some (byte, e) => e.targets byte ++ addresses length remaining ((e.copy byte).close length byte)

end Encoder

/-- The addresses that `fd_cobs_encode` writes to. -/
def writes (data : Memory) (length : Nat) (buffer : Memory) (bufferSize : Nat) : List Nat :=
  match fill data (min length (bufferSize - 1)) 0 (Fifo.initializeWith buffer bufferSize) with
  | none => []
  | some fifo =>
    Encoder.addresses length length (Encoder.start data fifo (min length (bufferSize - 1)))

/-! ## The string as it is read -/

variable {data : Memory} {ahead n i : Nat}

@[simp] theorem length_echo (data : Memory) (ahead n : Nat) : (echo data ahead n).length = n := by
  induction n with
  | zero => rfl
  | succ n ih => rw [echo, List.length_append, ih, List.length_singleton]

theorem take_echo (h : i ≤ n) : (echo data ahead n).take i = echo data ahead i := by
  induction n with
  | zero => rw [Nat.le_zero.mp h, List.take_zero, echo]
  | succ n ih =>
    cases Nat.lt_or_eq_of_le h with
    | inl hlt =>
      rw [echo, List.take_append_of_le_length (by rw [length_echo]; omega), ih (Nat.le_of_lt_succ hlt)]
    | inr heq => rw [heq, List.take_of_length_le (by rw [length_echo])]

/-- The queue after a byte has been put. -/
theorem drop_echo_succ (h : i ≤ n) : (echo data ahead (n + 1)).drop i = (echo data ahead n).drop i ++
    [drawn data (parts (echo data ahead (n - ahead))) n] := by
  rw [echo, List.drop_append_of_le_length (by rwa [length_echo]), take_echo (Nat.sub_le n ahead)]

/-- The byte that comes next is the first in the queue. -/
theorem drop_echo (h : i < n) : (echo data ahead n).drop i =
    drawn data (parts (echo data ahead (i - ahead))) i :: (echo data ahead n).drop (i + 1) := by
  have htake : (echo data ahead n).take (i + 1) = echo data ahead i ++
      [drawn data (parts (echo data ahead (i - ahead))) i] := by
    rw [take_echo h, echo, take_echo (Nat.sub_le i ahead)]
  have hsplit := List.take_append_drop (i + 1) (echo data ahead n)
  rw [htake] at hsplit
  conv_lhs => rw [← hsplit]
  rw [List.append_assoc, List.drop_left' (length_echo data ahead i), List.singleton_append]

theorem drawn_of_outside {p : List UInt8 × List UInt8} {x : Nat} (h : p.1.length + 1 + p.2.length ≤ x) :
    drawn data p x = data x := by
  rw [drawn, Memory.write_of_outside (by omega), Memory.write_of_outside (by omega)]

/-- The string is read as it is while its full blocks, and so its bytes, are not too many. -/
theorem echo_eq (h : n ≤ (fullLength + 1) * ahead) : echo data ahead n = data.read 0 n := by
  induction n with
  | zero => rfl
  | succ n ih =>
    have hread : data.read 0 (n + 1) = data.read 0 n ++ [data n] := by
      rw [Memory.read_add, Nat.zero_add, Memory.read_one]
    have hstays : drawn data (parts ((echo data ahead n).take (n - ahead))) n = data n := by
      by_cases hqueued : n < ahead
      · rw [Nat.sub_eq_zero_of_le (Nat.le_of_lt hqueued), List.take_zero]
        by_cases hfirst : n = 0
        · subst hfirst
          rfl
        · refine drawn_of_outside ?_
          simp only [parts, List.foldl_nil, List.length_nil]
          omega
      · obtain ⟨-, k, hk, hle⟩ := Cobs.length_parts ((echo data ahead n).take (n - ahead))
        have hlength : ((echo data ahead n).take (n - ahead)).length = n - ahead := by
          rw [List.length_take, length_echo]
          omega
        have hlt : fullLength * k < fullLength * ahead := by
          rw [Nat.add_mul, Nat.one_mul] at h
          omega
        have hgain : k < ahead := Nat.lt_of_mul_lt_mul_left hlt
        exact drawn_of_outside (by omega)
    rw [echo, hstays, ih (by omega), hread]

/-! ## The encoder -/

theorem drawn_nil (data : Memory) (closed : List UInt8) : drawn data (closed, []) = data.write 0 closed :=
  Memory.write_nil _ _

theorem drawn_snoc (data : Memory) (closed run : List UInt8) (b : UInt8) :
    (drawn data (closed, run)).write (closed.length + 1 + run.length) [b] =
      drawn data (closed, run ++ [b]) :=
  Memory.write_write _ _ _ _

/-- The code of the open block is written, and so the block is closed. -/
theorem drawn_close (data : Memory) (p : List UInt8 × List UInt8) :
    (drawn data p).write p.1.length [UInt8.ofNat (p.2.length + 1)] = data.write 0 (p.1 ++ block p.2) := by
  have hfront := Memory.write_front (data.write 0 p.1) p.1.length [UInt8.ofNat (p.2.length + 1)] p.2
  have hblock := Memory.write_write data 0 p.1 (block p.2)
  rw [Nat.zero_add] at hblock
  exact hfront.trans hblock

namespace Encoder

/-- The encoder has written `p`. -/
structure Drawn (data : Memory) (p : List UInt8 × List UInt8) (e : Encoder) : Prop where
  data : e.data = drawn data p
  codePointer : e.codePointer = p.1.length
  dst : e.dst = p.1.length + 1 + p.2.length
  code : e.code = UInt8.ofNat (p.2.length + 1)

/-- The encoder before pass `i`: the queue holds the bytes behind those that were taken. -/
structure Echoing (data : Memory) (ahead n i : Nat) (e : Encoder) : Prop where
  drawn : e.Drawn data (parts (echo data ahead i))
  fifo : e.fifo.Holds ((echo data ahead e.offset).drop i)
  size : e.fifo.size = ahead + 1
  offset : e.offset = min n (i + ahead)

variable {p : List UInt8 × List UInt8} {e : Encoder} {b : UInt8}

theorem Drawn.closed (h : e.Drawn data p) :
    e.data.write e.codePointer [e.code] = data.write 0 (p.1 ++ block p.2) := by
  rw [h.data, h.codePointer, h.code, drawn_close]

/-- What a pass makes of the byte that it took. -/
theorem Drawn.pass (h : e.Drawn data p) (hrun : p.2.length < fullLength) (hne : n ≠ 0) (b : UInt8) :
    ((e.copy b).close n b).Drawn data (push p b) := by
  rw [push]
  by_cases hb : b = 0
  · rw [copy, if_neg (not_not.mpr hb), close, if_pos (Or.inl hb), if_pos (Or.inl hb), if_pos hb]
    refine ⟨?_, ?_, ?_, rfl⟩
    · rw [drawn_nil]
      exact h.closed
    · simp only [h.dst, List.length_append, Cobs.length_block]
      omega
    · simp only [h.dst, List.length_append, Cobs.length_block, List.length_nil]
      omega
  · have hcopy : (e.copy b).Drawn data (p.1, p.2 ++ [b]) := by
      rw [copy, if_pos hb]
      refine ⟨?_, h.codePointer, ?_, ?_⟩
      · rw [← drawn_snoc]
        simp only [h.data, h.dst]
      · simp only [h.dst, List.length_append, List.length_singleton]
        omega
      · simp only [h.code, List.length_append, List.length_singleton]
        exact (UInt8.ofNat_add _ 1).symm
    have hcode : (e.copy b).code = 0xff ↔ p.2.length + 1 = fullLength := by
      have hiff := Cobs.code_eq_max_iff (show (p.2 ++ [b]).length ≤ fullLength by simp; omega)
      rwa [← hcopy.code, List.length_append, List.length_singleton] at hiff
    by_cases hfull : p.2.length + 1 = fullLength
    · rw [close, if_pos (Or.inr (hcode.mpr hfull)), if_pos (Or.inr hne), if_neg hb, if_pos hfull]
      refine ⟨?_, ?_, ?_, rfl⟩
      · rw [drawn_nil]
        exact hcopy.closed
      · simp only [hcopy.dst, List.length_append, Cobs.length_block]
        omega
      · simp only [hcopy.dst, List.length_append, Cobs.length_block, List.length_nil]
        omega
    · have hopen : ¬ (b = 0 ∨ (e.copy b).code = 0xff) := by
        rintro (h0 | hff)
        · exact hb h0
        · exact hfull (hcode.mp hff)
      rw [close, if_neg hopen, if_neg hb, if_neg hfull]
      exact hcopy

/-- A byte is taken, and the next is put. -/
theorem Echoing.take (h : e.Echoing data ahead n i) (hi : i < n) (hahead : 0 < ahead) :
    ∃ b e', e.take n = some (b, e') ∧ echo data ahead (i + 1) = echo data ahead i ++ [b] ∧
      e'.Drawn data (parts (echo data ahead i)) ∧
      e'.fifo.Holds ((echo data ahead e'.offset).drop (i + 1)) ∧ e'.fifo.size = ahead + 1 ∧
      e'.offset = min n (i + 1 + ahead) := by
  have hoffset := h.offset
  have hholds := h.fifo
  rw [drop_echo (show i < e.offset by omega)] at hholds
  obtain ⟨fifo, hget, hfifo, hsize⟩ := hholds.get
  have hdrawn (fifo : Fifo) (offset : Nat) :
      Drawn data (parts (echo data ahead i)) { e with fifo := fifo, offset := offset } :=
    ⟨h.drawn.data, h.drawn.codePointer, h.drawn.dst, h.drawn.code⟩
  have hecho : echo data ahead (i + 1) =
      echo data ahead i ++ [InPlace.drawn data (parts (echo data ahead (i - ahead))) i] := by
    rw [echo, take_echo (Nat.sub_le i ahead)]
  by_cases hmore : e.offset < n
  · have hlength : ((echo data ahead e.offset).drop (i + 1)).length + 1 < fifo.size := by
      rw [List.length_drop, length_echo, hsize, h.size]
      omega
    obtain ⟨fifo', hput, hfifo', hsize'⟩ := hfifo.put hlength (e.data e.offset)
    refine ⟨_, { e with fifo := fifo', offset := e.offset + 1 }, ?_, hecho, hdrawn _ _, ?_,
      hsize'.trans (hsize.trans h.size), ?_⟩
    · simp only [Encoder.take, hget, hput, if_pos hmore, Option.bind_eq_bind, Option.bind_some]
    · have hbehind : e.offset - ahead = i := by omega
      rw [h.drawn.data] at hfifo'
      simp only
      rw [drop_echo_succ (by omega), hbehind]
      exact hfifo'
    · simp only
      omega
  · refine ⟨_, { e with fifo := fifo }, ?_, hecho, hdrawn _ _, hfifo, hsize.trans h.size, ?_⟩
    · simp only [Encoder.take, hget, if_neg hmore, Option.bind_eq_bind, Option.bind_some]
    · simp only
      omega

theorem Echoing.pass (h : e.Echoing data ahead n i) (hi : i < n) (hahead : 0 < ahead) :
    ∃ b e', e.take n = some (b, e') ∧ echo data ahead (i + 1) = echo data ahead i ++ [b] ∧
      e'.Drawn data (parts (echo data ahead i)) ∧
      ((e'.copy b).close n b).Echoing data ahead n (i + 1) := by
  obtain ⟨b, e', htake, hecho, hdrawn, hholds, hsize, hoffset⟩ := h.take hi hahead
  obtain ⟨hrun, -⟩ := Cobs.length_parts (echo data ahead i)
  have hfifo : ((e'.copy b).close n b).fifo = e'.fifo := by
    unfold close copy
    split <;> split <;> rfl
  refine ⟨b, e', htake, hecho, hdrawn, ?_, ?_, ?_, ?_⟩
  · rw [hecho, Cobs.parts_snoc]
    exact hdrawn.pass hrun (by omega) b
  · rwa [hfifo, pass_offset]
  · rwa [hfifo]
  · rwa [pass_offset]

theorem Echoing.loop {k : Nat} (h : e.Echoing data ahead n i) (hk : i + k = n) (hahead : 0 < ahead) :
    ∃ e', Encoder.loop n k e = some e' ∧ e'.Drawn data (parts (echo data ahead n)) := by
  induction k generalizing i e with
  | zero =>
    rw [Nat.add_zero] at hk
    exact ⟨e, rfl, hk ▸ h.drawn⟩
  | succ k ih =>
    obtain ⟨b, e', htake, -, -, hnext⟩ := h.pass (by omega) hahead
    rw [Encoder.loop, htake]
    exact ih hnext (by omega)

/-- The place for what comes next moves on with every byte. -/
theorem length_push (p : List UInt8 × List UInt8) (b : UInt8) :
    (p.1 ++ block p.2).length < ((push p b).1 ++ block (push p b).2).length := by
  rw [push]
  split
  · simp
  · split <;> simp

/-- Everything is written in the place of the encoding. -/
theorem Echoing.addresses_lt {k : Nat} (h : e.Echoing data ahead n i) (hk : i + k = n) (hahead : 0 < ahead) :
    (Cobs.encode (echo data ahead i)).length ≤ (Cobs.encode (echo data ahead n)).length ∧
      ∀ x ∈ addresses n k e, x < (Cobs.encode (echo data ahead n)).length := by
  induction k generalizing i e with
  | zero =>
    rw [Nat.add_zero] at hk
    subst hk
    refine ⟨Nat.le_refl _, ?_⟩
    intro x hx
    rw [List.mem_singleton.mp hx, h.drawn.codePointer, Cobs.encode_eq_parts, List.length_append,
      Cobs.length_block]
    omega
  | succ k ih =>
    obtain ⟨b, e', htake, hecho, hdrawn, hnext⟩ := h.pass (by omega) hahead
    obtain ⟨hle, hrest⟩ := ih hnext (by omega)
    have hlt := length_push (parts (echo data ahead i)) b
    rw [← Cobs.parts_snoc, ← hecho, ← Cobs.encode_eq_parts, ← Cobs.encode_eq_parts] at hlt
    refine ⟨by omega, ?_⟩
    intro x hx
    rw [addresses, htake] at hx
    cases List.mem_append.mp hx with
    | inr hlater => exact hrest x hlater
    | inl hpass =>
      have hdst : x ≤ e'.dst := by
        simp only [targets, List.mem_append] at hpass
        cases hpass with
        | inl hbyte =>
          split at hbyte
          · exact Nat.le_of_eq (List.mem_singleton.mp hbyte)
          · cases hbyte
        | inr hcode =>
          split at hcode
          · rw [List.mem_singleton.mp hcode, hdrawn.codePointer, hdrawn.dst]
            omega
          · cases hcode
      have hplace : e'.dst = (Cobs.encode (echo data ahead i)).length := by
        rw [hdrawn.dst, Cobs.encode_eq_parts, List.length_append, Cobs.length_block]
        omega
      omega

/-- The last byte of the encoding is written: it is the last code, or the byte of the last pass. -/
theorem Echoing.last_mem {k : Nat} (h : e.Echoing data ahead n i) (hk : i + k = n) (hahead : 0 < ahead)
    (hlast : k ≠ 0 ∨ (parts (echo data ahead i)).2 = []) :
    (Cobs.encode (echo data ahead n)).length - 1 ∈ addresses n k e := by
  induction k generalizing i e with
  | zero =>
    rw [Nat.add_zero] at hk
    subst hk
    have hempty := hlast.resolve_left (not_not.mpr rfl)
    rw [addresses, List.mem_singleton, h.drawn.codePointer, Cobs.encode_eq_parts, hempty,
      List.length_append, Cobs.length_block, List.length_nil]
    omega
  | succ k ih =>
    obtain ⟨b, e', htake, hecho, hdrawn, hnext⟩ := h.pass (by omega) hahead
    rw [addresses, htake]
    by_cases hmore : k ≠ 0 ∨ (parts (echo data ahead (i + 1))).2 = []
    · exact List.mem_append_right _ (ih hnext (by omega) hmore)
    · rw [not_or, not_not] at hmore
      obtain ⟨rfl, hrun⟩ := hmore
      rw [Nat.zero_add] at hk
      rw [hecho, Cobs.parts_snoc, push] at hrun
      refine List.mem_append_left _ (List.mem_append_left _ ?_)
      by_cases hb : b = 0
      · rw [if_pos hb] at hrun
        exact absurd rfl hrun
      · by_cases hfull : (parts (echo data ahead i)).2.length + 1 = fullLength
        · rw [if_neg hb, if_pos hfull] at hrun
          exact absurd rfl hrun
        · rw [if_pos hb, List.mem_singleton, hdrawn.dst, ← hk, hecho, Cobs.encode_eq_parts, Cobs.parts_snoc,
            push, if_neg hb, if_neg hfull]
          simp only [List.length_append, Cobs.length_block, List.length_singleton]
          omega

theorem Echoing.start (data buffer : Memory) (ahead n : Nat) :
    ∃ fifo, fill data (min n ahead) 0 (Fifo.initializeWith buffer (ahead + 1)) = some fifo ∧
      (Encoder.start data fifo (min n ahead)).Echoing data ahead n 0 := by
  have hempty : (Fifo.initializeWith buffer (ahead + 1)).Holds [] :=
    Fifo.holds_initializeWith buffer (Nat.succ_pos ahead)
  have hroom : ([] : List UInt8).length + min n ahead < (Fifo.initializeWith buffer (ahead + 1)).size := by
    simp only [List.length_nil, Fifo.initializeWith]
    omega
  obtain ⟨fifo, hfill, hholds, hsize⟩ := @fill_eq data _ 0 _ _ hempty hroom
  have hecho : echo data ahead (min n ahead) = data.read 0 (min n ahead) := by
    refine echo_eq ?_
    rw [Nat.add_mul, Nat.one_mul]
    omega
  refine ⟨fifo, hfill, ⟨?_, rfl, rfl, rfl⟩, ?_, hsize, by simp [Encoder.start]⟩
  · exact (drawn_nil data []).symm ▸ (Memory.write_nil data 0).symm
  · rw [List.drop_zero, Encoder.start, hecho]
    exact hholds

end Encoder

/-- No assertion of the encoder fails, and it leaves the encoding of the string as it was read. -/
theorem encode_echo (hahead : 0 < ahead) (data buffer : Memory) (n : Nat) :
    encode data n buffer (ahead + 1) = some (data.write 0 (Cobs.encode (echo data ahead n)),
      (Cobs.encode (echo data ahead n)).length) := by
  obtain ⟨fifo, hfill, hstart⟩ := Encoder.Echoing.start data buffer ahead n
  obtain ⟨e, hloop, hdrawn⟩ := hstart.loop (Nat.zero_add n) hahead
  have hdst : e.dst = (Cobs.encode (echo data ahead n)).length := by
    rw [hdrawn.dst, Cobs.encode_eq_parts, List.length_append, Cobs.length_block]
    omega
  rw [encode_of_loop (by rwa [Nat.add_sub_cancel]) (by rwa [Nat.add_sub_cancel]), hdrawn.closed, hdst,
    ← Cobs.encode_eq_parts]

/-- What the encoder writes stays below `size` if and only if the encoding has room there. -/
theorem writes_iff (hahead : 0 < ahead) (data buffer : Memory) (n size : Nat) :
    (∀ x ∈ writes data n buffer (ahead + 1), x < size) ↔
      (Cobs.encode (echo data ahead n)).length ≤ size := by
  obtain ⟨fifo, hfill, hstart⟩ := Encoder.Echoing.start data buffer ahead n
  have hwrites : writes data n buffer (ahead + 1) =
      Encoder.addresses n n (Encoder.start data fifo (min n ahead)) := by
    rw [writes, Nat.add_sub_cancel, hfill]
  have hpos := (Cobs.encodes_encode (echo data ahead n)).length_lt
  rw [hwrites]
  constructor
  · intro h
    have hlast := h _ (hstart.last_mem (Nat.zero_add n) hahead (Or.inr rfl))
    omega
  · intro h x hx
    exact Nat.lt_of_lt_of_le ((hstart.addresses_lt (Nat.zero_add n) hahead).2 x hx) h

end InPlace
end Firefly
