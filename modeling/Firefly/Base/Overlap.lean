import Firefly.Base.Cobs

/-!
# Firefly.Base.Overlap

The encoder of `fd_cobs.c` writes into the memory that it reads from. `targets` are the addresses that
one pass of its loop writes to, and nothing else changes (`pass_outside`). In no pass is one of them the
address of a byte that is still to be taken into the queue, or behind the room of the encoding
(`Writing.spares`). So encoding in place and decoding in place give the string back
(`encode_decode`).
-/

namespace Firefly
namespace InPlace

open Cobs (fullLength)

namespace Encoder

/-- The addresses that a pass writes to once it has taken `byte`: the place of the byte, and that of the
code of a block that ends here. -/
def targets (e : Encoder) (byte : UInt8) : List Nat :=
  (if byte ≠ 0 then [e.dst] else []) ++
    if byte = 0 ∨ (e.copy byte).code = 0xff then [e.codePointer] else []

theorem copy_codePointer (e : Encoder) (byte : UInt8) : (e.copy byte).codePointer = e.codePointer := by
  unfold copy
  split <;> rfl

theorem pass_offset (e : Encoder) (length : Nat) (byte : UInt8) :
    ((e.copy byte).close length byte).offset = e.offset := by
  unfold close copy
  split <;> split <;> rfl

theorem pass_outside {e : Encoder} {byte : UInt8} {x : Nat} (h : x ∉ e.targets byte) (length : Nat) :
    ((e.copy byte).close length byte).data x = e.data x := by
  simp only [targets, List.mem_append, not_or] at h
  obtain ⟨hdst, hcode⟩ := h
  have hcopy : (e.copy byte).data x = e.data x := by
    unfold copy
    by_cases hb : byte ≠ 0
    · rw [if_pos hb, List.mem_singleton] at hdst
      rw [if_pos hb]
      exact Memory.write_of_outside (by simp only [List.length_singleton]; omega)
    · rw [if_neg hb]
  unfold close
  by_cases hend : byte = 0 ∨ (e.copy byte).code = 0xff
  · rw [if_pos hend, List.mem_singleton] at hcode
    rw [if_pos hend, copy_codePointer, ← hcopy]
    exact Memory.write_of_outside (by simp only [List.length_singleton]; omega)
  · rw [if_neg hend, hcopy]

/-- The pass that takes byte `i` of the string gets it as it was in `data`, and writes only to addresses
below `room` whose bytes have been taken, if they are bytes of the string at all. -/
def Spares (data : Memory) (length room i : Nat) (e : Encoder) : Prop :=
  ∃ e', e.take length = some (data i, e') ∧
    ∀ x ∈ e'.targets (data i), x < room ∧ (x < e'.offset ∨ length ≤ x)

variable {data : Memory} {length room bufferSize i : Nat} {closed run : List UInt8} {e : Encoder}

theorem Writing.targets_le (h : e.Writing i closed run) {b : UInt8} {x : Nat} (hx : x ∈ e.targets b) :
    x ≤ e.dst := by
  have hlt := h.run_lt
  simp only [targets, List.mem_append] at hx
  cases hx with
  | inl hdst =>
    split at hdst
    · exact Nat.le_of_eq (List.mem_singleton.mp hdst)
    · cases hdst
  | inr hcode =>
    split at hcode
    · rw [List.mem_singleton.mp hcode]
      exact Nat.le_of_lt hlt
    · cases hcode

/-- The byte that is written next, or last, has its place in the room of the encoding. -/
theorem Writing.dst_le (h : e.Writing i closed run) : e.dst ≤ i + 1 + i / 254 := by
  obtain ⟨k, hk, hle⟩ := h.gain
  simp only [fullLength] at hle
  omega

theorem Writing.spares (h : e.Writing i closed run)
    (hr : e.Reading (data.read 0 length) bufferSize i) (hrun : run.length < fullLength)
    (hsize : 2 ≤ bufferSize) (hlen : length ≤ fullLength * (bufferSize - 1)) (hi : i < length) :
    e.Spares data length (length + 1 + length / 254) i := by
  have hlength : (data.read 0 length).length = length := Memory.length_read data 0 length
  have hlt : i < (data.read 0 length).length := by omega
  have hbyte : (data.read 0 length)[i] = data i := by
    have hget := Memory.getElem?_read data 0 length i
    rw [List.getElem?_eq_getElem (by omega), if_pos hi, Nat.zero_add] at hget
    exact Option.some.inj hget
  obtain ⟨e', closed', run', htake, htaken, hroom, -, -, hreading, -⟩ :=
    h.pass hr hrun hsize (by omega) (by omega)
  have hbehind : e'.dst ≤ length + length / 254 := by
    have hle := htaken.dst_le
    have hdiv : i / 254 ≤ length / 254 := Nat.div_le_div_right (Nat.le_of_lt hi)
    omega
  rw [hbyte, hlength] at htake
  refine ⟨e', htake, ?_⟩
  intro x hx
  have hle := htaken.targets_le hx
  have hoffset := hreading.offset
  rw [pass_offset, hlength] at hoffset
  omega

theorem take_writes {b : UInt8} {e' : Encoder} (h : e.take length = some (b, e')) :
    e'.data = e.data ∧ e'.dst = e.dst ∧ e'.codePointer = e.codePointer := by
  unfold take at h
  cases hget : e.fifo.get with
  | none => simp [hget] at h
  | some next =>
    by_cases hmore : e.offset < length
    · cases hput : next.2.put (e.data e.offset) with
      | none => simp [hget, hmore, hput] at h
      | some fifo =>
        simp only [hget, hmore, hput, Option.bind_eq_bind, Option.bind_some, if_true, Option.some.injEq,
          Prod.mk.injEq] at h
        rw [← h.2]
        exact ⟨rfl, rfl, rfl⟩
    · simp only [hget, hmore, Option.bind_eq_bind, Option.bind_some, if_false, Option.some.injEq,
        Prod.mk.injEq] at h
      rw [← h.2]
      exact ⟨rfl, rfl, rfl⟩

/-- A pass leaves the address that is written next, and every one behind it, as it is. -/
theorem pass_behind (h : e.codePointer < e.dst) (hne : length ≠ 0) (byte : UInt8) :
    e.dst ≤ ((e.copy byte).close length byte).dst ∧
      ((e.copy byte).close length byte).codePointer < ((e.copy byte).close length byte).dst ∧
      ∀ x, ((e.copy byte).close length byte).dst ≤ x →
        ((e.copy byte).close length byte).data x = e.data x := by
  have hcopy : (e.copy byte).dst = if byte ≠ 0 then e.dst + 1 else e.dst := by
    unfold copy
    split <;> rfl
  have hclose : ((e.copy byte).close length byte).dst =
      if byte = 0 ∨ (e.copy byte).code = 0xff then (e.copy byte).dst + 1 else (e.copy byte).dst := by
    unfold close
    split
    · simp [hne]
    · rfl
  have hle : (e.copy byte).dst ≤ ((e.copy byte).close length byte).dst := by
    rw [hclose]
    split <;> omega
  have hge : e.dst ≤ (e.copy byte).dst := by
    rw [hcopy]
    split <;> omega
  refine ⟨Nat.le_trans hge hle, ?_, ?_⟩
  · unfold close
    by_cases hend : byte = 0 ∨ (e.copy byte).code = 0xff
    · rw [if_pos hend]
      simp [hne]
    · rw [if_neg hend, copy_codePointer]
      omega
  · intro x hx
    apply pass_outside
    simp only [targets, List.mem_append, not_or]
    constructor
    · by_cases hb : byte ≠ 0
      · rw [if_pos hb] at hcopy ⊢
        simp only [List.mem_singleton]
        omega
      · rw [if_neg hb]
        exact List.not_mem_nil
    · split
      · rw [List.mem_singleton]
        omega
      · exact List.not_mem_nil

theorem loop_behind {k : Nat} (h : e.codePointer < e.dst) (hne : length ≠ 0) {e' : Encoder}
    (hloop : Encoder.loop length k e = some e') :
    e'.codePointer < e'.dst ∧ e.dst ≤ e'.dst ∧ ∀ x, e'.dst ≤ x → e'.data x = e.data x := by
  induction k generalizing e with
  | zero =>
    obtain rfl := Option.some.inj hloop
    exact ⟨h, Nat.le_refl _, fun x _ => rfl⟩
  | succ k ih =>
    rw [Encoder.loop] at hloop
    cases htake : e.take length with
    | none => simp [htake] at hloop
    | some taken =>
      obtain ⟨b, e₁⟩ := taken
      obtain ⟨hdata, hdst, hcode⟩ := take_writes htake
      rw [← hdst, ← hcode] at h
      obtain ⟨hge, hlt, hpass⟩ := pass_behind h hne b
      rw [htake] at hloop
      obtain ⟨hlt', hge', hrest⟩ := ih hlt hloop
      refine ⟨hlt', by omega, ?_⟩
      intro x hx
      rw [hrest x hx, hpass x (by omega), hdata]

end Encoder

/-- Nothing is written behind the encoding. -/
theorem encode_behind {bufferSize : Nat} {data data' buffer : Memory} {n m : Nat}
    (h : encode data n buffer bufferSize = some (data', m)) {x : Nat} (hx : m ≤ x) : data' x = data x := by
  unfold encode at h
  cases hfill : fill data (if n > bufferSize - 1 then bufferSize - 1 else n) 0
      (Fifo.initializeWith buffer bufferSize) with
  | none => simp [hfill] at h
  | some fifo =>
    simp only [hfill, Option.bind_eq_bind, Option.bind_some] at h
    generalize hstart : Encoder.mk data fifo _ 1 0 1 = e at h
    have hfirst : e.codePointer < e.dst ∧ e.data = data := by
      rw [← hstart]
      exact ⟨Nat.zero_lt_one, rfl⟩
    cases hloop : Encoder.loop n n e with
    | none => simp [hloop] at h
    | some e' =>
      simp only [hloop, Option.bind_some, Option.some.injEq, Prod.mk.injEq] at h
      obtain ⟨rfl, rfl⟩ := h
      have hbehind : e'.codePointer < e'.dst ∧ ∀ x, e'.dst ≤ x → e'.data x = e.data x := by
        cases n with
        | zero =>
          obtain rfl := Option.some.inj hloop
          exact ⟨hfirst.1, fun x _ => rfl⟩
        | succ n =>
          obtain ⟨hlt, -, hrest⟩ := Encoder.loop_behind hfirst.1 (Nat.succ_ne_zero n) hloop
          exact ⟨hlt, hrest⟩
      have hcode := hbehind.1
      rw [Memory.write_of_outside (by simp only [List.length_singleton]; omega), hbehind.2 x hx, hfirst.2]

/-- What the encoding takes of the memory: a code, and one more for each full block. -/
theorem length_encode_le (bs : List UInt8) : (Cobs.encode bs).length ≤ bs.length + 1 + bs.length / 254 := by
  have hempty : ([] : List UInt8).length < fullLength := by simp [fullLength]
  obtain ⟨k, hk, hle⟩ := Cobs.length_stuff hempty bs
  simp only [fullLength, List.length_nil, Nat.zero_add] at hk hle
  rw [Cobs.encode, hk]
  omega

/-- With a queue of 32 bytes the bytes of a string of 1024 are all taken before they are written over,
in each pass and by the last code, no assertion fails, and the decoder gives the string back. -/
theorem encode_decode {n : Nat} (h : n ≤ 1024) (data buffer : Memory) :
    ∃ fifo data' m, fill data (min n 31) 0 (Fifo.initializeWith buffer 32) = some fifo ∧
      encode data n buffer 32 = some (data', m) ∧ m ≤ n + 1 + n / 254 ∧ 0 ∉ data'.read 0 m ∧
      (∀ i < n, ∃ e, Encoder.loop n i (Encoder.start data fifo (min n 31)) = some e ∧
        e.Spares data n (n + 1 + n / 254) i) ∧
      (∀ x, n + 1 + n / 254 ≤ x → data' x = data x) ∧
      (decode data' m).2 = n ∧ (decode data' m).1.read 0 n = data.read 0 n := by
  have hlen : n ≤ fullLength * (32 - 1) := by
    simp only [fullLength]
    omega
  obtain ⟨fifo, hfill, hreading⟩ := Encoder.Reading.start (show 2 ≤ 32 by simp) data buffer n
  have hpasses : ∀ i < n, ∃ e, Encoder.loop n i (Encoder.start data fifo (min n 31)) = some e ∧
      e.Spares data n (n + 1 + n / 254) i := by
    intro i hi
    obtain ⟨e, closed, run, hloop, hwriting, hat, hrun, -⟩ :=
      (Encoder.Writing.start data fifo _).loop hreading (by simp [fullLength]) (by simp)
        (by rwa [Memory.length_read]) (show 0 + i ≤ _ by rw [Memory.length_read]; omega)
    rw [Memory.length_read] at hloop
    rw [Nat.zero_add] at hwriting hat
    exact ⟨e, hloop, hwriting.spares hat hrun (by simp) hlen hi⟩
  obtain ⟨data', hencode, hread⟩ := encode_eq (rfl : data.read 0 n = _) (by simp) hlen buffer
  obtain ⟨hcount, hdecode⟩ := decode_eq hread
  rw [Cobs.decode_encode, Memory.length_read] at hcount
  rw [Cobs.decode_encode, hcount] at hdecode
  refine ⟨fifo, data', _, hfill, hencode, ?_, ?_, hpasses, ?_, hcount, hdecode⟩
  · have hle := length_encode_le (data.read 0 n)
    rwa [Memory.length_read] at hle
  · rw [hread]
    exact (Cobs.encodes_encode _).zero_notMem
  · intro x hx
    have hle := length_encode_le (data.read 0 n)
    rw [Memory.length_read] at hle
    exact encode_behind hencode (Nat.le_trans hle hx)

/-- A string of three bytes with a zero in it. -/
theorem encode_decode_sample :
    ∃ fifo data' m,
      fill (fun a => if a = 1 then 0 else 7) (min 3 31) 0 (Fifo.initializeWith (fun _ => 0) 32) = some fifo ∧
      encode (fun a => if a = 1 then 0 else 7) 3 (fun _ => 0) 32 = some (data', m) ∧ m ≤ 4 ∧
      0 ∉ data'.read 0 m ∧ (decode data' m).2 = 3 ∧ (decode data' m).1.read 0 3 = [7, 0, 7] := by
  obtain ⟨fifo, data', m, hfill, hencode, hle, hzero, -, -, hcount, hread⟩ :=
    encode_decode (show 3 ≤ 1024 by simp) (fun a => if a = 1 then 0 else 7) (fun _ => 0)
  exact ⟨fifo, data', m, hfill, hencode, hle, hzero, hcount, hread⟩

end InPlace
end Firefly
