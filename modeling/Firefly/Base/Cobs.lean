import Firefly.Base.Fifo
import Firefly.Lib.Cobs

/-!
# Firefly.Base.Cobs

`fd_cobs.c`, which works in place: the encoder writes over bytes that it has taken into a short queue
before, and the decoder over bytes that it has read. A failed assertion of the encoder is `none`: the
byte it goes on with would not be defined.

The encoder gains on the bytes not read yet by one byte for each full block only. Up to
`fullLength * (bufferSize - 1)` bytes it does not reach them, and what it leaves is `Cobs.encode` of
the string (`encode_eq`). The decoder is `Cobs.decode` whatever it is given (`decode_eq`).
-/

namespace Firefly
namespace InPlace

open Cobs (stuff unstuff fullLength)

/-! ## `fd_cobs_encode` -/

structure Encoder where
  data : Memory
  fifo : Fifo
  offset : Nat
  dst : Nat
  codePointer : Nat
  code : UInt8

/-- The bytes that the queue begins with. -/
def fill (data : Memory) : Nat → Nat → Fifo → Option Fifo
  | 0, _, fifo => some fifo
  | n + 1, offset, fifo => do
    let fifo ← fifo.put (data offset)
    fill data n (offset + 1) fifo

namespace Encoder

/-- Taking a byte off the queue, and the next one of the string onto it. -/
def take (length : Nat) (e : Encoder) : Option (UInt8 × Encoder) := do
  let (byte, fifo) ← e.fifo.get
  if e.offset < length then
    let fifo ← fifo.put (e.data e.offset)
    some (byte, { e with fifo := fifo, offset := e.offset + 1 })
  else some (byte, { e with fifo := fifo })

def copy (e : Encoder) (byte : UInt8) : Encoder :=
  if byte ≠ 0 then { e with data := e.data.write e.dst [byte], dst := e.dst + 1, code := e.code + 1 }
  else e

def close (length : Nat) (e : Encoder) (byte : UInt8) : Encoder :=
  if byte = 0 ∨ e.code = 0xff then
    { e with
      data := e.data.write e.codePointer [e.code]
      code := 1
      codePointer := e.dst
      dst := if byte = 0 ∨ length ≠ 0 then e.dst + 1 else e.dst }
  else e

def loop (length : Nat) : Nat → Encoder → Option Encoder
  | 0, e => some e
  | remaining + 1, e => do
    let (byte, e) ← e.take length
    loop length remaining ((e.copy byte).close length byte)

end Encoder

/-- `fd_cobs_encode`: the bytes afterwards and the length returned. The size of the memory is not
looked at. -/
def encode (data : Memory) (length : Nat) (buffer : Memory) (bufferSize : Nat) :
    Option (Memory × Nat) := do
  let n := if length > bufferSize - 1 then bufferSize - 1 else length
  let fifo ← fill data n 0 (Fifo.initializeWith buffer bufferSize)
  let e ← Encoder.loop length length
    { data := data, fifo := fifo, offset := n, dst := 1, codePointer := 0, code := 1 }
  some (e.data.write e.codePointer [e.code], e.dst)

/-! ## `fd_cobs_decode` -/

structure Decoder where
  data : Memory
  src : Nat
  dst : Nat
  code : UInt8
  blockLength : UInt8

namespace Decoder

/-- The zero that a block stands for, unless it is full. -/
def endBlock (d : Decoder) : Decoder :=
  if d.code ≠ 0xff then { d with data := d.data.write d.dst [0], dst := d.dst + 1 } else d

def loop : Nat → Decoder → Decoder
  | 0, d => d
  | n + 1, d =>
    if d.blockLength ≠ 0 then
      loop n { d with
        data := d.data.write d.dst [d.data d.src]
        src := d.src + 1
        dst := d.dst + 1
        blockLength := d.blockLength - 1 }
    else
      let d := d.endBlock
      let code := d.data d.src
      if code = 0 then { d with src := d.src + 1, code := code, blockLength := code }
      else loop n { d with src := d.src + 1, code := code, blockLength := code - 1 }

end Decoder

/-- `fd_cobs_decode`: each pass reads one byte, and there are `length` of them. -/
def decode (data : Memory) (length : Nat) : Memory × Nat :=
  let d := Decoder.loop length { data := data, src := 0, dst := 0, code := 0xff, blockLength := 0 }
  (d.data, d.dst)

/-! ## The encoder -/

variable {data : Memory} {bs : List UInt8}

theorem fill_eq {n offset : Nat} {fifo : Fifo} {q : List UInt8} (h : fifo.Holds q)
    (hroom : q.length + n < fifo.size) : ∃ fifo', fill data n offset fifo = some fifo' ∧
      fifo'.Holds (q ++ data.read offset n) ∧ fifo'.size = fifo.size := by
  induction n generalizing offset fifo q with
  | zero => exact ⟨fifo, rfl, by rwa [Memory.read_zero, List.append_nil], rfl⟩
  | succ n ih =>
    obtain ⟨next, hput, hnext, hsize⟩ := h.put (by omega) (data offset)
    have hleft : (q ++ [data offset]).length + n < next.size := by
      rw [List.length_append, List.length_singleton, hsize]
      omega
    obtain ⟨fifo', hfill, hholds, hsize'⟩ := @ih (offset + 1) next _ hnext hleft
    refine ⟨fifo', ?_, ?_, hsize'.trans hsize⟩
    · rw [fill, hput]
      exact hfill
    · rwa [List.append_assoc, List.singleton_append, ← Memory.read_succ] at hholds

namespace Encoder

/-- What the encoder has still to read, before it takes byte `i` of the string: the queue holds the
bytes from there on, and those behind it are where they were. -/
structure Reading (bs : List UInt8) (bufferSize i : Nat) (e : Encoder) : Prop where
  fifo : e.fifo.Holds ((bs.take e.offset).drop i)
  size : e.fifo.size = bufferSize
  offset : e.offset = min bs.length (i + (bufferSize - 1))
  ahead : e.data.read e.offset (bs.length - e.offset) = bs.drop e.offset

/-- What the encoder has written of the first `i` bytes: the blocks `closed`, and the bytes `run` of
the open one. It gains a byte for each full block. -/
structure Writing (i : Nat) (closed run : List UInt8) (e : Encoder) : Prop where
  blocks : e.data.read 0 closed.length = closed
  codePointer : e.codePointer = closed.length
  bytes : e.data.read (e.codePointer + 1) run.length = run
  dst : e.dst = e.codePointer + 1 + run.length
  code : e.code = UInt8.ofNat (run.length + 1)
  gain : ∃ k, e.dst = i + 1 + k ∧ fullLength * k + run.length ≤ i

variable {bufferSize i : Nat} {closed run : List UInt8} {e : Encoder}

theorem Reading.write (h : e.Reading bs bufferSize i) {x : Nat}
    (hx : x < e.offset ∨ bs.length ≤ e.offset) (b : UInt8) {codePointer dst : Nat} {code : UInt8} :
    Reading bs bufferSize i
      { e with data := e.data.write x [b], codePointer := codePointer, dst := dst, code := code } where
  fifo := h.fifo
  size := h.size
  offset := h.offset
  ahead := by
    rw [← h.ahead]
    apply Memory.read_congr
    intro j hj
    simp only at hj ⊢
    exact Memory.write_of_outside (by rw [List.length_singleton]; omega)

theorem Reading.take (h : e.Reading bs bufferSize i) {b : UInt8} {rest : List UInt8}
    (hdrop : bs.drop i = b :: rest) (hsize : 2 ≤ bufferSize) :
    ∃ fifo offset, e.take bs.length = some (b, { e with fifo := fifo, offset := offset }) ∧
      Reading bs bufferSize (i + 1) { e with fifo := fifo, offset := offset } := by
  have hi : i < bs.length := by
    have hlen := congrArg List.length hdrop
    simp only [List.length_drop, List.length_cons] at hlen
    omega
  have hoffset := h.offset
  have hqueue : (bs.take e.offset).drop i = b :: (bs.take e.offset).drop (i + 1) := by
    have hlt : i < (bs.take e.offset).length := by
      rw [List.length_take]
      omega
    rw [List.drop_eq_getElem_cons hlt]
    rw [List.drop_eq_getElem_cons hi] at hdrop
    injection hdrop with hb
    rw [List.getElem_take, hb]
  have hholds := h.fifo
  rw [hqueue] at hholds
  obtain ⟨fifo, hget, hfifo, hfsize⟩ := hholds.get
  by_cases hmore : e.offset < bs.length
  · have hlen : ((bs.take e.offset).drop (i + 1)).length + 1 < fifo.size := by
      rw [List.length_drop, List.length_take, hfsize, h.size]
      omega
    obtain ⟨fifo', hput, hfifo', hfsize'⟩ := hfifo.put hlen (e.data e.offset)
    have hahead := h.ahead
    rw [List.drop_eq_getElem_cons hmore, show bs.length - e.offset = bs.length - (e.offset + 1) + 1 by omega,
      Memory.read_succ] at hahead
    injection hahead with hnext hahead
    refine ⟨fifo', e.offset + 1, ?_, ?_, hfsize'.trans (hfsize.trans h.size), ?_, hahead⟩
    · simp only [Encoder.take, hget, hput, if_pos hmore, Option.bind_eq_bind, Option.bind_some]
    · have hsnoc : (bs.take (e.offset + 1)).drop (i + 1) =
          (bs.take e.offset).drop (i + 1) ++ [e.data e.offset] := by
        rw [List.take_succ_eq_append_getElem hmore, hnext, List.drop_append_of_le_length]
        rw [List.length_take]
        omega
      rw [hsnoc]
      exact hfifo'
    · simp only
      omega
  · refine ⟨fifo, e.offset, ?_, hfifo, hfsize.trans h.size, ?_, h.ahead⟩
    · simp only [Encoder.take, hget, if_neg hmore, Option.bind_eq_bind, Option.bind_some]
    · simp only
      omega

theorem Writing.run_lt (h : e.Writing i closed run) : e.codePointer < e.dst := by
  have hdst := h.dst
  omega

/-- The open block, once its code is written. -/
theorem Writing.read_block (h : e.Writing i closed run) :
    (e.data.write e.codePointer [e.code]).read 0 e.dst = closed ++ Cobs.block run := by
  have hlen : e.dst = closed.length + (1 + run.length) := by
    rw [h.dst, h.codePointer]
    omega
  have hblocks : (e.data.write e.codePointer [e.code]).read 0 closed.length = closed := by
    rw [Memory.read_write_of_disjoint (Or.inl (by rw [h.codePointer]; omega)), h.blocks]
  have hbytes : (e.data.write e.codePointer [e.code]).read (e.codePointer + 1) run.length = run := by
    rw [Memory.read_write_of_disjoint (Or.inr (by rw [List.length_singleton])), h.bytes]
  rw [hlen, Memory.read_add, hblocks, Memory.read_add, Memory.read_one, Nat.zero_add, ← h.codePointer,
    Memory.write_singleton_self, hbytes, h.code, List.singleton_append, Cobs.block]

/-- A byte of the open block. -/
theorem Writing.snoc (h : e.Writing i closed run) (b : UInt8) :
    Writing (i + 1) closed (run ++ [b])
      { e with data := e.data.write e.dst [b], dst := e.dst + 1, code := e.code + 1 } where
  blocks := by
    rw [Memory.read_write_of_disjoint (Or.inl _), h.blocks]
    rw [h.dst, h.codePointer]
    omega
  codePointer := h.codePointer
  bytes := by
    simp only [h.dst]
    rw [List.length_append]
    exact Memory.read_write_append h.bytes [b]
  dst := by
    simp only [h.dst, List.length_append, List.length_singleton]
    omega
  code := by
    simp only [h.code, List.length_append, List.length_singleton]
    exact (UInt8.ofNat_add _ 1).symm
  gain := by
    obtain ⟨k, hk, hle⟩ := h.gain
    refine ⟨k, ?_, ?_⟩
    · simp only
      omega
    · rw [List.length_append, List.length_singleton]
      omega

/-- A block is closed by a zero, which is one more byte of the string, or when it is full. -/
theorem Writing.close (h : e.Writing i closed run) {i' : Nat}
    (hi : i' = i + 1 ∨ run.length = fullLength ∧ i' = i) :
    Writing i' (closed ++ Cobs.block run) []
      { e with
        data := e.data.write e.codePointer [e.code]
        code := 1
        codePointer := e.dst
        dst := e.dst + 1 } where
  blocks := by
    have hlen : (closed ++ Cobs.block run).length = e.dst := by
      rw [List.length_append, Cobs.length_block, h.dst, h.codePointer]
      omega
    rw [hlen]
    exact h.read_block
  codePointer := by
    simp only [List.length_append, Cobs.length_block, h.dst, h.codePointer]
    omega
  bytes := rfl
  dst := rfl
  code := rfl
  gain := by
    obtain ⟨k, hk, hle⟩ := h.gain
    cases hi with
    | inl hzero =>
      refine ⟨k, ?_, ?_⟩
      · simp only
        omega
      · rw [List.length_nil]
        omega
    | inr hfull =>
      refine ⟨k + 1, ?_, ?_⟩
      · simp only
        omega
      · rw [List.length_nil, Nat.mul_succ]
        omega

/-- What the encoder makes of a byte. -/
theorem Writing.step (h : e.Writing i closed run) (hr : e.Reading bs bufferSize (i + 1))
    (hrun : run.length < fullLength) (hne : bs.length ≠ 0)
    (hroom : e.dst < e.offset ∨ bs.length ≤ e.offset) (b : UInt8) (rest : List UInt8) :
    ∃ closed' run', run'.length < fullLength ∧
      ((e.copy b).close bs.length b).Writing (i + 1) closed' run' ∧
      ((e.copy b).close bs.length b).Reading bs bufferSize (i + 1) ∧
      closed' ++ stuff run' rest = closed ++ stuff run (b :: rest) := by
  have hlt := h.run_lt
  rw [stuff]
  by_cases hb : b = 0
  · refine ⟨closed ++ Cobs.block run, [], by decide, ?_, ?_, ?_⟩
    · rw [copy, if_neg (by simpa using hb), Encoder.close, if_pos (Or.inl hb), if_pos (Or.inl hb)]
      exact h.close (Or.inl rfl)
    · rw [copy, if_neg (by simpa using hb), Encoder.close, if_pos (Or.inl hb), if_pos (Or.inl hb)]
      exact hr.write (by omega) e.code
    · rw [if_pos hb, List.append_assoc]
  · have hsnoc := h.snoc b
    have hlen : (run ++ [b]).length = run.length + 1 := by simp
    have hcode : (e.copy b).code = 0xff ↔ run.length + 1 = fullLength := by
      have hiff := Cobs.code_eq_max_iff (show (run ++ [b]).length ≤ fullLength by omega)
      rw [← hsnoc.code, hlen] at hiff
      rwa [copy, if_pos hb]
    have hcopy : e.copy b =
        { e with data := e.data.write e.dst [b], dst := e.dst + 1, code := e.code + 1 } := by
      rw [copy, if_pos hb]
    have hreading : (e.copy b).Reading bs bufferSize (i + 1) := by
      rw [hcopy]
      exact hr.write hroom b
    rw [if_neg hb]
    by_cases hfull : run.length + 1 = fullLength
    · refine ⟨closed ++ Cobs.block (run ++ [b]), [], by decide, ?_, ?_, ?_⟩
      · rw [Encoder.close, if_pos (Or.inr (hcode.mpr hfull)), if_pos (Or.inr hne), hcopy]
        exact hsnoc.close (Or.inr ⟨hlen.trans hfull, rfl⟩)
      · rw [Encoder.close, if_pos (Or.inr (hcode.mpr hfull)), if_pos (Or.inr hne)]
        apply hreading.write
        rw [hcopy]
        simp only
        omega
      · rw [if_pos hfull, List.append_assoc]
    · have hopen : ¬ (b = 0 ∨ (e.copy b).code = 0xff) := by
        rintro (h0 | hff)
        · exact hb h0
        · exact hfull (hcode.mp hff)
      rw [Encoder.close, if_neg hopen]
      refine ⟨closed, run ++ [b], by omega, ?_, hreading, ?_⟩
      · rw [hcopy]
        exact hsnoc
      · rw [if_neg hfull]

/-- A pass of the loop. The byte that it takes leaves room for what it writes: `i` bytes hold fewer full
blocks than the queue holds bytes. -/
theorem Writing.pass (h : e.Writing i closed run) (hr : e.Reading bs bufferSize i)
    (hrun : run.length < fullLength) (hsize : 2 ≤ bufferSize)
    (hlen : bs.length ≤ fullLength * (bufferSize - 1)) (hi : i < bs.length) :
    ∃ e' closed' run', e.take bs.length = some (bs[i], e') ∧ e'.Writing i closed run ∧
      (e'.dst < e'.offset ∨ bs.length ≤ e'.offset) ∧ run'.length < fullLength ∧
      ((e'.copy bs[i]).close bs.length bs[i]).Writing (i + 1) closed' run' ∧
      ((e'.copy bs[i]).close bs.length bs[i]).Reading bs bufferSize (i + 1) ∧
      closed' ++ stuff run' (bs.drop (i + 1)) = closed ++ stuff run (bs.drop i) := by
  have hdrop : bs.drop i = bs[i] :: bs.drop (i + 1) := List.drop_eq_getElem_cons hi
  obtain ⟨fifo, offset, htake, hreading⟩ := hr.take hdrop hsize
  have htaken : Writing i closed run { e with fifo := fifo, offset := offset } :=
    ⟨h.blocks, h.codePointer, h.bytes, h.dst, h.code, h.gain⟩
  have hroom : e.dst < offset ∨ bs.length ≤ offset := by
    obtain ⟨k, hk, hle⟩ := h.gain
    have hmul : fullLength * k < fullLength * (bufferSize - 1) := by omega
    have hk' : k < bufferSize - 1 := Nat.lt_of_mul_lt_mul_left hmul
    have hoffset := hreading.offset
    simp only at hoffset
    omega
  obtain ⟨closed', run', hrun', hwriting, hreading', hstuff⟩ :=
    htaken.step hreading hrun (by omega) hroom bs[i] (bs.drop (i + 1))
  refine ⟨{ e with fifo := fifo, offset := offset }, closed', run', htake, htaken, hroom, hrun', hwriting,
    hreading', ?_⟩
  rw [hstuff, hdrop]

/-- The first `k` of the passes that remain. -/
theorem Writing.loop (h : e.Writing i closed run) (hr : e.Reading bs bufferSize i)
    (hrun : run.length < fullLength) (hsize : 2 ≤ bufferSize)
    (hlen : bs.length ≤ fullLength * (bufferSize - 1)) {k : Nat} (hk : i + k ≤ bs.length) :
    ∃ e' closed' run', Encoder.loop bs.length k e = some e' ∧ e'.Writing (i + k) closed' run' ∧
      e'.Reading bs bufferSize (i + k) ∧ run'.length < fullLength ∧
      closed' ++ stuff run' (bs.drop (i + k)) = closed ++ stuff run (bs.drop i) := by
  induction k generalizing i closed run e with
  | zero => exact ⟨e, closed, run, rfl, h, hr, hrun, rfl⟩
  | succ k ih =>
    obtain ⟨e₁, closed₁, run₁, htake, -, -, hrun₁, hwriting, hreading, hstuff⟩ :=
      h.pass hr hrun hsize hlen (by omega)
    obtain ⟨e', closed', run', hloop, hlast⟩ := ih hwriting hreading hrun₁ (by omega)
    rw [Nat.succ_add_eq_add_succ, hstuff] at hlast
    refine ⟨e', closed', run', ?_, hlast⟩
    rw [Encoder.loop, htake]
    exact hloop

end Encoder

/-- The encoder before its first pass, when `offset` bytes are in the queue. -/
def Encoder.start (data : Memory) (fifo : Fifo) (offset : Nat) : Encoder :=
  { data := data, fifo := fifo, offset := offset, dst := 1, codePointer := 0, code := 1 }

theorem Encoder.Writing.start (data : Memory) (fifo : Fifo) (offset : Nat) :
    (Encoder.start data fifo offset).Writing 0 [] [] := ⟨rfl, rfl, rfl, rfl, rfl, 0, rfl, Nat.zero_le _⟩

theorem Encoder.Reading.start {bufferSize : Nat} (hsize : 2 ≤ bufferSize) (data buffer : Memory)
    (length : Nat) :
    ∃ fifo,
      fill data (min length (bufferSize - 1)) 0 (Fifo.initializeWith buffer bufferSize) = some fifo ∧
      (Encoder.start data fifo (min length (bufferSize - 1))).Reading (data.read 0 length) bufferSize 0 := by
  have hempty : (Fifo.initializeWith buffer bufferSize).Holds [] :=
    Fifo.holds_initializeWith buffer (by omega)
  have hroom : ([] : List UInt8).length + min length (bufferSize - 1) <
      (Fifo.initializeWith buffer bufferSize).size := by
    simp only [List.length_nil, Fifo.initializeWith]
    omega
  obtain ⟨fifo, hfill, hholds, hfsize⟩ := @fill_eq data _ 0 _ _ hempty hroom
  refine ⟨fifo, hfill, ?_, hfsize, ?_, ?_⟩
  · rw [List.nil_append, ← Memory.take_read (Nat.min_le_left _ _)] at hholds
    rw [List.drop_zero]
    exact hholds
  · simp only [Encoder.start, Memory.length_read, Nat.zero_add]
  · have hdrop := Memory.drop_read (m := data) (a := 0) (Nat.min_le_left length (bufferSize - 1))
    rw [Nat.zero_add] at hdrop
    simp only [Encoder.start, Memory.length_read]
    exact hdrop.symm

/-- The encoder is its passes, one for each byte, and the last code. -/
theorem encode_of_loop {length bufferSize : Nat} {buffer : Memory} {fifo : Fifo} {e : Encoder}
    (hfill : fill data (min length (bufferSize - 1)) 0 (Fifo.initializeWith buffer bufferSize) = some fifo)
    (hloop : Encoder.loop length length (Encoder.start data fifo (min length (bufferSize - 1))) = some e) :
    encode data length buffer bufferSize = some (e.data.write e.codePointer [e.code], e.dst) := by
  have hif : (if length > bufferSize - 1 then bufferSize - 1 else length) = min length (bufferSize - 1) := by
    split <;> omega
  rw [Encoder.start] at hloop
  simp only [encode, hif, hfill, Option.bind_eq_bind, Option.bind_some]
  rw [hloop, Option.bind_some]

/-- No assertion of the encoder fails, and it leaves the encoding of the string. -/
theorem encode_eq {length bufferSize : Nat} (hbs : data.read 0 length = bs) (hsize : 2 ≤ bufferSize)
    (hlen : length ≤ fullLength * (bufferSize - 1)) (buffer : Memory) :
    ∃ data', encode data length buffer bufferSize = some (data', (Cobs.encode bs).length) ∧
      data'.read 0 (Cobs.encode bs).length = Cobs.encode bs := by
  have hlength : bs.length = length := by rw [← hbs, Memory.length_read]
  subst hlength
  obtain ⟨fifo, hfill, hreading⟩ := Encoder.Reading.start hsize data buffer bs.length
  rw [hbs] at hreading
  obtain ⟨e, closed, run, hloop, hlast, -, -, hstuff⟩ :=
    (Encoder.Writing.start data fifo _).loop hreading (by decide) hsize hlen
      (Nat.le_of_eq (Nat.zero_add bs.length))
  have hencoded : (e.data.write e.codePointer [e.code]).read 0 e.dst = Cobs.encode bs := by
    rw [List.drop_of_length_le (by omega), stuff] at hstuff
    rw [hlast.read_block]
    exact hstuff
  have hdst : e.dst = (Cobs.encode bs).length := by rw [← hencoded, Memory.length_read]
  rw [← hdst]
  exact ⟨_, encode_of_loop hfill hloop, hencoded⟩

/-! ## The decoder -/

namespace Decoder

/-- What has been written is behind what has been read, but for the first code. -/
structure Reading (out rest : List UInt8) (d : Decoder) : Prop where
  written : d.data.read 0 d.dst = out
  ahead : d.data.read d.src rest.length = rest
  behind : d.dst < d.src ∨ d.dst = d.src ∧ d.code = 0xff ∧ d.blockLength = 0

variable {d : Decoder} {out rest : List UInt8}

theorem Reading.endBlock {b : UInt8} (h : d.Reading out (b :: rest)) :
    d.endBlock.data.read 0 d.endBlock.dst = out ++ (if d.code = 0xff then [] else [0]) ∧
      d.endBlock.data.read d.endBlock.src (b :: rest).length = b :: rest ∧
      d.endBlock.dst ≤ d.endBlock.src := by
  have hbehind := h.behind
  by_cases hcode : d.code = 0xff
  · rw [Decoder.endBlock, if_neg (not_not.mpr hcode), if_pos hcode, List.append_nil]
    exact ⟨h.written, h.ahead, by omega⟩
  · have hlt : d.dst < d.src := by
      cases hbehind with
      | inl hlt => exact hlt
      | inr heq => exact absurd heq.2.1 hcode
    have hwrite := Memory.read_write_append h.written [0]
    rw [Nat.zero_add] at hwrite
    rw [Decoder.endBlock, if_pos hcode, if_neg hcode]
    refine ⟨hwrite, ?_, hlt⟩
    rw [Memory.read_write_of_disjoint (Or.inr hlt), h.ahead]

theorem toNat_sub_one {b : UInt8} (h : b ≠ 0) : b.toNat = (b - 1).toNat + 1 := by
  have hne : b.toNat ≠ 0 := by
    intro h0
    exact h (UInt8.toNat_inj.mp h0)
  rw [UInt8.toNat_sub_of_le b 1 (UInt8.le_iff_toNat_le.mpr (Nat.one_le_iff_ne_zero.mpr hne)),
    UInt8.toNat_one]
  omega

/-- By induction on the bytes that are left. -/
theorem Reading.loop (h : d.Reading out rest) :
    (Decoder.loop rest.length d).data.read 0 (Decoder.loop rest.length d).dst =
      out ++ unstuff d.code d.blockLength.toNat rest := by
  induction rest generalizing d out with
  | nil => rw [List.length_nil, Decoder.loop, unstuff, List.append_nil, h.written]
  | cons b rest ih =>
    by_cases hblock : d.blockLength = 0
    · obtain ⟨hwritten, hahead, hbehind⟩ := h.endBlock
      rw [List.length_cons, Memory.read_succ] at hahead
      injection hahead with hb hrest
      simp only [List.length_cons, Decoder.loop, if_neg (not_not.mpr hblock), hb]
      rw [hblock, UInt8.toNat_zero, unstuff]
      by_cases hzero : b = 0
      · simp only [if_pos hzero, List.append_nil]
        exact hwritten
      · have hnext : Decoder.Reading (out ++ (if d.code = 0xff then [] else [0])) rest
            { d.endBlock with src := d.endBlock.src + 1, code := b, blockLength := b - 1 } :=
          ⟨hwritten, hrest, Or.inl (Nat.lt_succ_of_le hbehind)⟩
        rw [if_neg hzero, if_neg hzero, ih hnext, toNat_sub_one hzero, Nat.add_sub_cancel,
          List.append_assoc]
    · have hahead := h.ahead
      rw [List.length_cons, Memory.read_succ] at hahead
      injection hahead with hb hrest
      have hlt : d.dst < d.src := by
        cases h.behind with
        | inl hlt => exact hlt
        | inr heq => exact absurd heq.2.2 hblock
      have hwrite := Memory.read_write_append h.written [b]
      rw [Nat.zero_add] at hwrite
      have hnext : Decoder.Reading (out ++ [b]) rest
          { d with
            data := d.data.write d.dst [b]
            src := d.src + 1
            dst := d.dst + 1
            blockLength := d.blockLength - 1 } := by
        refine ⟨hwrite, ?_, Or.inl (Nat.succ_lt_succ hlt)⟩
        simp only
        rw [Memory.read_write_of_disjoint (Or.inr (by rw [List.length_singleton]; omega)), hrest]
      rw [List.length_cons, Decoder.loop, if_pos hblock, hb, ih hnext, toNat_sub_one hblock, unstuff,
        List.append_assoc, List.singleton_append]

end Decoder

/-- Whatever the bytes are, they are decoded as blocks. -/
theorem decode_eq {length : Nat} (hbs : data.read 0 length = bs) :
    (decode data length).2 = (Cobs.decode bs).length ∧
      (decode data length).1.read 0 (decode data length).2 = Cobs.decode bs := by
  have hlength : bs.length = length := by rw [← hbs, Memory.length_read]
  subst hlength
  have hreading : Decoder.Reading [] bs
      { data := data, src := 0, dst := 0, code := 0xff, blockLength := 0 } :=
    ⟨rfl, hbs, Or.inr ⟨rfl, rfl, rfl⟩⟩
  have hread : (decode data bs.length).1.read 0 (decode data bs.length).2 = Cobs.decode bs :=
    hreading.loop
  refine ⟨?_, hread⟩
  rw [← hread, Memory.length_read]

end InPlace
end Firefly
