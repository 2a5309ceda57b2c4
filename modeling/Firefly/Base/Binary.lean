import Firefly.Lib.Bytes
import Firefly.Lib.Memory

/-!
# Firefly.Base.Binary

`fd_binary.c`: fields put one behind the other in a buffer of `size` bytes, and taken from it again.
The buffer is the memory from its first byte on. A field that does not fit is left out, and one that
is not there is zero; both leave a flag in `errors`. Sizes and indices are 32-bit numbers.

* `Written limit bs b`: without errors, the bytes `bs` have been put.
* `Unread bs b`: the bytes `bs` are what is there to take.
-/

namespace Firefly

open Bytes

structure Binary where
  buffer : Memory
  size : Nat
  putIndex : Nat
  getIndex : Nat
  errors : Nat
  size_lt : size < 2 ^ 32

namespace Binary

def errorUnderflow : Nat := 0x00000001
def errorInvalidRepresentation : Nat := 0x00000002
def errorOutOfBounds : Nat := 0x00000004
def errorOverflow : Nat := 0x00000008

/-- `fd_binary_initialize`. -/
def initializeWith (buffer : Memory) (size : UInt32) : Binary := ⟨buffer, size.toNat, 0, 0, 0, size.toNat_lt⟩

def reset (b : Binary) : Binary := { b with putIndex := 0, getIndex := 0, errors := 0 }

def remainingLength (b : Binary) : Nat := (2 ^ 32 - b.putIndex + b.size) % 2 ^ 32

/-- The bytes that have been put. -/
def contents (b : Binary) : List UInt8 := b.buffer.read 0 b.putIndex

/-! ## Fields -/

/-- The condition of `fd_binary_put_check`. -/
def PutCheck (b : Binary) (length : Nat) : Prop := (b.putIndex + length) % 2 ^ 32 ≤ b.size

instance (b : Binary) (length : Nat) : Decidable (b.PutCheck length) := Nat.decLe _ _

/-- What follows the check of the putters for fields of fixed width and of `fd_binary_put_bytes`. -/
def append (b : Binary) (data : List UInt8) : Binary :=
  { b with
    buffer := b.buffer.write b.putIndex data
    putIndex := (b.putIndex + data.length) % 2 ^ 32 }

def overflow (b : Binary) : Binary := { b with errors := b.errors ||| errorOverflow }

/-- `fd_binary_put_bytes`. -/
def putBytes (b : Binary) (data : List UInt8) : Binary :=
  if b.PutCheck data.length then b.append data else b.overflow

def putUint8 (b : Binary) (value : UInt8) : Binary := b.putBytes [value]

def putUint16 (b : Binary) (value : UInt16) : Binary := b.putBytes (leBytes 2 value.toNat)

def putUint24 (b : Binary) (value : UInt32) : Binary := b.putBytes (leBytes 3 value.toNat)

def putUint32 (b : Binary) (value : UInt32) : Binary := b.putBytes (leBytes 4 value.toNat)

/-- The check is for `sizeof(value)`, which is 8. -/
def putUint48 (b : Binary) (value : UInt64) : Binary :=
  if b.PutCheck 8 then b.append (leBytes 6 value.toNat) else b.overflow

def putUint64 (b : Binary) (value : UInt64) : Binary := b.putBytes (leBytes 8 value.toNat)

/-- The groups of seven bits, of which a 64-bit number has at most `n + 1`. -/
def putGroups : Nat → Binary → Nat → Binary
  | 0, b, remainder => b.putUint8 (UInt8.ofNat remainder)
  | n + 1, b, remainder =>
    if remainder ≤ 0x7f then b.putUint8 (UInt8.ofNat remainder)
    else putGroups n (b.putUint8 (UInt8.ofNat (remainder ||| 0x80))) (remainder >>> 7)

def putVaruint (b : Binary) (value : Nat) : Binary := putGroups 9 b value

def putString (b : Binary) (string : List UInt8) : Binary := (b.putVaruint string.length).putBytes string

/-- The condition of `fd_binary_get_check`. -/
def GetCheck (b : Binary) (length : Nat) : Prop := (b.getIndex + length) % 2 ^ 32 ≤ b.size

instance (b : Binary) (length : Nat) : Decidable (b.GetCheck length) := Nat.decLe _ _

/-- `get_index += length`. -/
def skip (b : Binary) (length : Nat) : Binary := { b with getIndex := (b.getIndex + length) % 2 ^ 32 }

/-- `fd_binary_get_bytes`. -/
def getBytes (b : Binary) (length : Nat) : List UInt8 × Binary :=
  if b.GetCheck length then (b.buffer.read b.getIndex length, b.skip length)
  else (List.replicate length 0, { b with errors := b.errors ||| errorUnderflow })

def getUint8 (b : Binary) : UInt8 × Binary := ((b.getBytes 1).1.headD 0, (b.getBytes 1).2)

def getUint16 (b : Binary) : UInt16 × Binary := (UInt16.ofNat (leNat (b.getBytes 2).1), (b.getBytes 2).2)

def getUint24 (b : Binary) : UInt32 × Binary := (UInt32.ofNat (leNat (b.getBytes 3).1), (b.getBytes 3).2)

def getUint32 (b : Binary) : UInt32 × Binary := (UInt32.ofNat (leNat (b.getBytes 4).1), (b.getBytes 4).2)

def getUint48 (b : Binary) : UInt64 × Binary := (UInt64.ofNat (leNat (b.getBytes 6).1), (b.getBytes 6).2)

def getUint64 (b : Binary) : UInt64 × Binary := (UInt64.ofNat (leNat (b.getBytes 8).1), (b.getBytes 8).2)

/-- `fd_binary_get_varuint`, with `remaining` bytes left and `index` of them read. -/
def getGroups : Nat → Nat → UInt64 → Binary → UInt64 × Binary
  | 0, _, _, b => (0, { b with errors := b.errors ||| errorOutOfBounds })
  | remaining + 1, index, value, b =>
    let byte := b.buffer b.getIndex
    let b := b.skip 1
    let value := value ||| (byte &&& 0x7f).toUInt64 <<< UInt64.ofNat (index * 7)
    if byte &&& 0x80 = 0 then (value, b)
    else if value &&& 0xe000000000000000 ≠ 0 then
      (0, { b with errors := b.errors ||| errorInvalidRepresentation })
    else getGroups remaining (index + 1) value b

def getVaruint (b : Binary) : UInt64 × Binary :=
  getGroups ((2 ^ 32 - b.getIndex + b.size) % 2 ^ 32) 0 0 b

/-- `fd_binary_get_string`: the bytes from the place that it points to. -/
def getString (b : Binary) : List UInt8 × Binary :=
  let length := b.getVaruint.1.toNat
  let b := b.getVaruint.2
  if b.remainingLength < length then ([], { b with errors := b.errors ||| errorInvalidRepresentation })
  else (b.buffer.read b.getIndex length, b.skip length)

/-! ## Putting -/

/-- The bytes `bs` have been put, and everything that was put fit. -/
structure Written (limit : Nat) (bs : List UInt8) (b : Binary) : Prop where
  size : b.size = limit
  contents : b.contents = bs
  errors : b.errors = 0
  fits : bs.length ≤ limit

variable {b : Binary} {limit : Nat} {bs cs : List UInt8}

theorem written_initializeWith (buffer : Memory) (size : UInt32) :
    (initializeWith buffer size).Written size.toNat [] := ⟨rfl, rfl, rfl, Nat.zero_le _⟩

theorem Written.reset (h : b.Written limit bs) : b.reset.Written limit [] :=
  ⟨h.size, rfl, rfl, Nat.zero_le _⟩

theorem putIndex_eq (h : b.contents = bs) : b.putIndex = bs.length := by
  rw [← h, Binary.contents, Memory.length_read]

theorem mod_eq_of_le_size {n : Nat} (h : n ≤ b.size) : n % 2 ^ 32 = n :=
  Nat.mod_eq_of_lt (Nat.lt_of_le_of_lt h b.size_lt)

theorem putCheck_of_le {n : Nat} (h : b.putIndex + n ≤ b.size) : b.PutCheck n := by
  rwa [PutCheck, mod_eq_of_le_size h]

/-- A check is refused for want of room, as long as the sum does not wrap. -/
theorem not_putCheck {n : Nat} (hfull : b.size < b.putIndex + n) (hlt : b.putIndex + n < 2 ^ 32) :
    ¬ b.PutCheck n := by
  rw [PutCheck, Nat.mod_eq_of_lt hlt]
  exact Nat.not_le.mpr hfull

theorem Written.append (h : b.Written limit bs) (hfit : bs.length + cs.length ≤ limit) :
    (b.append cs).Written limit (bs ++ cs) := by
  have hroom : b.putIndex + cs.length ≤ b.size := by rwa [putIndex_eq h.contents, h.size]
  have hwrite := Memory.read_write_append h.contents cs
  rw [Nat.zero_add] at hwrite
  rw [Binary.append, mod_eq_of_le_size hroom]
  refine ⟨h.size, hwrite, h.errors, ?_⟩
  rwa [List.length_append]

theorem Written.putBytes (h : b.Written limit bs) (hfit : bs.length + cs.length ≤ limit) :
    (b.putBytes cs).Written limit (bs ++ cs) := by
  have hroom : b.putIndex + cs.length ≤ b.size := by rwa [putIndex_eq h.contents, h.size]
  rw [Binary.putBytes, if_pos (putCheck_of_le hroom)]
  exact h.append hfit

theorem overflow_errors (b : Binary) : b.overflow.errors ≠ 0 := by
  intro h0
  exact absurd (Nat.or_eq_zero_iff.mp h0).2 (by decide)

theorem putBytes_errors (hfull : b.size < b.putIndex + cs.length)
    (hlt : b.putIndex + cs.length < 2 ^ 32) : (b.putBytes cs).errors ≠ 0 := by
  rw [Binary.putBytes, if_neg (not_putCheck hfull hlt)]
  exact overflow_errors b

/-- Errors stay. -/
theorem errors_overflow (h : b.errors ≠ 0) : b.overflow.errors ≠ 0 := by
  intro h0
  exact h (Nat.or_eq_zero_iff.mp h0).1

theorem errors_putBytes (h : b.errors ≠ 0) (cs : List UInt8) : (b.putBytes cs).errors ≠ 0 := by
  rw [Binary.putBytes]
  by_cases hroom : b.PutCheck cs.length
  · rw [if_pos hroom]
    exact h
  · rw [if_neg hroom]
    exact errors_overflow h

/-- Fields put one after the other. -/
def putAll (b : Binary) (fields : List (List UInt8)) : Binary := fields.foldl Binary.putBytes b

theorem Written.putAll {fields : List (List UInt8)} (h : b.Written limit bs)
    (hfit : bs.length + fields.flatten.length ≤ limit) :
    (b.putAll fields).Written limit (bs ++ fields.flatten) := by
  induction fields generalizing b bs with
  | nil => rwa [List.flatten_nil, List.append_nil]
  | cons cs fields ih =>
    rw [List.flatten_cons, List.length_append] at hfit
    have hnext := ih (h.putBytes (show bs.length + cs.length ≤ limit by omega)) (by rw [List.length_append]; omega)
    rwa [List.append_assoc, ← List.flatten_cons] at hnext

theorem errors_putAll (h : b.errors ≠ 0) (fields : List (List UInt8)) : (b.putAll fields).errors ≠ 0 := by
  induction fields generalizing b with
  | nil => exact h
  | cons cs fields ih => exact ih (errors_putBytes h cs)

/-- Fields that do not all fit leave an error. -/
theorem Written.putAll_errors {fields : List (List UInt8)} (h : b.Written limit bs)
    (hfull : limit < bs.length + fields.flatten.length)
    (hlt : bs.length + fields.flatten.length < 2 ^ 32) : (b.putAll fields).errors ≠ 0 := by
  induction fields generalizing b bs with
  | nil =>
    have hfits := h.fits
    rw [List.flatten_nil, List.length_nil] at hfull
    omega
  | cons cs fields ih =>
    rw [List.flatten_cons, List.length_append] at hfull hlt
    by_cases hroom : bs.length + cs.length ≤ limit
    · exact ih (h.putBytes hroom) (by rw [List.length_append]; omega) (by rw [List.length_append]; omega)
    · have hindex := putIndex_eq h.contents
      have hover : b.size < b.putIndex + cs.length := by
        rw [h.size, hindex]
        omega
      exact errors_putAll (putBytes_errors hover (by omega)) fields

/-- Other bytes in the place of those that have been put. -/
theorem Written.replace {data : Memory} (h : b.Written limit bs) (hread : data.read 0 cs.length = cs)
    (hfit : cs.length ≤ limit) :
    Written limit cs { b with buffer := data, putIndex := cs.length } :=
  ⟨h.size, hread, h.errors, hfit⟩

@[simp] theorem putVaruint_of_le {value : Nat} (h : value ≤ 0x7f) :
    b.putVaruint value = b.putUint8 (UInt8.ofNat value) := by
  rw [putVaruint, putGroups, if_pos h]

/-! ## Taking -/

/-- The bytes `bs` come next. -/
structure Unread (bs : List UInt8) (b : Binary) : Prop where
  bytes : b.buffer.read b.getIndex bs.length = bs
  fits : b.getIndex + bs.length ≤ b.size

theorem Unread.getBytes (h : b.Unread (cs ++ bs)) :
    (b.getBytes cs.length).1 = cs ∧ (b.getBytes cs.length).2.Unread bs ∧
      (b.getBytes cs.length).2 = { b with getIndex := b.getIndex + cs.length } := by
  have hfits := h.fits
  rw [List.length_append] at hfits
  have hroom : b.getIndex + cs.length ≤ b.size := by omega
  have hcheck : b.GetCheck cs.length := by rwa [GetCheck, mod_eq_of_le_size hroom]
  obtain ⟨hcs, hbs⟩ := Memory.read_eq_append h.bytes
  rw [Binary.getBytes, if_pos hcheck, skip, mod_eq_of_le_size hroom]
  exact ⟨hcs, ⟨hbs, by simp only; omega⟩, rfl⟩

theorem Unread.getUint8 {value : UInt8} (h : b.Unread (value :: bs)) :
    b.getUint8.1 = value ∧ b.getUint8.2.Unread bs ∧
      b.getUint8.2 = { b with getIndex := b.getIndex + 1 } := by
  have hunread : b.Unread ([value] ++ bs) := h
  obtain ⟨hvalue, hrest, hstate⟩ := hunread.getBytes
  refine ⟨?_, hrest, hstate⟩
  rw [Binary.getUint8]
  exact congrArg (fun l => List.headD l 0) hvalue

theorem Unread.getUint16 {value : UInt16} (h : b.Unread (leBytes 2 value.toNat ++ bs)) :
    b.getUint16.1 = value ∧ b.getUint16.2.Unread bs ∧
      b.getUint16.2 = { b with getIndex := b.getIndex + 2 } := by
  obtain ⟨hvalue, hrest, hstate⟩ := h.getBytes
  rw [length_leBytes] at hvalue hrest hstate
  refine ⟨?_, hrest, hstate⟩
  rw [Binary.getUint16, hvalue, leNat_leBytes_of_lt (by exact value.toNat_lt), UInt16.ofNat_toNat]

theorem Unread.getUint32 {value : UInt32} (h : b.Unread (leBytes 4 value.toNat ++ bs)) :
    b.getUint32.1 = value ∧ b.getUint32.2.Unread bs ∧
      b.getUint32.2 = { b with getIndex := b.getIndex + 4 } := by
  obtain ⟨hvalue, hrest, hstate⟩ := h.getBytes
  rw [length_leBytes] at hvalue hrest hstate
  refine ⟨?_, hrest, hstate⟩
  rw [Binary.getUint32, hvalue, leNat_leBytes_of_lt (by exact value.toNat_lt), UInt32.ofNat_toNat]

end Binary
end Firefly
