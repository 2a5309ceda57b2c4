import Firefly.Base.Varuint

/-!
# Firefly.Base.Fields

Sequences of fields in an `fd_binary_t`: what is put in order is taken again in order exactly when
each field has the room that its putter asks for, which for a 48-bit number is eight bytes, and each
string is no longer than what is left of the buffer behind all fields (`roundTrip_iff`): the putter
checks for the size of its argument, and `fd_binary_get_string` compares with the room to put.
-/

namespace Firefly
namespace Binary

open Bytes

variable {b : Binary} {limit : Nat} {bs cs : List UInt8}

/-! ## Fields -/

/-- A field of a message, with its value. -/
inductive Field where
  | uint8 (value : UInt8)
  | uint16 (value : UInt16)
  | uint24 (value : UInt32)
  | uint32 (value : UInt32)
  | uint48 (value : UInt64)
  | uint64 (value : UInt64)
  | bytes (data : List UInt8)
  | string (string : List UInt8)
  deriving DecidableEq

namespace Field

/-- The value is in range; a C string has no terminator inside. -/
def Valid : Field → Prop
  | uint24 value => value.toNat < 2 ^ 24
  | uint48 value => value.toNat < 2 ^ 48
  | bytes data => data.length < 2 ^ 32
  | string s => s.length < 2 ^ 32 ∧ 0 ∉ s
  | _ => True

def encoding : Field → List UInt8
  | uint8 value => [value]
  | uint16 value => leBytes 2 value.toNat
  | uint24 value => leBytes 3 value.toNat
  | uint32 value => leBytes 4 value.toNat
  | uint48 value => leBytes 6 value.toNat
  | uint64 value => leBytes 8 value.toNat
  | bytes data => data
  | string s => Varint.encode s.length ++ s

def put (b : Binary) : Field → Binary
  | uint8 value => b.putUint8 value
  | uint16 value => b.putUint16 value
  | uint24 value => b.putUint24 value
  | uint32 value => b.putUint32 value
  | uint48 value => b.putUint48 value
  | uint64 value => b.putUint64 value
  | bytes data => b.putBytes data
  | string s => b.putString s

/-- What the getter for a field of this kind gives. Raw bytes have no length of their own. -/
def get (b : Binary) : Field → Field × Binary
  | uint8 _ => (uint8 b.getUint8.1, b.getUint8.2)
  | uint16 _ => (uint16 b.getUint16.1, b.getUint16.2)
  | uint24 _ => (uint24 b.getUint24.1, b.getUint24.2)
  | uint32 _ => (uint32 b.getUint32.1, b.getUint32.2)
  | uint48 _ => (uint48 b.getUint48.1, b.getUint48.2)
  | uint64 _ => (uint64 b.getUint64.1, b.getUint64.2)
  | bytes data => (bytes (b.getBytes data.length).1, (b.getBytes data.length).2)
  | string _ => (string b.getString.1, b.getString.2)

/-- The bytes that the putter asks for. -/
def room : Field → Nat
  | uint48 _ => 8
  | f => f.encoding.length

end Field

def putFields (b : Binary) (fields : List Field) : Binary := fields.foldl Field.put b

def getFields (b : Binary) : List Field → List Field × Binary
  | [] => ([], b)
  | f :: fields =>
    let (value, b) := f.get b
    let (values, b) := getFields b fields
    (value :: values, b)

/-- The bytes of the fields, one behind the other. -/
def encodings (fields : List Field) : List UInt8 := fields.flatMap Field.encoding

/-! ## Putting fields -/

theorem length_lt_pow {n : Nat} (h : n < 2 ^ 32) : n < 128 ^ 10 := Nat.lt_trans h (by decide)

theorem Written.putField {f : Field} (h : b.Written limit bs) (hvalid : f.Valid)
    (hfit : bs.length + f.encoding.length ≤ limit) (hroom : (bs.length + f.room) % 2 ^ 32 ≤ limit) :
    (f.put b).Written limit (bs ++ f.encoding) := by
  cases f with
  | uint8 _ | uint16 _ | uint24 _ | uint32 _ | uint64 _ | bytes _ => exact h.putBytes hfit
  | uint48 value =>
    have hcheck : b.PutCheck 8 := by rwa [PutCheck, putIndex_eq h.contents, h.size]
    rw [Field.put, putUint48, if_pos hcheck]
    exact h.append hfit
  | string s =>
    rw [Field.encoding, List.length_append, ← Nat.add_assoc] at hfit
    have hlength := h.putVaruint (length_lt_pow hvalid.1) (Nat.le_trans (Nat.le_add_right _ _) hfit)
    have hstring : (b.putString s).Written limit (bs ++ Varint.encode s.length ++ s) :=
      hlength.putBytes (by rwa [List.length_append])
    rwa [List.append_assoc] at hstring

/-- Only a 48-bit number is refused where its bytes fit. -/
theorem Written.putField_errors {f : Field} (h : b.Written limit bs)
    (hfit : bs.length + f.encoding.length ≤ limit) (hroom : ¬ (bs.length + f.room) % 2 ^ 32 ≤ limit) :
    (f.put b).errors ≠ 0 := by
  have hlt : bs.length + f.encoding.length < 2 ^ 32 := by
    have hsize := h.size ▸ b.size_lt
    omega
  cases f with
  | uint48 value =>
    have hcheck : ¬ b.PutCheck 8 := by rwa [PutCheck, putIndex_eq h.contents, h.size]
    rw [Field.put, putUint48, if_neg hcheck]
    exact overflow_errors b
  | uint8 _ | uint16 _ | uint24 _ | uint32 _ | uint64 _ | bytes _ | string _ =>
    rw [Field.room, Nat.mod_eq_of_lt hlt] at hroom
    · exact absurd hfit hroom
    · intro value hf
      cases hf

theorem errors_putString (h : b.errors ≠ 0) (s : List UInt8) : (b.putString s).errors ≠ 0 := by
  rw [putString, putVaruint, putGroups_eq]
  exact errors_putBytes (errors_putAll h _) s

theorem errors_putField (h : b.errors ≠ 0) (f : Field) : (f.put b).errors ≠ 0 := by
  cases f with
  | uint8 _ | uint16 _ | uint24 _ | uint32 _ | uint64 _ | bytes _ => exact errors_putBytes h _
  | uint48 value =>
    rw [Field.put, putUint48]
    by_cases hcheck : b.PutCheck 8
    · rw [if_pos hcheck]
      exact h
    · rw [if_neg hcheck]
      exact errors_overflow h
  | string s => exact errors_putString h s

theorem errors_putFields (h : b.errors ≠ 0) (fields : List Field) : (b.putFields fields).errors ≠ 0 := by
  induction fields generalizing b with
  | nil => exact h
  | cons f fields ih => exact ih (errors_putField h f)

/-- At its place, each field has the room that its putter asks for. -/
def HaveRoom (limit : Nat) : Nat → List Field → Prop
  | _, [] => True
  | offset, f :: fields =>
    (offset + f.room) % 2 ^ 32 ≤ limit ∧ HaveRoom limit (offset + f.encoding.length) fields

theorem Written.putFields {fields : List Field} (h : b.Written limit bs)
    (hvalid : ∀ f ∈ fields, f.Valid) (hfit : bs.length + (encodings fields).length ≤ limit)
    (hroom : HaveRoom limit bs.length fields) :
    (b.putFields fields).Written limit (bs ++ encodings fields) := by
  induction fields generalizing b bs with
  | nil => rwa [encodings, List.flatMap_nil, List.append_nil]
  | cons f fields ih =>
    rw [encodings, List.flatMap_cons, List.length_append] at hfit
    have hput := h.putField (hvalid f List.mem_cons_self) (by omega) hroom.1
    have hrest := ih hput (fun g hg => hvalid g (List.mem_cons_of_mem f hg))
      (by rw [List.length_append, encodings]; omega) (by rw [List.length_append]; exact hroom.2)
    rwa [List.append_assoc] at hrest

theorem Written.putFields_errors {fields : List Field} (h : b.Written limit bs)
    (hvalid : ∀ f ∈ fields, f.Valid) (hfit : bs.length + (encodings fields).length ≤ limit)
    (hroom : ¬ HaveRoom limit bs.length fields) : (b.putFields fields).errors ≠ 0 := by
  induction fields generalizing b bs with
  | nil => exact absurd trivial hroom
  | cons f fields ih =>
    rw [encodings, List.flatMap_cons, List.length_append] at hfit
    by_cases hhead : (bs.length + f.room) % 2 ^ 32 ≤ limit
    · have hput := h.putField (hvalid f List.mem_cons_self) (by omega) hhead
      refine ih hput (fun g hg => hvalid g (List.mem_cons_of_mem f hg))
        (by rw [List.length_append, encodings]; omega) ?_
      rw [List.length_append]
      exact fun hrest => hroom ⟨hhead, hrest⟩
    · exact errors_putFields (h.putField_errors (by omega) hhead) fields

theorem getIndex_putBytes (b : Binary) (cs : List UInt8) : (b.putBytes cs).getIndex = b.getIndex := by
  rw [Binary.putBytes]
  by_cases hcheck : b.PutCheck cs.length
  · rw [if_pos hcheck]
    rfl
  · rw [if_neg hcheck]
    rfl

theorem getIndex_putAll (b : Binary) (fields : List (List UInt8)) :
    (b.putAll fields).getIndex = b.getIndex := by
  induction fields generalizing b with
  | nil => rfl
  | cons cs fields ih => exact (ih (b.putBytes cs)).trans (getIndex_putBytes b cs)

theorem getIndex_putField (b : Binary) (f : Field) : (f.put b).getIndex = b.getIndex := by
  cases f with
  | uint8 _ | uint16 _ | uint24 _ | uint32 _ | uint64 _ | bytes _ => exact getIndex_putBytes b _
  | uint48 value =>
    rw [Field.put, putUint48]
    by_cases hcheck : b.PutCheck 8
    · rw [if_pos hcheck]
      rfl
    · rw [if_neg hcheck]
      rfl
  | string s =>
    rw [Field.put, putString, putVaruint, putGroups_eq, getIndex_putBytes, getIndex_putAll]

theorem getIndex_putFields (b : Binary) (fields : List Field) :
    (b.putFields fields).getIndex = b.getIndex := by
  induction fields generalizing b with
  | nil => rfl
  | cons f fields ih => exact (ih (f.put b)).trans (getIndex_putField b f)

/-! ## Getting fields -/

theorem Unread.getBytes_eq (h : b.Unread (cs ++ bs)) : b.getBytes cs.length = (cs, b.skip cs.length) := by
  have hfits := h.fits
  rw [List.length_append] at hfits
  have hroom : b.getIndex + cs.length ≤ b.size := by omega
  have hcheck : b.GetCheck cs.length := by rwa [GetCheck, mod_eq_of_le_size hroom]
  rw [Binary.getBytes, if_pos hcheck, (Memory.read_eq_append h.bytes).1]

theorem Unread.getNumber {w n : Nat} (h : b.Unread (leBytes w n ++ bs)) (hn : n < 256 ^ w) :
    leNat (b.getBytes w).1 = n ∧ (b.getBytes w).2 = b.skip w := by
  have hget := h.getBytes_eq
  rw [length_leBytes] at hget
  rw [hget]
  exact ⟨leNat_leBytes_of_lt hn, rfl⟩

@[simp] theorem skip_remainingLength (b : Binary) (n : Nat) :
    (b.skip n).remainingLength = b.remainingLength := rfl

theorem Unread.getString_eq {s : List UInt8} (h : b.Unread (Varint.encode s.length ++ s ++ bs))
    (hlt : s.length < 2 ^ 32) (hle : s.length ≤ b.remainingLength) :
    b.getString = (s, b.skip (Varint.encode s.length ++ s).length) := by
  rw [List.append_assoc] at h
  have hlength : (UInt64.ofNat s.length).toNat = s.length := by
    rw [UInt64.toNat_ofNat', Nat.mod_eq_of_lt (Nat.lt_trans hlt (by decide))]
  have hread := (Memory.read_eq_append (h.skip).bytes).1
  rw [Binary.getString, h.getVaruint (Nat.lt_trans hlt (by decide))]
  simp only [hlength, skip_remainingLength]
  rw [if_neg (Nat.not_lt.mpr hle), hread, skip_skip, List.length_append]

/-- A string that is longer than what is left of the buffer behind the last put is an error. -/
theorem Unread.getString_errors {s : List UInt8} (h : b.Unread (Varint.encode s.length ++ s ++ bs))
    (hlt : s.length < 2 ^ 32) (hgt : b.remainingLength < s.length) : b.getString.2.errors ≠ 0 := by
  rw [List.append_assoc] at h
  have hlength : (UInt64.ofNat s.length).toNat = s.length := by
    rw [UInt64.toNat_ofNat', Nat.mod_eq_of_lt (Nat.lt_trans hlt (by decide))]
  rw [Binary.getString, h.getVaruint (Nat.lt_trans hlt (by decide))]
  simp only [hlength, skip_remainingLength]
  rw [if_pos hgt]
  intro h0
  exact absurd (Nat.or_eq_zero_iff.mp h0).2 (by decide)

theorem Unread.getField {f : Field} (h : b.Unread (f.encoding ++ bs)) (hvalid : f.Valid)
    (hstring : ∀ s, f = .string s → s.length ≤ b.remainingLength) :
    f.get b = (f, b.skip f.encoding.length) := by
  cases f with
  | uint8 value =>
    have hget : b.getBytes 1 = ([value], b.skip 1) := h.getBytes_eq
    rw [Field.get, Binary.getUint8, hget]
    rfl
  | uint16 value =>
    obtain ⟨hvalue, hstate⟩ := h.getNumber value.toNat_lt
    rw [Field.get, Binary.getUint16, hvalue, hstate, UInt16.ofNat_toNat, Field.encoding, length_leBytes]
  | uint24 value =>
    obtain ⟨hvalue, hstate⟩ := h.getNumber hvalid
    rw [Field.get, getUint24, hvalue, hstate, UInt32.ofNat_toNat, Field.encoding, length_leBytes]
  | uint32 value =>
    obtain ⟨hvalue, hstate⟩ := h.getNumber value.toNat_lt
    rw [Field.get, Binary.getUint32, hvalue, hstate, UInt32.ofNat_toNat, Field.encoding, length_leBytes]
  | uint48 value =>
    obtain ⟨hvalue, hstate⟩ := h.getNumber hvalid
    rw [Field.get, getUint48, hvalue, hstate, UInt64.ofNat_toNat, Field.encoding, length_leBytes]
  | uint64 value =>
    obtain ⟨hvalue, hstate⟩ := h.getNumber value.toNat_lt
    rw [Field.get, getUint64, hvalue, hstate, UInt64.ofNat_toNat, Field.encoding, length_leBytes]
  | bytes data =>
    have hget : b.getBytes data.length = (data, b.skip data.length) := h.getBytes_eq
    rw [Field.get, hget]
    rfl
  | string s =>
    have hget := h.getString_eq hvalid.1 (hstring s rfl)
    rw [Field.get, hget]
    rfl

theorem errors_getBytes (h : b.errors ≠ 0) (n : Nat) : (b.getBytes n).2.errors ≠ 0 := by
  rw [Binary.getBytes]
  by_cases hcheck : b.GetCheck n
  · rw [if_pos hcheck]
    exact h
  · rw [if_neg hcheck]
    intro h0
    exact h (Nat.or_eq_zero_iff.mp h0).1

theorem errors_getGroups (h : b.errors ≠ 0) (remaining index : Nat) (value : UInt64) :
    (b.getGroups remaining index value).2.errors ≠ 0 := by
  have hor : ∀ e, b.errors ||| e ≠ 0 := fun e h0 => h (Nat.or_eq_zero_iff.mp h0).1
  induction remaining generalizing b index value with
  | zero => exact hor _
  | succ remaining ih =>
    simp only [Binary.getGroups]
    split
    · exact h
    · split
      · exact hor _
      · have hskip : (b.skip 1).errors ≠ 0 := h
        exact ih hskip _ _ hor

theorem errors_getString (h : b.errors ≠ 0) : b.getString.2.errors ≠ 0 := by
  have hvaruint : b.getVaruint.2.errors ≠ 0 := errors_getGroups h _ _ _
  rw [Binary.getString]
  by_cases hlong : b.getVaruint.2.remainingLength < b.getVaruint.1.toNat
  · rw [if_pos hlong]
    intro h0
    exact hvaruint (Nat.or_eq_zero_iff.mp h0).1
  · rw [if_neg hlong]
    exact hvaruint

theorem errors_getField (h : b.errors ≠ 0) (f : Field) : (f.get b).2.errors ≠ 0 := by
  cases f with
  | uint8 _ | uint16 _ | uint24 _ | uint32 _ | uint48 _ | uint64 _ | bytes _ => exact errors_getBytes h _
  | string s =>
    rw [Field.get]
    exact errors_getString h

theorem errors_getFields (h : b.errors ≠ 0) (fields : List Field) : (b.getFields fields).2.errors ≠ 0 := by
  induction fields generalizing b with
  | nil => exact h
  | cons f fields ih => exact ih (errors_getField h f)

theorem Unread.getFields {fields : List Field} (h : b.Unread (encodings fields))
    (hvalid : ∀ f ∈ fields, f.Valid) (hstring : ∀ s, .string s ∈ fields → s.length ≤ b.remainingLength) :
    b.getFields fields = (fields, b.skip (encodings fields).length) := by
  induction fields generalizing b with
  | nil =>
    have hfits : b.getIndex + 0 ≤ b.size := h.fits
    rw [encodings, List.flatMap_nil, List.length_nil, skip_eq hfits]
    rfl
  | cons f fields ih =>
    have hunread : b.Unread (f.encoding ++ encodings fields) := h
    have hget := hunread.getField (hvalid f List.mem_cons_self)
      (fun s hs => hstring s (hs ▸ List.mem_cons_self))
    have hrest := ih hunread.skip (fun g hg => hvalid g (List.mem_cons_of_mem f hg))
      (fun s hs => hstring s (List.mem_cons_of_mem f hs))
    simp only [Binary.getFields, hget, hrest, skip_skip, encodings, List.flatMap_cons, List.length_append]

theorem Unread.getFields_errors {fields : List Field} (h : b.Unread (encodings fields))
    (hvalid : ∀ f ∈ fields, f.Valid) {s : List UInt8} (hs : .string s ∈ fields)
    (hgt : b.remainingLength < s.length) : (b.getFields fields).2.errors ≠ 0 := by
  induction fields generalizing b with
  | nil => cases hs
  | cons f fields ih =>
    have hunread : b.Unread (f.encoding ++ encodings fields) := h
    have hhead := hvalid f List.mem_cons_self
    by_cases hlong : ∃ t, f = .string t ∧ b.remainingLength < t.length
    · obtain ⟨t, rfl, ht⟩ := hlong
      exact errors_getFields (hunread.getString_errors hhead.1 ht) fields
    · have hget := hunread.getField hhead (fun t ht => Nat.le_of_not_lt fun hlt => hlong ⟨t, ht, hlt⟩)
      have hmem : .string s ∈ fields := by
        cases List.mem_cons.mp hs with
        | inl heq => exact absurd ⟨s, heq.symm, hgt⟩ hlong
        | inr hmem => exact hmem
      have hrest := ih hunread.skip (fun g hg => hvalid g (List.mem_cons_of_mem f hg)) hmem hgt
      simpa only [Binary.getFields, hget] using hrest

/-! ## The round trip -/

/-- Putting the fields into an empty buffer and getting them again gives the values. -/
def RoundTrip (buffer : Memory) (size : UInt32) (fields : List Field) : Prop :=
  let b := (initializeWith buffer size).putFields fields
  let r := b.getFields fields
  r.1 = fields ∧ r.2.errors = 0 ∧ r.2.getIndex = r.2.putIndex

theorem roundTrip_iff (buffer : Memory) (size : UInt32) {fields : List Field}
    (hvalid : ∀ f ∈ fields, f.Valid) (hfit : (encodings fields).length ≤ size.toNat) :
    RoundTrip buffer size fields ↔ HaveRoom size.toNat 0 fields ∧
      ∀ s, .string s ∈ fields → s.length ≤ size.toNat - (encodings fields).length := by
  have hempty := written_initializeWith buffer size
  have hfit' : ([] : List UInt8).length + (encodings fields).length ≤ size.toNat := by
    rwa [List.length_nil, Nat.zero_add]
  by_cases hroom : HaveRoom size.toNat 0 fields
  · have hput := hempty.putFields hvalid hfit' hroom
    rw [List.nil_append] at hput
    obtain ⟨b, hb⟩ : ∃ b, b = (initializeWith buffer size).putFields fields := ⟨_, rfl⟩
    have hgetIndex : b.getIndex = 0 := by rw [hb, getIndex_putFields]; rfl
    rw [← hb] at hput
    have hputIndex := putIndex_eq hput.contents
    have hbytes := hput.contents
    rw [Binary.contents, hputIndex] at hbytes
    have hunread : b.Unread (encodings fields) := by
      refine ⟨?_, ?_⟩
      · rw [hgetIndex, hbytes]
      · rw [hgetIndex, Nat.zero_add, hput.size]
        exact hfit
    have hsize : b.size = size.toNat := hput.size
    have hlt := b.size_lt
    have hremaining : b.remainingLength = size.toNat - (encodings fields).length := by
      rw [remainingLength, hputIndex,
        show 2 ^ 32 - (encodings fields).length + b.size = b.size - (encodings fields).length + 2 ^ 32 by omega,
        Nat.add_mod_right, Nat.mod_eq_of_lt (by omega), hsize]
    rw [RoundTrip, ← hb, ← hremaining]
    by_cases hstring : ∀ s, .string s ∈ fields → s.length ≤ b.remainingLength
    · have hget := hunread.getFields hvalid hstring
      rw [skip_eq hunread.fits, hgetIndex, Nat.zero_add, ← hputIndex] at hget
      rw [hget]
      exact ⟨fun _ => ⟨hroom, hstring⟩, fun _ => ⟨rfl, hput.errors, rfl⟩⟩
    · constructor
      · intro h
        obtain ⟨s, hs⟩ := not_forall.mp hstring
        obtain ⟨hmem, hgt⟩ := Classical.not_imp.mp hs
        exact absurd h.2.1 (hunread.getFields_errors hvalid hmem (Nat.lt_of_not_le hgt))
      · intro h
        exact absurd h.2 hstring
  · have herrors := hempty.putFields_errors hvalid hfit' hroom
    constructor
    · intro h
      exact absurd h.2.1 (errors_getFields herrors fields)
    · intro h
      exact absurd h.1 hroom

end Binary
end Firefly
