import Firefly.Base.Binary
import Firefly.Base.Cobs
import Firefly.Base.Crc16

/-!
# Firefly.Base.Envelope

`fd_envelope.c`: a message travels with a trailer of ten bytes, its fields, length and check, and
byte stuffed. Both directions work in the buffer of the message.

`message payload e` is the payload with its trailer, and `parse` reads it back (`parse_message`). The
encoder leaves the encoding of `message` (`encode_eq`) and the decoder what `parse` says of the
decoded bytes (`decode_eq`).
-/

namespace Firefly

open Bytes

structure Envelope where
  crc16 : UInt16
  length : UInt16
  target : UInt8
  source : UInt8
  system : UInt8
  subsystem : UInt8
  type : UInt8
  reserved0 : UInt8
  deriving DecidableEq

namespace Envelope

def typeEvent : UInt8 := 0
def typeRequest : UInt8 := 1
def typeResponse : UInt8 := 2

/-- `fd_envelope_size`. -/
def trailerSize : Nat := 10

/-- The envelope that a dispatch function gives its response. -/
def response (envelope : Envelope) : Envelope :=
  ⟨0, 0, envelope.source, envelope.target, envelope.system, envelope.subsystem, typeResponse, 0⟩

/-- The envelope in the last bytes of a message. -/
def get (message : Binary) : Envelope :=
  let binary := Binary.initializeWith (fun x => message.buffer (message.putIndex - trailerSize + x))
    (UInt32.ofNat trailerSize)
  let (reserved0, binary) := binary.getUint8
  let (type, binary) := binary.getUint8
  let (subsystem, binary) := binary.getUint8
  let (system, binary) := binary.getUint8
  let (source, binary) := binary.getUint8
  let (target, binary) := binary.getUint8
  let (length, binary) := binary.getUint16
  let (crc16, _) := binary.getUint16
  ⟨crc16, length, target, source, system, subsystem, type, reserved0⟩

/-- `fd_envelope_decode`: the message afterwards, and the envelope if the result is true. -/
def decode (message : Binary) : Binary × Option Envelope :=
  let (buffer, length) := InPlace.decode message.buffer message.putIndex
  let message := { message with buffer := buffer, putIndex := length }
  if message.putIndex < trailerSize then (message, none)
  else
    let envelope := get message
    let crc16 := Crc16.update (message.buffer.read 0 (message.putIndex - 2))
    if crc16 ≠ envelope.crc16 then (message, none)
    else
      let length := UInt16.ofNat (message.putIndex - trailerSize)
      if length ≠ envelope.length then (message, none)
      else ({ message with putIndex := message.putIndex - trailerSize }, some envelope)

/-- The fields of the trailer but the check. -/
def put (message : Binary) (envelope : Envelope) : Binary :=
  let message := message.putUint8 envelope.reserved0
  let message := message.putUint8 envelope.type
  let message := message.putUint8 envelope.subsystem
  let message := message.putUint8 envelope.system
  let message := message.putUint8 envelope.source
  let message := message.putUint8 envelope.target
  message.putUint16 envelope.length

/-- The bytes of the queue that the byte stuffing uses. -/
def lookahead : Nat := 32

/-- The message with its trailer. -/
def putTrailer (message : Binary) (envelope : Envelope) : Binary × Envelope :=
  let envelope := { envelope with length := UInt16.ofNat message.putIndex }
  let message := put message envelope
  let envelope := { envelope with crc16 := Crc16.update (message.buffer.read 0 message.putIndex) }
  (message.putUint16 envelope.crc16, envelope)

/-- `fd_envelope_encode`: the result, the message and the envelope afterwards. The memory of the queue
is not initialized. -/
def encode (buffer : Memory) (message : Binary) (envelope : Envelope) :
    Option (Bool × Binary × Envelope) := do
  let (message, envelope) := putTrailer message envelope
  let (data, length) ← InPlace.encode message.buffer message.putIndex buffer lookahead
  let errors := if length = 0 then message.errors ||| Binary.errorOverflow else message.errors
  some (errors = 0, { message with buffer := data, putIndex := length, errors := errors }, envelope)

/-! ## Messages -/

def fields (e : Envelope) : List UInt8 :=
  [e.reserved0, e.type, e.subsystem, e.system, e.source, e.target] ++ leBytes 2 e.length.toNat

def trailer (e : Envelope) : List UInt8 := fields e ++ leBytes 2 e.crc16.toNat

/-- The envelope with the length and the check that belong to the payload. -/
def stamp (payload : List UInt8) (e : Envelope) : Envelope :=
  let e := { e with length := UInt16.ofNat payload.length }
  { e with crc16 := Crc16.update (payload ++ fields e) }

def message (payload : List UInt8) (e : Envelope) : List UInt8 := payload ++ trailer (stamp payload e)

variable {payload bs : List UInt8} {e : Envelope}

@[simp] theorem length_fields (e : Envelope) : (fields e).length = 8 := by simp [fields]

@[simp] theorem length_trailer (e : Envelope) : (trailer e).length = trailerSize := by
  simp [trailer, trailerSize]

@[simp] theorem length_message (payload : List UInt8) (e : Envelope) :
    (message payload e).length = payload.length + trailerSize := by
  simp [message]

theorem eq_stamp_iff : e = stamp payload e ↔
    Crc16.update (payload ++ fields e) = e.crc16 ∧ UInt16.ofNat payload.length = e.length := by
  constructor
  · intro h
    have hlength : e.length = UInt16.ofNat payload.length := congrArg Envelope.length h
    have hcrc : e.crc16 = Crc16.update (payload ++ fields { e with length := UInt16.ofNat payload.length }) :=
      congrArg Envelope.crc16 h
    rw [← hlength] at hcrc
    exact ⟨hcrc.symm, hlength.symm⟩
  · rintro ⟨hcrc, hlength⟩
    simp only [stamp, hlength, hcrc]

/-- Any ten bytes are a trailer. -/
theorem exists_trailer (h : bs.length = trailerSize) : ∃ e, bs = trailer e := by
  match bs, h with
  | [a, b, c, d, s, t, l₀, l₁, c₀, c₁], _ =>
    refine ⟨⟨UInt16.ofNat (leNat [c₀, c₁]), UInt16.ofNat (leNat [l₀, l₁]), t, s, d, c, b, a⟩, ?_⟩
    have hword (x y : UInt8) : leBytes 2 (UInt16.ofNat (leNat [x, y])).toNat = [x, y] := by
      have hlt : leNat [x, y] < 256 ^ 2 := leNat_lt [x, y]
      have hpow : 256 ^ 2 = 2 ^ 16 := by decide
      rw [UInt16.toNat_ofNat', Nat.mod_eq_of_lt (hpow ▸ hlt)]
      exact leBytes_leNat [x, y]
    rw [trailer, fields, hword, hword]
    rfl

/-- A message that is long enough is a payload and a trailer. -/
theorem exists_payload (h : trailerSize ≤ bs.length) : ∃ payload e, bs = payload ++ trailer e := by
  have hlen : (bs.drop (bs.length - trailerSize)).length = trailerSize := by
    rw [List.length_drop]
    omega
  obtain ⟨e, he⟩ := exists_trailer hlen
  exact ⟨bs.take (bs.length - trailerSize), e, by rw [← he, List.take_append_drop]⟩

/-! ## Decoding -/

theorem get_eq {m : Binary} (h : m.contents = payload ++ trailer e) : get m = e := by
  have hread := (Memory.read_eq_append h).2
  have hindex : m.putIndex - trailerSize = payload.length := by
    rw [Binary.putIndex_eq h, List.length_append, length_trailer, Nat.add_sub_cancel]
  rw [Nat.zero_add] at hread
  have hstart : (Binary.initializeWith (fun x => m.buffer (m.putIndex - trailerSize + x))
      (UInt32.ofNat trailerSize)).Unread (trailer e ++ []) := by
    refine ⟨?_, ?_⟩
    · rw [List.append_nil, hindex, ← hread]
      apply Memory.read_congr
      intro i _
      simp only [Binary.initializeWith, Nat.zero_add]
    · rw [List.append_nil, length_trailer]
      exact Nat.le_refl _
  simp only [trailer, fields, List.append_assoc, List.cons_append, List.nil_append] at hstart
  obtain ⟨h₁, hnext, -⟩ := hstart.getUint8
  obtain ⟨h₂, hnext, -⟩ := hnext.getUint8
  obtain ⟨h₃, hnext, -⟩ := hnext.getUint8
  obtain ⟨h₄, hnext, -⟩ := hnext.getUint8
  obtain ⟨h₅, hnext, -⟩ := hnext.getUint8
  obtain ⟨h₆, hnext, -⟩ := hnext.getUint8
  obtain ⟨h₇, hnext, -⟩ := hnext.getUint16
  obtain ⟨h₈, -, -⟩ := hnext.getUint16
  simp only [get, h₁, h₂, h₃, h₄, h₅, h₆, h₇, h₈]

variable {m : Binary}

/-- The message once it is decoded. -/
def unstuffed (m : Binary) : Binary :=
  { m with
    buffer := (InPlace.decode m.buffer m.putIndex).1
    putIndex := (InPlace.decode m.buffer m.putIndex).2 }

theorem contents_unstuffed (h : m.contents = bs) : (unstuffed m).contents = Cobs.decode bs :=
  (InPlace.decode_eq h).2

theorem decode_short (h : m.contents = bs) (hshort : (Cobs.decode bs).length < trailerSize) :
    (decode m).2 = none := by
  have hindex : (unstuffed m).putIndex < trailerSize := by
    rwa [Binary.putIndex_eq (contents_unstuffed h)]
  show (if (unstuffed m).putIndex < trailerSize then (unstuffed m, none) else _).2 = none
  rw [if_pos hindex]

/-- What the decoder makes of a message that is long enough. -/
theorem decode_eq (h : m.contents = bs) (hbs : Cobs.decode bs = payload ++ trailer e) :
    decode m = if e = stamp payload e then
      ({ unstuffed m with putIndex := payload.length }, some e) else (unstuffed m, none) := by
  have hcontents : (unstuffed m).contents = payload ++ trailer e := by rw [contents_unstuffed h, hbs]
  have hindex : (unstuffed m).putIndex = payload.length + trailerSize := by
    rw [Binary.putIndex_eq hcontents, List.length_append, length_trailer]
  have hget := get_eq hcontents
  have hcrc : (unstuffed m).buffer.read 0 ((unstuffed m).putIndex - 2) = payload ++ fields e := by
    have hread : (unstuffed m).buffer.read 0 (unstuffed m).putIndex =
        (payload ++ fields e) ++ leBytes 2 e.crc16.toNat := by
      rw [List.append_assoc]
      exact hcontents
    have hlen : (unstuffed m).putIndex - 2 = (payload ++ fields e).length := by
      rw [hindex, List.length_append, length_fields, trailerSize]
      omega
    rw [hlen]
    exact (Memory.read_eq_append hread).1
  show (if (unstuffed m).putIndex < trailerSize then (unstuffed m, none)
    else if Crc16.update ((unstuffed m).buffer.read 0 ((unstuffed m).putIndex - 2)) ≠
      (get (unstuffed m)).crc16 then (unstuffed m, none)
    else if UInt16.ofNat ((unstuffed m).putIndex - trailerSize) ≠ (get (unstuffed m)).length then
      (unstuffed m, none)
    else ({ unstuffed m with putIndex := (unstuffed m).putIndex - trailerSize },
      some (get (unstuffed m)))) = _
  rw [hget, hcrc, hindex, Nat.add_sub_cancel, if_neg (by omega)]
  by_cases hstamp : e = stamp payload e
  · obtain ⟨hcrc', hlength⟩ := eq_stamp_iff.mp hstamp
    rw [if_pos hstamp, if_neg (not_not.mpr hcrc'), if_neg (not_not.mpr hlength)]
  · rw [if_neg hstamp]
    by_cases hcrc' : Crc16.update (payload ++ fields e) = e.crc16
    · have hlength : UInt16.ofNat payload.length ≠ e.length := by
        intro hlength
        exact hstamp (eq_stamp_iff.mpr ⟨hcrc', hlength⟩)
      rw [if_neg (not_not.mpr hcrc'), if_pos hlength]
    · rw [if_pos hcrc']

theorem Written.decode {limit : Nat} (h : m.Written limit bs)
    (hbs : Cobs.decode bs = message payload e) : (decode m).2 = some (stamp payload e) ∧
      (decode m).1.Written limit payload := by
  have hstamp : stamp payload e = stamp payload (stamp payload e) := rfl
  have hcontents := contents_unstuffed h.contents
  rw [decode_eq h.contents hbs, if_pos hstamp]
  rw [hbs, message] at hcontents
  refine ⟨rfl, h.size, ?_, h.errors, ?_⟩
  · rw [Binary.contents, Binary.putIndex_eq hcontents] at hcontents
    exact (Memory.read_eq_append hcontents).1
  · have hle := Cobs.length_decode_le bs
    have hfits := h.fits
    rw [hbs, length_message] at hle
    omega

/-! ## Encoding -/

theorem written_put {limit : Nat} (h : m.Written limit bs) (hfit : bs.length + 8 ≤ limit) :
    (put m e).Written limit (bs ++ fields e) := by
  have hflatten : [[e.reserved0], [e.type], [e.subsystem], [e.system], [e.source], [e.target],
      leBytes 2 e.length.toNat].flatten = fields e := by
    simp [fields]
  have hput := h.putAll (by rw [hflatten, length_fields]; exact hfit)
  rw [hflatten] at hput
  simpa only [Binary.putAll, List.foldl_cons, List.foldl_nil, put, Binary.putUint8,
    Binary.putUint16] using hput

theorem putTrailer_eq {limit : Nat} (h : m.Written limit payload) (e : Envelope)
    (hfit : payload.length + trailerSize ≤ limit) :
    (putTrailer m e).2 = stamp payload e ∧ (putTrailer m e).1.Written limit (message payload e) := by
  have hput : (put m { e with length := UInt16.ofNat payload.length }).Written limit
      (payload ++ fields { e with length := UInt16.ofNat payload.length }) :=
    written_put h (by rw [trailerSize] at hfit; omega)
  have hcontents := hput.contents
  have hstamp : (putTrailer m e).2 = stamp payload e := by
    rw [Binary.contents] at hcontents
    simp only [putTrailer, Binary.putIndex_eq h.contents, hcontents, stamp]
  refine ⟨hstamp, ?_⟩
  have hroom : (payload ++ fields { e with length := UInt16.ofNat payload.length }).length +
      (leBytes 2 (putTrailer m e).2.crc16.toNat).length ≤ limit := by
    rw [List.length_append, length_fields, length_leBytes]
    exact hfit
  have hcheck := hput.putBytes hroom
  have hmessage : (payload ++ fields { e with length := UInt16.ofNat payload.length }) ++
      leBytes 2 (stamp payload e).crc16.toNat = message payload e := by
    rw [message, trailer, List.append_assoc]
    rfl
  rw [← hmessage, ← hstamp]
  simp only [putTrailer, Binary.putIndex_eq h.contents, Binary.putUint16] at hcheck ⊢
  exact hcheck

/-- The encoder seals the payload and stuffs it, if the buffer can hold it. -/
theorem encode_eq {limit : Nat} (h : m.Written limit payload) (buffer : Memory) (e : Envelope)
    (hlimit : limit ≤ Cobs.fullLength * (lookahead - 1))
    (hfit : (Cobs.encode (message payload e)).length ≤ limit) :
    ∃ m', encode buffer m e = some (true, m', stamp payload e) ∧
      m'.Written limit (Cobs.encode (message payload e)) := by
  have hlt := (Cobs.encodes_encode (message payload e)).length_lt
  have hlen := length_message payload e
  obtain ⟨hstamp, hsealed⟩ := putTrailer_eq h e (by omega)
  obtain ⟨data, hencode, hdata⟩ := InPlace.encode_eq hsealed.contents (by decide : 2 ≤ lookahead)
    (by rw [Binary.putIndex_eq hsealed.contents]; omega) buffer
  have hne : (Cobs.encode (message payload e)).length ≠ 0 := by omega
  refine ⟨_, ?_, hsealed.replace hdata hfit⟩
  simp only [encode, Option.bind_eq_bind]
  rw [hencode, Option.bind_some]
  simp only [if_neg hne, hsealed.errors, hstamp, decide_true]

end Envelope
end Firefly
