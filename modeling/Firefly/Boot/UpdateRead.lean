import Firefly.Base.Overlap
import Firefly.Boot.Split

/-!
# Firefly.Boot.UpdateRead

`fd_boot_split_controller_update_read`: the controller reads the update for the peripheral. The data is
read to where it goes in the response, which then gets its trailer, is byte stuffed and delimited.

The check takes a request whose end is not behind the end of the storage, in 32 bits; it does not look
at where the request begins or at the buffer. `updateRead_iff` says for which requests the controller
keeps to the storage and to its buffer, and gives the data that fit.
-/

namespace Firefly

open Bytes

/-! ## Fields that may not fit -/

namespace Binary

variable {b : Binary} {limit : Nat} {data : Memory} {bs cs : List UInt8}

/-- A field is put if there is room for it. -/
def putFit (limit : Nat) (bs cs : List UInt8) : List UInt8 :=
  if bs.length + cs.length ≤ limit then bs ++ cs else bs

/-- The bytes `bs` are in the buffer, and behind it the memory is `data`. -/
structure Held (limit : Nat) (data : Memory) (bs : List UInt8) (b : Binary) : Prop where
  size : b.size = limit
  contents : b.contents = bs
  fits : bs.length ≤ limit
  behind : ∀ x, limit ≤ x → b.buffer x = data x

theorem held_initializeWith (data : Memory) (size : UInt32) :
    (initializeWith data size).Held size.toNat data [] := ⟨rfl, rfl, Nat.zero_le _, fun _ _ => rfl⟩

theorem Held.append (h : b.Held limit data bs) (hfit : bs.length + cs.length ≤ limit) :
    (b.append cs).Held limit data (bs ++ cs) := by
  have hindex := putIndex_eq h.contents
  have hroom : b.putIndex + cs.length ≤ b.size := by rwa [hindex, h.size]
  have hwrite := Memory.read_write_append h.contents cs
  rw [Nat.zero_add] at hwrite
  rw [Binary.append, mod_eq_of_le_size hroom]
  refine ⟨h.size, hwrite, ?_, ?_⟩
  · rwa [List.length_append]
  · intro x hx
    rw [← h.behind x hx]
    exact Memory.write_of_outside (by omega)

theorem Held.putBytes (h : b.Held limit data bs) (hlt : limit + cs.length < 2 ^ 32) :
    (b.putBytes cs).Held limit data (putFit limit bs cs) := by
  have hindex := putIndex_eq h.contents
  have hfits := h.fits
  rw [Binary.putBytes, putFit]
  by_cases hroom : bs.length + cs.length ≤ limit
  · have hcheck : b.PutCheck cs.length := by
      apply putCheck_of_le
      rwa [hindex, h.size]
    rw [if_pos hcheck, if_pos hroom]
    exact h.append hroom
  · have hcheck : ¬ b.PutCheck cs.length := by
      apply not_putCheck
      · rw [hindex, h.size]
        exact Nat.not_le.mp hroom
      · omega
    rw [if_neg hcheck, if_neg hroom]
    exact ⟨h.size, h.contents, h.fits, h.behind⟩

/-- What is put for certain. -/
theorem putFit_of_le (h : bs.length + cs.length ≤ limit) : putFit limit bs cs = bs ++ cs := if_pos h

theorem length_putFit (limit : Nat) (bs cs : List UInt8) : (putFit limit bs cs).length =
    if bs.length + cs.length ≤ limit then bs.length + cs.length else bs.length := by
  unfold putFit
  split <;> simp

/-- Fields put one after the other, as far as they fit. -/
def putFits (limit : Nat) (bs : List UInt8) (fields : List (List UInt8)) : List UInt8 :=
  fields.foldl (putFit limit) bs

theorem Held.putAll {fields : List (List UInt8)} (h : b.Held limit data bs)
    (hlt : ∀ cs ∈ fields, limit + cs.length < 2 ^ 32) :
    (b.putAll fields).Held limit data (putFits limit bs fields) := by
  induction fields generalizing b bs with
  | nil => exact h
  | cons cs fields ih =>
    exact ih (h.putBytes (hlt cs List.mem_cons_self)) fun cs' hmem => hlt cs' (List.mem_cons_of_mem cs hmem)

theorem exists_putFits (limit : Nat) (bs : List UInt8) (fields : List (List UInt8)) :
    ∃ rest, putFits limit bs fields = bs ++ rest ∧ rest.length ≤ fields.flatten.length := by
  induction fields generalizing bs with
  | nil => exact ⟨[], (List.append_nil bs).symm, Nat.le_refl _⟩
  | cons cs fields ih =>
    obtain ⟨rest, hrest, hle⟩ := ih (putFit limit bs cs)
    rw [List.flatten_cons, List.length_append]
    by_cases hroom : bs.length + cs.length ≤ limit
    · refine ⟨cs ++ rest, ?_, ?_⟩
      · rw [← List.append_assoc, ← putFit_of_le hroom]
        exact hrest
      · rw [List.length_append]
        omega
    · refine ⟨rest, ?_, by omega⟩
      rw [putFit, if_neg hroom] at hrest
      rw [← hrest, putFits, List.foldl_cons, putFit, if_neg hroom]
      rfl

theorem putFits_of_le {fields : List (List UInt8)} (h : bs.length + fields.flatten.length ≤ limit) :
    putFits limit bs fields = bs ++ fields.flatten := by
  induction fields generalizing bs with
  | nil => rw [List.flatten_nil, List.append_nil, putFits, List.foldl_nil]
  | cons cs fields ih =>
    rw [List.flatten_cons, List.length_append] at h
    have hnext := @ih (bs ++ cs) (by rw [List.length_append]; omega)
    rw [List.flatten_cons, ← List.append_assoc, ← hnext, putFits, List.foldl_cons,
      putFit_of_le (show bs.length + cs.length ≤ limit by omega)]
    rfl

theorem length_putFits (limit : Nat) (bs : List UInt8) (fields : List (List UInt8)) :
    (putFits limit bs fields).length = (fields.map List.length).foldl
      (fun n width => if n + width ≤ limit then n + width else n) bs.length := by
  induction fields generalizing bs with
  | nil => rfl
  | cons cs fields ih =>
    rw [List.map_cons, List.foldl_cons, ← length_putFit]
    exact ih (putFit limit bs cs)

end Binary

/-! ## The trailer -/

namespace Envelope

variable {limit : Nat} {data : Memory} {bs : List UInt8} {m : Binary}

/-- The widths of the fields of the trailer. -/
def widths : List Nat := [1, 1, 1, 1, 1, 1, 2, 2]

/-- What is in the buffer once the trailer has been put, as far as it fits. -/
theorem held_putTrailer (h : m.Held limit data bs) (hlimit : limit < 2 ^ 31) (e : Envelope) :
    ∃ fields : List (List UInt8), fields.map List.length = widths.tail ∧
      (putTrailer m e).1.Held limit data (Binary.putFits limit bs ([e.reserved0] :: fields)) := by
  have hput (e' : Envelope) : put m e' = m.putAll [[e'.reserved0], [e'.type], [e'.subsystem], [e'.system],
      [e'.source], [e'.target], leBytes 2 e'.length.toNat] := by
    simp only [put, Binary.putUint8, Binary.putUint16, Binary.putAll, List.foldl_cons, List.foldl_nil]
  refine ⟨[[e.type], [e.subsystem], [e.system], [e.source], [e.target],
    leBytes 2 (putTrailer m e).2.length.toNat, leBytes 2 (putTrailer m e).2.crc16.toNat], ?_, ?_⟩
  · simp [widths]
  · have hall := @Binary.Held.putAll _ _ _ _ [[e.reserved0], [e.type], [e.subsystem], [e.system],
      [e.source], [e.target], leBytes 2 (putTrailer m e).2.length.toNat,
      leBytes 2 (putTrailer m e).2.crc16.toNat] h (by simp; omega)
    simpa only [putTrailer, hput, Binary.putUint16, Binary.putAll, List.foldl_cons, List.foldl_nil] using hall

end Envelope

namespace Boot
namespace Split
namespace Controller

/-! ## The controller -/

/-- `fd_boot_split_controller_message_limit`. -/
def messageLimit : UInt32 := 300

/-- The fields of `fd_boot_split_controller_t` for the envelope of a response. -/
structure Addresses where
  target : UInt32
  source : UInt32
  system : UInt32
  subsystem : UInt32

def responseEnvelope (addresses : Addresses) : Envelope :=
  { crc16 := 0
    length := 0
    target := addresses.target.toUInt8
    source := addresses.source.toUInt8
    system := addresses.system.toUInt8
    subsystem := addresses.subsystem.toUInt8
    type := Envelope.typeResponse
    reserved0 := 0 }

/-- `fd_boot_split_controller_transmit`: the message afterwards, and the bytes that are transmitted, if
any. A failed assertion of the byte stuffing is `none`. -/
def transmit (queue : Memory) (message : Binary) (envelope : Envelope) :
    Option (Binary × Option (List UInt8)) := do
  let (encoded, message, _) ← Envelope.encode queue message envelope
  if encoded then
    let message := message.putUint8 0
    if message.errors ≠ 0 then some (message, none) else some (message, some message.contents)
  else some (message, none)

structure Request where
  location : UInt32
  length : UInt16

/-- A field that is not there is zero. -/
def getRequest (message : Binary) : Request := ⟨message.getUint32.1, message.getUint32.2.getUint16.1⟩

/-- The condition of `fd_boot_split_controller_update_read`. The sum is one of signed numbers, taken to
wrap, and is compared as unsigned. -/
def Accepted (storage : Range) (r : Request) : Prop :=
  (r.location.toNat + r.length.toNat) % 2 ^ 32 ≤ (storage.location + storage.length) % 2 ^ 32

instance (storage : Range) (r : Request) : Decidable (Accepted storage r) := Nat.decLe _ _

/-- A call of `fd_boot_split_controller_update_read`: what it reads, its response before it is
transmitted, and what `transmit` makes of it. -/
structure Served where
  read : Option (UInt32 × Nat)
  response : Binary
  transmitted : Option (Binary × Option (List UInt8))

/-- A response up to its result. -/
def beginRead (data : Memory) (r : Request) : Binary :=
  (((Binary.initializeWith data messageLimit).putUint16 operationUpdateRead).putUint32 r.location).putUint16
    r.length

/-- `fd_boot_split_controller_update_read`. The response is built in the memory `data`, of which the
buffer is the first 300 bytes; `read` gives what `controller->update_read` writes. -/
def updateRead (queue data : Memory) (addresses : Addresses) (storage : Range)
    (read : UInt32 → (n : Nat) → { bs : List UInt8 // bs.length = n }) (message : Binary) : Served :=
  let r := getRequest message
  if Accepted storage r then
    let response := ((beginRead data r).putUint8 1).append (read r.location r.length.toNat).1
    ⟨some (r.location, r.length.toNat), response, transmit queue response (responseEnvelope addresses)⟩
  else
    let response := (beginRead data r).putUint8 0
    ⟨none, response, transmit queue response (responseEnvelope addresses)⟩

/-! ## Bounds and answers -/

/-- The request is for a part of the storage. -/
def Contained (storage : Range) (r : Request) : Prop :=
  storage.location ≤ r.location.toNat ∧
    r.location.toNat + r.length.toNat ≤ storage.location + storage.length

/-- The fields in front of the data. -/
def headerFields (r : Request) (result : UInt8) : List (List UInt8) :=
  [leBytes 2 operationUpdateRead.toNat, leBytes 4 r.location.toNat, leBytes 2 r.length.toNat, [result]]

def header (r : Request) (result : UInt8) : List UInt8 := (headerFields r result).flatten

/-- The answer with the data. -/
def answer (r : Request) (bs : List UInt8) : List UInt8 := header r 1 ++ bs

/-- Nothing is read outside the storage, and nothing is put behind the buffer. -/
structure Served.InBounds (storage : Range) (data : Memory) (s : Served) : Prop where
  read : ∀ location length, s.read = some (location, length) →
    storage.location ≤ location.toNat ∧ location.toNat + length ≤ storage.location + storage.length
  response : s.response.putIndex ≤ 300 ∧ ∀ x, 300 ≤ x → s.response.buffer x = data x
  transmitted : ∃ m sent, s.transmitted = some (m, sent) ∧ m.putIndex ≤ 300 ∧
    ∀ x, 300 ≤ x → m.buffer x = data x

/-- The frame and its delimiter fit the buffer. -/
def Fits (payload : List UInt8) (e : Envelope) : Prop := (Gateway.frame payload e).length + 1 ≤ 300

/-- A request for a part of the storage whose data fit gets them. -/
def Served.Answers (storage : Range) (r : Request) (payload : List UInt8) (e : Envelope) (s : Served) :
    Prop :=
  Contained storage r → Fits payload e →
    ∃ m, s.transmitted = some (m, some (Gateway.frame payload e ++ [0]))

/-- The room that the data leave for the trailer and the byte stuffing, of which parts may be left out. -/
def HasRoom (r : Request) (payload : List UInt8) : Prop :=
  r.length.toNat ≤ 279 ∨
    (r.length.toNat = 280 ∨ r.length.toNat = 282 ∨ r.length.toNat = 284) ∧ ¬ Cobs.HasFullRun payload

variable {m : Binary} {data : Memory} {bs payload : List UInt8} {e : Envelope} {storage : Range} {r : Request}

/-! ## The length of a response -/

/-- Two bytes of the buffer are enough for the byte stuffing. -/
theorem length_encode_le_iff (h : bs.length ≤ 300) : (Cobs.encode bs).length ≤ 300 ↔
    bs.length ≤ 298 ∨ bs.length = 299 ∧ ¬ Cobs.HasFullRun bs := by
  have hlt := (Cobs.encodes_encode bs).length_lt
  have hle := InPlace.length_encode_le bs
  rw [← Cobs.length_encode_eq_iff]
  omega

/-- The trailer is left out in parts where there is no room for it. -/
theorem length_sealed {fields : List (List UInt8)} (hfields : fields.map List.length = Envelope.widths.tail)
    (h : bs.length ≤ 300) : (Binary.putFits 300 bs ([0] :: fields)).length =
      if bs.length ≤ 290 then bs.length + 10
      else if bs.length = 291 ∨ bs.length = 293 then 299 else 300 := by
  by_cases hle : bs.length ≤ 290
  · have hflatten : ([0] :: fields).flatten.length = 10 := by
      rw [List.length_flatten, List.map_cons, hfields]
      rfl
    rw [if_pos hle, Binary.putFits_of_le (by omega), List.length_append, hflatten]
  · rw [if_neg hle, Binary.length_putFits, List.map_cons, hfields]
    generalize bs.length = n at h hle
    have hcases : n = 291 ∨ n = 292 ∨ n = 293 ∨ n = 294 ∨ n = 295 ∨ n = 296 ∨ n = 297 ∨ n = 298 ∨ n = 299 ∨
        n = 300 := by omega
    rcases hcases with rfl | rfl | rfl | rfl | rfl | rfl | rfl | rfl | rfl | rfl <;> rfl

/-- The trailer begins with a zero and is short, so a full run is in front of it. -/
theorem hasFullRun_sealed {fields : List (List UInt8)}
    (hfields : fields.map List.length = Envelope.widths.tail) (h : bs.length < 300) :
    Cobs.HasFullRun (Binary.putFits 300 bs ([0] :: fields)) ↔ Cobs.HasFullRun bs := by
  obtain ⟨rest, hrest, hle⟩ := Binary.exists_putFits 300 (bs ++ [0]) fields
  have hflatten : fields.flatten.length = 9 := by
    rw [List.length_flatten, hfields]
    rfl
  have hsealed : Binary.putFits 300 bs ([0] :: fields) = bs ++ 0 :: rest := by
    have hzero : Binary.putFit 300 bs [0] = bs ++ [0] :=
      Binary.putFit_of_le (by rw [List.length_singleton]; omega)
    rw [Binary.putFits, List.foldl_cons, hzero, List.append_cons bs 0 rest]
    exact hrest
  have hshort : ¬ Cobs.HasFullRun rest := by
    intro hfull
    have hlong := hfull.le_length
    simp only [Cobs.fullLength] at hlong
    omega
  rw [hsealed, Cobs.hasFullRun_append_zero, or_iff_left hshort]

theorem length_encode_sealed {fields : List (List UInt8)}
    (hfields : fields.map List.length = Envelope.widths.tail) (h : bs.length ≤ 300) :
    (Cobs.encode (Binary.putFits 300 bs ([0] :: fields))).length ≤ 300 ↔ bs.length ≤ 288 ∨
      (bs.length = 289 ∨ bs.length = 291 ∨ bs.length = 293) ∧ ¬ Cobs.HasFullRun bs := by
  have hlength := length_sealed hfields h
  have hle : (Binary.putFits 300 bs ([0] :: fields)).length ≤ 300 := by
    rw [hlength]
    split_ifs <;> omega
  rw [length_encode_le_iff hle, hlength]
  by_cases hfull : bs.length = 300
  · simp [hfull]
  · rw [hasFullRun_sealed hfields (by omega)]
    by_cases hrun : Cobs.HasFullRun bs
    · simp only [hrun, not_true_eq_false, and_false, or_false]
      split_ifs <;> omega
    · simp only [hrun, not_false_eq_true, and_true]
      split_ifs <;> omega

/-! ## Transmitting -/

/-- The encoding is made in the buffer, or goes over its end. -/
theorem encode_held (h : m.Held 300 data bs) (queue : Memory) (hreserved : e.reserved0 = 0) :
    ∃ encoded m' e' result, Envelope.encode queue m e = some (result, m', e') ∧ m'.size = 300 ∧
      m'.putIndex = encoded.length ∧ encoded.length ≤ 303 ∧
      (encoded.length ≤ 300 → m'.Held 300 data encoded) ∧
      (encoded.length ≤ 300 ↔ bs.length ≤ 288 ∨
        (bs.length = 289 ∨ bs.length = 291 ∨ bs.length = 293) ∧ ¬ Cobs.HasFullRun bs) := by
  obtain ⟨fields, hfields, hsealed⟩ := Envelope.held_putTrailer h (by simp) e
  rcases hput : Envelope.putTrailer m e with ⟨sealed, e'⟩
  rw [hput, hreserved] at hsealed
  have hindex := Binary.putIndex_eq hsealed.contents
  have hfits := hsealed.fits
  obtain ⟨data', hencode, hread⟩ := InPlace.encode_eq hsealed.contents (by decide : 2 ≤ Envelope.lookahead)
    (by rw [hindex]; exact Nat.le_trans hfits (by decide)) queue
  have hgrowth := InPlace.length_encode_le (Binary.putFits 300 bs ([0] :: fields))
  have hresult : ∃ errors, Envelope.encode queue m e = some (decide (errors = 0),
      { sealed with
        buffer := data'
        putIndex := (Cobs.encode (Binary.putFits 300 bs ([0] :: fields))).length
        errors := errors }, e') := by
    simp only [Envelope.encode, hput, hencode, Option.bind_eq_bind, Option.bind_some]
    exact ⟨_, rfl⟩
  obtain ⟨errors, hresult⟩ := hresult
  refine ⟨_, _, _, _, hresult, hsealed.size, rfl, by omega, ?_, length_encode_sealed hfields h.fits⟩
  intro hle
  refine ⟨hsealed.size, hread, hle, ?_⟩
  intro x hx
  rw [← hsealed.behind x hx]
  exact InPlace.encode_behind hencode (Nat.le_trans hle hx)

theorem transmit_iff (h : m.Held 300 data bs) (queue : Memory) (hreserved : e.reserved0 = 0) :
    ∃ m' sent, transmit queue m e = some (m', sent) ∧
      ((m'.putIndex ≤ 300 ∧ ∀ x, 300 ≤ x → m'.buffer x = data x) ↔ bs.length ≤ 288 ∨
        (bs.length = 289 ∨ bs.length = 291 ∨ bs.length = 293) ∧ ¬ Cobs.HasFullRun bs) := by
  obtain ⟨encoded, last, e', result, hencode, hsize, hindex, hgrowth, hheld, hiff⟩ :=
    encode_held h queue hreserved
  have htransmit : ∃ m' sent, transmit queue m e = some (m', sent) ∧ (m' = last ∨ m' = last.putUint8 0) := by
    simp only [transmit, hencode, Option.bind_eq_bind, Option.bind_some]
    split
    · split
      · exact ⟨_, _, rfl, Or.inr rfl⟩
      · exact ⟨_, _, rfl, Or.inr rfl⟩
    · exact ⟨_, _, rfl, Or.inl rfl⟩
  obtain ⟨m', sent, htransmit, hm'⟩ := htransmit
  refine ⟨m', sent, htransmit, ?_⟩
  rw [← hiff]
  constructor
  · rintro ⟨hle, -⟩
    rcases hm' with rfl | rfl
    · rwa [hindex] at hle
    · by_contra hover
      have hcheck : ¬ last.PutCheck [(0 : UInt8)].length := by
        apply Binary.not_putCheck
        · rw [hsize, hindex, List.length_singleton]
          omega
        · rw [hindex, List.length_singleton]
          omega
      rw [Binary.putUint8, Binary.putBytes, if_neg hcheck, Binary.overflow, hindex] at hle
      exact hover hle
  · intro hle
    have hdelimited : (last.putUint8 0).Held 300 data (Binary.putFit 300 encoded [0]) :=
      (hheld hle).putBytes (by simp)
    rcases hm' with rfl | rfl
    · exact ⟨by rwa [hindex], (hheld hle).behind⟩
    · exact ⟨by rw [Binary.putIndex_eq hdelimited.contents]; exact hdelimited.fits, hdelimited.behind⟩

/-- Short payloads fit, whatever their bytes. -/
theorem fits_of_le (h : payload.length ≤ 287) (e : Envelope) : Fits payload e := by
  have hle := InPlace.length_encode_le (Envelope.message payload e)
  rw [Envelope.length_message, Envelope.trailerSize] at hle
  rw [Fits, Gateway.frame]
  omega

/-- A payload whose frame fits is transmitted. -/
theorem transmit_of_fits (h : m.Written 300 payload) (queue : Memory) (hfits : Fits payload e) :
    ∃ m', transmit queue m e = some (m', some (Gateway.frame payload e ++ [0])) := by
  obtain ⟨m', hencode, hframe⟩ := Envelope.encode_eq h queue e (by decide) (Nat.le_of_succ_le hfits)
  have hdelimited : (m'.putUint8 0).Written 300 (Gateway.frame payload e ++ [0]) := hframe.putBytes hfits
  refine ⟨m'.putUint8 0, ?_⟩
  simp only [transmit, hencode, Option.bind_eq_bind, Option.bind_some, if_true]
  rw [if_neg (not_not.mpr hdelimited.errors), hdelimited.contents]

theorem message_eq_of_frame_eq {e' : Envelope} {payload' : List UInt8}
    (h : Gateway.frame payload e ++ [0] = Gateway.frame payload' e' ++ [0]) :
    Envelope.message payload e = Envelope.message payload' e' := by
  rw [← Gateway.decode_frame payload e, ← Gateway.decode_frame payload' e', List.append_cancel_right h]

/-! ## Serving a request -/

@[simp] theorem length_header (r : Request) (result : UInt8) : (header r result).length = 9 := by
  simp [header, headerFields]

theorem putUint8_beginRead (data : Memory) (r : Request) (result : UInt8) :
    (beginRead data r).putUint8 result =
      (Binary.initializeWith data messageLimit).putAll (headerFields r result) := by
  simp only [beginRead, Binary.putUint8, Binary.putUint16, Binary.putUint32, headerFields, Binary.putAll,
    List.foldl_cons, List.foldl_nil]

theorem written_header (data : Memory) (r : Request) (result : UInt8) :
    ((beginRead data r).putUint8 result).Written 300 (header r result) := by
  have hlength := length_header r result
  rw [header] at hlength
  rw [putUint8_beginRead]
  exact (Binary.written_initializeWith data messageLimit).putAll (by rw [hlength]; decide)

theorem held_header (data : Memory) (r : Request) (result : UInt8) :
    ((beginRead data r).putUint8 result).Held 300 data (header r result) := by
  have hlength := length_header r result
  rw [header] at hlength
  have hall := @Binary.Held.putAll _ _ _ _ (headerFields r result)
    (Binary.held_initializeWith data messageLimit) (by simp [headerFields, messageLimit])
  rw [Binary.putFits_of_le (by rw [hlength]; decide)] at hall
  rw [putUint8_beginRead]
  exact hall

variable (queue data) (addresses : Addresses) (storage)
  (read : UInt32 → (n : Nat) → { bs : List UInt8 // bs.length = n }) (message : Binary)

/-- The answer to the request of a message, if it is given. -/
abbrev answerTo : List UInt8 :=
  answer (getRequest message)
    (read (getRequest message).location (getRequest message).length.toNat).1

theorem length_answerTo :
    (answerTo read message).length = 9 + (getRequest message).length.toNat := by
  rw [answerTo, answer, List.length_append, length_header, (read _ _).2]

variable {queue data storage read message}

theorem updateRead_of_accepted (h : Accepted storage (getRequest message)) :
    updateRead queue data addresses storage read message =
      ⟨some ((getRequest message).location, (getRequest message).length.toNat),
        ((beginRead data (getRequest message)).putUint8 1).append
          (read (getRequest message).location (getRequest message).length.toNat).1,
        transmit queue (((beginRead data (getRequest message)).putUint8 1).append
          (read (getRequest message).location (getRequest message).length.toNat).1)
          (responseEnvelope addresses)⟩ := if_pos h

theorem updateRead_of_not_accepted (h : ¬ Accepted storage (getRequest message)) :
    updateRead queue data addresses storage read message =
      ⟨none, (beginRead data (getRequest message)).putUint8 0,
        transmit queue ((beginRead data (getRequest message)).putUint8 0) (responseEnvelope addresses)⟩ :=
  if_neg h

/-- A request that is taken has to be for a part of the storage, and its data need room. -/
theorem inBounds_iff : (updateRead queue data addresses storage read message).InBounds storage data ↔
    (Accepted storage (getRequest message) →
      Contained storage (getRequest message) ∧ HasRoom (getRequest message) (answerTo read message)) := by
  have hlength := length_answerTo read message
  by_cases haccepted : Accepted storage (getRequest message)
  · rw [updateRead_of_accepted addresses haccepted, forall_prop_of_true haccepted]
    have hread := (read (getRequest message).location (getRequest message).length.toNat).2
    by_cases hfit : (getRequest message).length.toNat ≤ 291
    · have hheld : Binary.Held 300 data (answerTo read message) _ :=
        (held_header data (getRequest message) 1).append (by rw [length_header, hread]; omega)
      obtain ⟨m', sent, htransmit, hiff⟩ := transmit_iff hheld queue
        (show (responseEnvelope addresses).reserved0 = 0 from rfl)
      rw [hlength] at hiff
      have hroom : HasRoom (getRequest message) (answerTo read message) ↔
          m'.putIndex ≤ 300 ∧ ∀ x, 300 ≤ x → m'.buffer x = data x := by
        rw [hiff, HasRoom]
        have hsmall : (getRequest message).length.toNat ≤ 279 ↔
          9 + (getRequest message).length.toNat ≤ 288 := by omega
        have hlarge (n : Nat) : (getRequest message).length.toNat = n ↔
          9 + (getRequest message).length.toNat = 9 + n := by omega
        rw [hsmall, hlarge, hlarge, hlarge]
      rw [hroom]
      constructor
      · rintro ⟨hbounds, -, m, sent', hsome, hin⟩
        obtain ⟨rfl, -⟩ := Prod.mk.inj (Option.some.inj (htransmit.symm.trans hsome))
        exact ⟨hbounds _ _ rfl, hin⟩
      · rintro ⟨hcontained, hin⟩
        refine ⟨?_, ⟨?_, hheld.behind⟩, m', sent, htransmit, hin⟩
        · rintro location length ⟨rfl, rfl⟩
          exact hcontained
        · rw [Binary.putIndex_eq hheld.contents]
          exact hheld.fits
    · have hindex := Binary.putIndex_eq (written_header data (getRequest message) 1).contents
      have hlt := (getRequest message).length.toNat_lt
      refine iff_of_false ?_ ?_
      · rintro ⟨-, ⟨hle, -⟩, -⟩
        simp only [Binary.append, hindex, length_header, hread] at hle
        omega
      · rintro ⟨-, hroom⟩
        rw [HasRoom] at hroom
        omega
  · rw [updateRead_of_not_accepted addresses haccepted]
    refine iff_of_true ?_ fun h => absurd h haccepted
    have hheld := held_header data (getRequest message) 0
    obtain ⟨m', sent, htransmit, hiff⟩ := transmit_iff hheld queue
      (show (responseEnvelope addresses).reserved0 = 0 from rfl)
    refine ⟨fun location length hread => ?_, ⟨?_, hheld.behind⟩, m', sent, htransmit,
      hiff.mpr (Or.inl (by simp))⟩
    · cases hread
    rw [Binary.putIndex_eq hheld.contents, length_header]
    decide

/-- A request that is refused is not one to answer. -/
theorem answers_iff :
    (updateRead queue data addresses storage read message).Answers storage (getRequest message)
        (answerTo read message) (responseEnvelope addresses) ↔
      (Contained storage (getRequest message) → Fits (answerTo read message) (responseEnvelope addresses) →
        Accepted storage (getRequest message)) := by
  by_cases haccepted : Accepted storage (getRequest message)
  · refine iff_of_true ?_ fun _ _ => haccepted
    intro _ hfits
    have hlength := length_answerTo read message
    have hlt := (Cobs.encodes_encode
      (Envelope.message (answerTo read message) (responseEnvelope addresses))).length_lt
    have hle : (Cobs.encode
      (Envelope.message (answerTo read message) (responseEnvelope addresses))).length + 1 ≤ 300 := hfits
    rw [Envelope.length_message, hlength] at hlt
    have hwritten : Binary.Written 300 (answerTo read message) _ :=
      (written_header data (getRequest message) 1).append (by rw [length_header, (read _ _).2]; omega)
    obtain ⟨m', htransmit⟩ := transmit_of_fits hwritten queue hfits
    rw [updateRead_of_accepted addresses haccepted]
    exact ⟨m', htransmit⟩
  · rw [updateRead_of_not_accepted addresses haccepted]
    have hfits : Fits (header (getRequest message) 0) (responseEnvelope addresses) :=
      fits_of_le (by simp) _
    obtain ⟨m', htransmit⟩ := transmit_of_fits (written_header data (getRequest message) 0) queue hfits
    refine forall_congr' fun _ => forall_congr' fun _ => iff_of_false ?_ haccepted
    rintro ⟨m, hanswer⟩
    simp only [htransmit, Option.some.injEq, Prod.mk.injEq] at hanswer
    have hmessage := message_eq_of_frame_eq hanswer.2
    rw [Envelope.message, Envelope.message, answerTo, answer, List.append_assoc] at hmessage
    have hheader := (List.append_inj hmessage (by simp)).1
    simp [header, headerFields] at hheader

/-- The controller keeps to the storage and to its buffer, and answers what fits, if and only if a
request that it takes is for a part of the storage and leaves room in the buffer, and one that it
refuses is not for a part of the storage that fits. -/
theorem updateRead_iff (queue data : Memory) (addresses : Addresses) (storage : Range)
    (read : UInt32 → (n : Nat) → { bs : List UInt8 // bs.length = n }) (message : Binary) :
    (updateRead queue data addresses storage read message).InBounds storage data ∧
        (updateRead queue data addresses storage read message).Answers storage (getRequest message)
          (answerTo read message) (responseEnvelope addresses) ↔
      (Accepted storage (getRequest message) →
        Contained storage (getRequest message) ∧ HasRoom (getRequest message) (answerTo read message)) ∧
      (Contained storage (getRequest message) → Fits (answerTo read message) (responseEnvelope addresses) →
        Accepted storage (getRequest message)) :=
  and_congr (inBounds_iff addresses) (answers_iff addresses)

/-- Only a storage whose end is not a number of 32 bits has requests of its own refused. -/
theorem accepted_of_contained {storage : Range} {r : Request}
    (hstorage : storage.location + storage.length < 2 ^ 32) (h : Contained storage r) :
    Accepted storage r := by
  have hend := h.2
  rw [Accepted, Nat.mod_eq_of_lt hstorage, Nat.mod_eq_of_lt (Nat.lt_of_le_of_lt hend hstorage)]
  exact hend

/-- Sixteen bytes at 0, which is before the storage, and 300 bytes of the storage. -/
theorem updateRead_not_inBounds :
    ¬ (updateRead (fun _ => 0) (fun _ => 0) ⟨0, 1, 0, 0⟩ ⟨4096, 256⟩
      (fun _ n => ⟨List.replicate n 0, List.length_replicate⟩)
      (Binary.initializeWith (Memory.write (fun _ => 0) 0 [0, 0, 0, 0, 16, 0]) 6)).InBounds
        ⟨4096, 256⟩ (fun _ => 0) ∧
    ¬ (updateRead (fun _ => 0) (fun _ => 0) ⟨0, 1, 0, 0⟩ ⟨4096, 4096⟩
      (fun _ n => ⟨List.replicate n 0, List.length_replicate⟩)
      (Binary.initializeWith (Memory.write (fun _ => 0) 0 [0, 16, 0, 0, 44, 1]) 6)).InBounds
        ⟨4096, 4096⟩ (fun _ => 0) := by
  rw [inBounds_iff, inBounds_iff]
  constructor
  · intro h
    have hcontained := (h (by decide)).1.1
    exact absurd hcontained (by decide)
  · intro h
    have hroom := (h (by decide)).2
    have hlength : (getRequest (Binary.initializeWith
      (Memory.write (fun _ => 0) 0 [0, 16, 0, 0, 44, 1]) 6)).length.toNat = 300 := by decide
    rw [HasRoom, hlength] at hroom
    omega

end Controller
end Split
end Boot
end Firefly
