import Firefly.Base.Envelope
import Firefly.Lib.Accesses
import Firefly.Lib.Result

/-!
# Firefly.Base.TransferDispatch

The requests for transfers on a bus (`fd_i2cm_dispatch.c`, `fd_spim_dispatch.c`). The transfers of a request are
read one after the other, and the response grows with them in an array of fixed size, which also takes what
the bus receives. Every access to the array is checked: one outside of it ends the program with `outside`, and
`rejected` is the result false before the bus is touched.

A request on the SPI bus is either rejected or fits. One on the I2C bus writes the header of a transfer behind
the array when exactly 299 or 300 bytes are taken before it (`bus_requests_fit`).
-/

namespace Firefly

open Accesses (write write_natCast)

namespace Binary

/-- `fd_binary_get_check`. -/
def getCheck (b : Binary) (length : Nat) : Bool × Binary :=
  if b.GetCheck length then (true, b) else (false, { b with errors := b.errors ||| errorUnderflow })

end Binary

namespace TransferDispatch

/-- Why a request does not come to the bus. -/
inductive Stop where
  | outside
  | rejected
  deriving DecidableEq

/-- Bytes to transmit are in the message, bytes to receive in the array of the response. -/
inductive Slice where
  | tx (start count : Nat)
  | rx (start count : Nat)
  deriving DecidableEq

def Slice.Inside (size limit : Nat) : Slice → Prop
  | .tx start count => start + count ≤ size
  | .rx start count => start + count ≤ limit

def Slice.receives (i : Nat) : Slice → Bool
  | .tx _ _ => false
  | .rx start count => decide (start ≤ i ∧ i < start + count)

/-- The locals of the loop over the transfers. -/
structure Decoding where
  message : Binary
  rx : List UInt8
  rxIndex : Nat
  transfers : List Slice

/-- A request that came to the bus: what was handed to the device, and the response. -/
structure Performed where
  transfers : List Slice
  response : List UInt8
  envelope : Envelope
  deriving DecidableEq

/-- `rx[i] = b` -/
def store (rx : List UInt8) (i : Nat) (b : UInt8) : Except Stop (List UInt8) :=
  match write rx i b with
  | some rx => .ok rx
  | none => .error .outside

/-- The array after the device has put what it received into the slices. -/
def receive (transfers : List Slice) (received : Nat → UInt8) (rx : List UInt8) : List UInt8 :=
  rx.mapIdx fun i b => if transfers.any (Slice.receives i) then received i else b

end TransferDispatch

open TransferDispatch

/-! ## I2C -/

namespace I2cmDispatch

def transferLimit : Nat := 8
def rxLimit : Nat := 300

def resultSuccess : UInt8 := 0
def resultNack : UInt8 := 1

def operationIo : UInt8 := 0

def directionRx : UInt8 := 0
def directionTx : UInt8 := 1

/-- The loop of `fd_i2cm_dispatch_io`. -/
def readTransfers : Nat → Decoding → Except Stop Decoding
  | 0, d => .ok d
  | n + 1, d => do
    let (direction, message) := d.message.getUint8
    let (byteCount, message) := message.getUint8
    let rx ← store d.rx d.rxIndex direction
    let rx ← store rx (d.rxIndex + 1) byteCount
    let rxIndex := d.rxIndex + 2
    if direction = directionTx then
      -- the result of the check is not looked at
      let (_, message) := message.getCheck byteCount.toNat
      readTransfers n ⟨message.skip byteCount.toNat, rx, rxIndex,
        d.transfers ++ [.tx message.getIndex byteCount.toNat]⟩
    else if direction = directionRx then
      if rxIndex + byteCount.toNat > rxLimit then .error .rejected
      else readTransfers n ⟨message, rx, rxIndex + byteCount.toNat, d.transfers ++ [.rx rxIndex byteCount.toNat]⟩
    else .error .rejected

/-- What comes before the bus: `known` are the identifiers of devices. -/
def decode (known : UInt8 → Bool) (message : Binary) : Except Stop Decoding := do
  let (deviceIdentifier, message) := message.getUint8
  if !known deviceIdentifier then .error .rejected
  else
    let (transferCount, message) := message.getUint8
    if transferCount.toNat > transferLimit then .error .rejected
    else
      let rx := [operationIo, resultSuccess, deviceIdentifier, transferCount] ++ List.replicate (rxLimit - 4) 0
      let d ← readTransfers transferCount.toNat ⟨message, rx, 4, []⟩
      if d.message.errors ≠ 0 then .error .rejected else .ok d

/-- `fd_i2cm_dispatch_io`, with the devices and what they answer to their transfers. -/
def io (known : UInt8 → Bool) (deviceIo : List Slice → Bool × (Nat → UInt8)) (message : Binary)
    (envelope : Envelope) : Except Stop Performed := do
  let d ← decode known message
  let (ack, received) := deviceIo d.transfers
  let rx := receive d.transfers received d.rx
  let rx ← if !ack then store rx 1 resultNack else .ok rx
  .ok ⟨d.transfers, rx.take d.rxIndex, envelope.response⟩

/-- `fd_i2cm_dispatch_process`. -/
def process (known : UInt8 → Bool) (deviceIo : List Slice → Bool × (Nat → UInt8)) (message : Binary)
    (envelope : Envelope) : Except Stop Performed :=
  let (operation, message) := message.getUint8
  if operation = operationIo then io known deviceIo message envelope else .error .rejected

end I2cmDispatch

/-! ## SPI -/

namespace SpimDispatch

def transferLimit : Nat := 8
def rxLimit : Nat := 200

def operationIo : UInt8 := 0

/-- The loop of `fd_spim_dispatch_io`. -/
def readTransfers : Nat → Decoding → Except Stop Decoding
  | 0, d => .ok d
  | n + 1, d => do
    let (txByteCount, message) := d.message.getUint8
    let (present, message) := message.getCheck txByteCount.toNat
    if !present then .error .rejected
    else
      let rx ← store d.rx d.rxIndex txByteCount
      let rxIndex := d.rxIndex + 1
      let txBytes := message.getIndex
      let message := message.skip txByteCount.toNat
      let (rxByteCount, message) := message.getUint8
      if rxIndex + 1 + rxByteCount.toNat ≥ rxLimit then .error .rejected
      else
        let rx ← store rx rxIndex rxByteCount
        let rxIndex := rxIndex + 1
        readTransfers n ⟨message, rx, rxIndex + rxByteCount.toNat,
          d.transfers ++ [.tx txBytes txByteCount.toNat, .rx rxIndex rxByteCount.toNat]⟩

/-- What comes before the bus. -/
def decode (known : UInt8 → Bool) (message : Binary) : Except Stop Decoding := do
  let (deviceIdentifier, message) := message.getUint8
  if !known deviceIdentifier then .error .rejected
  else
    let (transferCount, message) := message.getUint8
    if transferCount.toNat > transferLimit then .error .rejected
    else
      let rx := [operationIo, deviceIdentifier, transferCount] ++ List.replicate (rxLimit - 3) 0
      let d ← readTransfers transferCount.toNat ⟨message, rx, 3, []⟩
      if d.message.errors ≠ 0 then .error .rejected else .ok d

/-- `fd_spim_dispatch_io`. -/
def io (known : UInt8 → Bool) (deviceIo : List Slice → Nat → UInt8) (message : Binary) (envelope : Envelope) :
    Except Stop Performed := do
  let d ← decode known message
  let rx := receive d.transfers (deviceIo d.transfers) d.rx
  .ok ⟨d.transfers, rx.take d.rxIndex, envelope.response⟩

/-- `fd_spim_dispatch_process`. -/
def process (known : UInt8 → Bool) (deviceIo : List Slice → Nat → UInt8) (message : Binary)
    (envelope : Envelope) : Except Stop Performed :=
  let (operation, message) := message.getUint8
  if operation = operationIo then io known deviceIo message envelope else .error .rejected

end SpimDispatch

/-! ## Reading a request -/

namespace TransferDispatch

/-- The message is read in place as long as there is no error. -/
structure Reads (size : Nat) (m : Binary) : Prop where
  size_eq : m.size = size
  position : m.errors = 0 → m.getIndex ≤ size

variable {size limit : Nat} {m : Binary}

theorem underflow_errors (m : Binary) : m.errors ||| Binary.errorUnderflow ≠ 0 := by
  intro h
  exact absurd (Nat.or_eq_zero_iff.mp h).2 (by decide)

theorem Reads.getUint8 (h : Reads size m) : Reads size m.getUint8.2 := by
  rw [Binary.getUint8, Binary.getBytes]
  split
  · rename_i hcheck
    exact ⟨h.size_eq, fun _ => h.size_eq ▸ hcheck⟩
  · exact ⟨h.size_eq, fun herrors => absurd herrors (underflow_errors m)⟩

theorem errors_getUint8 (h : m.getUint8.2.errors = 0) : m.errors = 0 := by
  rw [Binary.getUint8, Binary.getBytes] at h
  split at h
  · exact h
  · exact absurd h (underflow_errors m)

theorem errors_getCheck {n : Nat} (h : (m.getCheck n).2.errors = 0) : m.errors = 0 ∧ m.GetCheck n := by
  rw [Binary.getCheck] at h
  split at h
  · exact ⟨h, by assumption⟩
  · exact absurd h (underflow_errors m)

theorem getIndex_getCheck (m : Binary) (n : Nat) : (m.getCheck n).2.getIndex = m.getIndex := by
  rw [Binary.getCheck]
  split <;> rfl

theorem Reads.skip (h : Reads size m) (n : Nat) : Reads size ((m.getCheck n).2.skip n) := by
  constructor
  · rw [Binary.skip, Binary.getCheck]
    split <;> exact h.size_eq
  · intro herrors
    have hcheck := (errors_getCheck (show (m.getCheck n).2.errors = 0 from herrors)).2
    rw [Binary.skip, getIndex_getCheck]
    exact h.size_eq ▸ hcheck

/-- The bytes behind a check are in the message, when the sum of the check does not wrap. -/
theorem Reads.tx_inside (h : Reads size m) (hsize : size + 2 ^ 8 ≤ 2 ^ 32) {byteCount : UInt8}
    (herrors : (m.getCheck byteCount.toNat).2.errors = 0) :
    (Slice.tx (m.getCheck byteCount.toNat).2.getIndex byteCount.toNat).Inside size limit := by
  obtain ⟨hzero, hcheck⟩ := errors_getCheck herrors
  have hposition := h.position hzero
  have hcount := byteCount.toNat_lt
  rw [Binary.GetCheck, h.size_eq, Nat.mod_eq_of_lt (by omega)] at hcheck
  rwa [Slice.Inside, getIndex_getCheck]

theorem store_of_lt {rx : List UInt8} {i : Nat} (h : i < rx.length) (b : UInt8) :
    store rx i b = .ok (rx.set i b) := by
  rw [store, write_natCast h]

theorem store_of_le {rx : List UInt8} {i : Nat} (h : rx.length ≤ i) (b : UInt8) :
    store rx i b = .error .outside := by
  rw [store, write, if_neg (by omega)]

/-- What holds before every transfer of a request. -/
structure Decoding.Inv (size limit : Nat) (d : Decoding) : Prop where
  message : Reads size d.message
  length : d.rx.length = limit
  index : d.rxIndex ≤ limit
  inside : d.message.errors = 0 → ∀ slice ∈ d.transfers, slice.Inside size limit

theorem Decoding.Inv.read {d : Decoding} (h : d.Inv size limit) :
    Decoding.Inv size limit { d with message := d.message.getUint8.2 } :=
  ⟨h.message.getUint8, h.length, h.index, fun hzero => h.inside (errors_getUint8 hzero)⟩

theorem Decoding.Inv.put {d : Decoding} (h : d.Inv size limit) (i : Nat) (b : UInt8) :
    Decoding.Inv size limit { d with rx := d.rx.set i b } :=
  ⟨h.message, List.length_set.trans h.length, h.index, h.inside⟩

theorem Decoding.Inv.advance {d : Decoding} (h : d.Inv size limit) {k : Nat} (hk : k ≤ limit) :
    Decoding.Inv size limit { d with rxIndex := k } :=
  ⟨h.message, h.length, hk, h.inside⟩

theorem Decoding.Inv.tx {d : Decoding} (h : d.Inv size limit) (hsize : size + 2 ^ 8 ≤ 2 ^ 32) (n : UInt8) :
    Decoding.Inv size limit
      { d with
        message := (d.message.getCheck n.toNat).2.skip n.toNat
        transfers := d.transfers ++ [.tx (d.message.getCheck n.toNat).2.getIndex n.toNat] } := by
  refine ⟨h.message.skip _, h.length, h.index, fun hzero => ?_⟩
  have hcheck : (d.message.getCheck n.toNat).2.errors = 0 := hzero
  rw [List.forall_mem_append, List.forall_mem_singleton]
  exact ⟨h.inside (errors_getCheck hcheck).1, h.message.tx_inside hsize hcheck⟩

theorem Decoding.Inv.rx {d : Decoding} (h : d.Inv size limit) {n : Nat} (hn : d.rxIndex + n ≤ limit) :
    Decoding.Inv size limit
      { d with rxIndex := d.rxIndex + n, transfers := d.transfers ++ [.rx d.rxIndex n] } := by
  refine ⟨h.message, h.length, hn, fun hzero => ?_⟩
  rw [List.forall_mem_append, List.forall_mem_singleton]
  exact ⟨h.inside hzero, hn⟩

/-- The array was written below its limit only, and the bytes handed to the device are in the message and in
the array; what does not fit was rejected before. -/
def Fits (size limit : Nat) : Except Stop Performed → Prop
  | .error stop => stop = .rejected
  | .ok performed =>
    (∀ slice ∈ performed.transfers, slice.Inside size limit) ∧ performed.response.length ≤ limit

/-- How the loop over the transfers ends: with an access outside of the array exactly when there is no room. -/
def Ends (size limit : Nat) (room : Prop) : Except Stop Decoding → Prop
  | .error .outside => ¬ room
  | .error .rejected => room
  | .ok d => room ∧ d.Inv size limit

theorem Ends.congr {room room' : Prop} {r : Except Stop Decoding} (h : Ends size limit room r)
    (hroom : room ↔ room') : Ends size limit room' r := by
  rwa [← propext hroom]

/-- The check of the errors behind the loop. -/
def checked (r : Except Stop Decoding) : Except Stop Decoding := do
  let d ← r
  if d.message.errors ≠ 0 then .error .rejected else .ok d

theorem Ends.checked {room : Prop} {r : Except Stop Decoding} (h : Ends size limit room r) :
    Ends size limit room (checked r) := by
  rcases r with (_ | _) | d
  · exact h
  · exact h
  · show Ends size limit room (if d.message.errors ≠ 0 then .error .rejected else .ok d)
    split
    · exact h.1
    · exact h

theorem errors_of_checked {r : Except Stop Decoding} {d : Decoding} (h : checked r = .ok d) :
    d.message.errors = 0 := by
  obtain ⟨d', -, hd⟩ := Result.bind_eq_ok h
  by_cases herrors : d'.message.errors ≠ 0
  · rw [if_pos herrors] at hd
    cases hd
  · rw [if_neg herrors] at hd
    cases hd
    exact not_not.mp herrors

/-- What is left after the check goes to the device and comes back in a response that fits. -/
theorem fits_iff {room : Prop} {r : Except Stop Decoding} {f : Decoding → Except Stop Performed}
    (h : Ends size limit room r)
    (hf : ∀ d, d.Inv size limit → ∃ performed, f d = .ok performed ∧ performed.transfers = d.transfers ∧
      performed.response.length ≤ limit) : Fits size limit (checked r >>= f) ↔ room := by
  have hends := h.checked
  rcases hr : checked r with (_ | _) | d
  · rw [hr] at hends
    exact ⟨fun hfits => absurd (show Stop.outside = .rejected from hfits) (by decide), fun hroom => absurd hroom hends⟩
  · rw [hr] at hends
    exact ⟨fun _ => hends, fun _ => rfl⟩
  · rw [hr] at hends
    obtain ⟨performed, hperformed, htransfers, hresponse⟩ := hf d hends.2
    rw [Result.ok_bind, hperformed]
    refine ⟨fun _ => hends.1, fun _ => ⟨?_, hresponse⟩⟩
    rw [htransfers]
    exact hends.2.inside (errors_of_checked hr)

theorem length_receive (transfers : List Slice) (received : Nat → UInt8) (rx : List UInt8) :
    (receive transfers received rx).length = rx.length := List.length_mapIdx

theorem length_take_le {d : Decoding} (h : d.Inv size limit) (rx : List UInt8) :
    (rx.take d.rxIndex).length ≤ limit := Nat.le_trans (List.length_take_le _ _) h.index

end TransferDispatch

namespace I2cmDispatch

/-- The directions and byte counts of the transfers, as they are read. -/
def headers : Nat → Binary → List (UInt8 × UInt8)
  | 0, _ => []
  | n + 1, message =>
    let (direction, message) := message.getUint8
    let (byteCount, message) := message.getUint8
    (direction, byteCount) :: headers n
      (if direction = directionTx then (message.getCheck byteCount.toNat).2.skip byteCount.toNat else message)

/-- The headers of a request to a known device with few enough transfers. -/
def requested (known : UInt8 → Bool) (message : Binary) : List (UInt8 × UInt8) :=
  let (deviceIdentifier, message) := message.getUint8
  let (transferCount, message) := message.getUint8
  if known deviceIdentifier ∧ transferCount.toNat ≤ transferLimit then headers transferCount.toNat message else []

/-- The bytes of the response that the transfers take: a header each, and what is received. -/
def taken : List (UInt8 × UInt8) → Nat
  | [] => 0
  | (direction, byteCount) :: l => 2 + (if direction = directionRx then byteCount.toNat else 0) + taken l

def KnownDirection (header : UInt8 × UInt8) : Prop := header.1 = directionRx ∨ header.1 = directionTx

/-- From `k` bytes of the response on, no header of a transfer comes when the array is full or has one byte
left. -/
def Room (k : Nat) (l : List (UInt8 × UInt8)) : Prop :=
  ∀ l₁ header l₂, l = l₁ ++ header :: l₂ → (∀ h ∈ l₁, KnownDirection h) →
    k + taken l₁ ≠ rxLimit - 1 ∧ k + taken l₁ ≠ rxLimit

theorem room_nil (k : Nat) : Room k [] := by
  intro l₁ header l₂ h
  exact absurd h.symm (by simp)

theorem room_cons {k : Nat} {header : UInt8 × UInt8} {l : List (UInt8 × UInt8)} :
    Room k (header :: l) ↔ (k ≠ rxLimit - 1 ∧ k ≠ rxLimit) ∧
      (KnownDirection header → Room (k + taken [header]) l) := by
  constructor
  · intro h
    refine ⟨h [] header l rfl (by simp), fun hknown l₁ header' l₂ hl hall => ?_⟩
    subst hl
    have hnext := h (header :: l₁) header' l₂ rfl (List.forall_mem_cons.mpr ⟨hknown, hall⟩)
    have htaken : taken (header :: l₁) = taken [header] + taken l₁ := rfl
    rwa [htaken, ← Nat.add_assoc] at hnext
  · rintro ⟨hfirst, hrest⟩ l₁ header' l₂ hl hall
    cases l₁ with
    | nil => exact hfirst
    | cons h₁ l₁ =>
      obtain ⟨rfl, rfl⟩ := List.cons.inj hl
      obtain ⟨hknown, hall⟩ := List.forall_mem_cons.mp hall
      have htaken : taken (header :: l₁) = taken [header] + taken l₁ := rfl
      rw [htaken, ← Nat.add_assoc]
      exact hrest hknown l₁ header' l₂ rfl hall

/-- Behind the array nothing is written. -/
theorem room_of_lt {k : Nat} (h : rxLimit < k) (l : List (UInt8 × UInt8)) : Room k l := by
  intro l₁ header l₂ _ _
  omega

variable {size : Nat}

theorem readTransfers_succ (n : Nat) (d : Decoding) :
    readTransfers (n + 1) d = (do
      let direction := d.message.getUint8.1
      let byteCount := d.message.getUint8.2.getUint8.1
      let message := d.message.getUint8.2.getUint8.2
      let rx ← store d.rx d.rxIndex direction
      let rx ← store rx (d.rxIndex + 1) byteCount
      if direction = directionTx then
        readTransfers n ⟨(message.getCheck byteCount.toNat).2.skip byteCount.toNat, rx, d.rxIndex + 2,
          d.transfers ++ [.tx (message.getCheck byteCount.toNat).2.getIndex byteCount.toNat]⟩
      else if direction = directionRx then
        if d.rxIndex + 2 + byteCount.toNat > rxLimit then .error .rejected
        else readTransfers n ⟨message, rx, d.rxIndex + 2 + byteCount.toNat,
          d.transfers ++ [.rx (d.rxIndex + 2) byteCount.toNat]⟩
      else .error .rejected) := by
  rw [readTransfers]

theorem headers_succ (n : Nat) (m : Binary) :
    headers (n + 1) m = (m.getUint8.1, m.getUint8.2.getUint8.1) :: headers n
      (if m.getUint8.1 = directionTx then
        (m.getUint8.2.getUint8.2.getCheck m.getUint8.2.getUint8.1.toNat).2.skip m.getUint8.2.getUint8.1.toNat
      else m.getUint8.2.getUint8.2) := by
  rw [headers]

/-- By induction on the transfers that are left. -/
theorem readTransfers_ends (hsize : size + 2 ^ 8 ≤ 2 ^ 32) (n : Nat) {d : Decoding} (h : d.Inv size rxLimit) :
    Ends size rxLimit (Room d.rxIndex (headers n d.message)) (readTransfers n d) := by
  induction n generalizing d with
  | zero => exact ⟨room_nil _, h⟩
  | succ n ih =>
    have hlength := h.length
    have hindex := h.index
    have hread := h.read.read
    rw [readTransfers_succ, headers_succ]
    dsimp only at hread ⊢
    generalize d.message.getUint8.1 = direction
    generalize d.message.getUint8.2.getUint8.1 = byteCount
    generalize d.message.getUint8.2.getUint8.2 = message at hread ⊢
    by_cases hroom : d.rxIndex + 2 ≤ rxLimit
    · -- the header fits
      rw [store_of_lt (by omega), Result.ok_bind, store_of_lt (by rw [List.length_set]; omega), Result.ok_bind]
      have hheader := ((hread.put d.rxIndex direction).put (d.rxIndex + 1) byteCount).advance hroom
      have hfirst : d.rxIndex ≠ rxLimit - 1 ∧ d.rxIndex ≠ rxLimit := by
        rw [rxLimit] at hroom ⊢
        omega
      have hcons : ∀ {r : Except Stop Decoding} {l : List (UInt8 × UInt8)}, KnownDirection (direction, byteCount) →
          Ends size rxLimit (Room (d.rxIndex + taken [(direction, byteCount)]) l) r →
          Ends size rxLimit (Room d.rxIndex ((direction, byteCount) :: l)) r := by
        intro r l hknown hends
        refine hends.congr (room_cons.trans ?_).symm
        exact ⟨fun hall => hall.2 hknown, fun hrest => ⟨hfirst, fun _ => hrest⟩⟩
      split
      · rename_i htx
        subst htx
        exact hcons (.inr rfl) (ih (hheader.tx hsize byteCount))
      · split
        · rename_i hrx
          subst hrx
          have htaken : d.rxIndex + taken [(directionRx, byteCount)] = d.rxIndex + 2 + byteCount.toNat := by
            show d.rxIndex + (2 + byteCount.toNat + 0) = _
            omega
          refine hcons (.inl rfl) ?_
          rw [htaken]
          split
          · rename_i hover
            exact room_of_lt hover _
          · rename_i hfits
            exact ih (hheader.rx (Nat.le_of_not_gt hfits))
        · rename_i htx hrx
          refine room_cons.mpr ⟨hfirst, fun hknown => ?_⟩
          rcases hknown with hknown | hknown
          · exact absurd hknown hrx
          · exact absurd hknown htx
    · -- one byte of the header is outside, or both are
      have hfull : ∀ header l, ¬ Room d.rxIndex (header :: l) := by
        intro header l hall
        have hfirst := (room_cons.mp hall).1
        rw [rxLimit] at hroom hindex hfirst
        omega
      by_cases hlast : d.rxIndex < d.rx.length
      · rw [store_of_lt hlast, Result.ok_bind, store_of_le (by rw [List.length_set]; omega)]
        exact hfull _ _
      · rw [store_of_le (by omega)]
        exact hfull _ _

theorem decode_eq (known : UInt8 → Bool) (m : Binary) :
    decode known m =
      if !known m.getUint8.1 then .error .rejected
      else if m.getUint8.2.getUint8.1.toNat > transferLimit then .error .rejected
      else checked (readTransfers m.getUint8.2.getUint8.1.toNat ⟨m.getUint8.2.getUint8.2,
        [operationIo, resultSuccess, m.getUint8.1, m.getUint8.2.getUint8.1] ++ List.replicate (rxLimit - 4) 0,
        4, []⟩) := by
  rw [decode]
  rfl

/-- The device and its answer, behind the decoded request. -/
def perform (deviceIo : List Slice → Bool × (Nat → UInt8)) (envelope : Envelope) (d : Decoding) :
    Except Stop Performed := do
  let rx := receive d.transfers (deviceIo d.transfers).2 d.rx
  let rx ← if !(deviceIo d.transfers).1 then store rx 1 resultNack else .ok rx
  .ok ⟨d.transfers, rx.take d.rxIndex, envelope.response⟩

theorem perform_eq (deviceIo : List Slice → Bool × (Nat → UInt8)) (envelope : Envelope) {d : Decoding}
    (h : d.Inv size rxLimit) :
    ∃ performed, perform deviceIo envelope d = .ok performed ∧ performed.transfers = d.transfers ∧
      performed.response.length ≤ rxLimit := by
  have hlength := length_receive d.transfers (deviceIo d.transfers).2 d.rx
  rw [h.length] at hlength
  rw [perform]
  split
  · rw [store_of_lt (by rw [hlength]; decide), Result.ok_bind]
    exact ⟨_, rfl, rfl, length_take_le h _⟩
  · exact ⟨_, rfl, rfl, length_take_le h _⟩

/-- A request on the I2C bus goes wrong exactly when the header of a transfer has no room. -/
theorem io_fits_iff (known : UInt8 → Bool) (deviceIo : List Slice → Bool × (Nat → UInt8)) {m : Binary}
    (h : Reads size m) (hsize : size + 2 ^ 8 ≤ 2 ^ 32) (envelope : Envelope) :
    Fits size rxLimit (io known deviceIo m envelope) ↔ Room 4 (requested known m) := by
  have hio : io known deviceIo m envelope = decode known m >>= perform deviceIo envelope := rfl
  have hnone : Fits size rxLimit (.error .rejected) ↔ Room 4 [] := ⟨fun _ => room_nil 4, fun _ => rfl⟩
  have hrequested : requested known m =
      if known m.getUint8.1 ∧ m.getUint8.2.getUint8.1.toNat ≤ transferLimit then
        headers m.getUint8.2.getUint8.1.toNat m.getUint8.2.getUint8.2 else [] := rfl
  rw [hio, decode_eq, hrequested]
  by_cases hknown : known m.getUint8.1 = true
  · by_cases hcount : m.getUint8.2.getUint8.1.toNat ≤ transferLimit
    · rw [if_neg (by simp [hknown]), if_neg (by omega), if_pos ⟨hknown, hcount⟩]
      refine fits_iff (readTransfers_ends hsize _ ⟨h.getUint8.getUint8, ?_, show 4 ≤ rxLimit by decide, fun _ => ?_⟩)
        fun d hd => perform_eq deviceIo envelope hd
      · rw [List.length_append, List.length_replicate]
        rfl
      · exact List.forall_mem_nil _
    · rw [if_neg (by simp [hknown]), if_pos (by omega), if_neg fun hall => hcount hall.2]
      exact hnone
  · rw [if_pos (by simpa using hknown), if_neg fun hall => hknown hall.1]
    exact hnone

end I2cmDispatch

namespace SpimDispatch

variable {size : Nat}

theorem readTransfers_succ (n : Nat) (d : Decoding) :
    readTransfers (n + 1) d = (do
      let txByteCount := d.message.getUint8.1
      let checkedMessage := d.message.getUint8.2.getCheck txByteCount.toNat
      if !checkedMessage.1 then .error .rejected
      else
        let rx ← store d.rx d.rxIndex txByteCount
        let message := checkedMessage.2.skip txByteCount.toNat
        let rxByteCount := message.getUint8.1
        if d.rxIndex + 1 + 1 + rxByteCount.toNat ≥ rxLimit then .error .rejected
        else
          let rx ← store rx (d.rxIndex + 1) rxByteCount
          readTransfers n ⟨message.getUint8.2, rx, d.rxIndex + 1 + 1 + rxByteCount.toNat,
            d.transfers ++ [.tx checkedMessage.2.getIndex txByteCount.toNat,
              .rx (d.rxIndex + 1 + 1) rxByteCount.toNat]⟩) := by
  rw [readTransfers]

/-- A byte of the array is left in front of every transfer, so the first byte of its header has room. -/
theorem readTransfers_ends (hsize : size + 2 ^ 8 ≤ 2 ^ 32) (n : Nat) {d : Decoding} (h : d.Inv size rxLimit)
    (hindex : d.rxIndex < rxLimit) : Ends size rxLimit True (readTransfers n d) := by
  induction n generalizing d with
  | zero => exact ⟨trivial, h⟩
  | succ n ih =>
    have hlength := h.length
    rw [readTransfers_succ]
    dsimp only
    split
    · trivial
    · rw [store_of_lt (by omega), Result.ok_bind]
      have htx := (((h.read.tx hsize d.message.getUint8.1).read).put d.rxIndex d.message.getUint8.1)
      dsimp only at htx
      generalize d.message.getUint8.1 = txByteCount at htx ⊢
      generalize (d.message.getUint8.2.getCheck txByteCount.toNat).2 = message at htx ⊢
      generalize (message.skip txByteCount.toNat).getUint8.1 = rxByteCount
      split
      · trivial
      · rename_i hfits
        rw [store_of_lt (by rw [List.length_set]; omega), Result.ok_bind]
        have hrx := ((htx.put (d.rxIndex + 1) rxByteCount).advance
          (show d.rxIndex + 1 + 1 ≤ rxLimit by omega)).rx (show d.rxIndex + 1 + 1 + rxByteCount.toNat ≤ rxLimit by omega)
        dsimp only at hrx
        rw [List.append_assoc, List.singleton_append] at hrx
        exact ih hrx (by dsimp only; omega)

theorem decode_eq (known : UInt8 → Bool) (m : Binary) :
    decode known m =
      if !known m.getUint8.1 then .error .rejected
      else if m.getUint8.2.getUint8.1.toNat > transferLimit then .error .rejected
      else checked (readTransfers m.getUint8.2.getUint8.1.toNat ⟨m.getUint8.2.getUint8.2,
        [operationIo, m.getUint8.1, m.getUint8.2.getUint8.1] ++ List.replicate (rxLimit - 3) 0, 3, []⟩) := by
  rw [decode]
  rfl

/-- A request on the SPI bus is rejected or fits. -/
theorem io_fits (known : UInt8 → Bool) (deviceIo : List Slice → Nat → UInt8) {m : Binary}
    (h : Reads size m) (hsize : size + 2 ^ 8 ≤ 2 ^ 32) (envelope : Envelope) :
    Fits size rxLimit (io known deviceIo m envelope) := by
  have hio : io known deviceIo m envelope = decode known m >>= fun d =>
      .ok ⟨d.transfers, (receive d.transfers (deviceIo d.transfers) d.rx).take d.rxIndex, envelope.response⟩ := rfl
  rw [hio, decode_eq]
  split
  · rfl
  · split
    · rfl
    · refine (fits_iff (readTransfers_ends hsize _ ⟨h.getUint8.getUint8, ?_, show 3 ≤ rxLimit by decide,
        fun _ => ?_⟩ (show 3 < rxLimit by decide))
        fun d hd => ⟨_, rfl, rfl, length_take_le hd _⟩).mpr trivial
      · rw [List.length_append, List.length_replicate]
        rfl
      · exact List.forall_mem_nil _

end SpimDispatch

/-- Both requests write and hand on only what fits, on a message that shares an address space of 32 bits with the
array, unless the header of an I2C transfer comes when the array is full or has one byte left. -/
theorem bus_requests_fit (known known' : UInt8 → Bool) (i2cmIo : List Slice → Bool × (Nat → UInt8))
    (spimIo : List Slice → Nat → UInt8) (envelope : Envelope) (message : Binary)
    (hposition : message.getIndex ≤ message.size) (haddress : message.size + I2cmDispatch.rxLimit ≤ 2 ^ 32) :
    (Fits message.size I2cmDispatch.rxLimit (I2cmDispatch.io known i2cmIo message envelope) ∧
      Fits message.size SpimDispatch.rxLimit (SpimDispatch.io known' spimIo message envelope)) ↔
    I2cmDispatch.Room 4 (I2cmDispatch.requested known message) := by
  have hreads : Reads message.size message := ⟨rfl, fun _ => hposition⟩
  have hsize : message.size + 2 ^ 8 ≤ 2 ^ 32 := by
    rw [I2cmDispatch.rxLimit] at haddress
    omega
  rw [I2cmDispatch.io_fits_iff known i2cmIo hreads hsize envelope]
  exact ⟨fun h => h.1, fun h => ⟨h, SpimDispatch.io_fits known' spimIo hreads hsize envelope⟩⟩

/-- A message of these bytes, at its start. -/
def messageOf (bytes : List UInt8) : Binary :=
  .initializeWith (Memory.write (fun _ => 0) 0 bytes) bytes.length.toUInt32

/-- The envelope of a request. -/
def anyEnvelope : Envelope := ⟨0, 0, 1, 2, 0, 1, 1, 0⟩

/-- Device 0 is to receive 255 bytes, 37 bytes and none: the second transfer fills the array. -/
theorem full_array_overruns :
    ¬ Fits (messageOf [0, 3, 0, 255, 0, 37, 0, 0]).size I2cmDispatch.rxLimit
      (I2cmDispatch.io (fun _ => true) (fun _ => (true, fun _ => 0)) (messageOf [0, 3, 0, 255, 0, 37, 0, 0])
        anyEnvelope) := by
  rw [I2cmDispatch.io_fits_iff _ _ ⟨rfl, fun _ => by decide⟩ (by decide)]
  intro hroom
  have hfull := hroom [(0, 255), (0, 37)] (0, 0) [] rfl (by simp [I2cmDispatch.KnownDirection, I2cmDispatch.directionRx])
  exact hfull.2 (by decide)

/-- The I2C bus is to receive one byte; to the SPI bus it is to transmit nothing and receive one. -/
theorem bus_requests_fit_short :
    Fits (messageOf [0, 1, 0, 1]).size I2cmDispatch.rxLimit (I2cmDispatch.io (fun _ => true)
        (fun _ => (true, fun _ => 0)) (messageOf [0, 1, 0, 1]) anyEnvelope) ∧
      Fits (messageOf [0, 1, 0, 1]).size SpimDispatch.rxLimit (SpimDispatch.io (fun _ => true) (fun _ _ => 0)
        (messageOf [0, 1, 0, 1]) anyEnvelope) := by
  have hfits := bus_requests_fit (fun _ => true) (fun _ => true) (fun _ => (true, fun _ => 0)) (fun _ _ => 0)
    anyEnvelope (messageOf [0, 1, 0, 1]) (by decide) (by decide)
  have hrequested : I2cmDispatch.requested (fun _ => true) (messageOf [0, 1, 0, 1]) = [(0, 1)] := rfl
  rw [hrequested, I2cmDispatch.room_cons] at hfits
  exact hfits.mpr ⟨by decide, fun _ => I2cmDispatch.room_nil _⟩

end Firefly
