import Firefly.Lib.TwoWire

/-!
# Firefly.Base.I2cmBitbang

`fd_i2cm_bitbang.c`: transfers on the two-wire bus, made of single writes to the two pins. On a bus with a device
behind a target, the transfers do to the device what they should, the bytes that are read are those that the
device gives, and the bus rests again (`deviceIo_transact`).
-/

namespace Firefly
namespace I2cmBitbang

open TwoWire TwoWire.Bus

variable {σ : Type} (d : Device σ)

/-! ## Operations -/

def start (b : Bus σ) : Bus σ := (((b.setClock d true).setData d true).setData d false).setClock d false

def stop (b : Bus σ) : Bus σ := ((b.setData d false).setClock d true).setData d true

def writeBit (bit : Bool) (b : Bus σ) : Bus σ := ((b.setData d bit).setClock d true).setClock d false

def readBit (b : Bus σ) : Bool × Bus σ :=
  let b := (b.setData d true).setClock d true
  (b.wire, b.setClock d false)

/-- The loop of `fd_i2cm_bitbang_write_byte`. -/
def writeBits : Nat → UInt8 → Bus σ → Bus σ
  | 0, _, b => b
  | n + 1, byte, b => writeBits n (byte <<< 1) (writeBit d (byte &&& 0x80 != 0) b)

def writeByte (byte : UInt8) (b : Bus σ) : Bool × Bus σ :=
  let r := readBit d (((writeBits d 8 byte b).setData d true).setInput d)
  (!r.1, r.2.setOutput d)

/-- The loop of `fd_i2cm_bitbang_read_byte`. -/
def readBits : Nat → UInt8 → Bus σ → UInt8 × Bus σ
  | 0, byte, b => (byte, b)
  | n + 1, byte, b =>
    let r := readBit d b
    readBits n (byte <<< 1 ||| if r.1 then 1 else 0) r.2

def readByte (ack : Bool) (b : Bus σ) : UInt8 × Bus σ :=
  let r := readBits d 8 0 (b.setInput d)
  (r.1, writeBit d (!ack) (r.2.setOutput d))

def busTx : List UInt8 → Bus σ → Bool × Bus σ
  | [], b => (true, b)
  | byte :: bytes, b =>
    let r := writeByte d byte b
    if r.1 then busTx bytes r.2 else (false, r.2)

/-- The passes of `fd_i2cm_bitbang_bus_rx` with the given indices. -/
def busRxLoop (count : Nat) (ack : Bool) : List Nat → Bus σ → List UInt8 × Bus σ
  | [], b => ([], b)
  | i :: is, b =>
    let r := readByte d (ack || decide (i < count - 1)) b
    let rest := busRxLoop count ack is r.2
    (r.1 :: rest.1, rest.2)

def busRx (count : Nat) (ack : Bool) (b : Bus σ) : List UInt8 × Bus σ :=
  busRxLoop d count ack (List.range count) b

def startWrite (address : UInt32) (b : Bus σ) : Bool × Bus σ := writeByte d (address <<< 1).toUInt8 (start d b)

def startRead (address : UInt32) (b : Bus σ) : Bool × Bus σ := writeByte d (address <<< 1 ||| 1).toUInt8 (start d b)

/-- The loop of `fd_i2cm_bitbang_device_io`; the direction is whether it is a read. -/
def deviceIoLoop (address : UInt32) : Option Bool → List Transfer → Bus σ → (Bool × List (List UInt8)) × Bus σ
  | _, [], b => ((true, []), b)
  | lastDirection, .tx bytes :: rest, b =>
    let a := if lastDirection ≠ some false then startWrite d address b else (true, b)
    if a.1 then
      let w := busTx d bytes a.2
      if w.1 then deviceIoLoop address (some false) rest w.2 else ((false, []), w.2)
    else ((false, []), a.2)
  | lastDirection, .rx count :: rest, b =>
    let a := if lastDirection ≠ some true then startRead d address b else (true, b)
    if a.1 then
      let r := busRx d count (rest.head?.any Transfer.isRx) a.2
      let next := deviceIoLoop address (some true) rest r.2
      ((next.1.1, r.1 :: next.1.2), next.2)
    else ((false, []), a.2)

/-- `fd_i2cm_bitbang_device_io`: what it returns, and the bytes of each read. -/
def deviceIo (address : UInt32) (transfers : List Transfer) (b : Bus σ) : (Bool × List (List UInt8)) × Bus σ :=
  let r := deviceIoLoop d address none transfers b
  (r.1, stop d r.2)

/-! ## Bits -/

variable {d} {v : Bool} {p : Phase} {s : σ}

theorem writeBit_low (bit : Bool) (hp : p.releases = true) :
    writeBit d bit ⟨false, v, false, none, p, s⟩ =
      ⟨false, bit, false, none, (p.clock d s bit).1, (p.clock d s bit).2⟩ := by
  simp [writeBit, setData, dataEdge, setClock, wire, hp]

theorem readBit_low : readBit d ⟨false, v, true, none, p, s⟩ =
    (p.releases, ⟨false, true, true, none, (p.clock d s p.releases).1, (p.clock d s p.releases).2⟩) := by
  simp [readBit, setData, dataEdge, setClock, wire]

theorem start_idle {o : Option Bool} :
    start d ⟨true, true, false, o, .idle, s⟩ = ⟨false, false, false, none, .address 0 0, s⟩ := by
  simp [start, setData, dataEdge, setClock, wire]

/-- Where the bit of the acknowledgement leaves the target. -/
def afterAck (d : Device σ) (s : σ) (ack reading : Bool) : Phase :=
  if ack then if reading then .send 0 (d.read s) else .receive 0 0 else .idle

theorem ackBit {ack reading : Bool} : readBit d ⟨false, v, true, none, .acknowledge ack reading, s⟩ =
    (!ack, ⟨false, true, true, none, afterAck d s ack reading, s⟩) := by
  rw [readBit_low]
  cases ack <;> simp [Phase.releases, Phase.clock, afterAck]

/-- The target takes eight bits, from the bit `k` on. -/
theorem writeBits_word (word : Nat → UInt8 → Phase) (final : UInt8 → Bool → Phase × σ)
    (hreleases : ∀ n byte, (word n byte).releases = true)
    (hclock : ∀ n byte bit, (word n byte).clock d s bit =
      if n = 7 then final (shiftIn byte bit) bit else (word (n + 1) (shiftIn byte bit), s))
    (byte acc : UInt8) {n k : Nat} (hk : k + n = 7) : ∃ v',
    writeBits d (n + 1) byte ⟨false, v, false, none, word k acc, s⟩ =
      ⟨false, v', false, none, (final ((msbFirst (n + 1) byte).foldl shiftIn acc) (lastBit (n + 1) byte)).1,
        (final ((msbFirst (n + 1) byte).foldl shiftIn acc) (lastBit (n + 1) byte)).2⟩ := by
  induction n generalizing k byte acc v with
  | zero =>
    refine ⟨byte &&& 0x80 != 0, ?_⟩
    rw [writeBits, writeBit_low _ (hreleases k acc), hclock, if_pos (by omega)]
    rfl
  | succ n ih =>
    rw [writeBits, writeBit_low _ (hreleases k acc), hclock, if_neg (by omega)]
    exact ih (byte <<< 1) (shiftIn acc (byte &&& 0x80 != 0)) (k := k + 1) (by omega)

theorem readBits_send {n k : Nat} {byte acc : UInt8} (hk : k + n = 7) :
    readBits d (n + 1) acc ⟨false, v, true, none, .send k byte, s⟩ =
      ((msbFirst (n + 1) byte).foldl shiftIn acc, ⟨false, true, true, none, .listen, s⟩) := by
  induction n generalizing k byte acc v with
  | zero =>
    rw [readBits, readBit_low]
    simp only [Phase.clock, if_pos (show k = 7 by omega)]
    rfl
  | succ n ih =>
    rw [readBits, readBit_low]
    simp only [Phase.clock, if_neg (show k ≠ 7 by omega)]
    exact ih (by omega)

/-! ## Bytes -/

theorem writeByte_ack {byte : UInt8} {b : Bus σ} {v ack reading : Bool}
    (h : writeBits d 8 byte b = ⟨false, v, false, none, .acknowledge ack reading, s⟩) :
    writeByte d byte b = (ack, ⟨false, true, false, none, afterAck d s ack reading, s⟩) := by
  have hin : ((writeBits d 8 byte b).setData d true).setInput d =
      ⟨false, true, true, none, .acknowledge ack reading, s⟩ := by
    rw [h]
    simp [setData, setInput, dataEdge]
  rw [writeByte, hin, ackBit]
  simp [setOutput, dataEdge]

theorem writeByte_address (byte : UInt8) : writeByte d byte ⟨false, v, false, none, .address 0 0, s⟩ =
    ((d.start s byte).1, ⟨false, true, false, none,
      afterAck d (d.start s byte).2 (d.start s byte).1 (byte &&& 1 != 0), (d.start s byte).2⟩) := by
  obtain ⟨v', hbits⟩ := writeBits_word (d := d) (s := s) (v := v) (n := 7) (k := 0) Phase.address
    (fun byte bit => (.acknowledge (d.start s byte).1 bit, (d.start s byte).2)) (fun _ _ => rfl) (fun _ _ _ => rfl)
    byte 0 rfl
  rw [foldl_shiftIn, lastBit_eq] at hbits
  exact writeByte_ack hbits

theorem writeByte_receive (byte : UInt8) : writeByte d byte ⟨false, v, false, none, .receive 0 0, s⟩ =
    ((d.write s byte).1, ⟨false, true, false, none,
      afterAck d (d.write s byte).2 (d.write s byte).1 false, (d.write s byte).2⟩) := by
  obtain ⟨v', hbits⟩ := writeBits_word (d := d) (s := s) (v := v) (n := 7) (k := 0) Phase.receive
    (fun byte _ => (.acknowledge (d.write s byte).1 false, (d.write s byte).2)) (fun _ _ => rfl) (fun _ _ _ => rfl)
    byte 0 rfl
  rw [foldl_shiftIn] at hbits
  exact writeByte_ack hbits

theorem readByte_send {byte : UInt8} (ack : Bool) : readByte d ack ⟨false, v, false, none, .send 0 byte, s⟩ =
    (byte, ⟨false, !ack, false, none, if ack then .send 0 (d.read (d.next s true)) else .idle, d.next s ack⟩) := by
  have hin : setInput d ⟨false, v, false, none, .send 0 byte, s⟩ = ⟨false, v, true, none, .send 0 byte, s⟩ := by
    simp [setInput, dataEdge]
  have hout : setOutput d ⟨false, true, true, none, .listen, s⟩ = ⟨false, true, false, none, .listen, s⟩ := by
    simp [setOutput, dataEdge]
  rw [readByte, hin, readBits_send rfl, foldl_shiftIn, hout, writeBit_low _ rfl]
  cases ack <;> rfl

/-! ## Transfers -/

/-- Between two bytes of a read, or behind the last of them. -/
def sending (d : Device σ) (s : σ) (ack : Bool) : Bus σ :=
  ⟨false, !ack, false, none, if ack then .send 0 (d.read s) else .idle, s⟩

theorem readByte_sending {byte : UInt8} (ack : Bool) : readByte d ack ⟨false, v, false, none, .send 0 byte, s⟩ =
    (byte, sending d (d.next s ack) ack) := by
  rw [readByte_send]
  cases ack <;> rfl

theorem busTx_receive (bytes : List UInt8) : busTx d bytes ⟨false, true, false, none, .receive 0 0, s⟩ =
    ((d.tx s bytes).1,
      ⟨false, true, false, none, if (d.tx s bytes).1 then .receive 0 0 else .idle, (d.tx s bytes).2⟩) := by
  induction bytes generalizing s with
  | nil => rfl
  | cons byte bytes ih =>
    rw [busTx, writeByte_receive, Device.tx]
    cases hack : (d.write s byte).1 with
    | false => simp [afterAck]
    | true => simpa [afterAck] using ih

theorem busRxLoop_send {count n j : Nat} (more : Bool) (hj : j + n + 1 = count) :
    busRxLoop d count more (List.range' j (n + 1)) ⟨false, v, false, none, .send 0 (d.read s), s⟩ =
      ((d.rx s ((List.range' j (n + 1)).map fun i => more || decide (i + 1 < count))).1,
        sending d (d.rx s ((List.range' j (n + 1)).map fun i => more || decide (i + 1 < count))).2 more) := by
  induction n generalizing j s v with
  | zero =>
    have hlast : ¬ j < count - 1 := by omega
    have hlast' : ¬ j + 1 < count := by omega
    simp [busRxLoop, readByte_sending, Device.rx, hlast, hlast']
  | succ n ih =>
    have hfirst : j < count - 1 := by omega
    have hfirst' : j + 1 < count := by omega
    rw [List.range'_succ, busRxLoop, List.map_cons, Device.rx]
    simp only [hfirst, hfirst', decide_true, Bool.or_true, readByte_sending]
    have hrest := @ih (!true) (d.next s true) (j + 1) (by omega)
    rw [sending, if_pos rfl, hrest]

theorem busRx_send {count : Nat} (more : Bool) (hcount : 0 < count) :
    busRx d count more ⟨false, v, false, none, .send 0 (d.read s), s⟩ =
      ((d.rx s (acks count more)).1, sending d (d.rx s (acks count more)).2 more) := by
  obtain ⟨n, rfl⟩ := Nat.exists_eq_succ_of_ne_zero (Nat.ne_of_gt hcount)
  rw [busRx, acks, List.range_eq_range']
  exact busRxLoop_send more (by omega)

/-! ## Transactions -/

/-- The bus before a transfer that comes after one in the direction `last`; `more` tells whether it is a read. -/
def Between (d : Device σ) (s : σ) (more : Bool) : Option Bool → Bus σ → Prop
  | none, b => ∃ o, b = ⟨true, true, false, o, .idle, s⟩
  | some false, b => b = ⟨false, true, false, none, .receive 0 0, s⟩
  | some true, b => b = sending d s more

theorem start_low (hp : p.releases = true) :
    start d ⟨false, true, false, none, p, s⟩ = ⟨false, false, false, none, .address 0 0, s⟩ := by
  simp [start, setData, dataEdge, setClock, wire, hp]

/-- A start where the next transfer is in the other direction. -/
theorem Between.start {last : Option Bool} {more : Bool} {b : Bus σ} (h : Between d s more last b)
    (hlast : last ≠ some more) : start d b = ⟨false, false, false, none, .address 0 0, s⟩ := by
  cases last with
  | none =>
    obtain ⟨o, rfl⟩ := h
    exact start_idle
  | some reading =>
    cases reading with
    | false =>
      rw [h]
      exact start_low rfl
    | true =>
      cases more with
      | true => exact absurd rfl hlast
      | false =>
        rw [h]
        exact start_low rfl

theorem startWrite_address (address : UInt32) {b : Bus σ}
    (h : start d b = ⟨false, false, false, none, .address 0 0, s⟩) : startWrite d address b =
      ((d.start s (address.toUInt8 <<< 1 ||| 0)).1, ⟨false, true, false, none,
        if (d.start s (address.toUInt8 <<< 1 ||| 0)).1 then .receive 0 0 else .idle,
        (d.start s (address.toUInt8 <<< 1 ||| 0)).2⟩) := by
  have hbyte : (address <<< 1).toUInt8 = address.toUInt8 <<< 1 ||| 0 := by
    rw [UInt32.toUInt8_shiftLeft _ _ (by decide), UInt8.or_zero]
    rfl
  have hbit : ((address.toUInt8 <<< 1 ||| 0) &&& 1 != 0) = false := lastBit_address address.toUInt8 false
  rw [startWrite, h, hbyte, writeByte_address, afterAck, hbit]
  rfl

theorem startRead_address (address : UInt32) {b : Bus σ}
    (h : start d b = ⟨false, false, false, none, .address 0 0, s⟩) : startRead d address b =
      ((d.start s (address.toUInt8 <<< 1 ||| 1)).1, ⟨false, true, false, none,
        if (d.start s (address.toUInt8 <<< 1 ||| 1)).1 then .send 0 (d.read (d.start s (address.toUInt8 <<< 1 ||| 1)).2)
        else .idle, (d.start s (address.toUInt8 <<< 1 ||| 1)).2⟩) := by
  have hbyte : (address <<< 1 ||| 1).toUInt8 = address.toUInt8 <<< 1 ||| 1 := by
    rw [UInt32.toUInt8_or, UInt32.toUInt8_shiftLeft _ _ (by decide)]
    rfl
  have hbit : ((address.toUInt8 <<< 1 ||| 1) &&& 1 != 0) = true := lastBit_address address.toUInt8 true
  rw [startRead, h, hbyte, writeByte_address, afterAck, hbit]
  rfl

/-- The bus behind the last transfer that was made. -/
def Ended (s : σ) (b : Bus σ) : Prop :=
  (∃ o, b = ⟨true, true, false, o, .idle, s⟩) ∨ ∃ p, p.releases = true ∧ b = ⟨false, true, false, none, p, s⟩

theorem Between.ended {last : Option Bool} {b : Bus σ} (h : Between d s false last b) : Ended s b := by
  cases last with
  | none => exact Or.inl h
  | some reading =>
    cases reading with
    | false => exact Or.inr ⟨_, rfl, h⟩
    | true => exact Or.inr ⟨_, rfl, h⟩

theorem Ended.stop {b : Bus σ} (h : Ended s b) : stop d b = ⟨true, true, false, none, .idle, d.stop s⟩ := by
  rcases h with ⟨o, rfl⟩ | ⟨p, hp, rfl⟩
  · simp [I2cmBitbang.stop, setData, dataEdge, setClock, wire]
  · simp [I2cmBitbang.stop, setData, dataEdge, setClock, wire, hp]

theorem addressed_write (address : UInt32) {last : Option Bool} {b : Bus σ} (h : Between d s false last b) :
    (if last ≠ some false then startWrite d address b else (true, b)) =
      ((addressed d s address.toUInt8 last false).1, ⟨false, true, false, none,
        if (addressed d s address.toUInt8 last false).1 then .receive 0 0 else .idle,
        (addressed d s address.toUInt8 last false).2⟩) := by
  by_cases hlast : last = some false
  · subst hlast
    rw [if_neg (not_not.2 rfl), addressed, if_pos rfl]
    rw [Between] at h
    rw [h]
    rfl
  · rw [if_pos hlast, addressed, if_neg hlast, startWrite_address address (h.start hlast)]
    rfl

theorem addressed_read (address : UInt32) {last : Option Bool} {b : Bus σ} (h : Between d s true last b) :
    ∃ v, (if last ≠ some true then startRead d address b else (true, b)) =
      ((addressed d s address.toUInt8 last true).1, ⟨false, v, false, none,
        if (addressed d s address.toUInt8 last true).1 then .send 0 (d.read (addressed d s address.toUInt8 last true).2)
        else .idle, (addressed d s address.toUInt8 last true).2⟩) ∧
      ((addressed d s address.toUInt8 last true).1 = false → v = true) := by
  by_cases hlast : last = some true
  · subst hlast
    rw [if_neg (not_not.2 rfl), addressed, if_pos rfl]
    rw [Between] at h
    rw [h]
    exact ⟨false, rfl, fun hack => absurd hack (by simp)⟩
  · rw [if_pos hlast, addressed, if_neg hlast, startRead_address address (h.start hlast)]
    exact ⟨true, rfl, fun _ => rfl⟩

theorem deviceIoLoop_transact (address : UInt32) {last : Option Bool} {transfers : List Transfer} {b : Bus σ}
    (h : Between d s (transfers.head?.any Transfer.isRx) last b) (hreads : Reads transfers) :
    (deviceIoLoop d address last transfers b).1 = ((transact d address.toUInt8 last s transfers).1,
        (transact d address.toUInt8 last s transfers).2.1) ∧
      Ended (transact d address.toUInt8 last s transfers).2.2 (deviceIoLoop d address last transfers b).2 := by
  induction transfers generalizing last s b with
  | nil => exact ⟨rfl, h.ended⟩
  | cons transfer rest ih =>
    have hrest := hreads.tail
    cases transfer with
    | tx bytes =>
      have hstart := addressed_write address (h : Between d s false last b)
      rw [deviceIoLoop, hstart, transact]
      generalize addressed d s address.toUInt8 last false = a
      cases hack : a.1 with
      | false =>
        simp only [Bool.false_eq_true, if_false]
        exact ⟨trivial, Or.inr ⟨_, rfl, rfl⟩⟩
      | true =>
        simp only [if_true, busTx_receive]
        generalize d.tx a.2 bytes = w
        cases hwrite : w.1 with
        | false =>
          simp only [Bool.false_eq_true, if_false]
          exact ⟨trivial, Or.inr ⟨_, rfl, rfl⟩⟩
        | true =>
          simp only [if_true]
          exact ih rfl hrest
    | rx count =>
      have hcount := hreads.pos
      obtain ⟨v, hstart, hv⟩ := addressed_read address (h : Between d s true last b)
      rw [deviceIoLoop, hstart, transact]
      revert hv
      generalize addressed d s address.toUInt8 last true = a
      intro hv
      cases hack : a.1 with
      | false =>
        obtain rfl := hv hack
        simp only [Bool.false_eq_true, if_false]
        exact ⟨trivial, Or.inr ⟨_, rfl, rfl⟩⟩
      | true =>
        simp only [if_true, busRx_send _ hcount]
        generalize d.rx a.2 (acks count (rest.head?.any Transfer.isRx)) = r
        obtain ⟨hresult, hended⟩ := @ih r.2 (some true) _ rfl hrest
        exact ⟨by rw [hresult], hended⟩

/-- The bus rests, with the device in the given state. -/
def Rests (s : σ) (b : Bus σ) : Prop := ∃ o, b = ⟨true, true, false, o, .idle, s⟩

theorem deviceIo_eq (address : UInt32) {transfers : List Transfer} {b : Bus σ} (h : Rests s b)
    (hreads : Reads transfers) : deviceIo d address transfers b =
      (((transact d address.toUInt8 none s transfers).1, (transact d address.toUInt8 none s transfers).2.1),
        ⟨true, true, false, none, .idle, d.stop (transact d address.toUInt8 none s transfers).2.2⟩) := by
  have hbetween : Between d s (transfers.head?.any Transfer.isRx) none b := h
  obtain ⟨hresult, hended⟩ := deviceIoLoop_transact address hbetween hreads
  exact Prod.ext hresult hended.stop

/-- On a bus at rest, transfers do to the device what they should, give the bytes that it sends, and leave the bus
at rest. -/
theorem deviceIo_transact (d : Device σ) (address : UInt32) (transfers : List Transfer) (s : σ) (b : Bus σ)
    (h : Rests s b) (hreads : Reads transfers) :
    (deviceIo d address transfers b).1 = ((transact d address.toUInt8 none s transfers).1,
        (transact d address.toUInt8 none s transfers).2.1) ∧
      Rests (d.stop (transact d address.toUInt8 none s transfers).2.2) (deviceIo d address transfers b).2 := by
  rw [deviceIo_eq address h hreads]
  exact ⟨rfl, none, rfl⟩

/-- A memory of three bytes at the address 0x50: the first byte written is the place, and reads go on from it. -/
def sampleDevice : Device (List UInt8 × Option Nat) where
  start s byte := (byte >>> 1 == 0x50, s)
  write
    | (bytes, none), byte => (byte < 3, (bytes, some byte.toNat))
    | (bytes, some i), byte => (i < 3, (bytes.set i byte, some (i + 1)))
  read s := s.1.getD (s.2.getD 0) 0xFF
  next s _ := (s.1, s.2.map (· + 1))
  stop s := (s.1, none)

def sampleBus : Bus (List UInt8 × Option Nat) := ⟨true, true, false, none, .idle, ([7, 8, 9], none)⟩

theorem deviceIo_transact_sample : Rests ([7, 8, 9], none) sampleBus ∧ Reads [.tx [1], .rx 2] ∧
    (deviceIo sampleDevice 0x50 [.tx [1], .rx 2] sampleBus).1 = (true, [[8, 9]]) := by
  have hrests : Rests ([7, 8, 9], none) sampleBus := ⟨none, rfl⟩
  have hreads : Reads [.tx [1], .rx 2] := by simp [Reads]
  refine ⟨hrests, hreads, ?_⟩
  have hio := deviceIo_transact sampleDevice 0x50 [.tx [1], .rx 2] _ _ hrests hreads
  exact hio.1.trans (by decide)

/-- Transfers that follow each other in one direction act as one: the same is returned, the bytes that are read are
the same, and the device ends up in the same state. -/
theorem deviceIo_pieces (d : Device σ) (address : UInt32) (transfers : List Transfer) (s : σ) (b : Bus σ)
    (h : Rests s b) (hreads : Reads transfers) :
    (deviceIo d address transfers b).1.1 = (deviceIo d address (merge transfers) b).1.1 ∧
      (deviceIo d address transfers b).1.2.flatten = (deviceIo d address (merge transfers) b).1.2.flatten ∧
      (deviceIo d address transfers b).2 = (deviceIo d address (merge transfers) b).2 := by
  have hsame : Same (transact d address.toUInt8 none s transfers)
      (transact d address.toUInt8 none s (merge transfers)) := transact_merge hreads
  rw [deviceIo_eq address h hreads, deviceIo_eq address h (reads_merge hreads)]
  refine ⟨hsame.ack, hsame.bytes, ?_⟩
  simp only [hsame.state]

theorem deviceIo_pieces_sample : merge [.tx [1], .tx [5], .rx 1] = [.tx [1, 5], .rx 1] ∧
    (deviceIo sampleDevice 0x50 [.tx [1], .tx [5], .rx 1] sampleBus).1.2.flatten =
      (deviceIo sampleDevice 0x50 [.tx [1, 5], .rx 1] sampleBus).1.2.flatten := by
  have hreads : Reads [.tx [1], .tx [5], .rx 1] := by simp [Reads]
  exact ⟨rfl, (deviceIo_pieces sampleDevice 0x50 [.tx [1], .tx [5], .rx 1] _ sampleBus ⟨none, rfl⟩ hreads).2.1⟩

end I2cmBitbang
end Firefly
