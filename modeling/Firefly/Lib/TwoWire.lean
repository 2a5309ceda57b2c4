import Mathlib.Data.List.Basic
import Mathlib.Tactic.IntervalCases

/-!
# Firefly.Lib.TwoWire

The two-wire bus with one master and one target. Each side can only pull the data wire low. While the clock is
high, a falling data wire starts a transaction and a rising one stops it; otherwise the data wire is sampled when
the clock rises, and the bit is over when it falls. After each eight bits the receiver answers with one.

A `Device` is what is behind the target: what it does with bytes. `Bus` runs the target bit by bit on what the
master does to its pins. `transact` says what a list of transfers means for the device.
-/

namespace TwoWire

/-- `start` is given the address byte, whose lowest bit asks for a read; `start` and `write` tell whether the
device acknowledges. `read` is the byte the device is about to send, and `next` moves on behind it when the master
acknowledges or not. -/
structure Device (σ : Type) where
  start : σ → UInt8 → Bool × σ
  write : σ → UInt8 → Bool × σ
  read : σ → UInt8
  next : σ → Bool → σ
  stop : σ → σ

/-! ## Target -/

/-- Where the target is: it takes the `n` th bit of an address or of a byte, acknowledges, sends the bits of a
byte, or waits for the master to acknowledge. -/
inductive Phase where
  | idle
  | address (n : Nat) (byte : UInt8)
  | receive (n : Nat) (byte : UInt8)
  | acknowledge (ack reading : Bool)
  | send (n : Nat) (byte : UInt8)
  | listen

/-- Whether the target lets the data wire go. -/
def Phase.releases : Phase → Bool
  | .acknowledge ack _ => !ack
  | .send _ byte => byte &&& 0x80 != 0
  | _ => true

@[simp] theorem Phase.releases_idle : Phase.releases .idle = true := rfl

@[simp] theorem Phase.releases_address (n : Nat) (byte : UInt8) : Phase.releases (.address n byte) = true := rfl

@[simp] theorem Phase.releases_receive (n : Nat) (byte : UInt8) : Phase.releases (.receive n byte) = true := rfl

def shiftIn (byte : UInt8) (bit : Bool) : UInt8 := byte <<< 1 ||| if bit then 1 else 0

/-- A bit is over. -/
def Phase.clock {σ : Type} (d : Device σ) (s : σ) (bit : Bool) : Phase → Phase × σ
  | .idle => (.idle, s)
  | .address n byte =>
    if n = 7 then
      (.acknowledge (d.start s (shiftIn byte bit)).1 bit, (d.start s (shiftIn byte bit)).2)
    else (.address (n + 1) (shiftIn byte bit), s)
  | .receive n byte =>
    if n = 7 then
      (.acknowledge (d.write s (shiftIn byte bit)).1 false, (d.write s (shiftIn byte bit)).2)
    else (.receive (n + 1) (shiftIn byte bit), s)
  | .acknowledge ack reading =>
    if ack then (if reading then .send 0 (d.read s) else .receive 0 0, s) else (.idle, s)
  | .send n byte => (if n = 7 then .listen else .send (n + 1) (byte <<< 1), s)
  | .listen => (if bit then .idle else .send 0 (d.read (d.next s true)), d.next s (!bit))

/-! ## Bus -/

/-- The pins of the master, the data pin as an output that can only pull low or as an input, and the target.
`sample` is the data wire when the clock rose. -/
structure Bus (σ : Type) where
  scl : Bool
  sda : Bool
  input : Bool
  sample : Option Bool
  phase : Phase
  state : σ

namespace Bus

variable {σ : Type} (d : Device σ)

def wire (b : Bus σ) : Bool := (b.input || b.sda) && b.phase.releases

/-- The data pin changes from one level to the other, which means something only while the clock is high. -/
def dataEdge (before : Bool) (b : Bus σ) : Bus σ :=
  if b.scl then
    if before && !b.wire then { b with sample := none, phase := .address 0 0 }
    else if !before && b.wire then { b with sample := none, phase := .idle, state := d.stop b.state }
    else b
  else b

def setData (level : Bool) (b : Bus σ) : Bus σ := dataEdge d b.wire { b with sda := level }

/-- The data pin becomes an input, or an output with the wire let go. -/
def setInput (b : Bus σ) : Bus σ := dataEdge d b.wire { b with input := true }

def setOutput (b : Bus σ) : Bus σ := dataEdge d b.wire { b with input := false, sda := true }

def setClock (level : Bool) (b : Bus σ) : Bus σ :=
  match b.scl, level with
  | false, true => { b with scl := true, sample := some b.wire }
  | true, false =>
    match b.sample with
    | some bit =>
      { b with scl := false, sample := none, phase := (b.phase.clock d b.state bit).1,
               state := (b.phase.clock d b.state bit).2 }
    | none => { b with scl := false }
  | _, _ => b

end Bus

/-! ## Transfers -/

inductive Transfer where
  | tx (bytes : List UInt8)
  | rx (count : Nat)

namespace Device

variable {σ : Type} (d : Device σ)

/-- Bytes go out until one is not acknowledged. -/
def tx : σ → List UInt8 → Bool × σ
  | s, [] => (true, s)
  | s, byte :: bytes => if (d.write s byte).1 then tx (d.write s byte).2 bytes else (false, (d.write s byte).2)

/-- A byte comes in for each acknowledgement that is given for it. -/
def rx : σ → List Bool → List UInt8 × σ
  | s, [] => ([], s)
  | s, ack :: acks => (d.read s :: (rx (d.next s ack) acks).1, (rx (d.next s ack) acks).2)

end Device

/-- The master acknowledges every byte but the last before it writes, restarts or stops. -/
def acks (count : Nat) (more : Bool) : List Bool := (List.range count).map fun i => more || decide (i + 1 < count)

def Transfer.isRx : Transfer → Bool
  | .tx _ => false
  | .rx _ => true

/-- The device is addressed wherever the direction changes. -/
def addressed {σ : Type} (d : Device σ) (s : σ) (address : UInt8) (last : Option Bool) (reading : Bool) : Bool × σ :=
  if last = some reading then (true, s) else d.start s (address <<< 1 ||| if reading then 1 else 0)

/-- What transfers do to the device: whether all is acknowledged, and the bytes of each read. -/
def transact {σ : Type} (d : Device σ) (address : UInt8) :
    Option Bool → σ → List Transfer → Bool × List (List UInt8) × σ
  | _, s, [] => (true, [], s)
  | last, s, .tx bytes :: rest =>
    let a := addressed d s address last false
    if a.1 then
      let w := d.tx a.2 bytes
      if w.1 then transact d address (some false) w.2 rest else (false, [], w.2)
    else (false, [], a.2)
  | last, s, .rx count :: rest =>
    let a := addressed d s address last true
    if a.1 then
      let r := d.rx a.2 (acks count (rest.head?.any Transfer.isRx))
      let next := transact d address (some true) r.2 rest
      (next.1, r.1 :: next.2.1, next.2.2)
    else (false, [], a.2)

/-! ## Transfers in pieces -/

section Pieces

variable {σ : Type} {d : Device σ}

theorem tx_append (s : σ) (as bs : List UInt8) :
    d.tx s (as ++ bs) = if (d.tx s as).1 then d.tx (d.tx s as).2 bs else (false, (d.tx s as).2) := by
  induction as generalizing s with
  | nil => simp [Device.tx]
  | cons a as ih =>
    rw [List.cons_append, Device.tx, Device.tx]
    cases hack : (d.write s a).1 with
    | false => simp
    | true => simpa using ih (d.write s a).2

theorem rx_append (s : σ) (as bs : List Bool) :
    d.rx s (as ++ bs) = ((d.rx s as).1 ++ (d.rx (d.rx s as).2 bs).1, (d.rx (d.rx s as).2 bs).2) := by
  induction as generalizing s with
  | nil => rfl
  | cons a as ih => simp [Device.rx, ih]

/-- A read in two pieces is acknowledged as one is. -/
theorem acks_add {m n : Nat} (hn : 0 < n) (more : Bool) : acks (m + n) more = acks m true ++ acks n more := by
  rw [acks, acks, acks, List.range_add, List.map_append, List.map_map]
  congr 1
  · refine List.map_congr_left fun i hi => ?_
    have hi' : i + 1 < m + n := by
      have := List.mem_range.1 hi
      omega
    simp [hi']
  · refine List.map_congr_left fun i _ => ?_
    have hiff : (m + i + 1 < m + n) = (i + 1 < n) := by
      rw [eq_iff_iff]
      omega
    simp only [Function.comp, hiff]

/-- The transfers with those that follow each other in one direction put together. -/
def merge : List Transfer → List Transfer
  | [] => []
  | .tx as :: ts =>
    match merge ts with
    | .tx bs :: us => .tx (as ++ bs) :: us
    | us => .tx as :: us
  | .rx m :: ts =>
    match merge ts with
    | .rx n :: us => .rx (m + n) :: us
    | us => .rx m :: us

/-- The same is acknowledged, the same bytes are read, and the device is left in the same state. -/
structure Same (x y : Bool × List (List UInt8) × σ) : Prop where
  ack : x.1 = y.1
  bytes : x.2.1.flatten = y.2.1.flatten
  state : x.2.2 = y.2.2

theorem Same.refl (x : Bool × List (List UInt8) × σ) : Same x x := ⟨rfl, rfl, rfl⟩

theorem Same.trans {x y z : Bool × List (List UInt8) × σ} (h : Same x y) (h' : Same y z) : Same x z :=
  ⟨h.ack.trans h'.ack, h.bytes.trans h'.bytes, h.state.trans h'.state⟩

variable {address : UInt8} {last : Option Bool} {s : σ}

theorem addressed_same (s : σ) (reading : Bool) : addressed d s address (some reading) reading = (true, s) :=
  if_pos rfl

theorem transact_tx_tx (as bs : List UInt8) (us : List Transfer) :
    transact d address last s (.tx as :: .tx bs :: us) = transact d address last s (.tx (as ++ bs) :: us) := by
  simp only [transact, tx_append, addressed_same]
  generalize addressed d s address last false = a
  cases ha : a.1 with
  | false => simp
  | true =>
    cases hw : (d.tx a.2 as).1 with
    | false => simp
    | true => simp

theorem transact_rx_rx {m n : Nat} (hn : 0 < n) (us : List Transfer) :
    Same (transact d address last s (.rx m :: .rx n :: us)) (transact d address last s (.rx (m + n) :: us)) := by
  simp only [transact, acks_add hn, rx_append, addressed_same, List.head?_cons, Option.any_some, Transfer.isRx]
  generalize addressed d s address last true = a
  cases ha : a.1 with
  | false => exact .refl _
  | true => exact ⟨by simp, by simp, by simp⟩

/-- A transfer in front of two lists that begin with the same direction and mean the same behind it. -/
theorem Same.cons {t : Transfer} {us vs : List Transfer}
    (hhead : us.head?.any Transfer.isRx = vs.head?.any Transfer.isRx)
    (h : ∀ s, Same (transact d address (some t.isRx) s us) (transact d address (some t.isRx) s vs)) :
    Same (transact d address last s (t :: us)) (transact d address last s (t :: vs)) := by
  cases t with
  | tx as =>
    simp only [transact]
    split
    · split
      · exact h _
      · exact .refl _
    · exact .refl _
  | rx m =>
    simp only [transact, hhead]
    split
    · have hrest := h (d.rx (addressed d s address last true).2 (acks m (vs.head?.any Transfer.isRx))).2
      exact ⟨hrest.ack, by simp only [List.flatten_cons, Transfer.isRx] at *; rw [hrest.bytes], hrest.state⟩
    · exact .refl _

theorem merge_head (ts : List Transfer) : (merge ts).head?.any Transfer.isRx = ts.head?.any Transfer.isRx := by
  cases ts with
  | nil => rfl
  | cons t ts =>
    cases t with
    | tx as =>
      rw [merge]
      split <;> rfl
    | rx m =>
      rw [merge]
      split <;> rfl

/-- Some bytes are read, where a read takes place. -/
def Reads (transfers : List Transfer) : Prop := ∀ t ∈ transfers, t ≠ .rx 0

theorem Reads.tail {t : Transfer} {ts : List Transfer} (h : Reads (t :: ts)) : Reads ts :=
  fun u hu => h u (List.mem_cons_of_mem _ hu)

theorem Reads.pos {n : Nat} {ts : List Transfer} (h : Reads (.rx n :: ts)) : 0 < n := by
  rcases Nat.eq_zero_or_pos n with rfl | hpos
  · exact absurd rfl (h _ List.mem_cons_self)
  · exact hpos

theorem reads_merge {ts : List Transfer} (h : Reads ts) : Reads (merge ts) := by
  induction ts with
  | nil => exact h
  | cons t ts ih =>
    have hts := ih h.tail
    cases t with
    | tx as =>
      rw [merge]
      split
      · rename_i bs us hmerge
        rw [hmerge] at hts
        intro t ht
        rcases List.mem_cons.1 ht with rfl | ht
        · intro he
          cases he
        · exact hts.tail t ht
      · intro t ht
        rcases List.mem_cons.1 ht with rfl | ht
        · intro he
          cases he
        · exact hts t ht
    | rx m =>
      have hm := h.pos
      rw [merge]
      split
      · rename_i n us hmerge
        rw [hmerge] at hts
        intro t ht
        rcases List.mem_cons.1 ht with rfl | ht
        · intro he
          injection he with he
          omega
        · exact hts.tail t ht
      · intro t ht
        rcases List.mem_cons.1 ht with rfl | ht
        · intro he
          injection he with he
          omega
        · exact hts t ht

/-- Putting transfers together changes nothing for the device. -/
theorem transact_merge {ts : List Transfer} (h : Reads ts) :
    Same (transact d address last s ts) (transact d address last s (merge ts)) := by
  induction ts generalizing last s with
  | nil => exact .refl _
  | cons t ts ih =>
    have hcons : Same (transact d address last s (t :: ts)) (transact d address last s (t :: merge ts)) :=
      .cons (merge_head ts).symm fun _ => ih h.tail
    have hts := reads_merge h.tail
    cases t with
    | tx as =>
      rw [merge]
      split
      · rename_i bs us hmerge
        rw [hmerge, transact_tx_tx] at hcons
        exact hcons
      · exact hcons
    | rx m =>
      rw [merge]
      split
      · rename_i n us hmerge
        rw [hmerge] at hcons hts
        exact hcons.trans (transact_rx_rx hts.pos us)
      · exact hcons

end Pieces

/-! ## Bits -/

/-- The highest `n` bits of a byte, the highest first. -/
def msbFirst : Nat → UInt8 → List Bool
  | 0, _ => []
  | n + 1, byte => (byte &&& 0x80 != 0) :: msbFirst n (byte <<< 1)

/-- The last of these bits. -/
def lastBit : Nat → UInt8 → Bool
  | 0, _ => false
  | 1, byte => byte &&& 0x80 != 0
  | n + 1, byte => lastBit n (byte <<< 1)

theorem shiftIn_table : ∀ i < 256, (msbFirst 8 (UInt8.ofNat i)).foldl shiftIn 0 = UInt8.ofNat i := by
  decide +kernel

/-- A byte comes out of its bits. -/
theorem foldl_shiftIn (byte : UInt8) : (msbFirst 8 byte).foldl shiftIn 0 = byte := by
  have htable := shiftIn_table byte.toNat byte.toNat_lt
  rwa [UInt8.ofNat_toNat] at htable

theorem lastBit_table : ∀ i < 256, lastBit 8 (UInt8.ofNat i) = (UInt8.ofNat i &&& 1 != 0) := by
  decide +kernel

theorem lastBit_eq (byte : UInt8) : lastBit 8 byte = (byte &&& 1 != 0) := by
  have htable := lastBit_table byte.toNat byte.toNat_lt
  rwa [UInt8.ofNat_toNat] at htable

/-- The lowest bit of an address byte asks for a read. -/
theorem lastBit_address (address : UInt8) (reading : Bool) :
    ((address <<< 1 ||| if reading then 1 else 0) &&& 1 != 0) = reading := by
  have hbit : (address <<< 1 ||| if reading then 1 else 0) &&& 1 = if reading then 1 else 0 := by
    apply UInt8.toBitVec_inj.1
    ext i hi
    cases reading <;> simp <;> omega
  rw [hbit]
  cases reading <;> rfl

end TwoWire
