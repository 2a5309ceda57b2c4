import Firefly.Swd.Port
import Firefly.Lib.Bytes
import Firefly.Lib.Memory
import Firefly.Lib.Tiles

/-!
# Firefly.Swd.Data

The memory of a target is written and read in transfers (`fd_swd_write_data`, `fd_swd_read_data`). The
transfer address register of the target counts up on its own, but only inside a window of 64 bytes, so the
range is cut at the windows; reading is behind by one word.

The functions are over the transactions of a port (`Ports`); at those of the bus (`busPorts`) the transfers
are the ones of `Port.lean`. `Answers` is what a memory access port does when every transaction succeeds.
`block_transfers`: the transfers tile the range, each is accepted, and the words of the data are the words of
the memory.
-/

namespace Firefly
namespace Swd

open Effect

/-- The functions that the memory transfers are made of. -/
structure Ports (σ : Type) where
  selectAndWriteAccessPort : UInt8 → UInt32 → Effect σ Error Unit
  selectAccessPortRegister : UInt8 → Effect σ Error Unit
  portSelect : Effect σ Error Unit
  setOverrunDetection : Bool → Effect σ Error Unit
  readPort : Port → UInt8 → UInt32 → Effect σ Error UInt32
  requestWrite : UInt8 → UInt32 → Effect σ Error Unit
  requestRead : UInt8 → UInt32 → Effect σ Error UInt32

def busPorts : Ports Bus :=
  ⟨Swd.selectAndWriteAccessPort, Swd.selectAccessPortRegister, Swd.portSelect, Swd.setOverrunDetection,
    Swd.readPort, Swd.requestWrite, Swd.requestRead⟩

def stickyFlags : UInt32 := dpStatWdataerr ||| dpStatStickyerr ||| dpStatStickyorun

namespace Ports

variable {σ : Type} (p : Ports σ)

/-- What `fd_swd_before_memory_transfer` does with a transfer that it accepts. -/
def startTransfer (address : UInt32) : Effect σ Error Unit := do
  p.selectAndWriteAccessPort apTar address
  p.selectAccessPortRegister apDrw
  p.portSelect
  p.setOverrunDetection true

def beforeMemoryTransfer (address length : UInt32) : Effect σ Error Unit :=
  if address &&& 0x3 ≠ 0 then
    throw ⟨errorInvalid, address.toUInt64⟩
  else if length = 0 ∨ length &&& 0x3 ≠ 0 then
    throw ⟨errorInvalid, length.toUInt64⟩
  else if address &&& ~~~tarIncrementBits ≠ (address + length - 1) &&& ~~~tarIncrementBits then
    throw ⟨errorInvalid, length.toUInt64⟩
  else
    p.startTransfer address

def afterMemoryTransfer (status : UInt32) : Effect σ Error Unit := do
  let status ← p.readPort .debug dpStat status
  p.setOverrunDetection false
  if status &&& stickyFlags ≠ 0 then
    throw ⟨errorSticky, status.toUInt64⟩

/-- The loop of `fd_swd_write_memory_transfer`. -/
def requestWrites (requestByte : UInt8) (data : Nat → UInt8) : Nat → Nat → Effect σ Error Unit
  | 0, _ => pure ()
  | words + 1, i => do
    p.requestWrite requestByte
      (unpackLittleEndianUint32 [data i, data (i + 1), data (i + 2), data (i + 3)])
    requestWrites requestByte data words (i + 4)

def writeMemoryTransfer (address : UInt32) (data : Nat → UInt8) (length status : UInt32) :
    Effect σ Error Unit := do
  p.beforeMemoryTransfer address length
  let requestByte := encodeRequest .access .write apDrw
  let success ← Effect.attempt (p.requestWrites requestByte data (length.toNat / 4) 0)
  p.afterMemoryTransfer status
  Effect.ofExcept success

/-- The loop of `fd_swd_read_memory_transfer`. -/
def requestReads (requestByte : UInt8) : Nat → UInt32 → Effect σ Error (List UInt8)
  | 0, _ => pure []
  | words + 1, value => do
    let value ← p.requestRead requestByte value
    let data ← requestReads requestByte words value
    pure (packLittleEndianUint32 value ++ data)

def readMemoryTransfer (address length value status : UInt32) : Effect σ Error (List UInt8) := do
  p.beforeMemoryTransfer address length
  let requestByte := encodeRequest .access .read apDrw
  let words := length.toNat / 4
  let success ← Effect.attempt do
    let value ← p.requestRead requestByte value
    p.requestReads requestByte words value
  p.afterMemoryTransfer status
  Effect.ofExcept success

end Ports

/-! ## The transfers of the bus -/

theorem beforeMemoryTransfer_bus : busPorts.beforeMemoryTransfer = beforeMemoryTransfer := rfl

theorem requestWrites_bus (requestByte : UInt8) (data : Nat → UInt8) (words i : Nat) :
    busPorts.requestWrites requestByte data words i = requestWrites requestByte data words i := by
  induction words generalizing i with
  | zero => rfl
  | succ words ih => rw [Ports.requestWrites, requestWrites, ih]; rfl

theorem requestReads_bus (requestByte : UInt8) (words : Nat) (value : UInt32) :
    busPorts.requestReads requestByte words value = requestReads requestByte words value := by
  induction words generalizing value with
  | zero => rfl
  | succ words ih =>
    rw [Ports.requestReads, requestReads]
    simp only [ih]
    rfl

theorem writeMemoryTransfer_bus (address : UInt32) (data : Nat → UInt8) (length status : UInt32) :
    busPorts.writeMemoryTransfer address data length status = writeMemoryTransfer address data length status := by
  rw [Ports.writeMemoryTransfer, writeMemoryTransfer]
  simp only [requestWrites_bus]
  rfl

theorem readMemoryTransfer_bus (address length value status : UInt32) :
    busPorts.readMemoryTransfer address length value status = readMemoryTransfer address length value status := by
  rw [Ports.readMemoryTransfer, readMemoryTransfer]
  simp only [requestReads_bus]
  rfl

/-! ## The loops over the windows -/

/-- The bytes up to the end of the window, or all that are left. -/
def sublength (address length : UInt32) : UInt32 :=
  let sublength := (tarIncrementBits + 1) - (address &&& tarIncrementBits)
  if length < sublength then length else sublength

theorem toNat_and_tarIncrementBits (x : UInt32) : (x &&& tarIncrementBits).toNat = x.toNat % 64 := by
  rw [UInt32.toNat_and]
  exact Nat.and_two_pow_sub_one_eq_mod x.toNat 6

theorem toNat_and_three (x : UInt32) : (x &&& 0x3).toNat = x.toNat % 4 := by
  rw [UInt32.toNat_and]
  exact Nat.and_two_pow_sub_one_eq_mod x.toNat 2

theorem toNat_sublength (address length : UInt32) :
    (sublength address length).toNat = min length.toNat (64 - address.toNat % 64) := by
  have hmask := toNat_and_tarIncrementBits address
  have hwindow : (tarIncrementBits + 1 - (address &&& tarIncrementBits)).toNat = 64 - address.toNat % 64 := by
    have hle : address &&& tarIncrementBits ≤ tarIncrementBits + 1 := by
      rw [UInt32.le_iff_toNat_le, hmask]
      show _ ≤ 64
      omega
    rw [UInt32.toNat_sub_of_le _ _ hle, hmask]
    rfl
  rw [sublength]
  split
  · rename_i hlt
    rw [UInt32.lt_iff_toNat_lt, hwindow] at hlt
    omega
  · rename_i hle
    rw [UInt32.lt_iff_toNat_lt, hwindow] at hle
    omega

theorem sublength_lt {address length : UInt32} (h : 0 < length) :
    (length - sublength address length).toNat < length.toNat := by
  have hsub := toNat_sublength address length
  have hpos : 0 < length.toNat := h
  rw [UInt32.toNat_sub_of_le]
  · omega
  · rw [UInt32.le_iff_toNat_le]
    omega

namespace Ports

variable {σ : Type} (p : Ports σ)

/-- The local `status` of the transfer at an address is what it was before it was set. -/
def writeData (address : UInt32) (data : Nat → UInt8) (length : UInt32) (status : UInt32 → UInt32) :
    Effect σ Error Unit :=
  if _h : 0 < length then do
    p.writeMemoryTransfer address data (sublength address length) (status address)
    writeData (address + sublength address length) (fun i => data ((sublength address length).toNat + i))
      (length - sublength address length) status
  else
    pure ()
  termination_by length.toNat
  decreasing_by exact sublength_lt _h

/-- The bytes that are put into the buffer. -/
def readData (address length : UInt32) (value status : UInt32 → UInt32) : Effect σ Error (List UInt8) :=
  if _h : 0 < length then do
    let bytes ← p.readMemoryTransfer address (sublength address length) (value address) (status address)
    let data ← readData (address + sublength address length) (length - sublength address length) value status
    pure (bytes ++ data)
  else
    pure []
  termination_by length.toNat
  decreasing_by exact sublength_lt _h

end Ports

/-! ## The pieces -/

structure Piece where
  address : UInt32
  length : UInt32
  deriving DecidableEq

/-- The transfers that both loops make. -/
def pieces (address length : UInt32) : List Piece :=
  if _h : 0 < length then
    ⟨address, sublength address length⟩ ::
      pieces (address + sublength address length) (length - sublength address length)
  else
    []
  termination_by length.toNat
  decreasing_by exact sublength_lt _h

/-- The tests of `fd_swd_before_memory_transfer`. -/
def Accepted (address length : UInt32) : Prop :=
  address &&& 0x3 = 0 ∧ (length ≠ 0 ∧ length &&& 0x3 = 0) ∧
    address &&& ~~~tarIncrementBits = (address + length - 1) &&& ~~~tarIncrementBits

instance (address length : UInt32) : Decidable (Accepted address length) :=
  inferInstanceAs (Decidable (_ ∧ _))

theorem Ports.beforeMemoryTransfer_of_accepted {σ : Type} (p : Ports σ) {address length : UInt32}
    (h : Accepted address length) : p.beforeMemoryTransfer address length = p.startTransfer address := by
  obtain ⟨haddress, ⟨hzero, hlength⟩, hwindow⟩ := h
  rw [Ports.beforeMemoryTransfer, if_neg (not_not.mpr haddress), if_neg, if_neg (not_not.mpr hwindow)]
  rintro (hlen | hlen)
  · exact hzero hlen
  · exact hlen hlength

theorem and_not_tarIncrementBits (x : UInt32) : x &&& ~~~tarIncrementBits = (x >>> 6) <<< 6 := by
  apply UInt32.toBitVec_inj.mp
  apply BitVec.eq_of_getLsbD_eq
  intro i hi
  have hmask : (~~~tarIncrementBits).toBitVec = BitVec.allOnes 32 <<< 6 := by decide
  have hshift : ((x >>> 6) <<< 6).toBitVec = (x.toBitVec >>> 6) <<< 6 := rfl
  rw [UInt32.toBitVec_and, hmask, hshift, BitVec.getLsbD_and, BitVec.getLsbD_shiftLeft,
    BitVec.getLsbD_shiftLeft, BitVec.getLsbD_ushiftRight, BitVec.getLsbD_allOnes]
  by_cases hlow : i < 6
  · simp [hlow]
  · simp [hlow, hi, show 6 + (i - 6) = i by omega, show i - 6 < 32 by omega]

/-- Addresses of one window have the same bits above those that count up. -/
theorem window_eq {x y : UInt32} (h : x.toNat / 64 = y.toNat / 64) :
    x &&& ~~~tarIncrementBits = y &&& ~~~tarIncrementBits := by
  have hshift : x >>> 6 = y >>> 6 := by
    apply UInt32.toNat_inj.mp
    rw [UInt32.toNat_shiftRight, UInt32.toNat_shiftRight]
    show x.toNat >>> 6 = y.toNat >>> 6
    rw [Nat.shiftRight_eq_div_pow, Nat.shiftRight_eq_div_pow, h]
  rw [and_not_tarIncrementBits, and_not_tarIncrementBits, hshift]

theorem and_three_eq_zero {x : UInt32} : x &&& 0x3 = 0 ↔ x.toNat % 4 = 0 := by
  rw [← UInt32.toNat_inj, toNat_and_three]
  rfl

/-- Whole words inside one window. -/
structure Piece.Windowed (piece : Piece) : Prop where
  address : piece.address.toNat % 4 = 0
  length : piece.length.toNat % 4 = 0
  pos : 0 < piece.length.toNat
  window : piece.address.toNat % 64 + piece.length.toNat ≤ 64

theorem Piece.Windowed.words {piece : Piece} (h : piece.Windowed) :
    4 * (piece.length.toNat / 4) = piece.length.toNat := by
  have hlength := h.length
  omega

variable {address length : UInt32}

theorem Piece.Windowed.accepted {piece : Piece} (h : piece.Windowed) :
    Accepted piece.address piece.length := by
  have hwindow := h.window
  have hpos := h.pos
  have hlt := piece.address.toNat_lt
  refine ⟨and_three_eq_zero.mpr h.address, ⟨?_, and_three_eq_zero.mpr h.length⟩, window_eq ?_⟩
  · intro hzero
    rw [hzero] at hpos
    exact absurd hpos (Nat.lt_irrefl 0)
  · have hone : (1 : UInt32) ≤ piece.address + piece.length ∨ piece.address + piece.length = 0 := by
      rw [UInt32.le_iff_toNat_le, ← UInt32.toNat_inj]
      show 1 ≤ _ ∨ _ = 0
      omega
    have hend : (piece.address + piece.length - 1).toNat = piece.address.toNat + piece.length.toNat - 1 := by
      rw [UInt32.toNat_sub, UInt32.toNat_add]
      show (2 ^ 32 - 1 + _) % 2 ^ 32 = _
      omega
    omega

theorem pieces_zero (address : UInt32) : pieces address 0 = [] := by
  rw [pieces, dif_neg (by decide)]

/-- The piece and what is left behind it, in a range that does not wrap. -/
theorem sublength_spec (hend : address.toNat + length.toNat ≤ 2 ^ 32) (h : 0 < length) :
    0 < (sublength address length).toNat ∧
      address.toNat % 64 + (sublength address length).toNat ≤ 64 ∧
      (length - sublength address length).toNat = length.toNat - (sublength address length).toNat ∧
      (sublength address length).toNat ≤ length.toNat ∧
      (length - sublength address length = 0 ∨
        (address + sublength address length).toNat = address.toNat + (sublength address length).toNat) := by
  have hsub := toNat_sublength address length
  have hpos : 0 < length.toNat := h
  have hrest : (length - sublength address length).toNat = length.toNat - (sublength address length).toNat := by
    rw [UInt32.toNat_sub_of_le]
    rw [UInt32.le_iff_toNat_le]
    omega
  refine ⟨by omega, by omega, hrest, by omega, ?_⟩
  rcases Nat.eq_zero_or_pos (length - sublength address length).toNat with hzero | hleft
  · exact .inl (UInt32.toNat_inj.mp hzero)
  · right
    rw [UInt32.toNat_add]
    omega

theorem pieces_tiles (hend : address.toNat + length.toNat ≤ 2 ^ 32) :
    Tiles (fun piece : Piece => piece.address.toNat) (fun piece => piece.length.toNat) address.toNat
      (address.toNat + length.toNat) (pieces address length) := by
  fun_induction pieces address length with
  | case1 address length h ih =>
    obtain ⟨hpos, -, hrest, hle, hnext⟩ := sublength_spec hend h
    refine Tiles.cons rfl hpos ?_
    rcases hnext with hzero | hnext
    · -- the last piece
      have hall : (sublength address length).toNat = length.toNat := by
        rw [hzero] at hrest
        have hnone : (0 : UInt32).toNat = 0 := rfl
        omega
      rw [hzero, pieces_zero, hall]
      exact Tiles.nil _
    · have htiles := ih (by omega)
      rw [hnext, hrest] at htiles
      rwa [show address.toNat + length.toNat = address.toNat + (sublength address length).toNat +
        (length.toNat - (sublength address length).toNat) by omega]
  | case2 address length h =>
    obtain rfl : length = 0 := by
      apply UInt32.toNat_inj.mp
      exact Nat.eq_zero_of_not_pos h
    exact Tiles.nil _

theorem pieces_windowed (ha : address.toNat % 4 = 0) (hl : length.toNat % 4 = 0)
    (hend : address.toNat + length.toNat ≤ 2 ^ 32) : ∀ piece ∈ pieces address length, piece.Windowed := by
  fun_induction pieces address length with
  | case1 address length h ih =>
    obtain ⟨hpos, hwindow, hrest, hle, hnext⟩ := sublength_spec hend h
    have hsub := toNat_sublength address length
    intro piece hpiece
    rcases List.mem_cons.mp hpiece with rfl | hpiece
    · exact ⟨ha, by dsimp only; omega, hpos, hwindow⟩
    · rcases hnext with hzero | hnext
      · rw [hzero, pieces_zero] at hpiece
        cases hpiece
      · exact ih (by omega) (by omega) (by omega) piece hpiece
  | case2 => exact fun _ h => nomatch h

namespace Ports

variable {σ : Type} (p : Ports σ)

/-- The transfer of a piece takes the bytes at its distance from `base`. -/
def writePiece (base : UInt32) (data : Nat → UInt8) (status : UInt32 → UInt32) (piece : Piece) :
    Effect σ Error Unit :=
  p.writeMemoryTransfer piece.address (fun i => data (piece.address.toNat - base.toNat + i)) piece.length
    (status piece.address)

def readPiece (value status : UInt32 → UInt32) (piece : Piece) : Effect σ Error (List UInt8) :=
  p.readMemoryTransfer piece.address piece.length (value piece.address) (status piece.address)

theorem writeData_eq_from {base : UInt32} (data : Nat → UInt8) (status : UInt32 → UInt32)
    (hbase : base.toNat ≤ address.toNat) (hend : address.toNat + length.toNat ≤ 2 ^ 32) :
    p.writeData address (fun i => data (address.toNat - base.toNat + i)) length status =
      (pieces address length).forM (p.writePiece base data status) := by
  fun_induction pieces address length with
  | case1 address length h ih =>
    obtain ⟨hpos, -, hrest, hle, hnext⟩ := sublength_spec hend h
    rw [writeData, dif_pos h]
    show _ = p.writePiece base data status ⟨address, sublength address length⟩ >>= fun _ => _
    rw [writePiece]
    congr 1
    funext _
    rcases hnext with hzero | hnext
    · rw [hzero, pieces_zero, writeData, dif_neg (by decide)]
      rfl
    · have hrun := ih (by omega) (by omega)
      rw [hnext] at hrun
      rw [← hrun]
      congr 1
      funext i
      congr 1
      omega
  | case2 address length h =>
    rw [writeData, dif_neg h]
    rfl

/-- `fd_swd_write_data` makes one transfer for each piece. -/
theorem writeData_eq (data : Nat → UInt8) (status : UInt32 → UInt32)
    (hend : address.toNat + length.toNat ≤ 2 ^ 32) :
    p.writeData address data length status =
      (pieces address length).forM (p.writePiece address data status) := by
  rw [← p.writeData_eq_from data status (Nat.le_refl _) hend]
  simp only [Nat.sub_self, Nat.zero_add]

/-- `fd_swd_read_data` makes one transfer for each piece. -/
theorem readData_eq (value status : UInt32 → UInt32) (address length : UInt32) :
    p.readData address length value status =
      (do
        let bytes ← (pieces address length).mapM (p.readPiece value status)
        pure bytes.flatten) := by
  fun_induction pieces address length with
  | case1 address length h ih =>
    rw [readData, dif_pos h, ih, List.mapM_cons]
    simp only [bind_assoc, pure_bind, List.flatten_cons]
    rfl
  | case2 address length h =>
    rw [readData, dif_neg h]
    rfl

end Ports

/-! ## The memory of the target -/

/-- What a state is to a debugger: the memory of the target, its transfer address register, the word that the
next read brings, and whether the data register is selected and overruns are detected. -/
structure Target (σ : Type) where
  memory : σ → Memory
  tar : σ → UInt32
  posted : σ → UInt32
  selected : σ → Prop
  detecting : σ → Prop

namespace Target

variable {σ : Type} (t : Target σ)

def Armed (s : σ) : Prop := t.selected s ∧ t.detecting s

def word (s : σ) : UInt32 := unpackLittleEndianUint32 ((t.memory s).read (t.tar s).toNat 4)

/-- The register has counted up, as far as this is inside a window. -/
def Counted (s s' : σ) : Prop :=
  t.tar s &&& ~~~tarIncrementBits = (t.tar s + 4) &&& ~~~tarIncrementBits → t.tar s' = t.tar s + 4

end Target

/-- Every transaction succeeds, and the memory access port does what it is made for: it writes a word to the
memory at its transfer address, and on a read it brings the word that the read before asked for. -/
structure Answers {σ : Type} (p : Ports σ) (t : Target σ) : Prop where
  address : ∀ s₀ address, Total (· = s₀) (p.selectAndWriteAccessPort apTar address) fun _ s =>
    t.memory s = t.memory s₀ ∧ t.tar s = address
  select : ∀ s₀, Total (· = s₀) (do p.selectAccessPortRegister apDrw; p.portSelect) fun _ s =>
    t.memory s = t.memory s₀ ∧ t.tar s = t.tar s₀ ∧ t.selected s
  overrun : ∀ s₀ enabled, Total (· = s₀) (p.setOverrunDetection enabled) fun _ s =>
    t.memory s = t.memory s₀ ∧ t.tar s = t.tar s₀ ∧ (t.selected s₀ → t.selected s) ∧
      (enabled = true → t.detecting s)
  write : ∀ s₀ value, t.Armed s₀ →
    Total (· = s₀) (p.requestWrite (encodeRequest .access .write apDrw) value) fun _ s =>
      t.memory s = (t.memory s₀).write (t.tar s₀).toNat (packLittleEndianUint32 value) ∧
        t.Counted s₀ s ∧ t.Armed s
  read : ∀ s₀ value, t.Armed s₀ →
    Total (· = s₀) (p.requestRead (encodeRequest .access .read apDrw) value) fun word s =>
      t.memory s = t.memory s₀ ∧ word = t.posted s₀ ∧ t.posted s = t.word s₀ ∧ t.Counted s₀ s ∧ t.Armed s
  status : ∀ s₀ status, Total (· = s₀) (p.readPort .debug dpStat status) fun status s =>
    t.memory s = t.memory s₀ ∧ status &&& stickyFlags = 0

/-! ## Words and bytes -/

open Bytes

theorem packLittleEndianUint32_eq (v : UInt32) : packLittleEndianUint32 v = leBytes 4 v.toNat := by
  have hbyte : ∀ (x : UInt32) (n : Nat), x.toNat = n → x.toUInt8 = UInt8.ofNat n := by
    intro x n hx
    apply UInt8.toNat_inj.mp
    rw [UInt32.toNat_toUInt8, hx, UInt8.toNat_ofNat']
  have hshift : ∀ k : UInt32, k.toNat < 32 → (v >>> k).toNat = v.toNat / 2 ^ k.toNat := by
    intro k hk
    rw [UInt32.toNat_shiftRight, Nat.mod_eq_of_lt hk, Nat.shiftRight_eq_div_pow]
  rw [packLittleEndianUint32, hbyte _ _ rfl, hbyte _ _ (hshift 8 (by decide)), hbyte _ _ (hshift 16 (by decide)),
    hbyte _ _ (hshift 24 (by decide))]
  simp only [leBytes, Nat.div_div_eq_div_mul]
  rfl

theorem unpack_toNat (b₀ b₁ b₂ b₃ : UInt8) : (unpackLittleEndianUint32 [b₀, b₁, b₂, b₃]).toNat = leNat [b₀, b₁, b₂, b₃] := by
  have h0 := b₀.toNat_lt
  have h1 := b₁.toNat_lt
  have h2 := b₂.toNat_lt
  have h3 := b₃.toNat_lt
  have hshift : ∀ (b : UInt8) (k : UInt32), k.toNat ≤ 24 → (b.toUInt32 <<< k).toNat = b.toNat <<< k.toNat := by
    intro b k hk
    have hb := b.toNat_lt
    have hpow : 2 ^ k.toNat ≤ 2 ^ 24 := Nat.pow_le_pow_right (by decide) hk
    rw [UInt32.toNat_shiftLeft, UInt8.toNat_toUInt32, Nat.mod_eq_of_lt (show k.toNat < 32 by omega), Nat.mod_eq_of_lt]
    rw [Nat.shiftLeft_eq]
    calc b.toNat * 2 ^ k.toNat ≤ 255 * 2 ^ 24 := Nat.mul_le_mul (by omega) hpow
      _ < 2 ^ 32 := by decide
  rw [unpackLittleEndianUint32]
  simp only [List.getD_cons_zero, List.getD_cons_succ, UInt32.toNat_or, UInt8.toNat_toUInt32]
  rw [hshift b₃ 24 (by decide), hshift b₂ 16 (by decide), hshift b₁ 8 (by decide)]
  show ((b₃.toNat <<< 24 ||| b₂.toNat <<< 16) ||| b₁.toNat <<< 8) ||| b₀.toNat = _
  have e1 : b₃.toNat <<< 24 ||| b₂.toNat <<< 16 = (b₃.toNat <<< 8 + b₂.toNat) <<< 16 := by
    rw [Nat.shiftLeft_add_eq_or_of_lt h2, Nat.shiftLeft_or_distrib, ← Nat.shiftLeft_add]
  have e2 : (b₃.toNat <<< 8 + b₂.toNat) <<< 16 ||| b₁.toNat <<< 8 = ((b₃.toNat <<< 8 + b₂.toNat) <<< 8 + b₁.toNat) <<< 8 := by
    rw [Nat.shiftLeft_add_eq_or_of_lt h1, Nat.shiftLeft_or_distrib, ← Nat.shiftLeft_add]
  rw [e1, e2, ← Nat.shiftLeft_add_eq_or_of_lt h0]
  simp only [leNat, Nat.shiftLeft_eq]
  omega
theorem pack_unpack (b₀ b₁ b₂ b₃ : UInt8) :
    packLittleEndianUint32 (unpackLittleEndianUint32 [b₀, b₁, b₂, b₃]) = [b₀, b₁, b₂, b₃] := by
  rw [packLittleEndianUint32_eq, unpack_toNat]
  exact leBytes_leNat [b₀, b₁, b₂, b₃]

/-! ## One transfer -/

theorem Target.Counted.next {σ : Type} {t : Target σ} {s s' : σ} (h : t.Counted s s') {a : Nat}
    (ha : (t.tar s).toNat = a) (hword : a % 4 = 0) (hwindow : a % 64 + 4 < 64) : (t.tar s').toNat = a + 4 := by
  have hlt := (t.tar s).toNat_lt
  have hnext : (t.tar s + 4).toNat = a + 4 := by
    rw [UInt32.toNat_add, ha]
    show (a + 4) % 2 ^ 32 = a + 4
    omega
  rw [h (window_eq (by rw [hnext, ha]; omega)), hnext]

namespace Answers

variable {σ : Type} {p : Ports σ} {t : Target σ} {m : Memory}

theorem startTransfer (h : Answers p t) (address : UInt32) :
    Total (fun s => t.memory s = m) (p.startTransfer address) fun _ s =>
      t.memory s = m ∧ t.tar s = address ∧ t.Armed s := by
  have hselect : Total (fun s => t.memory s = m ∧ t.tar s = address)
      (do p.selectAccessPortRegister apDrw; p.portSelect) fun _ s =>
        t.memory s = m ∧ t.tar s = address ∧ t.selected s := by
    refine Total.of_each fun s hs => (h.select s).weaken (fun _ h => h) ?_
    rintro _ s' ⟨hmemory, htar, hselected⟩
    exact ⟨hmemory.trans hs.1, htar.trans hs.2, hselected⟩
  have haddress : Total (fun s => t.memory s = m) (p.selectAndWriteAccessPort apTar address) fun _ s =>
      t.memory s = m ∧ t.tar s = address := by
    refine Total.of_each fun s hs => (h.address s address).weaken (fun _ h => h) ?_
    rintro _ s' ⟨hmemory, htar⟩
    exact ⟨hmemory.trans hs, htar⟩
  have hoverrun : Total (fun s => t.memory s = m ∧ t.tar s = address ∧ t.selected s)
      (p.setOverrunDetection true) fun _ s => t.memory s = m ∧ t.tar s = address ∧ t.Armed s := by
    refine Total.of_each fun s hs => (h.overrun s true).weaken (fun _ h => h) ?_
    rintro _ s' ⟨hmemory, htar, hselected, hdetecting⟩
    exact ⟨hmemory.trans hs.1, htar.trans hs.2.1, hselected hs.2.2, hdetecting rfl⟩
  have hall := Triple.bind haddress fun _ => Triple.bind hselect fun _ => hoverrun
  rw [Ports.startTransfer]
  simpa only [bind_assoc] using hall

theorem afterMemoryTransfer (h : Answers p t) (status : UInt32) {Q : σ → Prop}
    (hq : ∀ s s', t.memory s' = t.memory s → Q s → Q s') :
    Total Q (p.afterMemoryTransfer status) fun _ => Q := by
  refine Triple.bind (Total.of_each fun s hs => (h.status s status).weaken (fun _ h => h) fun status s' hs' =>
    (⟨hs'.2, hq s s' hs'.1 hs⟩ : status &&& stickyFlags = 0 ∧ Q s')) fun status => Triple.assume fun hclear => ?_
  refine Triple.bind (Total.of_each fun s hs => (h.overrun s false).weaken (fun _ h => h) fun _ s' hs' =>
    hq s s' hs'.1 hs) fun _ => ?_
  rw [if_neg (not_not.mpr hclear)]
  exact Triple.pure fun _ hs => hs

/-- By induction on the words that are left; the transfer address register is at the next of them. -/
theorem requestWrites (h : Answers p t) (data : Nat → UInt8) {words : Nat} (i : Nat) {a : Nat}
    (hword : a % 4 = 0) (hwindow : a % 64 + 4 * words ≤ 64) :
    Total (fun s => t.Armed s ∧ t.memory s = m ∧ (0 < words → (t.tar s).toNat = a))
      (p.requestWrites (encodeRequest .access .write apDrw) data words i) fun _ s =>
        t.memory s = m.write a (Memory.read data i (4 * words)) := by
  induction words generalizing i a m with
  | zero =>
    refine Triple.pure fun s hs => ?_
    rw [Nat.mul_zero, Memory.read_zero, Memory.write_nil, hs.2.1]
  | succ words ih =>
    refine Triple.bind (Q := fun _ s => t.Armed s ∧
      t.memory s = m.write a (Memory.read data i 4) ∧ (0 < words → (t.tar s).toNat = a + 4)) ?_ fun _ => ?_
    · refine Total.of_each fun s hs => (h.write s _ hs.1).weaken (fun _ h => h) ?_
      rintro _ s' ⟨hmemory, hcounted, harmed⟩
      have htar := hs.2.2 (Nat.succ_pos words)
      refine ⟨harmed, ?_, fun hwords => hcounted.next htar hword (by omega)⟩
      rw [hmemory, hs.2.1, htar, pack_unpack]
      rfl
    · have hrest := ih (m := m.write a (Memory.read data i 4)) (i + 4) (a := a + 4) (by omega) (by omega)
      refine hrest.weaken (fun _ hs => hs) fun _ s hs => ?_
      have hlen : a + 4 = a + (Memory.read data i 4).length := by rw [Memory.length_read]
      rw [hs, hlen, Memory.write_write, show 4 * (words + 1) = 4 + 4 * words by omega, Memory.read_add]

/-- The value that a read brings is the word at the address of the read before, so the register is one word
ahead of the bytes. -/
theorem requestReads (h : Answers p t) {words : Nat} (value : UInt32) {a : Nat}
    (hword : a % 4 = 0) (hwindow : a % 64 + 4 * words ≤ 64) :
    Total (fun s => t.Armed s ∧ t.memory s = m ∧
        (0 < words → t.posted s = unpackLittleEndianUint32 (m.read a 4)) ∧
        (1 < words → (t.tar s).toNat = a + 4))
      (p.requestReads (encodeRequest .access .read apDrw) words value) fun bytes s =>
        bytes = m.read a (4 * words) ∧ t.memory s = m := by
  induction words generalizing value a with
  | zero => exact Triple.pure fun s hs => ⟨rfl, hs.2.1⟩
  | succ words ih =>
    refine Triple.bind (Q := fun word s => word = unpackLittleEndianUint32 (m.read a 4) ∧ t.Armed s ∧
      t.memory s = m ∧ (0 < words → t.posted s = unpackLittleEndianUint32 (m.read (a + 4) 4)) ∧
      (1 < words → (t.tar s).toNat = a + 4 + 4)) ?_ fun word => Triple.assume fun hvalue => ?_
    · refine Total.of_each fun s hs => (h.read s _ hs.1).weaken (fun _ h => h) ?_
      rintro word s' ⟨hmemory, hposted, hnext, hcounted, harmed⟩
      obtain ⟨-, hm, hfirst, htar⟩ := hs
      refine ⟨hposted.trans (hfirst (Nat.succ_pos words)), harmed, hmemory.trans hm, ?_, ?_⟩
      · intro hwords
        rw [hnext, Target.word, hm, htar (by omega)]
      · intro hwords
        exact hcounted.next (htar (by omega)) (by omega) (by omega)
    · refine Triple.bind (ih word (a := a + 4) (by omega) (by omega)) fun bytes => Triple.assume fun hbytes => ?_
      refine Triple.pure fun s hs => ⟨?_, hs⟩
      have hpack : packLittleEndianUint32 (unpackLittleEndianUint32 (m.read a 4)) = m.read a 4 := pack_unpack _ _ _ _
      rw [hvalue, hpack, hbytes, show 4 * (words + 1) = 4 + 4 * words by omega, Memory.read_add]

theorem writeMemoryTransfer (h : Answers p t) {piece : Piece} (hpiece : piece.Windowed) (data : Nat → UInt8)
    (status : UInt32) :
    Total (fun s => t.memory s = m) (p.writeMemoryTransfer piece.address data piece.length status) fun _ s =>
      t.memory s = m.write piece.address.toNat (Memory.read data 0 piece.length.toNat) := by
  have hwords := hpiece.words
  have hwindow : piece.address.toNat % 64 + 4 * (piece.length.toNat / 4) ≤ 64 := by
    rw [hwords]
    exact hpiece.window
  rw [Ports.writeMemoryTransfer, p.beforeMemoryTransfer_of_accepted hpiece.accepted]
  refine Triple.bind (h.startTransfer piece.address) fun _ => ?_
  refine Total.attempt_ofExcept (f := fun _ => p.afterMemoryTransfer status) ?_ fun _ =>
    h.afterMemoryTransfer status fun s s' hs hq => hs.trans hq
  refine (h.requestWrites (m := m) data 0 hpiece.address hwindow).weaken ?_ ?_
  · rintro s ⟨hmemory, htar, harmed⟩
    exact ⟨harmed, hmemory, fun _ => by rw [htar]⟩
  · intro _ s hs
    rw [hs, hwords]

theorem readMemoryTransfer (h : Answers p t) {piece : Piece} (hpiece : piece.Windowed) (value status : UInt32) :
    Total (fun s => t.memory s = m) (p.readMemoryTransfer piece.address piece.length value status) fun bytes s =>
      bytes = m.read piece.address.toNat piece.length.toNat ∧ t.memory s = m := by
  have hwords := hpiece.words
  have hwindow : piece.address.toNat % 64 + 4 * (piece.length.toNat / 4) ≤ 64 := by
    rw [hwords]
    exact hpiece.window
  have hword := hpiece.address
  rw [Ports.readMemoryTransfer, p.beforeMemoryTransfer_of_accepted hpiece.accepted]
  refine Triple.bind (h.startTransfer piece.address) fun _ => ?_
  refine Total.attempt_ofExcept (f := fun _ => p.afterMemoryTransfer status) ?_ fun _ =>
    h.afterMemoryTransfer status fun s s' hs hq => ⟨hq.1, hs.trans hq.2⟩
  -- the first read asks for the first word
  refine Triple.bind (Q := fun _ s => t.Armed s ∧ t.memory s = m ∧
    (0 < piece.length.toNat / 4 → t.posted s = unpackLittleEndianUint32 (m.read piece.address.toNat 4)) ∧
    (1 < piece.length.toNat / 4 → (t.tar s).toNat = piece.address.toNat + 4)) ?_ fun first => ?_
  · refine Total.of_each fun s hs => (h.read s value hs.2.2).weaken (fun _ h => h) ?_
    rintro _ s' ⟨hmemory, -, hnext, hcounted, harmed⟩
    obtain ⟨hm, htar, -⟩ := hs
    refine ⟨harmed, hmemory.trans hm, fun _ => ?_, fun hmore => ?_⟩
    · rw [hnext, Target.word, hm, htar]
    · exact hcounted.next (by rw [htar]) hword (by omega)
  · refine (h.requestReads first hword hwindow).weaken (fun _ hs => hs) ?_
    rintro bytes s ⟨hbytes, hs⟩
    exact ⟨by rw [hbytes, hwords], hs⟩

variable {address length : UInt32}

/-! ## All transfers -/

/-- The memory holds the bytes as far as the pieces go. -/
theorem writeData (h : Answers p t) (ha : address.toNat % 4 = 0) (hl : length.toNat % 4 = 0)
    (hend : address.toNat + length.toNat ≤ 2 ^ 32) (data : Nat → UInt8) (status : UInt32 → UInt32) :
    Total (fun s => t.memory s = m) (p.writeData address data length status) fun _ s =>
      t.memory s = m.write address.toNat (Memory.read data 0 length.toNat) := by
  have hwindowed := pieces_windowed ha hl hend
  have htiles := pieces_tiles hend
  rw [p.writeData_eq data status hend]
  refine (htiles.total_forM (fun x s =>
    t.memory s = m.write address.toNat (Memory.read data 0 (x - address.toNat))) ?_).weaken ?_ ?_
  · intro piece hpiece
    have hlow := (htiles.inside hpiece).1
    refine (h.writeMemoryTransfer (hwindowed piece hpiece) _ _).weaken (fun _ hs => hs) ?_
    intro _ s hs
    have hplace : piece.address.toNat =
        address.toNat + (Memory.read data 0 (piece.address.toNat - address.toNat)).length := by
      rw [Memory.length_read]
      omega
    have hsplit : piece.address.toNat + piece.length.toNat - address.toNat =
        piece.address.toNat - address.toNat + piece.length.toNat := by omega
    have hbytes : Memory.read (fun i => data (piece.address.toNat - address.toNat + i)) 0 piece.length.toNat =
        Memory.read data (0 + (piece.address.toNat - address.toNat)) piece.length.toNat :=
      Memory.read_congr fun i _ => by rw [Nat.zero_add, Nat.zero_add]
    rw [hs, hbytes, hsplit, Memory.read_add, ← Memory.write_write, ← hplace]
  · intro s hs
    rw [Nat.sub_self, Memory.read_zero, Memory.write_nil, hs]
  · intro _ s hs
    rw [hs, Nat.add_sub_cancel_left]

theorem readData (h : Answers p t) (ha : address.toNat % 4 = 0) (hl : length.toNat % 4 = 0)
    (hend : address.toNat + length.toNat ≤ 2 ^ 32) (value status : UInt32 → UInt32) :
    Total (fun s => t.memory s = m) (p.readData address length value status) fun bytes s =>
      bytes = m.read address.toNat length.toNat ∧ t.memory s = m := by
  have hwindowed := pieces_windowed ha hl hend
  rw [p.readData_eq value status]
  refine Triple.bind ((pieces_tiles hend).total_mapM (fun a => Memory.read_zero m a) (fun a n k => Memory.read_add m a n k)
    fun piece hpiece => h.readMemoryTransfer (hwindowed piece hpiece) _ _) fun bytes => Triple.pure fun s hs => ?_
  rw [Nat.add_sub_cancel_left] at hs
  exact hs

end Answers

/-- The transfers tile the range and each is accepted, whatever the port answers; when every transaction
succeeds, the memory has the bytes of the data afterwards, and the data those of the memory. -/
theorem block_transfers {address length : UInt32} (ha : address &&& 0x3 = 0) (hl : length &&& 0x3 = 0)
    (hend : address.toNat + length.toNat ≤ 2 ^ 32) :
    (∀ piece ∈ pieces address length, Accepted piece.address piece.length) ∧
    Tiles (fun piece : Piece => piece.address.toNat) (fun piece => piece.length.toNat) address.toNat
      (address.toNat + length.toNat) (pieces address length) ∧
    (∀ x, address.toNat ≤ x → x < address.toNat + length.toNat →
      ∃! i, Tiles.In (fun piece : Piece => piece.address.toNat) (fun piece => piece.length.toNat)
        (pieces address length) x i) ∧
    ∀ {σ : Type} (p : Ports σ),
      (∀ piece ∈ pieces address length,
        p.beforeMemoryTransfer piece.address piece.length = p.startTransfer piece.address) ∧
      (∀ data status, p.writeData address data length status =
        (pieces address length).forM (p.writePiece address data status)) ∧
      (∀ value status, p.readData address length value status = (do
        let bytes ← (pieces address length).mapM (p.readPiece value status)
        pure bytes.flatten)) ∧
      ∀ t : Target σ, Answers p t → ∀ s,
        (∀ data status, ∃ s', exec (p.writeData address data length status) s = (.ok (), s') ∧
          t.memory s' = (t.memory s).write address.toNat (Memory.read data 0 length.toNat)) ∧
        ∀ value status, ∃ s', exec (p.readData address length value status) s =
            (.ok ((t.memory s).read address.toNat length.toNat), s') ∧ t.memory s' = t.memory s := by
  rw [and_three_eq_zero] at ha hl
  have hwindowed := pieces_windowed ha hl hend
  refine ⟨fun piece hpiece => (hwindowed piece hpiece).accepted, pieces_tiles hend,
    fun x hx hx' => (pieces_tiles hend).existsUnique hx hx', fun p => ⟨fun piece hpiece => ?_,
      fun data status => p.writeData_eq data status hend, fun value status => p.readData_eq value status _ _, ?_⟩⟩
  · exact p.beforeMemoryTransfer_of_accepted (hwindowed piece hpiece).accepted
  · intro t h s
    constructor
    · intro data status
      obtain ⟨_, s', hexec, hmemory⟩ := (h.writeData ha hl hend data status).exec rfl
      exact ⟨s', hexec, hmemory⟩
    · intro value status
      obtain ⟨bytes, s', hexec, hbytes, hmemory⟩ := (h.readData ha hl hend value status).exec rfl
      exact ⟨s', hbytes ▸ hexec, hmemory⟩

/-! ## A chip -/

/-- A target with a memory access port, as far as the memory transfers use it. -/
structure Chip where
  memory : Memory
  tar : UInt32
  posted : UInt32
  register : UInt8
  selected : Bool
  detecting : Bool

def chipTarget : Target Chip :=
  ⟨Chip.memory, Chip.tar, Chip.posted, fun c => c.selected = true, fun c => c.detecting = true⟩

def chipPorts : Ports Chip where
  selectAndWriteAccessPort register value :=
    Effect.update fun c => if register = apTar then { c with tar := value, selected := false } else c
  selectAccessPortRegister register := Effect.update fun c => { c with register := register }
  portSelect := Effect.update fun c => { c with selected := decide (c.register = apDrw) }
  setOverrunDetection enabled := Effect.update fun c => { c with detecting := enabled }
  readPort _ _ _ := pure 0
  requestWrite _ value := Effect.update fun c =>
    { c with memory := c.memory.write c.tar.toNat (packLittleEndianUint32 value), tar := c.tar + 4 }
  requestRead _ _ := do
    let value ← Effect.read Chip.posted
    Effect.update fun c =>
      { c with posted := unpackLittleEndianUint32 (c.memory.read c.tar.toNat 4), tar := c.tar + 4 }
    pure value

theorem chip_answers : Answers chipPorts chipTarget where
  address _ address := by
    rintro _ rfl
    exact ⟨rfl, rfl⟩
  select _ := by
    rintro _ rfl
    exact ⟨rfl, rfl, rfl⟩
  overrun _ enabled := by
    rintro _ rfl
    exact ⟨rfl, rfl, fun h => h, fun h => h⟩
  write _ value harmed := by
    rintro _ rfl
    exact ⟨rfl, fun _ => rfl, harmed⟩
  read _ value harmed := by
    rintro _ rfl
    exact ⟨rfl, rfl, rfl, fun _ => rfl, harmed⟩
  status _ status := by
    rintro _ rfl
    exact ⟨rfl, by decide⟩

/-- Twenty bytes across the end of a window, and the last window of the address space. -/
theorem block_transfers_chip :
    (∀ piece ∈ pieces 0x20000038 20, Accepted piece.address piece.length) ∧
    (∀ data status c, ∃ c', exec (chipPorts.writeData 0x20000038 data 20 status) c = (.ok (), c') ∧
      c'.memory = c.memory.write 0x20000038 (Memory.read data 0 20)) ∧
    ∀ value status c, ∃ c', exec (chipPorts.readData 0xffffffe0 32 value status) c =
      (.ok (c.memory.read 0xffffffe0 32), c') ∧ c'.memory = c.memory := by
  have hacross := block_transfers (show (0x20000038 : UInt32) &&& 0x3 = 0 by decide)
    (show (20 : UInt32) &&& 0x3 = 0 by decide) (by decide)
  have hlast := block_transfers (show (0xffffffe0 : UInt32) &&& 0x3 = 0 by decide)
    (show (32 : UInt32) &&& 0x3 = 0 by decide) (by decide)
  refine ⟨hacross.1, fun data status c => ?_, fun value status c => ?_⟩
  · exact ((hacross.2.2.2 chipPorts).2.2.2 chipTarget chip_answers c).1 data status
  · exact ((hlast.2.2.2 chipPorts).2.2.2 chipTarget chip_answers c).2 value status

end Swd
end Firefly
