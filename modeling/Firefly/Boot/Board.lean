import Firefly.Boot.Update
import Firefly.Lib.Cbc
import Firefly.Lib.Nor

/-!
# Firefly.Boot.Board

The boot loader on a board: memories for the executable and the update that never fail, a hash
that is any function of the bytes, and any block cipher in CBC mode. How the flash is erased is a
parameter, too. The three loops in closed form: `checkHash_bytes`, with `checkHash_ok` for a range of
whole blocks, `decryptRange_ok`, and `install_ok`, which takes an invariant for the flash.
-/

namespace Firefly
namespace Boot

open Bytes Result

structure Setup where
  executableStorage : Range
  executable : InfoExecutable
  updateStorage : Range
  key : List UInt8
  digest : List UInt8 → List UInt8
  cipher : Cbc.BlockCipher (List UInt8) 16
  /-- Erases from a location on and gives the next location to erase at. -/
  erase : Nor.Image → Nat → Nat → Nat × Nor.Image

/-- The two memories, and a history of the writes to the executable flash. -/
structure Board where
  flash : Nor.Image
  update : Nor.Image
  writes : List (Nat × List UInt8)

def store (m : Nor.Image) (a : Nat) (data : List UInt8) : Nor.Image := fun x =>
  if a ≤ x ∧ x < a + data.length then data.getD (x - a) 0 else m x

namespace Setup

variable (u : Setup)

def hash : Hash (List UInt8) where
  init := .ok []
  update h data := .ok (h ++ data)
  finalize h := .ok (u.digest h)

/-- The state is the key and the vector. -/
def decrypt : Decrypt (List UInt8 × List UInt8) where
  init key iv := .ok (key, iv)
  update c data :=
    let r := Cbc.decrypt u.cipher c.1 (data.length / 16) c.2 data
    .ok (r.1, c.1, r.2)
  finalize _ := .ok ()

def flasher : Flasher Board where
  erase d location length :=
    let r := u.erase d.flash location length
    .ok (r.1, { d with flash := r.2 })
  write d location data :=
    .ok { d with flash := store d.flash location data, writes := d.writes ++ [(location, data)] }
  finalize d := .ok d

def interface : Interface Board (List UInt8) (List UInt8 × List UInt8) where
  info _ := ⟨.ok u.executableStorage, .ok u.executable, .ok u.updateStorage, .ok u.key⟩
  hash _ := u.hash
  decrypt _ := u.decrypt
  executableRead d location length := .ok (Nor.read d.flash location length)
  executableFlasher := u.flasher
  updateRead d location length := .ok (Nor.read d.update location length)
  action := .default

end Setup

/-! ## Bytes -/

@[simp] theorem length_field {data : List UInt8} {i n : Nat} (h : i + n ≤ data.length) :
    (field data i n).length = n := by
  simp [field]
  omega

theorem field_read (m : Nor.Image) (a : Nat) {n i l : Nat} (h : i + l ≤ n) :
    field (Nor.read m a n) i l = Nor.read m (a + i) l := by
  obtain ⟨r, rfl⟩ : ∃ r, n = i + (l + r) := ⟨n - (i + l), by omega⟩
  rw [field, Nor.read_add, Nor.read_add, List.drop_left' (Nor.length_read m a i),
    List.take_left' (Nor.length_read m (a + i) l)]

theorem take_succ_block (data : List UInt8) (size k : Nat) :
    data.take (size * (k + 1)) = data.take (size * k) ++ field data (size * k) size := by
  rw [field, Nat.mul_succ, List.take_add]

/-! ## The hash -/

/-- What `checkHash` makes of a block before it updates the hash. -/
def zeroBlock (zero : Range) (location : Nat) (block : List UInt8) : List UInt8 :=
  if location ≤ zero.location ∧ (zero.location + zero.length) % 2 ^ 32 ≤ location + block.length then
    clear block (zero.location - location) zero.length
  else block

/-- The bytes that are hashed. -/
def zeroBlocks (zero : Range) (location : Nat) (data : List UInt8) (n : Nat) : List UInt8 :=
  (List.range n).flatMap fun k => zeroBlock zero (location + 64 * k) (field data (64 * k) 64)

/-- A reader that gives the data block by block. `states` are its states at the blocks. -/
theorem checkHash_bytes {ρ : Type} (u : Setup) (read : ρ → Nat → Nat → Except Error (List UInt8 × ρ))
    (states : Nat → ρ) {data : List UInt8} {storage : Range} {location : Nat}
    (hread : ∀ k, 64 * k < data.length →
      read (states k) (location + 64 * k) (min (data.length - 64 * k) 64) =
        .ok (field data (64 * k) 64, states (k + 1)))
    (hstop : location + data.length < 2 ^ 32)
    (hsub : isValidSubrange storage ⟨location, data.length⟩ = true) (zero : Range)
    (expected : List UInt8) :
    checkHash u.hash read (states 0) storage ⟨location, data.length⟩ zero expected =
      .ok (u.digest (zeroBlocks zero location data ((data.length + 63) / 64)) = expected, data,
        states ((data.length + 63) / 64)) := by
  have hstep : ∀ k s, 64 * k < data.length →
      s = (zeroBlocks zero location data k, data.take (64 * k), states k) →
      ∃ s', checkHashBlock u.hash read zero (location + 64 * k) (min (data.length - 64 * k) 64) s = .ok s' ∧
        s' = (zeroBlocks zero location data (k + 1), data.take (64 * (k + 1)), states (k + 1)) := by
    rintro k s hk rfl
    have hlen : min (data.length - 64 * k) 64 = (field data (64 * k) 64).length := by
      rw [field, List.length_take, List.length_drop, Nat.min_comm]
    refine ⟨_, ?_, rfl⟩
    rw [checkHashBlock, hread k hk, hlen]
    simp only [Setup.hash, bind, Except.bind, pure, Except.pure, zeroBlocks, List.range_succ,
      List.flatMap_append, List.flatMap_singleton, take_succ_block, zeroBlock]
  obtain ⟨s', hs', rfl⟩ := Blocks.run_blocks (by decide) hstep
    (show ([], [], states 0) = _ by simp [zeroBlocks])
  have htake : data.take (64 * ((data.length + 63) / 64)) = data := List.take_of_length_le (by omega)
  rw [checkHash, hsub, Nat.mod_eq_of_lt hstop]
  simp only [Setup.hash, bind, Except.bind] at hs' ⊢
  simp only [Bool.not_true, Bool.false_eq_true, if_false, hashBlockSize, hs', htake, pure, Except.pure]

theorem checkHash_ok {ρ : Type} (u : Setup) (read : ρ → Nat → Nat → Except Error (List UInt8 × ρ))
    (states : Nat → ρ) {data : List UInt8} {storage : Range} {location n : Nat}
    (hdata : data.length = 64 * n)
    (hread : ∀ k, k < n →
      read (states k) (location + 64 * k) 64 = .ok (field data (64 * k) 64, states (k + 1)))
    (hstop : location + 64 * n < 2 ^ 32) (hsub : isValidSubrange storage ⟨location, 64 * n⟩ = true)
    (zero : Range) (expected : List UInt8) :
    checkHash u.hash read (states 0) storage ⟨location, 64 * n⟩ zero expected =
      .ok (u.digest (zeroBlocks zero location data n) = expected, data, states n) := by
  have hn : (data.length + 63) / 64 = n := by omega
  have hread' : ∀ k, 64 * k < data.length →
      read (states k) (location + 64 * k) (min (data.length - 64 * k) 64) =
        .ok (field data (64 * k) 64, states (k + 1)) := by
    intro k hk
    have hblock : min (data.length - 64 * k) 64 = 64 := by omega
    rw [hblock]
    exact hread k (by omega)
  rw [← hdata] at hstop hsub ⊢
  have hcheck := checkHash_bytes u read states hread' hstop hsub zero expected
  rwa [hn] at hcheck

/-- Where no block changes, the bytes are hashed as they are. -/
theorem zeroBlocks_of_blocks {zero : Range} {location n : Nat} {data : List UInt8}
    (h : ∀ k, k < n → zeroBlock zero (location + 64 * k) (field data (64 * k) 64) = field data (64 * k) 64) :
    zeroBlocks zero location data n = data.take (64 * n) := by
  induction n with
  | zero => rfl
  | succ n ih =>
    have hsucc : zeroBlocks zero location data (n + 1) =
        zeroBlocks zero location data n ++ zeroBlock zero (location + 64 * n) (field data (64 * n) 64) := by
      simp [zeroBlocks, List.range_succ]
    rw [hsucc, ih (fun k hk => h k (by omega)), h n (by omega), take_succ_block]

theorem clear_append_left {a : List UInt8} (b : List UInt8) {offset length : Nat}
    (h : offset + length ≤ a.length) : clear (a ++ b) offset length = clear a offset length ++ b := by
  have hmin : min length (a.length + b.length - offset) = min length (a.length - offset) := by omega
  rw [clear, clear, List.take_append_of_le_length (by omega), List.drop_append_of_le_length h,
    List.length_append, hmin]
  simp

theorem clear_append_right (a : List UInt8) {b : List UInt8} {offset length : Nat}
    (h : a.length ≤ offset) :
    clear (a ++ b) offset length = a ++ clear b (offset - a.length) length := by
  obtain ⟨i, rfl⟩ : ∃ i, offset = a.length + i := ⟨offset - a.length, by omega⟩
  have hmin : a.length + b.length - (a.length + i) = b.length - i := by omega
  rw [clear, clear, List.take_append, List.drop_append, List.take_of_length_le (by omega),
    List.drop_of_length_le (by omega), List.length_append, hmin]
  simp [Nat.add_assoc]

@[simp] theorem clear_zero (data : List UInt8) (offset : Nat) : clear data offset 0 = data := by
  simp [clear]

theorem clear_beyond {data : List UInt8} {offset : Nat} (h : data.length ≤ offset) (length : Nat) :
    clear data offset length = data := by
  rw [clear, List.take_of_length_le h, List.drop_of_length_le (by omega), Nat.sub_eq_zero_of_le h]
  simp

theorem zeroBlocks_succ (zero : Range) (location : Nat) (data : List UInt8) (n : Nat) :
    zeroBlocks zero location data (n + 1) =
      zeroBlocks zero location data n ++ zeroBlock zero (location + 64 * n) (field data (64 * n) 64) := by
  simp [zeroBlocks, List.range_succ]

/-- A field within a block of the range is taken as zeros, and nothing else. -/
theorem zeroBlocks_within {data : List UInt8} {location n offset length : Nat}
    (hn : data.length ≤ 64 * n) (hblock : offset % 64 + length ≤ 64)
    (hoffset : offset + length ≤ data.length) (hstop : location + data.length < 2 ^ 32) :
    zeroBlocks ⟨location + offset, length⟩ location data n = clear data offset length := by
  have htaken : ∀ k, zeroBlocks ⟨location + offset, length⟩ location data k =
      clear (data.take (64 * k)) offset length := by
    intro k
    induction k with
    | zero => simp [zeroBlocks, clear]
    | succ k ih =>
      have hmod : (location + offset + length) % 2 ^ 32 = location + offset + length :=
        Nat.mod_eq_of_lt (by omega)
      have htake : (data.take (64 * k)).length = min (64 * k) data.length := List.length_take
      have hlen : (field data (64 * k) 64).length = min 64 (data.length - 64 * k) := by
        rw [field, List.length_take, List.length_drop]
      rw [zeroBlocks_succ, ih, take_succ_block, zeroBlock]
      dsimp only
      rw [hmod, hlen]
      rcases Nat.lt_trichotomy (offset / 64) k with hlt | heq | hgt
      · -- the field lies before the block
        rw [if_neg (by omega), clear_append_left _ (by omega)]
      · have hinside : location + offset - (location + 64 * k) = offset - (data.take (64 * k)).length := by
          omega
        rw [if_pos (by omega), clear_beyond (by omega), clear_append_right _ (by omega), hinside]
      · -- the field lies beyond the block, or it is empty
        have happend : (data.take (64 * k) ++ field data (64 * k) 64).length ≤ offset := by
          rw [List.length_append]
          omega
        rw [clear_beyond (by omega), clear_beyond happend, clear_beyond (by omega), ite_self]
  rw [htaken n, List.take_of_length_le hn]

theorem zeroBlocks_eq_clear {data : List UInt8} {location n offset : Nat} (hdata : data.length = 64 * n)
    (hblock : offset % 64 + 20 ≤ 64) (hoffset : offset + 20 ≤ 64 * n)
    (hstop : location + 64 * n < 2 ^ 32) :
    zeroBlocks ⟨location + offset, 20⟩ location data n = clear data offset 20 :=
  zeroBlocks_within (by omega) hblock (by omega) (by omega)

namespace Setup

variable (u : Setup) (d : Board)

/-- The plain text of some blocks. -/
def plain (iv data : List UInt8) : List UInt8 :=
  (Cbc.decrypt u.cipher u.key (data.length / 16) iv data).1

variable {u d}

theorem length_plain {iv data : List UInt8} {n : Nat} (hiv : iv.length = 16)
    (hdata : data.length = 16 * n) : (u.plain iv data).length = 16 * n := by
  have hn : data.length / 16 = n := by omega
  rw [plain, hn]
  exact (Cbc.length_decrypt n hiv hdata).1

/-- Some blocks of a section of the update, decrypted with the vector that stands before them. -/
theorem decrypt_part {iv : List UInt8} (hiv : iv.length = 16) (location : Nat) {n i m : Nat}
    (h : i + m ≤ n) :
    u.decrypt.update (u.key, Cbc.after u.cipher u.key iv (Nor.read d.update location (16 * n)) i)
        (Nor.read d.update (location + 16 * i) (16 * m)) =
      .ok (field (u.plain iv (Nor.read d.update location (16 * n))) (16 * i) (16 * m), u.key,
        Cbc.after u.cipher u.key iv (Nor.read d.update location (16 * n)) (i + m)) := by
  have hpart := Cbc.decrypt_part (c := u.cipher) (k := u.key) hiv
    (Nor.length_read d.update location (16 * n)) h
  have hread : ((Nor.read d.update location (16 * n)).drop (16 * i)).take (16 * m) =
      Nor.read d.update (location + 16 * i) (16 * m) := field_read _ _ (by omega)
  have hm : 16 * m / 16 = m := by omega
  have hn : 16 * n / 16 = n := by omega
  rw [hread] at hpart
  simp only [decrypt, Nor.length_read, hm, hpart, plain, hn, field]

theorem readAndDecrypt_ok {iv : List UInt8} (hiv : iv.length = 16) {location n k : Nat} (hk : k < n) :
    u.interface.readAndDecrypt d
        (u.key, Cbc.after u.cipher u.key iv (Nor.read d.update location (64 * n)) (4 * k))
        (location + 64 * k) 64 =
      .ok (field (u.plain iv (Nor.read d.update location (64 * n))) (64 * k) 64, u.key,
        Cbc.after u.cipher u.key iv (Nor.read d.update location (64 * n)) (4 * (k + 1))) := by
  have h := decrypt_part (u := u) (d := d) hiv location (n := 4 * n) (i := 4 * k) (m := 4) (by omega)
  have hn : 16 * (4 * n) = 64 * n := by omega
  have hk' : 16 * (4 * k) = 64 * k := by omega
  have hnext : 4 * (k + 1) = 4 * k + 4 := by omega
  rw [hn, hk'] at h
  rw [hnext, ← h]
  rfl

/-! ## The callbacks -/

section

variable (u d)

theorem getExecutableStorage_interface :
    (u.interface.info d).getExecutableStorage = .ok u.executableStorage := rfl

theorem getExecutable_interface : (u.interface.info d).getExecutable = .ok u.executable := rfl

theorem getUpdateStorage_interface : (u.interface.info d).getUpdateStorage = .ok u.updateStorage :=
  rfl

theorem getDecryption_interface : (u.interface.info d).getDecryption = .ok u.key := rfl

theorem hash_interface : u.interface.hash d = u.hash := rfl

theorem decryptInit_interface (key iv : List UInt8) :
    (u.interface.decrypt d).init key iv = .ok (key, iv) := rfl

theorem decryptFinalize_interface (c : List UInt8 × List UInt8) :
    (u.interface.decrypt d).finalize c = .ok () := rfl

theorem executableRead_interface (location length : Nat) :
    u.interface.executableRead d location length = .ok (Nor.read d.flash location length) := rfl

theorem updateRead_interface (location length : Nat) :
    u.interface.updateRead d location length = .ok (Nor.read d.update location length) := rfl

theorem flasherFinalize_interface : u.interface.executableFlasher.finalize d = .ok d := rfl

end

/-! ## Loops that decrypt -/

theorem decryptRange_ok {metadata : UpdateMetadata} (hiv : metadata.initializationVector.length = 16)
    (location n : Nat) (hstop : location + 16 * n < 2 ^ 32) :
    u.interface.decryptRange d metadata ⟨location, 16 * n⟩ =
      .ok (u.plain metadata.initializationVector (Nor.read d.update location (16 * n))) := by
  let iv := metadata.initializationVector
  let data := Nor.read d.update location (16 * n)
  have hlen : (u.plain iv data).length = 16 * n := length_plain hiv (Nor.length_read _ _ _)
  have hstep : ∀ k s, k < n →
      s = ((u.key, Cbc.after u.cipher u.key iv data k), (u.plain iv data).take (16 * k)) →
      ∃ s', u.interface.decryptBlock d (location + 16 * k) 16 s = .ok s' ∧
        s' = ((u.key, Cbc.after u.cipher u.key iv data (k + 1)),
          (u.plain iv data).take (16 * (k + 1))) := by
    rintro k s hk rfl
    have hpart := decrypt_part (u := u) (d := d) hiv location (i := k) (m := 1) (by omega : k + 1 ≤ n)
    refine ⟨_, ?_, rfl⟩
    simp only [Interface.decryptBlock, interface, bind, Except.bind, pure, Except.pure] at hpart ⊢
    rw [hpart, take_succ_block]
  obtain ⟨s', hs', rfl⟩ := Blocks.run_aligned n (by decide) hstep
    (show ((u.key, iv), []) = _ by simp [Cbc.after, Cbc.decrypt])
  have htake : (u.plain iv data).take (16 * n) = u.plain iv data := List.take_of_length_le (by omega)
  simp -implicitDefEqProofs only [Interface.decryptRange, Nat.mod_eq_of_lt hstop, decryptBlockSize,
    getDecryption_interface, decryptInit_interface, decryptFinalize_interface, ok_bind, pure_eq]
  rw [bind_of_ok hs', htake]

/-- Each write begins where the one before it ended. -/
def Consecutive : Nat → List (Nat × List UInt8) → Prop
  | _, [] => True
  | location, (a, data) :: ws => a = location ∧ Consecutive ((location + data.length) % 2 ^ 32) ws

theorem consecutive_snoc {location : Nat} {ws : List (Nat × List UInt8)} {a : Nat} {data : List UInt8}
    (hloc : location < 2 ^ 32) (h : Consecutive location ws)
    (ha : a = (location + (ws.flatMap (·.2)).length) % 2 ^ 32) :
    Consecutive location (ws ++ [(a, data)]) := by
  induction ws generalizing location with
  | nil => exact ⟨ha.trans (Nat.mod_eq_of_lt hloc), trivial⟩
  | cons w ws ih =>
    obtain ⟨b, bytes⟩ := w
    obtain ⟨rfl, hrest⟩ := h
    refine ⟨rfl, ih (Nat.mod_lt _ (by decide)) hrest ?_⟩
    rw [ha]
    simp only [List.flatMap_cons, List.length_append]
    omega

/-- Where a block is written the flash may have to be erased first. -/
def erasing (u : Setup) (length : Nat) (flash : Nor.Image) (next location : Nat) : Nat × Nor.Image :=
  if next = location then u.erase flash location length else (next, flash)

/-- The flash after a block, and the next location to erase at. -/
def flashing (u : Setup) (length : Nat) (flash : Nor.Image) (next location : Nat)
    (data : List UInt8) : Nor.Image × Nat :=
  let r := u.erasing length flash next location
  (store r.2 location data, r.1)

theorem installBlock_eq {length location : Nat} {s : Installing Board (List UInt8 × List UInt8)}
    {out : List UInt8} {c : List UInt8 × List UInt8}
    (h : u.decrypt.update s.decryption (Nor.read s.device.update location 16) = .ok (out, c)) :
    u.interface.installBlock length location 16 s =
      .ok ⟨c,
        { s.device with
          flash := (u.flashing length s.device.flash s.nextEraseLocation s.flashLocation out).1
          writes := s.device.writes ++ [(s.flashLocation, out)] },
        (s.flashLocation + 16) % 2 ^ 32,
        (u.flashing length s.device.flash s.nextEraseLocation s.flashLocation out).2⟩ := by
  simp only [Interface.installBlock, interface, raise, bind, Except.bind, pure, Except.pure] at h ⊢
  rw [h]
  simp only [flasher, flashing, erasing]
  split <;> rfl

theorem install_eq (metadata : UpdateMetadata) : u.interface.install d metadata =
    (Blocks.run 16 (u.interface.installBlock metadata.executableMetadata.length)
      (executableLocation u.updateStorage metadata)
      ((executableLocation u.updateStorage metadata + metadata.executableMetadata.length) % 2 ^ 32)
      ⟨(u.key, metadata.initializationVector), d, u.executable.location, u.executable.location⟩ >>=
      fun s => .ok s.device) := by
  simp -implicitDefEqProofs only [Interface.install, Interface.installStart, decryptBlockSize,
    getDecryption_interface, decryptInit_interface, getExecutable_interface,
    getUpdateStorage_interface, flasherFinalize_interface, decryptFinalize_interface, ok_bind,
    pure_eq, raise_ok]

/-- The installation of `n` blocks, with an invariant `F` of the flash and the next location to
erase at by the number of blocks written. -/
theorem install_ok {metadata : UpdateMetadata} (hiv : metadata.initializationVector.length = 16)
    {n : Nat} (hlen : metadata.executableMetadata.length = 16 * n)
    (hstop : executableLocation u.updateStorage metadata + 16 * n < 2 ^ 32)
    (hloc : u.executable.location < 2 ^ 32) {image : List UInt8}
    (himage : image = u.plain metadata.initializationVector
      (Nor.read d.update (executableLocation u.updateStorage metadata) (16 * n)))
    {F : Nat → Nor.Image → Nat → Prop} (hF₀ : F 0 d.flash u.executable.location)
    (hF : ∀ k flash next, k < n → F k flash next →
      F (k + 1) (u.flashing (16 * n) flash next ((u.executable.location + 16 * k) % 2 ^ 32)
          (field image (16 * k) 16)).1
        (u.flashing (16 * n) flash next ((u.executable.location + 16 * k) % 2 ^ 32)
          (field image (16 * k) 16)).2) :
    ∃ d', u.interface.install d metadata = .ok d' ∧ d'.update = d.update ∧
      (∃ ws, d'.writes = d.writes ++ ws ∧ Consecutive u.executable.location ws ∧
        ws.flatMap (·.2) = image) ∧ ∃ next, F n d'.flash next := by
  rw [install_eq, hlen]
  generalize executableLocation u.updateStorage metadata = location at hstop himage ⊢
  generalize metadata.initializationVector = iv at hiv himage ⊢
  subst himage
  let data := Nor.read d.update location (16 * n)
  have himage : (u.plain iv data).length = 16 * n := length_plain hiv (Nor.length_read _ _ _)
  let Inv (k : Nat) (s : Installing Board (List UInt8 × List UInt8)) : Prop :=
    s.decryption = (u.key, Cbc.after u.cipher u.key iv data k) ∧ s.device.update = d.update ∧
      s.flashLocation = (u.executable.location + 16 * k) % 2 ^ 32 ∧
      (∃ ws, s.device.writes = d.writes ++ ws ∧ Consecutive u.executable.location ws ∧
        ws.flatMap (·.2) = (u.plain iv data).take (16 * k)) ∧ F k s.device.flash s.nextEraseLocation
  have hstep : ∀ k s, k < n → Inv k s →
      ∃ s', u.interface.installBlock (16 * n) (location + 16 * k) 16 s = .ok s' ∧ Inv (k + 1) s' := by
    rintro k s hk ⟨hc, hupdate, hflash, ⟨ws, hws, hcons, hbytes⟩, hinv⟩
    have hpart := decrypt_part (u := u) (d := d) hiv location (i := k) (m := 1) (by omega : k + 1 ≤ n)
    have hdecrypt : u.decrypt.update s.decryption (Nor.read s.device.update (location + 16 * k) 16) =
        .ok (field (u.plain iv data) (16 * k) 16, u.key,
          Cbc.after u.cipher u.key iv data (k + 1)) := by
      rw [hc, hupdate]
      exact hpart
    refine ⟨_, installBlock_eq hdecrypt, rfl, hupdate, ?_, ?_, ?_⟩
    · simp only [hflash]
      omega
    · refine ⟨ws ++ [(s.flashLocation, field (u.plain iv data) (16 * k) 16)], ?_, ?_, ?_⟩
      · simp [hws]
      · refine consecutive_snoc hloc hcons ?_
        rw [hflash, hbytes, List.length_take, himage, Nat.min_eq_left (by omega)]
      · rw [List.flatMap_append, hbytes, take_succ_block]
        simp
    · simp only [hflash]
      exact hF k _ _ hk hinv
  obtain ⟨s', hs', hc, hupdate, -, ⟨ws, hws, hcons, hbytes⟩, hinv⟩ :=
    Blocks.run_aligned n (by decide) hstep
      (show Inv 0 ⟨(u.key, iv), d, u.executable.location, u.executable.location⟩ from
        ⟨by simp [Cbc.after, Cbc.decrypt], rfl, (Nat.mod_eq_of_lt hloc).symm,
          ⟨[], by simp, trivial, by simp⟩, hF₀⟩)
  refine ⟨s'.device, ?_, hupdate, ⟨ws, hws, hcons, ?_⟩, s'.nextEraseLocation, hinv⟩
  · rw [Nat.mod_eq_of_lt hstop, hs']
    rfl
  · rw [hbytes, List.take_of_length_le (by omega)]

end Setup

end Boot
end Firefly
