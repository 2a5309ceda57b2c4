import Firefly.Crypto.Aes
import Firefly.Lib.Cbc
import Firefly.Lib.Memory

/-!
# Firefly.Crypto.AesCbc

`fd_crypto_aes.c`: the CBC mode on buffers in memory. The round keys and the initialization vector are
static and stay from one call to the next, so that a stream can be decrypted piece by piece. For pieces of
whole blocks the two buffer functions are the CBC mode of the standard (`decryptBuffer_eq`,
`encryptBuffer_eq`), and a stream gives its plain text however it is cut (`decryptStream_encrypt`).
-/

namespace Firefly
namespace AesCbc

open Aes

/-! ## Blocks in memory -/

/-- `BlockCopy`, byte by byte. -/
def blockCopy (m : Memory) (output input : Nat) : Memory :=
  (List.range 16).foldl (fun m i => m.write (output + i) [m (input + i)]) m

def xorWithIv (iv : List UInt8) (m : Memory) (buf : Nat) : Memory :=
  (List.range 16).foldl (fun m i => m.write (buf + i) [m (buf + i) ^^^ iv.getD i 0]) m

/-- `Cipher` or `InvCipher`, with `state` at an address. -/
def work (transform : State → State) (m : Memory) (state : Nat) : Memory :=
  m.write state (transform (.ofBytes (m.read state 16))).toBytes

/-! ## Buffers -/

structure Static where
  roundKey : List Column
  iv : List UInt8

/-- The variables of the loop over the blocks. -/
structure Run where
  iv : List UInt8
  memory : Memory
  output : Nat
  input : Nat

def encryptBlock (roundKey : List Column) (r : Run) : Run :=
  let m := xorWithIv r.iv r.memory r.input
  let m := blockCopy m r.output r.input
  let m := work (cipher roundKey) m r.output
  ⟨m.read r.output 16, m, r.output + 16, r.input + 16⟩

def decryptBlock (roundKey : List Column) (r : Run) : Run :=
  let m := blockCopy r.memory r.output r.input
  let m := work (invCipher roundKey) m r.output
  let m := xorWithIv r.iv m r.output
  ⟨m.read r.input 16, m, r.output + 16, r.input + 16⟩

/-- The loop. Its counter wraps around. -/
def blocks (block : Run → Run) (length : UInt32) : Nat → UInt32 → Run → Option Run
  | 0, _, _ => none
  | fuel + 1, i, r => if i < length then blocks block length fuel (i + 16) (block r) else some r

/-- The last block again, as far as it is there, and without the vector. -/
def remainder (transform : State → State) (length : UInt32) (r : Run) : Memory :=
  let remainders := length.toNat % 16
  if remainders ≠ 0 then
    let m := blockCopy r.memory r.output r.input
    let m := m.write (r.output + remainders) (List.replicate (16 - remainders) 0)
    work transform m r.output
  else r.memory

/-- A null pointer for the key keeps the round keys that there are. -/
def nextKey (s : Static) (m : Memory) : Option Nat → List Column
  | some key => keyExpansion (m.read key 16)
  | none => s.roundKey

def nextIv (s : Static) (m : Memory) : Option Nat → List UInt8
  | some iv => m.read iv 16
  | none => s.iv

/-- The two buffer functions, which differ in what they make of a block. -/
def buffer (block : List Column → Run → Run) (transform : List Column → State → State) (s : Static) (m : Memory)
    (output input : Nat) (length : UInt32) (key iv : Option Nat) : Option (Static × Memory) := do
  let m := blockCopy m output input
  let s : Static := ⟨nextKey s m key, nextIv s m iv⟩
  let r ← blocks (block s.roundKey) length (2 ^ 28) 0 ⟨s.iv, m, output, input⟩
  return (⟨s.roundKey, r.iv⟩, remainder (transform s.roundKey) length r)

/-- `AES128_CBC_encrypt_buffer`. -/
def encryptBuffer : Static → Memory → Nat → Nat → UInt32 → Option Nat → Option Nat → Option (Static × Memory) :=
  buffer encryptBlock cipher

/-- `AES128_CBC_decrypt_buffer`. -/
def decryptBuffer : Static → Memory → Nat → Nat → UInt32 → Option Nat → Option Nat → Option (Static × Memory) :=
  buffer decryptBlock invCipher

/-- `fd_crypto_aes_decrypt_initialize`. Its local variables lie at `output` and `input`. -/
def decryptInitialize (s : Static) (m : Memory) (output input key iv : Nat) : Option (Static × Memory) :=
  decryptBuffer s (m.write input (List.replicate 16 0)) output input 0 (some key) (some iv)

/-- `fd_crypto_aes_decrypt_update`. -/
def decryptUpdate (s : Static) (m : Memory) (input output : Nat) (length : UInt32) : Option (Static × Memory) :=
  decryptBuffer s m output input length none none

/-! ## Blocks of the standard -/

def standard : Cbc.BlockCipher (List UInt8) 16 where
  encrypt := Rijndael.encrypt
  decrypt := Rijndael.decrypt
  length_encrypt k b _ := Rijndael.length_encrypt k b
  length_decrypt k b _ := Rijndael.length_decrypt k b
  decrypt_encrypt k _ h := Rijndael.decrypt_encrypt k h

theorem blockCopy_eq (m : Memory) {output input : Nat} (h : output + 16 ≤ input ∨ input + 16 ≤ output) :
    blockCopy m output input = m.write output (m.read input 16) := by
  have hvalue : ∀ i < (m.read input 16).length,
      m.write output ((m.read input 16).take i) (input + i) = (m.read input 16).getD i 0 := by
    intro i hi
    rw [Memory.length_read] at hi
    have htake : ((m.read input 16).take i).length = i := by
      rw [List.length_take, Memory.length_read]
      omega
    rw [Memory.write_of_outside (by omega), List.getD_eq_getElem?_getD, Memory.getElem?_read, if_pos hi]
    rfl
  have hloop := Memory.foldl_write (fun m i => m (input + i)) hvalue
  rwa [Memory.length_read] at hloop

theorem xorWithIv_eq {iv : List UInt8} (hiv : iv.length = 16) (m : Memory) (buf : Nat) :
    xorWithIv iv m buf = m.write buf (Cbc.xor (m.read buf 16) iv) := by
  have hlength : (Cbc.xor (m.read buf 16) iv).length = 16 := by
    rw [Cbc.length_xor, Memory.length_read, hiv, Nat.min_self]
  have hvalue : ∀ i < (Cbc.xor (m.read buf 16) iv).length,
      m.write buf ((Cbc.xor (m.read buf 16) iv).take i) (buf + i) ^^^ iv.getD i 0 =
        (Cbc.xor (m.read buf 16) iv).getD i 0 := by
    intro i hi
    rw [hlength] at hi
    have hxor : (Cbc.xor (m.read buf 16) iv)[i]? = some (m (buf + i) ^^^ iv[i]) := by
      rw [Cbc.xor, List.getElem?_zipWith, Memory.getElem?_read, if_pos hi, List.getElem?_eq_getElem (by omega)]
    rw [Memory.write_of_outside (by rw [List.length_take]; omega), List.getD_eq_getElem iv 0 (by omega),
      List.getD_eq_getElem?_getD, hxor, Option.getD_some]
  have hloop := Memory.foldl_write (fun m i => m (buf + i) ^^^ iv.getD i 0) hvalue
  rwa [hlength] at hloop

theorem work_cipher (key : List UInt8) (m : Memory) (state : Nat) :
    work (cipher (keyExpansion key)) m state = m.write state (Rijndael.encrypt key (m.read state 16)) := by
  rw [work, cipher_eq]

theorem work_invCipher (key : List UInt8) (m : Memory) (state : Nat) :
    work (invCipher (keyExpansion key)) m state = m.write state (Rijndael.decrypt key (m.read state 16)) := by
  rw [work, invCipher_eq]

/-- The two ranges of `n` bytes do not meet. -/
def Apart (output input n : Nat) : Prop := output + n ≤ input ∨ input + n ≤ output

theorem read_write_block (m : Memory) (a : Nat) {bs : List UInt8} (h : bs.length = 16) :
    (m.write a bs).read a 16 = bs := by
  have hread := Memory.read_write m a bs
  rwa [h] at hread

theorem decryptBlock_eq (key : List UInt8) {r : Run} (hiv : r.iv.length = 16)
    (hapart : Apart r.output r.input 16) :
    decryptBlock (keyExpansion key) r =
      ⟨r.memory.read r.input 16,
        r.memory.write r.output (Cbc.xor (Rijndael.decrypt key (r.memory.read r.input 16)) r.iv),
        r.output + 16, r.input + 16⟩ := by
  have hplain : (Cbc.xor (Rijndael.decrypt key (r.memory.read r.input 16)) r.iv).length = 16 := by
    rw [Cbc.length_xor, Rijndael.length_decrypt, hiv, Nat.min_self]
  rw [decryptBlock, blockCopy_eq r.memory hapart, work_invCipher, read_write_block _ _ (Memory.length_read _ _ _),
    Memory.write_over _ _ (by rw [Memory.length_read, Rijndael.length_decrypt]), xorWithIv_eq hiv,
    read_write_block _ _ (Rijndael.length_decrypt _ _),
    Memory.write_over _ _ (by rw [hplain, Rijndael.length_decrypt]), Memory.read_write_of_disjoint]
  rw [hplain]
  exact hapart.symm

theorem encryptBlock_eq (key : List UInt8) {r : Run} (hiv : r.iv.length = 16)
    (hapart : Apart r.output r.input 16) :
    encryptBlock (keyExpansion key) r =
      ⟨Rijndael.encrypt key (Cbc.xor (r.memory.read r.input 16) r.iv),
        (r.memory.write r.input (Cbc.xor (r.memory.read r.input 16) r.iv)).write r.output
          (Rijndael.encrypt key (Cbc.xor (r.memory.read r.input 16) r.iv)),
        r.output + 16, r.input + 16⟩ := by
  have hxor : (Cbc.xor (r.memory.read r.input 16) r.iv).length = 16 := by
    rw [Cbc.length_xor, Memory.length_read, hiv, Nat.min_self]
  rw [encryptBlock, xorWithIv_eq hiv, blockCopy_eq _ hapart, read_write_block _ _ hxor, work_cipher,
    read_write_block _ _ hxor, Memory.write_over _ _ (by rw [hxor, Rijndael.length_encrypt]),
    read_write_block _ _ (Rijndael.length_encrypt _ _)]

/-! ## Streams of blocks -/

theorem blocks_stop (block : Run → Run) {length : UInt32} {i : UInt32} (r : Run) (h : i.toNat = length.toNat)
    (fuel : Nat) : blocks block length (fuel + 1) i r = some r := by
  have hstop : ¬i < length := by
    rw [UInt32.lt_iff_toNat_lt]
    omega
  rw [blocks, if_neg hstop]

theorem blocks_step (block : Run → Run) {length : UInt32} {i : UInt32} {n : Nat} (r : Run)
    (h : i.toNat + 16 * (n + 1) = length.toNat) (fuel : Nat) :
    blocks block length (fuel + 1) i r = blocks block length fuel (i + 16) (block r) ∧
      (i + 16).toNat + 16 * n = length.toNat := by
  have hlength := length.toNat_lt
  have hnext : (i + 16).toNat = i.toNat + 16 := by
    rw [UInt32.toNat_add]
    exact Nat.mod_eq_of_lt (by change i.toNat + 16 < _; omega)
  have hgo : i < length := by
    rw [UInt32.lt_iff_toNat_lt]
    omega
  rw [blocks, if_pos hgo, hnext]
  exact ⟨rfl, by omega⟩

theorem blocks_decryptBlock (key : List UInt8) {length : UInt32} (n : Nat) {fuel : Nat} {i : UInt32} {r : Run}
    (hfuel : n < fuel) (hi : i.toNat + 16 * n = length.toNat) (hiv : r.iv.length = 16)
    (hapart : Apart r.output r.input (16 * n)) :
    blocks (decryptBlock (keyExpansion key)) length fuel i r =
      some ⟨(Cbc.decrypt standard key n r.iv (r.memory.read r.input (16 * n))).2,
        r.memory.write r.output (Cbc.decrypt standard key n r.iv (r.memory.read r.input (16 * n))).1,
        r.output + 16 * n, r.input + 16 * n⟩ := by
  induction n generalizing fuel i r with
  | zero =>
    obtain ⟨fuel, rfl⟩ : ∃ f, fuel = f + 1 := ⟨fuel - 1, by omega⟩
    rw [blocks_stop _ r (by omega)]
    simp [Cbc.decrypt, Memory.write_nil]
  | succ n ih =>
    obtain ⟨fuel, rfl⟩ : ∃ f, fuel = f + 1 := ⟨fuel - 1, by omega⟩
    obtain ⟨hloop, hnext⟩ := blocks_step (decryptBlock (keyExpansion key)) r hi fuel
    rw [Nat.mul_succ] at hapart
    have hfirst : Apart r.output r.input 16 := by
      unfold Apart at hapart ⊢
      omega
    have hrest : Apart (r.output + 16) (r.input + 16) (16 * n) := by
      unfold Apart at hapart ⊢
      omega
    have hplain : (Cbc.xor (Rijndael.decrypt key (r.memory.read r.input 16)) r.iv).length = 16 := by
      rw [Cbc.length_xor, Rijndael.length_decrypt, hiv, Nat.min_self]
    have hread : (r.memory.write r.output (Cbc.xor (Rijndael.decrypt key (r.memory.read r.input 16)) r.iv)).read
        (r.input + 16) (16 * n) = r.memory.read (r.input + 16) (16 * n) := by
      rw [Memory.read_write_of_disjoint]
      unfold Apart at hapart
      omega
    have hwrite := Memory.write_write r.memory r.output
      (Cbc.xor (Rijndael.decrypt key (r.memory.read r.input 16)) r.iv)
    rw [hplain] at hwrite
    have htake : (r.memory.read r.input (16 * n + 16)).take 16 = r.memory.read r.input 16 :=
      Memory.take_read (Nat.le_add_left 16 (16 * n))
    have hdrop : (r.memory.read r.input (16 * n + 16)).drop 16 = r.memory.read (r.input + 16) (16 * n) :=
      Memory.drop_read (Nat.le_add_left 16 (16 * n))
    rw [hloop, decryptBlock_eq key hiv hfirst, ih (by omega) hnext (Memory.length_read _ _ _) hrest]
    simp only [hread, hwrite, Cbc.decrypt, htake, hdrop, Nat.mul_succ, Nat.add_right_comm _ 16, ← Nat.add_assoc]
    rfl

/-- The input is added up with the vectors where it is, and lost. -/
theorem blocks_encryptBlock (key : List UInt8) {length : UInt32} (n : Nat) {fuel : Nat} {i : UInt32} {r : Run}
    (hfuel : n < fuel) (hi : i.toNat + 16 * n = length.toNat) (hiv : r.iv.length = 16)
    (hapart : Apart r.output r.input (16 * n)) :
    ∃ iv lost, lost.length = 16 * n ∧ iv.length = 16 ∧
      blocks (encryptBlock (keyExpansion key)) length fuel i r =
        some ⟨iv, (r.memory.write r.input lost).write r.output
            (Cbc.encrypt standard key n r.iv (r.memory.read r.input (16 * n))),
          r.output + 16 * n, r.input + 16 * n⟩ := by
  induction n generalizing fuel i r with
  | zero =>
    obtain ⟨fuel, rfl⟩ : ∃ f, fuel = f + 1 := ⟨fuel - 1, by omega⟩
    refine ⟨r.iv, [], rfl, hiv, ?_⟩
    rw [blocks_stop _ r (by omega)]
    simp [Cbc.encrypt, Memory.write_nil]
  | succ n ih =>
    obtain ⟨fuel, rfl⟩ : ∃ f, fuel = f + 1 := ⟨fuel - 1, by omega⟩
    obtain ⟨hloop, hnext⟩ := blocks_step (encryptBlock (keyExpansion key)) r hi fuel
    rw [Nat.mul_succ] at hapart
    have hfirst : Apart r.output r.input 16 := by
      unfold Apart at hapart ⊢
      omega
    have hrest : Apart (r.output + 16) (r.input + 16) (16 * n) := by
      unfold Apart at hapart ⊢
      omega
    have hblock := encryptBlock_eq key hiv hfirst
    obtain ⟨sum, hsum⟩ : ∃ s, Cbc.xor (r.memory.read r.input 16) r.iv = s := ⟨_, rfl⟩
    have hlength : sum.length = 16 := by
      rw [← hsum, Cbc.length_xor, Memory.length_read, hiv, Nat.min_self]
    rw [hsum] at hblock
    obtain ⟨code, hcode⟩ : ∃ c, Rijndael.encrypt key sum = c := ⟨_, rfl⟩
    have hcodelength : code.length = 16 := by rw [← hcode, Rijndael.length_encrypt]
    rw [hcode] at hblock
    have hread : ((r.memory.write r.input sum).write r.output code).read (r.input + 16) (16 * n) =
        r.memory.read (r.input + 16) (16 * n) := by
      rw [Memory.read_write_of_disjoint, Memory.read_write_of_disjoint]
      · omega
      · unfold Apart at hapart
        omega
    obtain ⟨iv, lost, hlost, hlast, hrun⟩ := ih (r := encryptBlock (keyExpansion key) r)
      (show n < fuel by omega) hnext (by rw [hblock, hcodelength]) (by rw [hblock]; exact hrest)
    rw [hblock] at hrun hloop
    simp only [hread] at hrun
    have htake : (r.memory.read r.input (16 * n + 16)).take 16 = r.memory.read r.input 16 :=
      Memory.take_read (Nat.le_add_left 16 (16 * n))
    have hdrop : (r.memory.read r.input (16 * n + 16)).drop 16 = r.memory.read (r.input + 16) (16 * n) :=
      Memory.drop_read (Nat.le_add_left 16 (16 * n))
    have hcipher : standard.encrypt key sum = code := hcode
    refine ⟨iv, sum ++ lost, ?_, hlast, ?_⟩
    · rw [List.length_append, hlength, hlost, Nat.mul_succ, Nat.add_comm]
    · have hcomm : ((r.memory.write r.input sum).write r.output code).write (r.input + 16) lost =
          ((r.memory.write r.input sum).write (r.input + 16) lost).write r.output code := by
        apply Memory.write_comm
        unfold Apart at hapart
        omega
      have hinput := Memory.write_write r.memory r.input sum lost
      have houtput := Memory.write_write ((r.memory.write r.input sum).write (r.input + 16) lost) r.output code
        (Cbc.encrypt standard key n code (r.memory.read (r.input + 16) (16 * n)))
      rw [hlength] at hinput
      rw [hcodelength] at houtput
      rw [hloop, hrun, hcomm, houtput, hinput]
      simp only [Cbc.encrypt, htake, hdrop, hsum, hcipher, Nat.mul_succ, Nat.add_right_comm _ 16, ← Nat.add_assoc]

/-! ## Buffers of whole blocks -/

/-- The static variables between two pieces of a stream. -/
structure Holds (key vector : List UInt8) (s : Static) : Prop where
  roundKey : s.roundKey = keyExpansion key
  iv : s.iv = vector
  length : vector.length = 16

theorem remainder_of_blocks (transform : State → State) {length : UInt32} {n : Nat} (h : length.toNat = 16 * n)
    (r : Run) : remainder transform length r = r.memory := by
  have hzero : length.toNat % 16 = 0 := by omega
  rw [remainder, hzero]
  rfl

/-- The block that is copied first is written over, and the input is not. -/
theorem buffer_start {m : Memory} {output input n : Nat} (hn : 0 < n) (hapart : Apart output input (16 * n)) :
    Apart output input 16 ∧
      (m.write output (m.read input 16)).read input (16 * n) = m.read input (16 * n) := by
  unfold Apart at hapart
  refine ⟨?_, ?_⟩
  · unfold Apart
    omega
  · rw [Memory.read_write_of_disjoint]
    rw [Memory.length_read]
    omega

theorem decryptBuffer_eq {s : Static} {m : Memory} {output input n : Nat} {length : UInt32}
    {key iv : Option Nat} {k v : List UInt8}
    (h : Holds k v ⟨nextKey s (m.write output (m.read input 16)) key,
      nextIv s (m.write output (m.read input 16)) iv⟩)
    (hn : 0 < n) (hlength : length.toNat = 16 * n) (hapart : Apart output input (16 * n)) :
    ∃ s', decryptBuffer s m output input length key iv =
        some (s', m.write output (Cbc.decrypt standard k n v (m.read input (16 * n))).1) ∧
      Holds k (Cbc.decrypt standard k n v (m.read input (16 * n))).2 s' := by
  obtain ⟨hfirst, hinput⟩ := buffer_start (m := m) hn hapart
  have hlt := length.toNat_lt
  obtain ⟨hout, hlast⟩ := Cbc.length_decrypt (c := standard) (k := k) n h.length
    (Memory.length_read m input (16 * n))
  have hblocks := blocks_decryptBlock k n (i := 0) (r := ⟨v, blockCopy m output input, output, input⟩)
    (show n < 2 ^ 28 by omega) (by rw [← hlength]; exact Nat.zero_add _) h.length hapart
  rw [blockCopy_eq m hfirst, hinput] at hblocks
  have hkey := h.roundKey
  have hiv := h.iv
  dsimp only at hkey hiv
  refine ⟨⟨keyExpansion k, (Cbc.decrypt standard k n v (m.read input (16 * n))).2⟩, ?_, rfl, rfl, hlast⟩
  simp only [decryptBuffer, buffer, blockCopy_eq m hfirst, hkey, hiv, hblocks, Option.bind_eq_bind,
    Option.bind_some, remainder_of_blocks _ hlength]
  rw [Memory.write_over]
  · rfl
  · rw [Memory.length_read, hout]
    omega

/-- A piece of a stream. -/
theorem decryptUpdate_eq {key iv : List UInt8} {s : Static} (h : Holds key iv s) (m : Memory)
    {input output n : Nat} {length : UInt32} (hn : 0 < n) (hlength : length.toNat = 16 * n)
    (hapart : Apart output input (16 * n)) :
    ∃ s', decryptUpdate s m input output length =
        some (s', m.write output (Cbc.decrypt standard key n iv (m.read input (16 * n))).1) ∧
      Holds key (Cbc.decrypt standard key n iv (m.read input (16 * n))).2 s' :=
  decryptBuffer_eq ⟨h.roundKey, h.iv, h.length⟩ hn hlength hapart

theorem encryptBuffer_eq {s : Static} {m : Memory} {output input n : Nat} {length : UInt32}
    {key iv : Option Nat} {k v : List UInt8}
    (h : Holds k v ⟨nextKey s (m.write output (m.read input 16)) key,
      nextIv s (m.write output (m.read input 16)) iv⟩)
    (hn : 0 < n) (hlength : length.toNat = 16 * n) (hapart : Apart output input (16 * n)) :
    ∃ s' lost, lost.length = 16 * n ∧ encryptBuffer s m output input length key iv =
      some (s', (m.write input lost).write output (Cbc.encrypt standard k n v (m.read input (16 * n)))) := by
  obtain ⟨hfirst, hinput⟩ := buffer_start (m := m) hn hapart
  have hlt := length.toNat_lt
  obtain ⟨last, lost, hlost, hlast, hblocks⟩ := blocks_encryptBlock k n (i := 0)
    (r := ⟨v, blockCopy m output input, output, input⟩)
    (show n < 2 ^ 28 by omega) (by rw [← hlength]; exact Nat.zero_add _) h.length hapart
  rw [blockCopy_eq m hfirst, hinput] at hblocks
  have hkey := h.roundKey
  have hiv := h.iv
  dsimp only at hkey hiv
  have hcode := Cbc.length_encrypt (c := standard) (k := k) n h.length (Memory.length_read m input (16 * n))
  have hcomm : (m.write output (m.read input 16)).write input lost =
      (m.write input lost).write output (m.read input 16) := by
    apply Memory.write_comm
    rw [Memory.length_read]
    unfold Apart at hapart
    omega
  refine ⟨⟨keyExpansion k, last⟩, lost, hlost, ?_⟩
  simp only [encryptBuffer, buffer, blockCopy_eq m hfirst, hkey, hiv, hblocks, Option.bind_eq_bind,
    Option.bind_some, remainder_of_blocks _ hlength, hcomm]
  rw [Memory.write_over]
  · rfl
  · rw [Memory.length_read, hcode]
    omega

/-! ## Streams -/

theorem decryptInitialize_eq (s : Static) (m : Memory) {output input key iv : Nat} (hlocals : Apart output input 16)
    (hkey : Apart output key 16 ∧ Apart input key 16) (hiv : Apart output iv 16 ∧ Apart input iv 16) :
    ∃ s', decryptInitialize s m output input key iv =
        some (s', (m.write input (List.replicate 16 0)).write output (List.replicate 16 0)) ∧
      Holds (m.read key 16) (m.read iv 16) s' := by
  have hzero : (m.write input (List.replicate 16 0)).read input 16 = List.replicate 16 0 :=
    read_write_block m input rfl
  have hread : ∀ a, Apart output a 16 ∧ Apart input a 16 →
      ((m.write input (List.replicate 16 0)).write output (List.replicate 16 0)).read a 16 = m.read a 16 := by
    rintro a ⟨houtput, hinput⟩
    rw [Memory.read_write_of_disjoint houtput.symm, Memory.read_write_of_disjoint hinput.symm]
  refine ⟨⟨keyExpansion (m.read key 16), m.read iv 16⟩, ?_, rfl, rfl, Memory.length_read m iv 16⟩
  simp only [decryptInitialize, decryptBuffer, buffer, blockCopy_eq _ hlocals, hzero, nextKey, nextIv, hread _ hkey,
    hread _ hiv]
  rw [show 2 ^ 28 = (2 ^ 28 - 1) + 1 from rfl, blocks_stop _ _ rfl]
  rfl

/-- A piece of whole blocks that lies in a memory, with room for its plain text apart from it. -/
structure Piece where
  memory : Memory
  input : Nat
  output : Nat
  count : Nat
  count_pos : 0 < count
  count_lt : 16 * count < 2 ^ 32
  apart : Apart output input (16 * count)

def Piece.data (p : Piece) : List UInt8 := p.memory.read p.input (16 * p.count)

/-- The plain text that a run of updates leaves in the memories. -/
def updates : Static → List Piece → Option (List UInt8)
  | _, [] => some []
  | s, p :: pieces => do
    let (s', m) ← decryptUpdate s p.memory p.input p.output (UInt32.ofNat (16 * p.count))
    let rest ← updates s' pieces
    return m.read p.output (16 * p.count) ++ rest

/-- What a caller does with a stream. -/
def decryptStream (s : Static) (m : Memory) (output input key iv : Nat) (pieces : List Piece) :
    Option (List UInt8) := do
  let (s', _) ← decryptInitialize s m output input key iv
  updates s' pieces

theorem updates_eq {key iv : List UInt8} {s : Static} (h : Holds key iv s) (pieces : List Piece) :
    updates s pieces =
      some (Cbc.decrypt standard key (pieces.map Piece.count).sum iv (pieces.flatMap Piece.data)).1 := by
  induction pieces generalizing s iv with
  | nil => rfl
  | cons p pieces ih =>
    have hlength : (UInt32.ofNat (16 * p.count)).toNat = 16 * p.count := UInt32.toNat_ofNat_of_lt' p.count_lt
    obtain ⟨s', hupdate, hs'⟩ := decryptUpdate_eq h p.memory p.count_pos hlength p.apart
    have hdata : p.data.length = 16 * p.count := Memory.length_read p.memory p.input (16 * p.count)
    have hout := (Cbc.length_decrypt (c := standard) (k := key) p.count h.length hdata).1
    have hread := Memory.read_write p.memory p.output (Cbc.decrypt standard key p.count iv p.data).1
    rw [hout] at hread
    simp only [updates, hupdate, ih hs', Option.bind_eq_bind, Option.bind_some, List.map_cons, List.sum_cons,
      List.flatMap_cons, Cbc.decrypt_append p.count _ hdata]
    change some ((p.memory.write p.output (Cbc.decrypt standard key p.count iv p.data).1).read p.output
      (16 * p.count) ++ _) = _
    rw [hread]
    rfl

theorem length_flatMap_data (pieces : List Piece) :
    (pieces.flatMap Piece.data).length = 16 * (pieces.map Piece.count).sum := by
  induction pieces with
  | nil => rfl
  | cons p pieces ih =>
    rw [List.flatMap_cons, List.length_append, ih, List.map_cons, List.sum_cons, Nat.mul_add, Piece.data,
      Memory.length_read]

/-- However the text is cut, and whatever has been decrypted before. -/
theorem decryptStream_encrypt (s : Static) (m : Memory) {output input key iv : Nat}
    (hlocals : Apart output input 16) (hkey : Apart output key 16 ∧ Apart input key 16)
    (hiv : Apart output iv 16 ∧ Apart input iv 16) {plain : List UInt8} {n : Nat}
    (hplain : plain.length = 16 * n) {pieces : List Piece}
    (hdata : pieces.flatMap Piece.data = Cbc.encrypt standard (m.read key 16) n (m.read iv 16) plain) :
    decryptStream s m output input key iv pieces = some plain := by
  obtain ⟨s', hinitialize, hs'⟩ := decryptInitialize_eq s m hlocals hkey hiv
  have hcount : (pieces.map Piece.count).sum = n := by
    have hlength := congrArg List.length hdata
    rw [length_flatMap_data, Cbc.length_encrypt n (Memory.length_read m iv 16) hplain] at hlength
    omega
  rw [decryptStream, hinitialize]
  change updates s' pieces = some plain
  rw [updates_eq hs', hcount, hdata, Cbc.decrypt_encrypt n (Memory.length_read m iv 16) hplain]

theorem decryptStream_encrypt_sample :
    decryptStream ⟨[], []⟩ (fun _ => 0x2b) 100 120 0 20
      [⟨Memory.write (fun _ => 0) 0 (Cbc.encrypt standard (Memory.read (fun _ => 0x2b) 0 16) 1
        (Memory.read (fun _ => 0x2b) 20 16) (List.replicate 16 7)), 0, 200, 1, by decide, by decide,
        Or.inr (by decide)⟩] = some (List.replicate 16 7) := by
  apply decryptStream_encrypt _ _ (n := 1) (Or.inl (by decide)) ⟨Or.inr (by decide), Or.inr (by decide)⟩
    ⟨Or.inr (by decide), Or.inr (by decide)⟩ rfl
  have hlength := Cbc.length_encrypt (c := standard) (k := Memory.read (fun _ => 0x2b) 0 16) 1
    (Memory.length_read (fun _ => 0x2b) 20 16) (show (List.replicate 16 (7 : UInt8)).length = 16 * 1 from rfl)
  rw [List.flatMap_singleton, Piece.data]
  exact read_write_block _ _ hlength

/-- What a buffer is encrypted to is decrypted to what was in it, with the key and the vector at their
places in memory. The buffer itself is lost. -/
theorem decryptBuffer_encryptBuffer (s t : Static) (m : Memory) {output input back key iv n : Nat}
    {length : UInt32} (hn : 0 < n) (hlength : length.toNat = 16 * n)
    (hinput : Apart output input (16 * n)) (hback : Apart back output (16 * n))
    (hplaces : ∀ a ∈ [key, iv], ∀ b ∈ [input, output, back], a + 16 ≤ b ∨ b + 16 * n ≤ a) :
    ∃ s' m' t' m'', encryptBuffer s m output input length (some key) (some iv) = some (s', m') ∧
      decryptBuffer t m' back output length (some key) (some iv) = some (t', m'') ∧
      m''.read back (16 * n) = m.read input (16 * n) := by
  have hplace : ∀ a ∈ [key, iv], ∀ b ∈ [input, output, back], ∀ (m : Memory) (bs : List UInt8),
      bs.length ≤ 16 * n → (m.write b bs).read a 16 = m.read a 16 := by
    intro a ha b hb m bs hbs
    have hor := hplaces a ha b hb
    rw [Memory.read_write_of_disjoint]
    omega
  have hkey := hplace key (by simp)
  have hiv := hplace iv (by simp)
  have hfirst : ∀ (m : Memory) a, (m.read a 16).length ≤ 16 * n := by
    intro m a
    rw [Memory.length_read]
    omega
  have hencrypt : Holds (m.read key 16) (m.read iv 16)
      ⟨nextKey s (m.write output (m.read input 16)) (some key),
        nextIv s (m.write output (m.read input 16)) (some iv)⟩ := by
    refine ⟨?_, ?_, Memory.length_read m iv 16⟩
    · rw [nextKey, hkey output (by simp) _ _ (hfirst m input)]
    · rw [nextIv, hiv output (by simp) _ _ (hfirst m input)]
  obtain ⟨s', lost, hlost, hcode⟩ := encryptBuffer_eq hencrypt hn hlength hinput
  have hlength' := Memory.length_read m input (16 * n)
  generalize m.read input (16 * n) = plain at hcode hlength' ⊢
  have hcodelength := Cbc.length_encrypt (c := standard) (k := m.read key 16) n (Memory.length_read m iv 16) hlength'
  have hplain := Cbc.decrypt_encrypt (c := standard) (k := m.read key 16) n (Memory.length_read m iv 16) hlength'
  generalize Cbc.encrypt standard (m.read key 16) n (m.read iv 16) plain = code at hcode hcodelength hplain
  have hread := Memory.read_write (m.write input lost) output code
  rw [hcodelength] at hread
  have hdecrypt : Holds (m.read key 16) (m.read iv 16)
      ⟨nextKey t (((m.write input lost).write output code).write back
          (((m.write input lost).write output code).read output 16)) (some key),
        nextIv t (((m.write input lost).write output code).write back
          (((m.write input lost).write output code).read output 16)) (some iv)⟩ := by
    refine ⟨?_, ?_, Memory.length_read m iv 16⟩
    · rw [nextKey, hkey back (by simp) _ _ (hfirst _ _), hkey output (by simp) _ _ hcodelength.le,
        hkey input (by simp) _ _ hlost.le]
    · rw [nextIv, hiv back (by simp) _ _ (hfirst _ _), hiv output (by simp) _ _ hcodelength.le,
        hiv input (by simp) _ _ hlost.le]
  obtain ⟨t', hback, -⟩ := decryptBuffer_eq hdecrypt hn hlength hback
  refine ⟨s', _, t', _, hcode, hback, ?_⟩
  rw [hread, hplain]
  have hlast := Memory.read_write ((m.write input lost).write output code) back plain
  rwa [hlength'] at hlast

theorem decryptBuffer_encryptBuffer_sample : ∃ s' m' t' m'',
    encryptBuffer ⟨[], []⟩ (fun a => UInt8.ofNat a) 100 200 32 (some 0) (some 16) = some (s', m') ∧
      decryptBuffer ⟨[], []⟩ m' 300 100 32 (some 0) (some 16) = some (t', m'') ∧
      m''.read 300 (16 * 2) = Memory.read (fun a => UInt8.ofNat a) 200 (16 * 2) :=
  decryptBuffer_encryptBuffer _ _ _ (by decide) rfl (Or.inl (by decide)) (Or.inr (by decide)) (by decide)

end AesCbc
end Firefly
