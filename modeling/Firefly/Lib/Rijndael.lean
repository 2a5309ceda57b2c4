import Firefly.Lib.ByteField

/-!
# Firefly.Lib.Rijndael

The cipher of the Advanced Encryption Standard with keys of 128 bits, as the standard states it. The state
is a grid of bytes with four rows and four columns; the bytes are elements of the field of `ByteField`. The
inverse cipher undoes the steps of the cipher one by one (`invCipher_cipher`), whatever the round keys are.
-/

namespace Rijndael

open ByteField

/-- The byte in a row and a column. -/
abbrev Grid := Fin 4 → Fin 4 → UInt8

/-- The words of the key schedule: the byte in a row of the word with a number. -/
abbrev Schedule := Nat → Fin 4 → UInt8

def rotate (b : UInt8) (n : Nat) : UInt8 := ⟨b.toBitVec.rotateLeft n⟩

/-- The affine transformation of the bits. -/
def affine (b : UInt8) : UInt8 :=
  b ^^^ rotate b 1 ^^^ rotate b 2 ^^^ rotate b 3 ^^^ rotate b 4 ^^^ 0x63

def invAffine (b : UInt8) : UInt8 := rotate b 1 ^^^ rotate b 3 ^^^ rotate b 6 ^^^ 0x05

def sBox (b : UInt8) : UInt8 := affine (inverse b)

def invSBox (b : UInt8) : UInt8 := inverse (invAffine b)

def subBytes (s : Grid) : Grid := fun r c => sBox (s r c)

def invSubBytes (s : Grid) : Grid := fun r c => invSBox (s r c)

def shiftRows (s : Grid) : Grid := fun r c => s r (c + r)

def invShiftRows (s : Grid) : Grid := fun r c => s r (c - r)

def mixColumns (s : Grid) : Grid := fun r c =>
  times (s r c) 0x02 ^^^ times (s (r + 1) c) 0x03 ^^^ s (r + 2) c ^^^ s (r + 3) c

def invMixColumns (s : Grid) : Grid := fun r c =>
  times (s r c) 0x0e ^^^ times (s (r + 1) c) 0x0b ^^^ times (s (r + 2) c) 0x0d ^^^ times (s (r + 3) c) 0x09

def addRoundKey (w : Schedule) (round : Nat) (s : Grid) : Grid := fun r c => s r c ^^^ w (4 * round + c) r

/-- The round constants are the powers of `X`. -/
def rcon (i : Nat) (r : Fin 4) : UInt8 := if r = 0 then double^[i - 1] 1 else 0

def keySchedule (key : Schedule) (i : Nat) (r : Fin 4) : UInt8 :=
  if i < 4 then key i r
  else if i % 4 = 0 then
    keySchedule key (i - 4) r ^^^ (sBox (keySchedule key (i - 1) (r + 1)) ^^^ rcon (i / 4) r)
  else keySchedule key (i - 4) r ^^^ keySchedule key (i - 1) r
termination_by i

def cipherRound (w : Schedule) (s : Grid) (round : Nat) : Grid :=
  addRoundKey w round (mixColumns (shiftRows (subBytes s)))

def cipher (w : Schedule) (s : Grid) : Grid :=
  addRoundKey w 10 (shiftRows (subBytes
    ((List.range' 1 9).foldl (cipherRound w) (addRoundKey w 0 s))))

def invCipherRound (w : Schedule) (s : Grid) (round : Nat) : Grid :=
  invMixColumns (addRoundKey w round (invSubBytes (invShiftRows s)))

def invCipher (w : Schedule) (s : Grid) : Grid :=
  addRoundKey w 0 (invSubBytes (invShiftRows
    ((List.range' 1 9).reverse.foldl (invCipherRound w) (addRoundKey w 10 s))))

/-! ## Bytes -/

/-- The bytes of a block fill the grid column by column. -/
def ofBytes (data : List UInt8) : Grid := fun r c => data.getD (4 * c + r) 0

def toBytes (s : Grid) : List UInt8 := (List.range 16).map fun i => s (Fin.ofNat 4 i) (Fin.ofNat 4 (i / 4))

def words (key : List UInt8) : Schedule := fun i r => key.getD (4 * i + r) 0

/-- The encryption of a block with a key, of 16 bytes each. -/
def encrypt (key block : List UInt8) : List UInt8 := toBytes (cipher (keySchedule (words key)) (ofBytes block))

def decrypt (key block : List UInt8) : List UInt8 := toBytes (invCipher (keySchedule (words key)) (ofBytes block))

/-! ## Substitution -/

theorem affine_table : ∀ i < 256, invAffine (affine (UInt8.ofNat i)) = UInt8.ofNat i := by
  decide +kernel

theorem invAffine_affine (b : UInt8) : invAffine (affine b) = b := by
  have htable := affine_table b.toNat b.toNat_lt
  rwa [UInt8.ofNat_toNat] at htable

theorem invSBox_sBox (b : UInt8) : invSBox (sBox b) = b := by
  rw [invSBox, sBox, invAffine_affine, inverse_inverse]

theorem invSubBytes_subBytes (s : Grid) : invSubBytes (subBytes s) = s := by
  funext r c
  exact invSBox_sBox (s r c)

theorem invShiftRows_shiftRows (s : Grid) : invShiftRows (shiftRows s) = s := by
  funext r c
  rw [invShiftRows, shiftRows, sub_add_cancel]

theorem addRoundKey_addRoundKey (w : Schedule) (round : Nat) (s : Grid) :
    addRoundKey w round (addRoundKey w round s) = s := by
  funext r c
  rw [addRoundKey, addRoundKey, UInt8.xor_assoc, UInt8.xor_self, UInt8.xor_zero]

/-! ## The columns -/

theorem element_constants : element 0x02 = root ∧ element 0x03 = root + 1 ∧
    element 0x09 = root ^ 3 + 1 ∧ element 0x0b = root ^ 3 + root + 1 ∧
    element 0x0d = root ^ 3 + root ^ 2 + 1 ∧ element 0x0e = root ^ 3 + root ^ 2 + root := by
  have h1 : element 1 = 1 := element_one
  have h2 : element 2 = root := rfl
  have h4 : element 4 = root ^ 2 := element_two_pow (i := 2) (by decide)
  have h8 : element 8 = root ^ 3 := element_two_pow (i := 3) (by decide)
  refine ⟨rfl, ?_, ?_, ?_, ?_, ?_⟩
  · rw [show (0x03 : UInt8) = 2 ^^^ 1 from rfl, element_xor, h1, h2]
  · rw [show (0x09 : UInt8) = 8 ^^^ 1 from rfl, element_xor, h1, h8]
  · rw [show (0x0b : UInt8) = 8 ^^^ 2 ^^^ 1 from rfl, element_xor, element_xor, h1, h2, h8]
  · rw [show (0x0d : UInt8) = 8 ^^^ 4 ^^^ 1 from rfl, element_xor, element_xor, h1, h4, h8]
  · rw [show (0x0e : UInt8) = 8 ^^^ 4 ^^^ 2 from rfl, element_xor, element_xor, h2, h4, h8]

theorem two_eq_zero : (2 : Element) = 0 := by
  rw [← one_add_one_eq_two, ← element_one, ← element_xor, UInt8.xor_self, element_zero]

/-- The two matrices are inverse to each other even before their products are reduced. -/
theorem invMixColumns_mixColumns (s : Grid) : invMixColumns (mixColumns s) = s := by
  funext r c
  apply element_injective
  obtain ⟨h02, h03, h09, h0b, h0d, h0e⟩ := element_constants
  have hrow : ∀ i j k : Fin 4, i + j = k → r + i + j = r + k := by
    rintro i j k rfl
    exact add_assoc r i j
  rw [invMixColumns]
  simp only [mixColumns, element_xor, element_times, h02, h03, h09, h0b, h0d, h0e, hrow 1 1 2 rfl,
    hrow 1 2 3 rfl, hrow 1 3 0 rfl, hrow 2 1 3 rfl, hrow 2 2 0 rfl, hrow 2 3 1 rfl, hrow 3 1 0 rfl,
    hrow 3 2 1 rfl, hrow 3 3 2 rfl, add_zero]
  linear_combination
    ((root ^ 4 + 2 * root ^ 3 + root ^ 2 + root + 1) * element (s r c) +
      (root ^ 4 + 2 * root ^ 3 + 2 * root ^ 2 + root + 1) * element (s (r + 1) c) +
      (root ^ 4 + 2 * root ^ 3 + root ^ 2 + 2 * root + 1) *
        (element (s (r + 2) c) + element (s (r + 3) c))) * two_eq_zero

/-! ## The rounds -/

/-- A round of the inverse cipher, from the middle of a round to the middle of the one before. -/
theorem invCipherRound_cipherRound (w : Schedule) (s : Grid) (round : Nat) :
    invCipherRound w (shiftRows (subBytes (cipherRound w s round))) round = shiftRows (subBytes s) := by
  rw [invCipherRound, invShiftRows_shiftRows, invSubBytes_subBytes, cipherRound, addRoundKey_addRoundKey,
    invMixColumns_mixColumns]

theorem foldl_invCipherRound (w : Schedule) (s : Grid) (rounds : List Nat) :
    rounds.reverse.foldl (invCipherRound w) (shiftRows (subBytes (rounds.foldl (cipherRound w) s))) =
      shiftRows (subBytes s) := by
  induction rounds generalizing s with
  | nil => rfl
  | cons round rounds ih =>
    rw [List.reverse_cons, List.foldl_append, List.foldl_cons, List.foldl_nil, List.foldl_cons, ih,
      invCipherRound_cipherRound]

theorem invCipher_cipher (w : Schedule) (s : Grid) : invCipher w (cipher w s) = s := by
  rw [invCipher, cipher, addRoundKey_addRoundKey, foldl_invCipherRound, invShiftRows_shiftRows,
    invSubBytes_subBytes, addRoundKey_addRoundKey]

/-- The rounds use the first 44 words. -/
theorem addRoundKey_congr {w v : Schedule} (h : ∀ i < 44, w i = v i) {round : Nat} (hround : round ≤ 10)
    (s : Grid) : addRoundKey w round s = addRoundKey v round s := by
  funext r c
  rw [addRoundKey, addRoundKey, h (4 * round + c) (by omega)]

theorem cipher_congr {w v : Schedule} (h : ∀ i < 44, w i = v i) (s : Grid) : cipher w s = cipher v s := by
  have hround : ∀ s, ∀ round ∈ List.range' 1 9, cipherRound w s round = cipherRound v s round := by
    intro s round hmem
    have hle : round ≤ 10 := by
      rw [List.mem_range'_1] at hmem
      omega
    rw [cipherRound, cipherRound, addRoundKey_congr h hle]
  rw [cipher, cipher, addRoundKey_congr h (Nat.zero_le 10), List.foldl_ext _ _ _ hround,
    addRoundKey_congr h (Nat.le_refl 10)]

theorem invCipher_congr {w v : Schedule} (h : ∀ i < 44, w i = v i) (s : Grid) :
    invCipher w s = invCipher v s := by
  have hround : ∀ s, ∀ round ∈ (List.range' 1 9).reverse,
      invCipherRound w s round = invCipherRound v s round := by
    intro s round hmem
    have hle : round ≤ 10 := by
      rw [List.mem_reverse, List.mem_range'_1] at hmem
      omega
    rw [invCipherRound, invCipherRound, addRoundKey_congr h hle]
  rw [invCipher, invCipher, addRoundKey_congr h (Nat.le_refl 10), List.foldl_ext _ _ _ hround,
    addRoundKey_congr h (Nat.zero_le 10)]

/-! ## Blocks -/

theorem ofBytes_toBytes (s : Grid) : ofBytes (toBytes s) = s := by
  funext r c
  fin_cases r <;> fin_cases c <;> rfl

theorem toBytes_ofBytes {data : List UInt8} (h : data.length = 16) : toBytes (ofBytes data) = data := by
  apply List.ext_getElem
  · rw [toBytes, List.length_map, List.length_range, h]
  · intro i hi hlt
    have hplace : 4 * (i / 4 % 4) + i % 4 = i := by omega
    simp only [toBytes, List.getElem_map, List.getElem_range, ofBytes, Fin.val_ofNat, hplace]
    rw [List.getD_eq_getElem data 0 hlt]

@[simp] theorem length_encrypt (key block : List UInt8) : (encrypt key block).length = 16 := by
  rw [encrypt, toBytes, List.length_map, List.length_range]

@[simp] theorem length_decrypt (key block : List UInt8) : (decrypt key block).length = 16 := by
  rw [decrypt, toBytes, List.length_map, List.length_range]

theorem decrypt_encrypt (key : List UInt8) {block : List UInt8} (h : block.length = 16) :
    decrypt key (encrypt key block) = block := by
  rw [decrypt, encrypt, ofBytes_toBytes, invCipher_cipher, toBytes_ofBytes h]

end Rijndael
