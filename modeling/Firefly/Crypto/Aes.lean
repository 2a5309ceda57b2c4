import Firefly.Lib.Rijndael

/-!
# Firefly.Crypto.Aes

`fd_crypto_aes.c`: the cipher on the state, four columns of four bytes as they lie in memory, with a table
for the substitution and without the arithmetic of the field. It is the cipher of the standard with the
round keys of the standard (`cipher_eq`, `invCipher_eq`), and what it encrypts it decrypts.
-/

namespace Firefly
namespace Aes

open ByteField

/-! ## Tables -/

def sbox : List UInt8 :=
  [ 0x63, 0x7c, 0x77, 0x7b, 0xf2, 0x6b, 0x6f, 0xc5, 0x30, 0x01, 0x67, 0x2b, 0xfe, 0xd7, 0xab, 0x76,
    0xca, 0x82, 0xc9, 0x7d, 0xfa, 0x59, 0x47, 0xf0, 0xad, 0xd4, 0xa2, 0xaf, 0x9c, 0xa4, 0x72, 0xc0,
    0xb7, 0xfd, 0x93, 0x26, 0x36, 0x3f, 0xf7, 0xcc, 0x34, 0xa5, 0xe5, 0xf1, 0x71, 0xd8, 0x31, 0x15,
    0x04, 0xc7, 0x23, 0xc3, 0x18, 0x96, 0x05, 0x9a, 0x07, 0x12, 0x80, 0xe2, 0xeb, 0x27, 0xb2, 0x75,
    0x09, 0x83, 0x2c, 0x1a, 0x1b, 0x6e, 0x5a, 0xa0, 0x52, 0x3b, 0xd6, 0xb3, 0x29, 0xe3, 0x2f, 0x84,
    0x53, 0xd1, 0x00, 0xed, 0x20, 0xfc, 0xb1, 0x5b, 0x6a, 0xcb, 0xbe, 0x39, 0x4a, 0x4c, 0x58, 0xcf,
    0xd0, 0xef, 0xaa, 0xfb, 0x43, 0x4d, 0x33, 0x85, 0x45, 0xf9, 0x02, 0x7f, 0x50, 0x3c, 0x9f, 0xa8,
    0x51, 0xa3, 0x40, 0x8f, 0x92, 0x9d, 0x38, 0xf5, 0xbc, 0xb6, 0xda, 0x21, 0x10, 0xff, 0xf3, 0xd2,
    0xcd, 0x0c, 0x13, 0xec, 0x5f, 0x97, 0x44, 0x17, 0xc4, 0xa7, 0x7e, 0x3d, 0x64, 0x5d, 0x19, 0x73,
    0x60, 0x81, 0x4f, 0xdc, 0x22, 0x2a, 0x90, 0x88, 0x46, 0xee, 0xb8, 0x14, 0xde, 0x5e, 0x0b, 0xdb,
    0xe0, 0x32, 0x3a, 0x0a, 0x49, 0x06, 0x24, 0x5c, 0xc2, 0xd3, 0xac, 0x62, 0x91, 0x95, 0xe4, 0x79,
    0xe7, 0xc8, 0x37, 0x6d, 0x8d, 0xd5, 0x4e, 0xa9, 0x6c, 0x56, 0xf4, 0xea, 0x65, 0x7a, 0xae, 0x08,
    0xba, 0x78, 0x25, 0x2e, 0x1c, 0xa6, 0xb4, 0xc6, 0xe8, 0xdd, 0x74, 0x1f, 0x4b, 0xbd, 0x8b, 0x8a,
    0x70, 0x3e, 0xb5, 0x66, 0x48, 0x03, 0xf6, 0x0e, 0x61, 0x35, 0x57, 0xb9, 0x86, 0xc1, 0x1d, 0x9e,
    0xe1, 0xf8, 0x98, 0x11, 0x69, 0xd9, 0x8e, 0x94, 0x9b, 0x1e, 0x87, 0xe9, 0xce, 0x55, 0x28, 0xdf,
    0x8c, 0xa1, 0x89, 0x0d, 0xbf, 0xe6, 0x42, 0x68, 0x41, 0x99, 0x2d, 0x0f, 0xb0, 0x54, 0xbb, 0x16 ]

def rsbox : List UInt8 :=
  [ 0x52, 0x09, 0x6a, 0xd5, 0x30, 0x36, 0xa5, 0x38, 0xbf, 0x40, 0xa3, 0x9e, 0x81, 0xf3, 0xd7, 0xfb,
    0x7c, 0xe3, 0x39, 0x82, 0x9b, 0x2f, 0xff, 0x87, 0x34, 0x8e, 0x43, 0x44, 0xc4, 0xde, 0xe9, 0xcb,
    0x54, 0x7b, 0x94, 0x32, 0xa6, 0xc2, 0x23, 0x3d, 0xee, 0x4c, 0x95, 0x0b, 0x42, 0xfa, 0xc3, 0x4e,
    0x08, 0x2e, 0xa1, 0x66, 0x28, 0xd9, 0x24, 0xb2, 0x76, 0x5b, 0xa2, 0x49, 0x6d, 0x8b, 0xd1, 0x25,
    0x72, 0xf8, 0xf6, 0x64, 0x86, 0x68, 0x98, 0x16, 0xd4, 0xa4, 0x5c, 0xcc, 0x5d, 0x65, 0xb6, 0x92,
    0x6c, 0x70, 0x48, 0x50, 0xfd, 0xed, 0xb9, 0xda, 0x5e, 0x15, 0x46, 0x57, 0xa7, 0x8d, 0x9d, 0x84,
    0x90, 0xd8, 0xab, 0x00, 0x8c, 0xbc, 0xd3, 0x0a, 0xf7, 0xe4, 0x58, 0x05, 0xb8, 0xb3, 0x45, 0x06,
    0xd0, 0x2c, 0x1e, 0x8f, 0xca, 0x3f, 0x0f, 0x02, 0xc1, 0xaf, 0xbd, 0x03, 0x01, 0x13, 0x8a, 0x6b,
    0x3a, 0x91, 0x11, 0x41, 0x4f, 0x67, 0xdc, 0xea, 0x97, 0xf2, 0xcf, 0xce, 0xf0, 0xb4, 0xe6, 0x73,
    0x96, 0xac, 0x74, 0x22, 0xe7, 0xad, 0x35, 0x85, 0xe2, 0xf9, 0x37, 0xe8, 0x1c, 0x75, 0xdf, 0x6e,
    0x47, 0xf1, 0x1a, 0x71, 0x1d, 0x29, 0xc5, 0x89, 0x6f, 0xb7, 0x62, 0x0e, 0xaa, 0x18, 0xbe, 0x1b,
    0xfc, 0x56, 0x3e, 0x4b, 0xc6, 0xd2, 0x79, 0x20, 0x9a, 0xdb, 0xc0, 0xfe, 0x78, 0xcd, 0x5a, 0xf4,
    0x1f, 0xdd, 0xa8, 0x33, 0x88, 0x07, 0xc7, 0x31, 0xb1, 0x12, 0x10, 0x59, 0x27, 0x80, 0xec, 0x5f,
    0x60, 0x51, 0x7f, 0xa9, 0x19, 0xb5, 0x4a, 0x0d, 0x2d, 0xe5, 0x7a, 0x9f, 0x93, 0xc9, 0x9c, 0xef,
    0xa0, 0xe0, 0x3b, 0x4d, 0xae, 0x2a, 0xf5, 0xb0, 0xc8, 0xeb, 0xbb, 0x3c, 0x83, 0x53, 0x99, 0x61,
    0x17, 0x2b, 0x04, 0x7e, 0xba, 0x77, 0xd6, 0x26, 0xe1, 0x69, 0x14, 0x63, 0x55, 0x21, 0x0c, 0x7d ]

/-- `Rcon`, of which the schedule uses the entries 1 to 10. -/
def rcon : List UInt8 :=
  [ 0x8d, 0x01, 0x02, 0x04, 0x08, 0x10, 0x20, 0x40, 0x80, 0x1b, 0x36, 0x6c, 0xd8, 0xab, 0x4d, 0x9a,
    0x2f, 0x5e, 0xbc, 0x63, 0xc6, 0x97, 0x35, 0x6a, 0xd4, 0xb3, 0x7d, 0xfa, 0xef, 0xc5, 0x91, 0x39,
    0x72, 0xe4, 0xd3, 0xbd, 0x61, 0xc2, 0x9f, 0x25, 0x4a, 0x94, 0x33, 0x66, 0xcc, 0x83, 0x1d, 0x3a,
    0x74, 0xe8, 0xcb, 0x8d, 0x01, 0x02, 0x04, 0x08, 0x10, 0x20, 0x40, 0x80, 0x1b, 0x36, 0x6c, 0xd8,
    0xab, 0x4d, 0x9a, 0x2f, 0x5e, 0xbc, 0x63, 0xc6, 0x97, 0x35, 0x6a, 0xd4, 0xb3, 0x7d, 0xfa, 0xef,
    0xc5, 0x91, 0x39, 0x72, 0xe4, 0xd3, 0xbd, 0x61, 0xc2, 0x9f, 0x25, 0x4a, 0x94, 0x33, 0x66, 0xcc,
    0x83, 0x1d, 0x3a, 0x74, 0xe8, 0xcb, 0x8d, 0x01, 0x02, 0x04, 0x08, 0x10, 0x20, 0x40, 0x80, 0x1b,
    0x36, 0x6c, 0xd8, 0xab, 0x4d, 0x9a, 0x2f, 0x5e, 0xbc, 0x63, 0xc6, 0x97, 0x35, 0x6a, 0xd4, 0xb3,
    0x7d, 0xfa, 0xef, 0xc5, 0x91, 0x39, 0x72, 0xe4, 0xd3, 0xbd, 0x61, 0xc2, 0x9f, 0x25, 0x4a, 0x94,
    0x33, 0x66, 0xcc, 0x83, 0x1d, 0x3a, 0x74, 0xe8, 0xcb, 0x8d, 0x01, 0x02, 0x04, 0x08, 0x10, 0x20,
    0x40, 0x80, 0x1b, 0x36, 0x6c, 0xd8, 0xab, 0x4d, 0x9a, 0x2f, 0x5e, 0xbc, 0x63, 0xc6, 0x97, 0x35,
    0x6a, 0xd4, 0xb3, 0x7d, 0xfa, 0xef, 0xc5, 0x91, 0x39, 0x72, 0xe4, 0xd3, 0xbd, 0x61, 0xc2, 0x9f,
    0x25, 0x4a, 0x94, 0x33, 0x66, 0xcc, 0x83, 0x1d, 0x3a, 0x74, 0xe8, 0xcb, 0x8d, 0x01, 0x02, 0x04,
    0x08, 0x10, 0x20, 0x40, 0x80, 0x1b, 0x36, 0x6c, 0xd8, 0xab, 0x4d, 0x9a, 0x2f, 0x5e, 0xbc, 0x63,
    0xc6, 0x97, 0x35, 0x6a, 0xd4, 0xb3, 0x7d, 0xfa, 0xef, 0xc5, 0x91, 0x39, 0x72, 0xe4, 0xd3, 0xbd,
    0x61, 0xc2, 0x9f, 0x25, 0x4a, 0x94, 0x33, 0x66, 0xcc, 0x83, 0x1d, 0x3a, 0x74, 0xe8, 0xcb ]

def getSBoxValue (num : UInt8) : UInt8 := sbox.getD num.toNat 0

def getSBoxInvert (num : UInt8) : UInt8 := rsbox.getD num.toNat 0

/-! ## The state -/

/-- Four bytes one behind the other: a column of the state, or a word of the round keys. -/
structure Column where
  b0 : UInt8
  b1 : UInt8
  b2 : UInt8
  b3 : UInt8
  deriving DecidableEq

/-- `state_t`. -/
structure State where
  c0 : Column
  c1 : Column
  c2 : Column
  c3 : Column
  deriving DecidableEq

namespace Column

def ofBytes (data : List UInt8) (i : Nat) : Column :=
  ⟨data.getD i 0, data.getD (i + 1) 0, data.getD (i + 2) 0, data.getD (i + 3) 0⟩

def toBytes (w : Column) : List UInt8 := [w.b0, w.b1, w.b2, w.b3]

def map (f : UInt8 → UInt8) (w : Column) : Column := ⟨f w.b0, f w.b1, f w.b2, f w.b3⟩

def xor (w v : Column) : Column := ⟨w.b0 ^^^ v.b0, w.b1 ^^^ v.b1, w.b2 ^^^ v.b2, w.b3 ^^^ v.b3⟩

end Column

namespace State

def ofBytes (data : List UInt8) : State := ⟨.ofBytes data 0, .ofBytes data 4, .ofBytes data 8, .ofBytes data 12⟩

def toBytes (s : State) : List UInt8 := s.c0.toBytes ++ s.c1.toBytes ++ s.c2.toBytes ++ s.c3.toBytes

def map (f : Column → Column) (s : State) : State := ⟨f s.c0, f s.c1, f s.c2, f s.c3⟩

end State

/-! ## Round keys -/

def emptyColumn : Column := ⟨0, 0, 0, 0⟩

/-- The step of the loop of `KeyExpansion`: the words up to `i`. -/
def keyStep (roundKey : List Column) (i : Nat) : List Column :=
  let tempa := roundKey.getD (i - 1) emptyColumn
  let tempa :=
    if i % 4 = 0 then
      -- `RotWord` and `SubWord`
      let sub : Column := ⟨getSBoxValue tempa.b1, getSBoxValue tempa.b2, getSBoxValue tempa.b3, getSBoxValue tempa.b0⟩
      { sub with b0 := sub.b0 ^^^ rcon.getD (i / 4) 0 }
    else tempa
  roundKey ++ [(roundKey.getD (i - 4) emptyColumn).xor tempa]

def keyColumns (key : List UInt8) : List Column :=
  [.ofBytes key 0, .ofBytes key 4, .ofBytes key 8, .ofBytes key 12]

/-- `KeyExpansion`, for keys of 16 bytes. -/
def keyExpansion (key : List UInt8) : List Column := (List.range' 4 40).foldl keyStep (keyColumns key)

/-! ## Steps -/

def addRoundKey (roundKey : List Column) (round : Nat) (s : State) : State where
  c0 := s.c0.xor (roundKey.getD (round * 4) emptyColumn)
  c1 := s.c1.xor (roundKey.getD (round * 4 + 1) emptyColumn)
  c2 := s.c2.xor (roundKey.getD (round * 4 + 2) emptyColumn)
  c3 := s.c3.xor (roundKey.getD (round * 4 + 3) emptyColumn)

def subBytes (s : State) : State := s.map (Column.map getSBoxValue)

/-- Each row is rotated by its number. -/
def shiftRows (s : State) : State where
  c0 := ⟨s.c0.b0, s.c1.b1, s.c2.b2, s.c3.b3⟩
  c1 := ⟨s.c1.b0, s.c2.b1, s.c3.b2, s.c0.b3⟩
  c2 := ⟨s.c2.b0, s.c3.b1, s.c0.b2, s.c1.b3⟩
  c3 := ⟨s.c3.b0, s.c0.b1, s.c1.b2, s.c2.b3⟩

def xtime (x : UInt8) : UInt8 := (x <<< 1) ^^^ (((x >>> 7) &&& 1) * 0x1b)

def mixColumn (w : Column) : Column :=
  let tmp := w.b0 ^^^ w.b1 ^^^ w.b2 ^^^ w.b3
  ⟨w.b0 ^^^ (xtime (w.b0 ^^^ w.b1) ^^^ tmp), w.b1 ^^^ (xtime (w.b1 ^^^ w.b2) ^^^ tmp),
    w.b2 ^^^ (xtime (w.b2 ^^^ w.b3) ^^^ tmp), w.b3 ^^^ (xtime (w.b3 ^^^ w.b0) ^^^ tmp)⟩

def mixColumns (s : State) : State := s.map mixColumn

/-- The bit `i` of the second factor. -/
def bit (y i : UInt8) : UInt8 := y >>> i &&& 1

def multiply (x y : UInt8) : UInt8 :=
  bit y 0 * x ^^^ bit y 1 * xtime x ^^^ bit y 2 * xtime (xtime x) ^^^ bit y 3 * xtime (xtime (xtime x)) ^^^
    bit y 4 * xtime (xtime (xtime (xtime x)))

def invMixColumn (w : Column) : Column where
  b0 := multiply w.b0 0x0e ^^^ multiply w.b1 0x0b ^^^ multiply w.b2 0x0d ^^^ multiply w.b3 0x09
  b1 := multiply w.b0 0x09 ^^^ multiply w.b1 0x0e ^^^ multiply w.b2 0x0b ^^^ multiply w.b3 0x0d
  b2 := multiply w.b0 0x0d ^^^ multiply w.b1 0x09 ^^^ multiply w.b2 0x0e ^^^ multiply w.b3 0x0b
  b3 := multiply w.b0 0x0b ^^^ multiply w.b1 0x0d ^^^ multiply w.b2 0x09 ^^^ multiply w.b3 0x0e

def invMixColumns (s : State) : State := s.map invMixColumn

def invSubBytes (s : State) : State := s.map (Column.map getSBoxInvert)

def invShiftRows (s : State) : State where
  c0 := ⟨s.c0.b0, s.c3.b1, s.c2.b2, s.c1.b3⟩
  c1 := ⟨s.c1.b0, s.c0.b1, s.c3.b2, s.c2.b3⟩
  c2 := ⟨s.c2.b0, s.c1.b1, s.c0.b2, s.c3.b3⟩
  c3 := ⟨s.c3.b0, s.c2.b1, s.c1.b2, s.c0.b3⟩

/-! ## The cipher -/

def cipherRound (roundKey : List Column) (s : State) (round : Nat) : State :=
  addRoundKey roundKey round (mixColumns (shiftRows (subBytes s)))

def cipher (roundKey : List Column) (s : State) : State :=
  let s := addRoundKey roundKey 0 s
  let s := (List.range' 1 9).foldl (cipherRound roundKey) s
  addRoundKey roundKey 10 (shiftRows (subBytes s))

def invCipherRound (roundKey : List Column) (s : State) (round : Nat) : State :=
  invMixColumns (addRoundKey roundKey round (invSubBytes (invShiftRows s)))

def invCipher (roundKey : List Column) (s : State) : State :=
  let s := addRoundKey roundKey 10 s
  let s := [9, 8, 7, 6, 5, 4, 3, 2, 1].foldl (invCipherRound roundKey) s
  addRoundKey roundKey 0 (invSubBytes (invShiftRows s))

/-! ## The standard -/

def Column.row (w : Column) : Fin 4 → UInt8
  | 0 => w.b0
  | 1 => w.b1
  | 2 => w.b2
  | 3 => w.b3

def State.column (s : State) : Fin 4 → Column
  | 0 => s.c0
  | 1 => s.c1
  | 2 => s.c2
  | 3 => s.c3

def State.grid (s : State) : Rijndael.Grid := fun r c => (s.column c).row r

def schedule (roundKey : List Column) : Rijndael.Schedule := fun i r => (roundKey.getD i emptyColumn).row r

theorem Column.row_injective : Function.Injective Column.row := by
  intro w v h
  have h0 := congrFun h 0
  have h1 := congrFun h 1
  have h2 := congrFun h 2
  have h3 := congrFun h 3
  cases w
  cases v
  simp only [Column.row] at h0 h1 h2 h3
  rw [h0, h1, h2, h3]

theorem State.grid_injective : Function.Injective State.grid := by
  intro s t h
  have hcolumn : ∀ c, s.column c = t.column c := by
    intro c
    apply Column.row_injective
    funext r
    exact congrFun (congrFun h r) c
  have h0 := hcolumn 0
  have h1 := hcolumn 1
  have h2 := hcolumn 2
  have h3 := hcolumn 3
  cases s
  cases t
  simp only [State.column] at h0 h1 h2 h3
  rw [h0, h1, h2, h3]

theorem column_map (f : Column → Column) (s : State) (c : Fin 4) : (s.map f).column c = f (s.column c) := by
  fin_cases c <;> rfl

theorem row_map (f : UInt8 → UInt8) (w : Column) (r : Fin 4) : (w.map f).row r = f (w.row r) := by
  fin_cases r <;> rfl

theorem row_xor (w v : Column) (r : Fin 4) : (w.xor v).row r = w.row r ^^^ v.row r := by
  fin_cases r <;> rfl

theorem sbox_table : ∀ i < 256, getSBoxValue (UInt8.ofNat i) = Rijndael.sBox (UInt8.ofNat i) := by
  decide +kernel

theorem rsbox_table : ∀ i < 256, getSBoxInvert (UInt8.ofNat i) = Rijndael.invSBox (UInt8.ofNat i) := by
  decide +kernel

theorem getSBoxValue_eq (num : UInt8) : getSBoxValue num = Rijndael.sBox num := by
  have htable := sbox_table num.toNat num.toNat_lt
  rwa [UInt8.ofNat_toNat] at htable

theorem getSBoxInvert_eq (num : UInt8) : getSBoxInvert num = Rijndael.invSBox num := by
  have htable := rsbox_table num.toNat num.toNat_lt
  rwa [UInt8.ofNat_toNat] at htable

theorem grid_subBytes (s : State) : (subBytes s).grid = Rijndael.subBytes s.grid := by
  funext r c
  rw [State.grid, subBytes, column_map, row_map, getSBoxValue_eq]
  rfl

theorem grid_invSubBytes (s : State) : (invSubBytes s).grid = Rijndael.invSubBytes s.grid := by
  funext r c
  rw [State.grid, invSubBytes, column_map, row_map, getSBoxInvert_eq]
  rfl

theorem grid_shiftRows (s : State) : (shiftRows s).grid = Rijndael.shiftRows s.grid := by
  funext r c
  fin_cases r <;> fin_cases c <;> rfl

theorem grid_invShiftRows (s : State) : (invShiftRows s).grid = Rijndael.invShiftRows s.grid := by
  funext r c
  fin_cases r <;> fin_cases c <;> rfl

theorem grid_addRoundKey (roundKey : List Column) (round : Nat) (s : State) :
    (addRoundKey roundKey round s).grid = Rijndael.addRoundKey (schedule roundKey) round s.grid := by
  have hcolumn : ∀ c, (addRoundKey roundKey round s).column c =
      (s.column c).xor (roundKey.getD (4 * round + c) emptyColumn) := by
    intro c
    rw [Nat.mul_comm 4]
    fin_cases c <;> rfl
  funext r c
  rw [State.grid, hcolumn, row_xor]
  rfl

/-! ## The columns -/

theorem xtime_table : ∀ i < 256, xtime (UInt8.ofNat i) = double (UInt8.ofNat i) := by
  decide +kernel

theorem element_xtime (x : UInt8) : element (xtime x) = root * element x := by
  have htable := xtime_table x.toNat x.toNat_lt
  rw [UInt8.ofNat_toNat] at htable
  rw [htable, element_double]

/-- The products with the four factors of the inverse matrix. -/
theorem element_multiply (x : UInt8) : element (multiply x 0x09) = element x * element 0x09 ∧
    element (multiply x 0x0b) = element x * element 0x0b ∧
    element (multiply x 0x0d) = element x * element 0x0d ∧
    element (multiply x 0x0e) = element x * element 0x0e := by
  obtain ⟨-, -, h09, h0b, h0d, h0e⟩ := Rijndael.element_constants
  have hbits : ∀ y b0 b1 b2 b3 b4, bit y 0 = b0 → bit y 1 = b1 → bit y 2 = b2 → bit y 3 = b3 → bit y 4 = b4 →
      multiply x y = b0 * x ^^^ b1 * xtime x ^^^ b2 * xtime (xtime x) ^^^ b3 * xtime (xtime (xtime x)) ^^^
        b4 * xtime (xtime (xtime (xtime x))) := by
    rintro y _ _ _ _ _ rfl rfl rfl rfl rfl
    rfl
  refine ⟨?_, ?_, ?_, ?_⟩
  · rw [hbits 0x09 1 0 0 1 0 rfl rfl rfl rfl rfl, h09]
    simp only [element_xor, element_xtime, UInt8.one_mul, UInt8.zero_mul, element_zero]
    ring
  · rw [hbits 0x0b 1 1 0 1 0 rfl rfl rfl rfl rfl, h0b]
    simp only [element_xor, element_xtime, UInt8.one_mul, UInt8.zero_mul, element_zero]
    ring
  · rw [hbits 0x0d 1 0 1 1 0 rfl rfl rfl rfl rfl, h0d]
    simp only [element_xor, element_xtime, UInt8.one_mul, UInt8.zero_mul, element_zero]
    ring
  · rw [hbits 0x0e 0 1 1 1 0 rfl rfl rfl rfl rfl, h0e]
    simp only [element_xor, element_xtime, UInt8.one_mul, UInt8.zero_mul, element_zero]
    ring

/-- The sum of the column stands for the byte itself and the three that the matrix adds. -/
theorem element_mix (a b c d : UInt8) :
    element (a ^^^ (xtime (a ^^^ b) ^^^ (a ^^^ b ^^^ c ^^^ d))) =
      element (times a 0x02 ^^^ times b 0x03 ^^^ c ^^^ d) := by
  obtain ⟨h02, h03, -⟩ := Rijndael.element_constants
  simp only [element_xor, element_times, element_xtime, h02, h03]
  linear_combination element a * Rijndael.two_eq_zero

theorem xor_rotate (a b c d : UInt8) : a ^^^ b ^^^ c ^^^ d = b ^^^ c ^^^ d ^^^ a := by
  rw [UInt8.xor_assoc a b c, UInt8.xor_assoc a (b ^^^ c) d, UInt8.xor_comm]

theorem grid_mixColumns (s : State) : (mixColumns s).grid = Rijndael.mixColumns s.grid := by
  funext r c
  apply element_injective
  rw [State.grid, mixColumns, column_map, mixColumn]
  change _ = element (times ((s.column c).row r) 0x02 ^^^ times ((s.column c).row (r + 1)) 0x03 ^^^
    (s.column c).row (r + 2) ^^^ (s.column c).row (r + 3))
  generalize s.column c = w
  have hsum1 := xor_rotate w.b0 w.b1 w.b2 w.b3
  have hsum2 := hsum1.trans (xor_rotate w.b1 w.b2 w.b3 w.b0)
  have hsum3 := hsum2.trans (xor_rotate w.b2 w.b3 w.b0 w.b1)
  fin_cases r
  · exact element_mix w.b0 w.b1 w.b2 w.b3
  · simp only [hsum1]
    exact element_mix w.b1 w.b2 w.b3 w.b0
  · simp only [hsum2]
    exact element_mix w.b2 w.b3 w.b0 w.b1
  · simp only [hsum3]
    exact element_mix w.b3 w.b0 w.b1 w.b2

theorem grid_invMixColumns (s : State) : (invMixColumns s).grid = Rijndael.invMixColumns s.grid := by
  funext r c
  apply element_injective
  rw [State.grid, invMixColumns, column_map, invMixColumn]
  change _ = element (times ((s.column c).row r) 0x0e ^^^ times ((s.column c).row (r + 1)) 0x0b ^^^
    times ((s.column c).row (r + 2)) 0x0d ^^^ times ((s.column c).row (r + 3)) 0x09)
  generalize s.column c = w
  fin_cases r
  · change element (multiply w.b0 0x0e ^^^ multiply w.b1 0x0b ^^^ multiply w.b2 0x0d ^^^ multiply w.b3 0x09) =
      element (times w.b0 0x0e ^^^ times w.b1 0x0b ^^^ times w.b2 0x0d ^^^ times w.b3 0x09)
    simp only [element_xor, element_times, element_multiply]
  · change element (multiply w.b0 0x09 ^^^ multiply w.b1 0x0e ^^^ multiply w.b2 0x0b ^^^ multiply w.b3 0x0d) =
      element (times w.b1 0x0e ^^^ times w.b2 0x0b ^^^ times w.b3 0x0d ^^^ times w.b0 0x09)
    simp only [element_xor, element_times, element_multiply]
    ring
  · change element (multiply w.b0 0x0d ^^^ multiply w.b1 0x09 ^^^ multiply w.b2 0x0e ^^^ multiply w.b3 0x0b) =
      element (times w.b2 0x0e ^^^ times w.b3 0x0b ^^^ times w.b0 0x0d ^^^ times w.b1 0x09)
    simp only [element_xor, element_times, element_multiply]
    ring
  · change element (multiply w.b0 0x0b ^^^ multiply w.b1 0x0d ^^^ multiply w.b2 0x09 ^^^ multiply w.b3 0x0e) =
      element (times w.b3 0x0e ^^^ times w.b0 0x0b ^^^ times w.b1 0x0d ^^^ times w.b2 0x09)
    simp only [element_xor, element_times, element_multiply]
    ring

/-! ## The round keys -/

theorem rcon_table : ∀ i < 11, i ≠ 0 → rcon.getD i 0 = Rijndael.rcon i 0 := by
  decide

theorem row_rotWord (w : Column) (r : Fin 4) :
    (Column.mk (getSBoxValue w.b1) (getSBoxValue w.b2) (getSBoxValue w.b3) (getSBoxValue w.b0)).row r =
      Rijndael.sBox (w.row (r + 1)) := by
  fin_cases r <;> exact getSBoxValue_eq _

/-- The word that the step appends is the word of the standard with this number. -/
theorem keyStep_word (key : Rijndael.Schedule) (roundKey : List Column) (i : Nat) (h4 : 4 ≤ i) (h44 : i < 44)
    (hlength : roundKey.length = i)
    (hwords : ∀ j < i, ∀ r, (roundKey.getD j emptyColumn).row r = Rijndael.keySchedule key j r) :
    ∃ w, keyStep roundKey i = roundKey ++ [w] ∧ ∀ r, w.row r = Rijndael.keySchedule key i r := by
  have hlast := hwords (i - 1) (by omega)
  have hfourth := hwords (i - 4) (by omega)
  refine ⟨_, rfl, fun r => ?_⟩
  rw [row_xor, hfourth, Rijndael.keySchedule.eq_def key i, if_neg (by omega : ¬i < 4)]
  by_cases hmod : i % 4 = 0
  · rw [if_pos hmod, if_pos hmod]
    have hrcon := rcon_table (i / 4) (by omega) (by omega)
    have hword := row_rotWord (roundKey.getD (i - 1) emptyColumn) r
    rw [hlast] at hword
    rw [← hword]
    fin_cases r
    · exact congrArg (fun c => _ ^^^ (_ ^^^ c)) hrcon
    all_goals exact congrArg (fun c => _ ^^^ c) UInt8.xor_zero.symm
  · rw [if_neg hmod, if_neg hmod, hlast]

/-- The round keys are the first 44 words of the standard. -/
theorem schedule_keyExpansion (key : List UInt8) {i : Nat} (h : i < 44) :
    schedule (keyExpansion key) i = Rijndael.keySchedule (Rijndael.words key) i := by
  have hrun : ∀ n ≤ 40, ((List.range' 4 n).foldl keyStep (keyColumns key)).length = 4 + n ∧
      ∀ j < 4 + n, ∀ r, (((List.range' 4 n).foldl keyStep (keyColumns key)).getD j emptyColumn).row r =
        Rijndael.keySchedule (Rijndael.words key) j r := by
    intro n hn
    induction n with
    | zero =>
      refine ⟨rfl, fun j hj r => ?_⟩
      rw [Rijndael.keySchedule, if_pos hj]
      interval_cases j <;> fin_cases r <;> rfl
    | succ n ih =>
      obtain ⟨hlength, hwords⟩ := ih (by omega)
      obtain ⟨w, hstep, hw⟩ := keyStep_word _ _ (4 + n) (by omega) (by omega) hlength hwords
      rw [List.range'_1_concat, List.foldl_append, List.foldl_cons, List.foldl_nil, hstep]
      refine ⟨by rw [List.length_append, hlength]; rfl, fun j hj r => ?_⟩
      by_cases hold : j < 4 + n
      · rw [List.getD_append _ _ _ _ (by omega)]
        exact hwords j hold r
      · obtain rfl : j = 4 + n := by omega
        rw [List.getD_append_right _ _ _ _ (by omega), hlength, Nat.sub_self]
        exact hw r
  funext r
  exact (hrun 40 (Nat.le_refl 40)).2 i h r

/-! ## The cipher of the standard -/

theorem grid_cipherRound (roundKey : List Column) (s : State) (round : Nat) :
    (cipherRound roundKey s round).grid = Rijndael.cipherRound (schedule roundKey) s.grid round := by
  rw [cipherRound, grid_addRoundKey, grid_mixColumns, grid_shiftRows, grid_subBytes, Rijndael.cipherRound]

theorem grid_cipher (roundKey : List Column) (s : State) :
    (cipher roundKey s).grid = Rijndael.cipher (schedule roundKey) s.grid := by
  have hrounds : ∀ (rounds : List Nat) (s : State), (rounds.foldl (cipherRound roundKey) s).grid =
      rounds.foldl (Rijndael.cipherRound (schedule roundKey)) s.grid := by
    intro rounds s
    exact (List.foldl_hom State.grid fun s round => (grid_cipherRound roundKey s round).symm).symm
  rw [cipher, grid_addRoundKey, grid_shiftRows, grid_subBytes, hrounds, grid_addRoundKey, Rijndael.cipher]

theorem grid_invCipherRound (roundKey : List Column) (s : State) (round : Nat) :
    (invCipherRound roundKey s round).grid = Rijndael.invCipherRound (schedule roundKey) s.grid round := by
  rw [invCipherRound, grid_invMixColumns, grid_addRoundKey, grid_invSubBytes, grid_invShiftRows,
    Rijndael.invCipherRound]

theorem grid_invCipher (roundKey : List Column) (s : State) :
    (invCipher roundKey s).grid = Rijndael.invCipher (schedule roundKey) s.grid := by
  have hrounds : ∀ (rounds : List Nat) (s : State), (rounds.foldl (invCipherRound roundKey) s).grid =
      rounds.foldl (Rijndael.invCipherRound (schedule roundKey)) s.grid := by
    intro rounds s
    exact (List.foldl_hom State.grid fun s round => (grid_invCipherRound roundKey s round).symm).symm
  rw [invCipher, grid_addRoundKey, grid_invSubBytes, grid_invShiftRows, hrounds, grid_addRoundKey,
    Rijndael.invCipher]
  rfl

theorem grid_ofBytes (data : List UInt8) : (State.ofBytes data).grid = Rijndael.ofBytes data := by
  funext r c
  fin_cases c <;> fin_cases r <;> rfl

theorem toBytes_eq (s : State) : s.toBytes = Rijndael.toBytes s.grid := rfl

/-- The bytes of the block after `Cipher`. -/
theorem cipher_eq (key block : List UInt8) :
    (cipher (keyExpansion key) (.ofBytes block)).toBytes = Rijndael.encrypt key block := by
  have hschedule : ∀ i < 44, schedule (keyExpansion key) i = Rijndael.keySchedule (Rijndael.words key) i :=
    fun i hi => schedule_keyExpansion key hi
  rw [toBytes_eq, grid_cipher, grid_ofBytes, Rijndael.cipher_congr hschedule, Rijndael.encrypt]

theorem invCipher_eq (key block : List UInt8) :
    (invCipher (keyExpansion key) (.ofBytes block)).toBytes = Rijndael.decrypt key block := by
  have hschedule : ∀ i < 44, schedule (keyExpansion key) i = Rijndael.keySchedule (Rijndael.words key) i :=
    fun i hi => schedule_keyExpansion key hi
  rw [toBytes_eq, grid_invCipher, grid_ofBytes, Rijndael.invCipher_congr hschedule, Rijndael.decrypt]

/-- Both directions are those of the standard, and the second undoes the first. -/
theorem standard_blocks (key : List UInt8) {block : List UInt8} (h : block.length = 16) :
    (cipher (keyExpansion key) (.ofBytes block)).toBytes = Rijndael.encrypt key block ∧
      (invCipher (keyExpansion key) (.ofBytes block)).toBytes = Rijndael.decrypt key block ∧
      (invCipher (keyExpansion key)
        (.ofBytes (cipher (keyExpansion key) (.ofBytes block)).toBytes)).toBytes = block := by
  refine ⟨cipher_eq key block, invCipher_eq key block, ?_⟩
  rw [invCipher_eq, cipher_eq, Rijndael.decrypt_encrypt key h]

theorem standard_blocks_sample :
    (cipher (keyExpansion (List.replicate 16 1)) (.ofBytes (List.replicate 16 2))).toBytes =
        Rijndael.encrypt (List.replicate 16 1) (List.replicate 16 2) ∧
      (invCipher (keyExpansion (List.replicate 16 1)) (.ofBytes (List.replicate 16 2))).toBytes =
        Rijndael.decrypt (List.replicate 16 1) (List.replicate 16 2) ∧
      (invCipher (keyExpansion (List.replicate 16 1))
        (.ofBytes (cipher (keyExpansion (List.replicate 16 1)) (.ofBytes (List.replicate 16 2))).toBytes)).toBytes =
        List.replicate 16 2 :=
  standard_blocks (List.replicate 16 1) rfl

end Aes
end Firefly
