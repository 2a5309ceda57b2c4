import Firefly.Lib.Absorb
import Mathlib.Data.UInt

/-!
# Firefly.Lib.SecureHash

The secure hash algorithm with digests of 160 bits, as its standard states it: a block of 64 bytes is
expanded to a schedule of 80 words (`schedule`), which enter five registers one by one (`step`). The data
is padded to whole blocks with a one bit, zeros, and its length in bits as a number of 64 bits.
-/

namespace SecureHash

structure Registers where
  a : UInt32
  b : UInt32
  c : UInt32
  d : UInt32
  e : UInt32
  deriving DecidableEq

def rotl (x n : UInt32) : UInt32 := x <<< n ||| x >>> (32 - n)

/-- Four bytes, the most significant one first. -/
def word (b₀ b₁ b₂ b₃ : UInt8) : UInt32 :=
  b₀.toUInt32 <<< 24 ||| b₁.toUInt32 <<< 16 ||| b₂.toUInt32 <<< 8 ||| b₃.toUInt32

/-- The bytes of a word. -/
def unword (x : UInt32) : List UInt8 :=
  [(x >>> 24).toUInt8, (x >>> 16).toUInt8, (x >>> 8).toUInt8, x.toUInt8]

def blockWord (block : List UInt8) (t : Nat) : UInt32 :=
  word (block.getD (4 * t) 0) (block.getD (4 * t + 1) 0) (block.getD (4 * t + 2) 0)
    (block.getD (4 * t + 3) 0)

def schedule (block : List UInt8) (t : Nat) : UInt32 :=
  if t < 16 then blockWord block t
  else rotl (schedule block (t - 3) ^^^ schedule block (t - 8) ^^^ schedule block (t - 14) ^^^
    schedule block (t - 16)) 1
termination_by t
decreasing_by all_goals omega

def f (t : Nat) (x y z : UInt32) : UInt32 :=
  if t < 20 then (x &&& y) ^^^ (~~~x &&& z)
  else if t < 40 then x ^^^ y ^^^ z
  else if t < 60 then (x &&& y) ^^^ (x &&& z) ^^^ (y &&& z)
  else x ^^^ y ^^^ z

def constant (t : Nat) : UInt32 :=
  if t < 20 then 0x5a827999 else if t < 40 then 0x6ed9eba1 else if t < 60 then 0x8f1bbcdc else 0xca62c1d6

def step (block : List UInt8) (s : Registers) (t : Nat) : Registers :=
  ⟨rotl s.a 5 + f t s.b s.c s.d + s.e + constant t + schedule block t, s.a, rotl s.b 30, s.c, s.d⟩

def steps (block : List UInt8) (s : Registers) (n : Nat) : Registers :=
  (List.range n).foldl (step block) s

def Registers.add (s r : Registers) : Registers := ⟨s.a + r.a, s.b + r.b, s.c + r.c, s.d + r.d, s.e + r.e⟩

def compress (s : Registers) (block : List UInt8) : Registers := s.add (steps block s 80)

def start : Registers := ⟨0x67452301, 0xefcdab89, 0x98badcfe, 0x10325476, 0xc3d2e1f0⟩

/-- A number of 64 bits, the most significant byte first. -/
def bigEndian (n : Nat) : List UInt8 :=
  unword (UInt32.ofNat (n / 2 ^ 32)) ++ unword (UInt32.ofNat n)

/-- What is put behind data of a length. -/
def padding (n : Nat) : List UInt8 :=
  0x80 :: List.replicate ((119 - n % 64) % 64) 0 ++ bigEndian (8 * n)

def Registers.bytes (s : Registers) : List UInt8 :=
  unword s.a ++ unword s.b ++ unword s.c ++ unword s.d ++ unword s.e

def digest (data : List UInt8) : List UInt8 :=
  (Absorb.state 64 compress start (data ++ padding data.length)).bytes

@[simp] theorem length_unword (x : UInt32) : (unword x).length = 4 := rfl

@[simp] theorem length_bigEndian (n : Nat) : (bigEndian n).length = 8 := rfl

@[simp] theorem length_digest (data : List UInt8) : (digest data).length = 20 := rfl

theorem steps_succ (block : List UInt8) (s : Registers) (n : Nat) :
    steps block s (n + 1) = step block (steps block s n) n := by
  rw [steps, List.range_succ, List.foldl_append]
  rfl

theorem schedule_of_lt {t : Nat} (block : List UInt8) (h : t < 16) :
    schedule block t = blockWord block t := by
  rw [schedule, if_pos h]

theorem schedule_add (block : List UInt8) (t : Nat) :
    schedule block (t + 16) = rotl (schedule block (t + 13) ^^^ schedule block (t + 8) ^^^
      schedule block (t + 2) ^^^ schedule block t) 1 := by
  rw [schedule, if_neg (by omega)]
  rfl

/-- The padding goes up to a whole number of blocks. -/
theorem length_padding (n : Nat) : 64 ∣ n + (padding n).length := by
  rw [padding, List.length_append, List.length_cons, List.length_replicate, length_bigEndian]
  omega

end SecureHash
