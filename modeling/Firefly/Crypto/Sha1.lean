import Firefly.Lib.SecureHash
import Mathlib.Tactic.IntervalCases

/-!
# Firefly.Crypto.Sha1

`sha1.c`, and `fd_crypto_sha.c` that calls it: the hash over data that comes in pieces.

A block is transformed in place. Its sixteen words are loaded as they lie in the memory of a little-endian
machine, and swapped when they are first used (`blk0`); from the seventeenth round on, each is overwritten
with the word of the schedule sixteen rounds later (`blk`). The rounds are unrolled, and instead of moving
the five registers on, each names them one further.

However the data is split, the result is the digest of the standard (`final_eq`).
-/

namespace Firefly
namespace Sha1

open SecureHash (Registers)

/-- `SHA_CTX`. -/
structure Context where
  state : Registers
  count0 : UInt32
  count1 : UInt32
  buffer : List UInt8

/-! ## Blocks -/

def rol (value bits : UInt32) : UInt32 := value <<< bits ||| value >>> (32 - bits)

/-- The quadbyte `l[i]` of the bytes `c`. -/
def quadbyte (c : List UInt8) (i : Nat) : UInt32 :=
  (c.getD (4 * i) 0).toUInt32 ||| (c.getD (4 * i + 1) 0).toUInt32 <<< 8 |||
    (c.getD (4 * i + 2) 0).toUInt32 <<< 16 ||| (c.getD (4 * i + 3) 0).toUInt32 <<< 24

def quadbytes (c : List UInt8) : List UInt32 := (List.range 16).map (quadbyte c)

/-- The bytes of a quadbyte, as they lie in memory. -/
def bytes (q : UInt32) : List UInt8 :=
  [q.toUInt8, (q >>> 8).toUInt8, (q >>> 16).toUInt8, (q >>> 24).toUInt8]

def swap (q : UInt32) : UInt32 := rol q 24 &&& 0xff00ff00 ||| rol q 8 &&& 0x00ff00ff

def blk0 (block : List UInt32) (i : Nat) : List UInt32 := block.set i (swap (block.getD i 0))

def blk (block : List UInt32) (i : Nat) : List UInt32 :=
  block.set (i % 16) (rol (block.getD ((i + 13) % 16) 0 ^^^ block.getD ((i + 8) % 16) 0 ^^^
    block.getD ((i + 2) % 16) 0 ^^^ block.getD (i % 16) 0) 1)

/-- `R0` and `R1`, `R2`, `R3`, and `R4`, as the rounds use them: what they make of `w`, `x` and `y`. -/
def mix (i : Nat) (w x y : UInt32) : UInt32 :=
  if i < 20 then (w &&& (x ^^^ y)) ^^^ y
  else if i < 40 then w ^^^ x ^^^ y
  else if i < 60 then ((w ||| x) &&& y) ||| (w &&& x)
  else w ^^^ x ^^^ y

def constant (i : Nat) : UInt32 :=
  if i < 20 then 0x5A827999 else if i < 40 then 0x6ED9EBA1 else if i < 60 then 0x8F1BBCDC else 0xCA62C1D6

/-- A round names the registers `v`, `w`, `x`, `y` and `z`, of which it changes `z` and `w`. -/
def round (s : Registers × List UInt32) (i : Nat) : Registers × List UInt32 :=
  let block := if i < 16 then blk0 s.2 i else blk s.2 i
  let sum (v w x y z : UInt32) := z + (mix i w x y + block.getD (i % 16) 0 + constant i + rol v 5)
  let r := s.1
  let r := match i % 5 with
    | 0 => { r with e := sum r.a r.b r.c r.d r.e, b := rol r.b 30 }
    | 1 => { r with d := sum r.e r.a r.b r.c r.d, a := rol r.a 30 }
    | 2 => { r with c := sum r.d r.e r.a r.b r.c, e := rol r.e 30 }
    | 3 => { r with b := sum r.c r.d r.e r.a r.b, d := rol r.d 30 }
    | _ => { r with a := sum r.b r.c r.d r.e r.a, c := rol r.c 30 }
  (r, block)

/-- `SHA1_Transform`: the state, and what is left in the buffer. -/
def transform (state : Registers) (buffer : List UInt8) : Registers × List UInt8 :=
  let s := (List.range 80).foldl round (state, quadbytes buffer)
  (state.add s.1, s.2.flatMap bytes)

/-! ## Data -/

/-- `SHA1_Init`. -/
def init (buffer : List UInt8) : Context :=
  ⟨⟨0x67452301, 0xEFCDAB89, 0x98BADCFE, 0x10325476, 0xC3D2E1F0⟩, 0, 0, buffer⟩

/-- `memcpy` to the buffer from `j` on. -/
def copy (buffer : List UInt8) (j : Nat) (data : List UInt8) : List UInt8 :=
  buffer.take j ++ data ++ buffer.drop (j + data.length)

/-- The loop over the blocks of the data, with the index after it. -/
def transforms (data : List UInt8) (len : UInt32) : Nat → UInt32 → Registers → UInt32 × Registers
  | 0, i, state => (i, state)
  | fuel + 1, i, state =>
    if i + 63 < len then
      transforms data len fuel (i + 64) (transform state ((data.drop i.toNat).take 64)).1
    else (i, state)

/-- `SHA1_Update`. -/
def update (c : Context) (data : List UInt8) : Context :=
  let len := UInt32.ofNat data.length
  let j := c.count0 >>> 3 &&& 63
  let count0 := c.count0 + len <<< 3
  let count1 := (if count0 < len <<< 3 then c.count1 + 1 else c.count1) + len >>> 29
  if j + len > 63 then
    let i := 64 - j
    let (state, buffer) := transform c.state (copy c.buffer j.toNat (data.take i.toNat))
    let (i, state) := transforms data len data.length i state
    ⟨state, count0, count1, copy buffer 0 ((data.drop i.toNat).take (len - i).toNat)⟩
  else ⟨c.state, count0, count1, copy c.buffer j.toNat data⟩

/-- The loop that pads with zeros. -/
def pad : Nat → Context → Option Context
  | 0, _ => none
  | fuel + 1, c => if c.count0 &&& 504 ≠ 448 then pad fuel (update c [0]) else some c

/-- The byte `i` of `finalcount`. -/
def finalcount (c : Context) (i : Nat) : UInt8 :=
  ((if i ≥ 4 then c.count0 else c.count1) >>> UInt32.ofNat ((3 - i % 4) * 8) &&& 255).toUInt8

/-- The word of the state that has the byte `i` of the digest. -/
def digestWord (s : Registers) (i : Nat) : UInt32 :=
  match i / 4 with
  | 0 => s.a
  | 1 => s.b
  | 2 => s.c
  | 3 => s.d
  | _ => s.e

/-- `SHA1_Final`, without the wiping. -/
def final (c : Context) : Option (List UInt8) := do
  let c' ← pad 64 (update c [0x80])
  let c' := update c' ((List.range 8).map (finalcount c))
  return (List.range 20).map fun i =>
    (digestWord c'.state i >>> UInt32.ofNat ((3 - i % 4) * 8) &&& 255).toUInt8

/-! ## The schedule -/

theorem ext_bits {x y : UInt32} (h : ∀ i, i < 32 → x.toBitVec.getLsbD i = y.toBitVec.getLsbD i) : x = y :=
  UInt32.toBitVec_inj.mp (BitVec.eq_of_getLsbD_eq h)

/-- A quadbyte that is swapped is the word with the bytes in the order of the standard. -/
theorem swap_quadbyte (c : List UInt8) (i : Nat) : swap (quadbyte c i) = SecureHash.blockWord c i := by
  rw [quadbyte, SecureHash.blockWord, SecureHash.word, swap, rol, rol]
  refine ext_bits fun i hi => ?_
  simp only [UInt32.toBitVec_or, UInt32.toBitVec_and, UInt32.toBitVec_shiftLeft, UInt32.toBitVec_shiftRight,
    UInt8.toBitVec_toUInt32, BitVec.getLsbD_or, BitVec.getLsbD_and]
  interval_cases i <;> simp

/-- Before the round `n`, a place has the word of the schedule that was put there last, if any. -/
structure Scheduled (c : List UInt8) (n : Nat) (block : List UInt32) : Prop where
  length : block.length = 16
  loaded : ∀ t, n ≤ t → t < 16 → block.getD t 0 = quadbyte c t
  expanded : ∀ t, t < n → n ≤ t + 16 → block.getD (t % 16) 0 = SecureHash.schedule c t

theorem scheduled_quadbytes (c : List UInt8) : Scheduled c 0 (quadbytes c) where
  length := by simp [quadbytes]
  loaded t _ ht := by simp [quadbytes, ht]
  expanded t ht := by omega

/-- The word of the round is put where the one sixteen rounds before was. -/
theorem Scheduled.set {c : List UInt8} {n : Nat} {block : List UInt32} (h : Scheduled c n block) :
    Scheduled c (n + 1) (block.set (n % 16) (SecureHash.schedule c n)) where
  length := by rw [List.length_set, h.length]
  loaded t hnt ht := by
    have hne : n % 16 ≠ t := by omega
    rw [List.getD_eq_getElem?_getD, List.getElem?_set_ne hne, ← List.getD_eq_getElem?_getD]
    exact h.loaded t (by omega) ht
  expanded t htn hnt := by
    by_cases heq : t = n
    · subst heq
      have hlt : t % 16 < block.length := by
        rw [h.length]
        omega
      simp [hlt]
    · have hne : n % 16 ≠ t % 16 := by omega
      rw [List.getD_eq_getElem?_getD, List.getElem?_set_ne hne, ← List.getD_eq_getElem?_getD]
      exact h.expanded t (by omega) (by omega)

theorem blk0_eq {c : List UInt8} {n : Nat} {block : List UInt32} (h : Scheduled c n block) (hn : n < 16) :
    blk0 block n = block.set (n % 16) (SecureHash.schedule c n) := by
  rw [blk0, h.loaded n (Nat.le_refl n) hn, swap_quadbyte, Nat.mod_eq_of_lt hn,
    SecureHash.schedule_of_lt c hn]

theorem blk_eq {c : List UInt8} {n : Nat} {block : List UInt32} (h : Scheduled c n block) (hn : 16 ≤ n) :
    blk block n = block.set (n % 16) (SecureHash.schedule c n) := by
  obtain ⟨t, rfl⟩ := Nat.exists_eq_add_of_le' hn
  have h13 : (t + 16 + 13) % 16 = (t + 13) % 16 := by omega
  have h8 : (t + 16 + 8) % 16 = (t + 8) % 16 := by omega
  have h2 : (t + 16 + 2) % 16 = (t + 2) % 16 := by omega
  have h0 : (t + 16) % 16 = t % 16 := by omega
  rw [blk, h13, h8, h2, h0, h.expanded (t + 13) (by omega) (by omega),
    h.expanded (t + 8) (by omega) (by omega), h.expanded (t + 2) (by omega) (by omega),
    h.expanded t (by omega) (by omega), SecureHash.schedule_add]
  rfl

/-! ## The rounds -/

theorem mix_eq (t : Nat) (x y z : UInt32) : mix t x y z = SecureHash.f t x y z := by
  have hch : (x &&& (y ^^^ z)) ^^^ z = (x &&& y) ^^^ (~~~x &&& z) := by
    refine ext_bits fun i hi => ?_
    simp only [UInt32.toBitVec_xor, UInt32.toBitVec_and, UInt32.toBitVec_not, BitVec.getLsbD_xor,
      BitVec.getLsbD_and, BitVec.getLsbD_not, hi, decide_true, Bool.true_and]
    cases x.toBitVec.getLsbD i <;> simp
  have hmaj : ((x ||| y) &&& z) ||| (x &&& y) = (x &&& y) ^^^ (x &&& z) ^^^ (y &&& z) := by
    refine ext_bits fun i hi => ?_
    simp only [UInt32.toBitVec_xor, UInt32.toBitVec_and, UInt32.toBitVec_or, BitVec.getLsbD_xor,
      BitVec.getLsbD_and, BitVec.getLsbD_or]
    cases x.toBitVec.getLsbD i <;> cases y.toBitVec.getLsbD i <;> simp
  rw [mix, SecureHash.f, hch, hmaj]

/-- The registers in the order in which the round `i` names them. -/
def named (i : Nat) (r : Registers) : Registers :=
  match i % 5 with
  | 0 => r
  | 1 => ⟨r.e, r.a, r.b, r.c, r.d⟩
  | 2 => ⟨r.d, r.e, r.a, r.b, r.c⟩
  | 3 => ⟨r.c, r.d, r.e, r.a, r.b⟩
  | _ => ⟨r.b, r.c, r.d, r.e, r.a⟩

theorem round_eq {c : List UInt8} {n : Nat} {r : Registers} {block : List UInt32}
    (h : Scheduled c n block) :
    named (n + 1) (round (r, block) n).1 = SecureHash.step c (named n r) n ∧
      (round (r, block) n).2 = block.set (n % 16) (SecureHash.schedule c n) := by
  have hblock : (if n < 16 then blk0 block n else blk block n) =
      block.set (n % 16) (SecureHash.schedule c n) := by
    split
    · rename_i hn
      exact blk0_eq h hn
    · rename_i hn
      exact blk_eq h (by omega)
  have hword : (block.set (n % 16) (SecureHash.schedule c n)).getD (n % 16) 0 = SecureHash.schedule c n :=
    h.set.expanded n (Nat.lt_succ_self n) (by omega)
  have hsum : ∀ z u v w x : UInt32, z + (u + v + w + x) = x + u + z + w + v := by
    intro z u v w x
    ac_rfl
  have hrotl : ∀ x k, rol x k = SecureHash.rotl x k := fun _ _ => rfl
  have hconstant : constant n = SecureHash.constant n := rfl
  refine ⟨?_, ?_⟩
  · rw [round]
    simp only [hblock, hword, mix_eq, hconstant, hsum, hrotl]
    have hmod : n % 5 = 0 ∧ (n + 1) % 5 = 1 ∨ n % 5 = 1 ∧ (n + 1) % 5 = 2 ∨ n % 5 = 2 ∧ (n + 1) % 5 = 3 ∨
        n % 5 = 3 ∧ (n + 1) % 5 = 4 ∨ n % 5 = 4 ∧ (n + 1) % 5 = 0 := by omega
    rcases hmod with ⟨h₁, h₂⟩ | ⟨h₁, h₂⟩ | ⟨h₁, h₂⟩ | ⟨h₁, h₂⟩ | ⟨h₁, h₂⟩ <;>
      simp only [named, h₁, h₂, SecureHash.step]
  · rw [round]
    exact hblock

theorem rounds_eq (c : List UInt8) (r : Registers) (n : Nat) :
    named n ((List.range n).foldl round (r, quadbytes c)).1 = SecureHash.steps c r n ∧
      Scheduled c n ((List.range n).foldl round (r, quadbytes c)).2 := by
  induction n with
  | zero => exact ⟨rfl, scheduled_quadbytes c⟩
  | succ n ih =>
    obtain ⟨hregisters, hblock⟩ := ih
    rw [List.range_succ, List.foldl_append, SecureHash.steps_succ, ← hregisters]
    obtain ⟨hround, hset⟩ := round_eq (r := ((List.range n).foldl round (r, quadbytes c)).1) hblock
    exact ⟨hround, hset ▸ hblock.set⟩

theorem transform_eq (state : Registers) (buffer : List UInt8) :
    (transform state buffer).1 = SecureHash.compress state buffer := by
  have hrounds := (rounds_eq buffer state 80).1
  rw [transform, SecureHash.compress, ← hrounds]
  rfl

theorem length_transform (state : Registers) (buffer : List UInt8) :
    (transform state buffer).2.length = 64 := by
  have hlength := (rounds_eq buffer state 80).2.length
  rw [transform, List.length_flatMap]
  simp [bytes, hlength]

/-! ## Any pieces -/

theorem length_copy {buffer data : List UInt8} {j : Nat} (h : j + data.length ≤ buffer.length) :
    (copy buffer j data).length = buffer.length := by
  rw [copy, List.length_append, List.length_append, List.length_take, List.length_drop]
  omega

theorem take_copy {buffer data : List UInt8} {j : Nat} (h : j + data.length ≤ buffer.length) :
    (copy buffer j data).take (j + data.length) = buffer.take j ++ data := by
  have hlength : (buffer.take j ++ data).length = j + data.length := by
    rw [List.length_append, List.length_take]
    omega
  rw [copy, List.take_left' hlength]

theorem transforms_eq {data : List UInt8} {len : UInt32} (hlen : len.toNat = data.length)
    (hmax : data.length + 63 < 2 ^ 32) (fuel : Nat) (i : UInt32) (state : Registers)
    (hi : i.toNat ≤ data.length) (hfuel : data.length - i.toNat ≤ 64 * fuel) :
    (transforms data len fuel i state).1.toNat = i.toNat + 64 * ((data.length - i.toNat) / 64) ∧
      (transforms data len fuel i state).2 =
        Absorb.chain 64 SecureHash.compress ((data.length - i.toNat) / 64) state (data.drop i.toNat) := by
  induction fuel generalizing i state with
  | zero =>
    have hzero : (data.length - i.toNat) / 64 = 0 := by omega
    simp [transforms, hzero, Absorb.chain]
  | succ fuel ih =>
    have hnext : (i + 63).toNat = i.toNat + 63 := by
      rw [UInt32.toNat_add, show (63 : UInt32).toNat = 63 from rfl]
      omega
    rw [transforms]
    by_cases hlt : i + 63 < len
    · have hlt' : i.toNat + 63 < data.length := by
        rwa [UInt32.lt_iff_toNat_lt, hnext, hlen] at hlt
      have hadd : (i + 64).toNat = i.toNat + 64 := by
        rw [UInt32.toNat_add, show (64 : UInt32).toNat = 64 from rfl]
        omega
      obtain ⟨hindex, hstate⟩ := ih (i + 64) (transform state ((data.drop i.toNat).take 64)).1
        (by omega) (by omega)
      have hcount : (data.length - i.toNat) / 64 = (data.length - (i + 64).toNat) / 64 + 1 := by omega
      rw [if_pos hlt]
      refine ⟨by omega, ?_⟩
      rw [hstate, hcount, Absorb.chain, transform_eq, List.drop_drop, hadd]
    · have hge : data.length ≤ i.toNat + 63 := by
        rw [UInt32.lt_iff_toNat_lt, hnext, hlen] at hlt
        omega
      have hzero : (data.length - i.toNat) / 64 = 0 := by omega
      simp [if_neg hlt, hzero, Absorb.chain]

/-- The context after some data. -/
structure Holds (c : Context) (data : List UInt8) : Prop where
  state : c.state = Absorb.state 64 SecureHash.compress SecureHash.start data
  count : 2 ^ 32 * c.count1.toNat + c.count0.toNat = 8 * data.length % 2 ^ 64
  length : c.buffer.length = 64
  pending : c.buffer.take (data.length % 64) = Absorb.pending 64 data

theorem holds_init {buffer : List UInt8} (h : buffer.length = 64) : Holds (init buffer) [] where
  state := (Absorb.state_nil _).symm
  count := rfl
  length := h
  pending := by simp

/-- The place in the buffer. -/
theorem Holds.index {c : Context} {data : List UInt8} (h : Holds c data) :
    (c.count0 >>> 3 &&& 63).toNat = data.length % 64 := by
  have hcount := h.count
  have hlt := c.count0.toNat_lt
  have hand : ∀ n : Nat, n &&& 63 = n % 64 := fun n => Nat.and_two_pow_sub_one_eq_mod n 6
  have hshift : ∀ n : Nat, n >>> 3 = n / 8 := fun n => Nat.shiftRight_eq_div_pow n 3
  simp only [UInt32.toNat_and, UInt32.toNat_shiftRight, UInt32.toNat_ofNat, Nat.reducePow, Nat.reduceMod,
    hand, hshift]
  omega

theorem toNat_length {data : List UInt8} (h : data.length + 63 < 2 ^ 32) :
    (UInt32.ofNat data.length).toNat = data.length := by
  rw [UInt32.toNat_ofNat']
  omega

/-- The count of bits, in two words. -/
theorem Holds.counted {c : Context} {data more : List UInt8} (h : Holds c data)
    (hmore : more.length + 63 < 2 ^ 32) :
    2 ^ 32 * ((if c.count0 + UInt32.ofNat more.length <<< 3 < UInt32.ofNat more.length <<< 3 then c.count1 + 1
        else c.count1) + UInt32.ofNat more.length >>> 29).toNat +
      (c.count0 + UInt32.ofNat more.length <<< 3).toNat = 8 * (data ++ more).length % 2 ^ 64 := by
  have hcount := h.count
  have hlow := c.count0.toNat_lt
  have hhigh := c.count1.toNat_lt
  have hlen := toNat_length hmore
  have hleft : (UInt32.ofNat more.length <<< 3).toNat = 8 * more.length % 2 ^ 32 := by
    rw [UInt32.toNat_shiftLeft, hlen]
    simp only [UInt32.toNat_ofNat, Nat.reducePow, Nat.reduceMod, Nat.shiftLeft_eq]
    omega
  have hright : (UInt32.ofNat more.length >>> 29).toNat = more.length / 2 ^ 29 := by
    rw [UInt32.toNat_shiftRight, hlen]
    simp only [UInt32.toNat_ofNat, Nat.reducePow, Nat.reduceMod, Nat.shiftRight_eq_div_pow]
  rw [List.length_append]
  split
  · rename_i hcarry
    rw [UInt32.lt_iff_toNat_lt, UInt32.toNat_add, hleft] at hcarry
    rw [UInt32.toNat_add, UInt32.toNat_add, UInt32.toNat_add, hleft, hright, UInt32.toNat_one]
    omega
  · rename_i hcarry
    rw [UInt32.lt_iff_toNat_lt, UInt32.toNat_add, hleft] at hcarry
    rw [UInt32.toNat_add, UInt32.toNat_add, hleft, hright]
    omega

/-- The buffer is filled up, and further blocks follow. -/
theorem Holds.update_full {c : Context} {data more : List UInt8} {j : UInt32} (h : Holds c data)
    (hj : j.toNat = data.length % 64) (hmore : more.length + 63 < 2 ^ 32)
    (hfull : 64 ≤ data.length % 64 + more.length) (buffer : List UInt8) (hbuffer : buffer.length = 64) :
    let first := more.take (64 - j).toNat
    let r := transforms more (UInt32.ofNat more.length) more.length (64 - j)
      (transform c.state (copy c.buffer j.toNat first)).1
    let rest := (more.drop r.1.toNat).take (UInt32.ofNat more.length - r.1).toNat
    r.2 = Absorb.state 64 SecureHash.compress SecureHash.start (data ++ more) ∧
      (copy buffer 0 rest).length = 64 ∧
      (copy buffer 0 rest).take ((data ++ more).length % 64) = Absorb.pending 64 (data ++ more) := by
  intro first r rest
  have hlen := toNat_length hmore
  have hmod : data.length % 64 < 64 := Nat.mod_lt _ (by decide)
  have hk : (64 - j).toNat = 64 - data.length % 64 := by
    have hle : j ≤ 64 := by
      rw [UInt32.le_iff_toNat_le, hj]
      exact Nat.le_of_lt hmod
    rw [UInt32.toNat_sub_of_le _ _ hle, hj]
    rfl
  have hfirst : first.length = 64 - data.length % 64 := by
    rw [List.length_take, hk]
    omega
  have hfits : data.length % 64 + first.length ≤ c.buffer.length := by
    rw [h.length, hfirst]
    omega
  have hblock : copy c.buffer j.toNat first = Absorb.pending 64 data ++ first := by
    have hwhole : data.length % 64 + first.length = (copy c.buffer (data.length % 64) first).length := by
      rw [length_copy hfits, h.length, hfirst]
      omega
    rw [hj, ← h.pending, ← take_copy hfits, hwhole, List.take_length]
  obtain ⟨hindex, hchain⟩ := transforms_eq hlen hmore more.length (64 - j)
    (transform c.state (copy c.buffer j.toNat first)).1 (by omega) (by omega)
  have hlength : (Absorb.pending 64 data).length = data.length % 64 := Absorb.length_pending data
  obtain ⟨hstate, hpending⟩ := Absorb.append_full SecureHash.compress data more
    SecureHash.start (show 0 < 64 by decide) (by omega)
  rw [hlength, ← hk] at hstate hpending
  have hdrop : (more.drop (64 - j).toNat).length = more.length - (64 - j).toNat := List.length_drop
  have hrest : rest = Absorb.pending 64 (data ++ more) := by
    have hle : r.1.toNat ≤ more.length := by
      change r.1.toNat = _ at hindex
      omega
    have hle' : r.1 ≤ UInt32.ofNat more.length := by
      rw [UInt32.le_iff_toNat_le, hlen]
      exact hle
    have htake : (UInt32.ofNat more.length - r.1).toNat = (more.drop r.1.toNat).length := by
      rw [UInt32.toNat_sub_of_le _ _ hle', hlen, List.length_drop]
    rw [hpending, Absorb.pending, hdrop, List.drop_drop, ← hindex]
    change (more.drop r.1.toNat).take (UInt32.ofNat more.length - r.1).toNat = _
    rw [htake, List.take_length]
  have hplace : rest.length = (data ++ more).length % 64 := by rw [hrest, Absorb.length_pending]
  have hbound : 0 + rest.length ≤ buffer.length := by
    rw [hplace, hbuffer]
    omega
  refine ⟨?_, (length_copy hbound).trans hbuffer, ?_⟩
  · change r.2 = _ at hchain
    rw [hchain, hstate, Absorb.state, hdrop, transform_eq, hblock, h.state]
  · have htake := take_copy hbound
    rw [Nat.zero_add, hplace, List.take_zero, List.nil_append] at htake
    exact htake.trans hrest

theorem Holds.update {c : Context} {data : List UInt8} (h : Holds c data) (more : List UInt8)
    (hmore : more.length + 63 < 2 ^ 32) : Holds (update c more) (data ++ more) := by
  have hindex := h.index
  have hcounted := h.counted hmore
  have hsum : ((c.count0 >>> 3 &&& 63) + UInt32.ofNat more.length).toNat =
      data.length % 64 + more.length := by
    rw [UInt32.toNat_add, hindex, toNat_length hmore]
    omega
  rw [Sha1.update]
  by_cases hfull : (c.count0 >>> 3 &&& 63) + UInt32.ofNat more.length > 63
  · have hfull' : 64 ≤ data.length % 64 + more.length := by
      rw [gt_iff_lt, UInt32.lt_iff_toNat_lt, hsum] at hfull
      exact hfull
    obtain ⟨hstate, hlength, hpending⟩ := h.update_full hindex hmore hfull' _ (length_transform c.state _)
    rw [if_pos hfull]
    exact ⟨hstate, hcounted, hlength, hpending⟩
  · have hshort : data.length % 64 + more.length < 64 := by
      rw [gt_iff_lt, UInt32.lt_iff_toNat_lt, hsum] at hfull
      exact Nat.lt_of_not_ge hfull
    have hfits : data.length % 64 + more.length ≤ c.buffer.length := by
      rw [h.length]
      omega
    have hlength : (Absorb.pending 64 data).length = data.length % 64 := Absorb.length_pending data
    obtain ⟨hstate, hpending⟩ := Absorb.append_short SecureHash.compress data more
      SecureHash.start (show (Absorb.pending 64 data).length + more.length < 64 by omega)
    have hplace : (data ++ more).length % 64 = data.length % 64 + more.length := by
      rw [List.length_append]
      omega
    rw [if_neg hfull, hindex]
    refine ⟨h.state.trans hstate.symm, hcounted, (length_copy hfits).trans h.length, ?_⟩
    rw [hplace, take_copy hfits, h.pending, hpending]

theorem Holds.updates {c : Context} {data : List UInt8} {pieces : List (List UInt8)} (h : Holds c data)
    (hpieces : ∀ piece ∈ pieces, piece.length + 63 < 2 ^ 32) :
    Holds (pieces.foldl Sha1.update c) (data ++ pieces.flatten) := by
  induction pieces generalizing c data with
  | nil => simpa using h
  | cons piece pieces ih =>
    rw [List.flatten_cons, ← List.append_assoc]
    exact ih (h.update piece (hpieces piece List.mem_cons_self)) fun p hp => hpieces p (List.mem_cons_of_mem _ hp)

/-! ## The end -/

/-- The zeros go up to the place of the length. -/
theorem Holds.pad {c : Context} {data : List UInt8} (h : Holds c data) (fuel : Nat)
    (hfuel : (120 - data.length % 64) % 64 < fuel) :
    ∃ c', Sha1.pad fuel c = some c' ∧
      Holds c' (data ++ List.replicate ((120 - data.length % 64) % 64) 0) := by
  induction fuel generalizing c data with
  | zero => omega
  | succ fuel ih =>
    have hand : (c.count0 &&& (504 : UInt32)).toNat = 8 * (data.length % 64) := by
      have hbits : c.count0 &&& (504 : UInt32) = (c.count0 >>> 3 &&& 63) <<< 3 := by
        refine ext_bits fun i hi => ?_
        simp only [UInt32.toBitVec_and, UInt32.toBitVec_shiftLeft, UInt32.toBitVec_shiftRight,
          BitVec.getLsbD_and]
        interval_cases i <;> simp
      rw [hbits, UInt32.toNat_shiftLeft, h.index]
      simp only [UInt32.toNat_ofNat, Nat.reducePow, Nat.reduceMod, Nat.shiftLeft_eq]
      omega
    rw [Sha1.pad]
    by_cases hdone : c.count0 &&& (504 : UInt32) = 448
    · have hmod : data.length % 64 = 56 := by
        rw [hdone] at hand
        have : (448 : UInt32).toNat = 448 := rfl
        omega
      refine ⟨c, by rw [if_neg (by simpa using hdone)], ?_⟩
      simpa [hmod] using h
    · have hmod : data.length % 64 ≠ 56 := by
        intro hmod
        refine hdone (UInt32.toNat_inj.mp ?_)
        rw [hand, hmod]
        rfl
      have hone : (data ++ [0]).length = data.length + 1 := by simp
      have hnext : (120 - (data ++ [0]).length % 64) % 64 + 1 = (120 - data.length % 64) % 64 := by omega
      obtain ⟨c', hpad, hholds⟩ := ih (h.update [0] (by decide)) (by omega)
      refine ⟨c', by rw [if_pos hdone]; exact hpad, ?_⟩
      rwa [List.append_assoc, List.singleton_append, ← List.replicate_succ, hnext] at hholds

/-- The bytes of a word, as the code takes them out. -/
theorem unword_eq (x : UInt32) :
    SecureHash.unword x = (List.range 4).map fun i => (x >>> UInt32.ofNat ((3 - i % 4) * 8) &&& 255).toUInt8 := by
  have hmask : ∀ y : UInt32, (y &&& 255).toUInt8 = y.toUInt8 := by
    intro y
    apply UInt8.toBitVec_inj.mp
    apply BitVec.eq_of_getLsbD_eq
    intro i hi
    simp only [UInt32.toBitVec_toUInt8, UInt32.toBitVec_and, BitVec.getLsbD_setWidth, BitVec.getLsbD_and]
    interval_cases i <;> simp
  have hrange : List.range 4 = [0, 1, 2, 3] := rfl
  simp [hrange, hmask, SecureHash.unword]

theorem Holds.finalcount {c : Context} {data : List UInt8} (h : Holds c data) :
    (List.range 8).map (Sha1.finalcount c) = SecureHash.bigEndian (8 * data.length) := by
  have hcount := h.count
  have hlow := c.count0.toNat_lt
  have hhigh := c.count1.toNat_lt
  have hcount0 : UInt32.ofNat (8 * data.length) = c.count0 := by
    apply UInt32.toNat_inj.mp
    rw [UInt32.toNat_ofNat']
    omega
  have hcount1 : UInt32.ofNat (8 * data.length / 2 ^ 32) = c.count1 := by
    apply UInt32.toNat_inj.mp
    rw [UInt32.toNat_ofNat']
    omega
  rw [SecureHash.bigEndian, hcount0, hcount1, unword_eq, unword_eq]
  rfl

theorem digestWord_eq (s : Registers) :
    ((List.range 20).map fun i => (digestWord s i >>> UInt32.ofNat ((3 - i % 4) * 8) &&& 255).toUInt8) =
      s.bytes := by
  rw [Registers.bytes, unword_eq, unword_eq, unword_eq, unword_eq, unword_eq]
  rfl

theorem Holds.final {c : Context} {data : List UInt8} (h : Holds c data) :
    Sha1.final c = some (SecureHash.digest data) := by
  have hone := h.update [0x80] (by decide)
  obtain ⟨c', hpad, hholds⟩ := hone.pad 64 (Nat.mod_lt _ (by decide))
  have hzeros : (120 - (data ++ [0x80]).length % 64) % 64 = (119 - data.length % 64) % 64 := by
    rw [List.length_append, List.length_singleton]
    omega
  have hlast := hholds.update ((List.range 8).map (Sha1.finalcount c)) (by simp)
  have hdata : data ++ [0x80] ++ List.replicate ((120 - (data ++ [0x80]).length % 64) % 64) 0 ++
      (List.range 8).map (Sha1.finalcount c) = data ++ SecureHash.padding data.length := by
    rw [h.finalcount, SecureHash.padding, hzeros]
    simp
  rw [hdata] at hlast
  rw [Sha1.final, hpad]
  simp only [bind, Option.bind, pure]
  rw [digestWord_eq, hlast.state]
  rfl

/-- The hash of the pieces is the digest of the data. -/
theorem final_eq {buffer : List UInt8} (hbuffer : buffer.length = 64) {pieces : List (List UInt8)}
    (hpieces : ∀ piece ∈ pieces, piece.length + 63 < 2 ^ 32) :
    final (pieces.foldl update (init buffer)) = some (SecureHash.digest pieces.flatten) := by
  have hholds := (holds_init hbuffer).updates hpieces
  rw [List.nil_append] at hholds
  exact hholds.final

theorem final_eq_sample : final ([[0x61], [0x62, 0x63]].foldl update (init (List.replicate 64 0))) =
    some (SecureHash.digest [0x61, 0x62, 0x63]) :=
  final_eq (by decide) (by decide)

example : final (update (init (List.replicate 64 0)) [0x61, 0x62, 0x63]) =
    some [0xa9, 0x99, 0x3e, 0x36, 0x47, 0x06, 0x81, 0x6a, 0xba, 0x3e, 0x25, 0x71, 0x78, 0x50, 0xc2, 0x6c,
      0x9c, 0xd0, 0xd8, 0x9d] := by
  decide +kernel

end Sha1
end Firefly
