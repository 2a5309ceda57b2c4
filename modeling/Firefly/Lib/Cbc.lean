import Mathlib.Data.List.Basic

/-!
# Firefly.Lib.Cbc

Block ciphers in CBC mode, over any block size. `decrypt` takes the initialization vector and gives
the plain text together with the vector for what follows, so that a stream can be decrypted in
parts (`decrypt_append`). Decryption undoes encryption (`decrypt_encrypt`).
-/

namespace Cbc

def xor (a b : List UInt8) : List UInt8 := List.zipWith (· ^^^ ·) a b

@[simp] theorem length_xor (a b : List UInt8) : (xor a b).length = min a.length b.length := by
  simp [xor]

theorem xor_xor_cancel {a b : List UInt8} (h : a.length = b.length) : xor (xor a b) b = a := by
  induction a generalizing b with
  | nil => rfl
  | cons x a ih =>
    cases b with
    | nil => simp at h
    | cons y b =>
      have htail : xor (xor a b) b = a := ih (by simpa using h)
      have hhead : (x ^^^ y) ^^^ y = x := by rw [UInt8.xor_assoc, UInt8.xor_self, UInt8.xor_zero]
      simp only [xor, List.zipWith_cons_cons] at htail ⊢
      rw [htail, hhead]

/-- A block cipher on blocks of `size` bytes. -/
structure BlockCipher (Key : Type) (size : Nat) where
  encrypt : Key → List UInt8 → List UInt8
  decrypt : Key → List UInt8 → List UInt8
  length_encrypt : ∀ k b, b.length = size → (encrypt k b).length = size
  length_decrypt : ∀ k b, b.length = size → (decrypt k b).length = size
  decrypt_encrypt : ∀ k b, b.length = size → decrypt k (encrypt k b) = b

section

variable {Key : Type} {size : Nat} (c : BlockCipher Key size) (k : Key)

def encrypt : Nat → List UInt8 → List UInt8 → List UInt8
  | 0, _, _ => []
  | n + 1, iv, data =>
    let block := c.encrypt k (xor (data.take size) iv)
    block ++ encrypt n block (data.drop size)

def decrypt : Nat → List UInt8 → List UInt8 → List UInt8 × List UInt8
  | 0, iv, _ => ([], iv)
  | n + 1, iv, data =>
    let rest := decrypt n (data.take size) (data.drop size)
    (xor (c.decrypt k (data.take size)) iv ++ rest.1, rest.2)

variable {c k}

theorem length_encrypt (n : Nat) {iv data : List UInt8} (hiv : iv.length = size)
    (hdata : data.length = size * n) : (encrypt c k n iv data).length = size * n := by
  induction n generalizing iv data with
  | zero => simp [encrypt]
  | succ n ih =>
    rw [Nat.mul_succ] at hdata
    have hblock : (c.encrypt k (xor (data.take size) iv)).length = size :=
      c.length_encrypt k _ (by simp [hiv]; omega)
    rw [encrypt, List.length_append, hblock, ih hblock (by simp [hdata]), Nat.mul_succ]
    omega

theorem length_decrypt (n : Nat) {iv data : List UInt8} (hiv : iv.length = size)
    (hdata : data.length = size * n) :
    (decrypt c k n iv data).1.length = size * n ∧ (decrypt c k n iv data).2.length = size := by
  induction n generalizing iv data with
  | zero => simp [decrypt, hiv]
  | succ n ih =>
    rw [Nat.mul_succ] at hdata
    have hblock : (data.take size).length = size := by simp; omega
    have hrest : (data.drop size).length = size * n := by simp [hdata]
    obtain ⟨hout, hlast⟩ := ih hblock hrest
    refine ⟨?_, hlast⟩
    rw [decrypt, List.length_append, hout, length_xor, c.length_decrypt k _ hblock, hiv, Nat.mul_succ]
    omega

/-- A stream in two parts. -/
theorem decrypt_append (n m : Nat) {iv a b : List UInt8} (ha : a.length = size * n) :
    decrypt c k (n + m) iv (a ++ b) =
      ((decrypt c k n iv a).1 ++ (decrypt c k m (decrypt c k n iv a).2 b).1,
        (decrypt c k m (decrypt c k n iv a).2 b).2) := by
  induction n generalizing iv a with
  | zero =>
    obtain rfl : a = [] := by simpa using ha
    simp [decrypt]
  | succ n ih =>
    rw [Nat.mul_succ] at ha
    have htake : (a ++ b).take size = a.take size := List.take_append_of_le_length (by omega)
    have hdrop : (a ++ b).drop size = a.drop size ++ b := List.drop_append_of_le_length (by omega)
    rw [Nat.succ_add, decrypt, decrypt, htake, hdrop, ih (by simp [ha])]
    simp

variable (c k) in
/-- The vector after `n` blocks. -/
def after (iv data : List UInt8) (n : Nat) : List UInt8 :=
  (decrypt c k n iv (data.take (size * n))).2

/-- Some blocks of a stream, decrypted with the vector that stands before them. -/
theorem decrypt_part {n i m : Nat} {iv data : List UInt8} (hiv : iv.length = size)
    (hdata : data.length = size * n) (h : i + m ≤ n) :
    decrypt c k m (after c k iv data i) ((data.drop (size * i)).take (size * m)) =
      (((decrypt c k n iv data).1.drop (size * i)).take (size * m), after c k iv data (i + m)) := by
  obtain ⟨r, rfl⟩ : ∃ r, n = i + m + r := ⟨n - (i + m), by omega⟩
  rw [Nat.mul_add, Nat.mul_add] at hdata
  obtain ⟨a, b, e, rfl, ha, hb, he⟩ : ∃ a b e, data = a ++ (b ++ e) ∧ a.length = size * i ∧
      b.length = size * m ∧ e.length = size * r :=
    ⟨data.take (size * i), (data.drop (size * i)).take (size * m), (data.drop (size * i)).drop (size * m),
      by rw [List.take_append_drop, List.take_append_drop], by simp; omega, by simp; omega,
      by simp; omega⟩
  have hab : (a ++ b).length = size * (i + m) := by rw [List.length_append, ha, hb, Nat.mul_add]
  have hafter : after c k iv (a ++ (b ++ e)) i = (decrypt c k i iv a).2 := by
    rw [after, List.take_left' ha]
  have hafter' : after c k iv (a ++ (b ++ e)) (i + m) = (decrypt c k m (decrypt c k i iv a).2 b).2 := by
    rw [after, ← List.append_assoc, List.take_left' hab, decrypt_append i m ha]
  have hout : (decrypt c k (i + m + r) iv (a ++ (b ++ e))).1 =
      (decrypt c k i iv a).1 ++ ((decrypt c k m (decrypt c k i iv a).2 b).1 ++
        (decrypt c k r (decrypt c k m (decrypt c k i iv a).2 b).2 e).1) := by
    rw [Nat.add_assoc, decrypt_append i (m + r) ha, decrypt_append m r hb]
  obtain ⟨hlen, hiv'⟩ := length_decrypt (c := c) (k := k) i hiv ha
  have hlen' := (length_decrypt (c := c) (k := k) m hiv' hb).1
  rw [hafter, hafter', hout, List.drop_left' ha, List.take_left' hb, List.drop_left' hlen,
    List.take_left' hlen']

theorem decrypt_encrypt (n : Nat) {iv data : List UInt8} (hiv : iv.length = size)
    (hdata : data.length = size * n) : (decrypt c k n iv (encrypt c k n iv data)).1 = data := by
  induction n generalizing iv data with
  | zero =>
    obtain rfl : data = [] := by simpa using hdata
    rfl
  | succ n ih =>
    rw [Nat.mul_succ] at hdata
    have hplain : (xor (data.take size) iv).length = size := by simp [hiv]; omega
    have hblock : (c.encrypt k (xor (data.take size) iv)).length = size :=
      c.length_encrypt k _ hplain
    rw [encrypt, decrypt, List.take_left' hblock, List.drop_left' hblock, ih hblock (by simp [hdata]),
      c.decrypt_encrypt k _ hplain, xor_xor_cancel (by simp [hiv]; omega), List.take_append_drop]

end

end Cbc
