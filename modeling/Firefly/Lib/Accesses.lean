import Mathlib.Init

/-!
# Firefly.Lib.Accesses

Loops over bytes in which every access is checked: an access outside of the bytes ends the program with
`none`. `Only S bs cs` says that `cs` are the bytes `bs` with changes at places in `S` alone.

* `forInt_invariant`, `forInt_keeps`: what a loop does from what its body does.
* `write_total`, `modify_total`: an access in bounds succeeds and changes that place only.
-/

namespace Accesses

variable {σ : Type}

def read (bs : List UInt8) (i : Int) : Option UInt8 := if 0 ≤ i then bs[i.toNat]? else none

def write (bs : List UInt8) (i : Int) (b : UInt8) : Option (List UInt8) :=
  if 0 ≤ i ∧ i < bs.length then some (bs.set i.toNat b) else none

def modify (bs : List UInt8) (i : Int) (f : UInt8 → UInt8) : Option (List UInt8) := do
  let b ← read bs i
  write bs i (f b)

def count (body : Int → σ → Option σ) : Nat → Int → σ → Option σ
  | 0, _, s => some s
  | n + 1, i, s => (body i s).bind (count body n (i + 1))

/-- `for (int i = lo; i < hi; ++i)` -/
def forInt (lo hi : Int) (body : Int → σ → Option σ) (s : σ) : Option σ := count body (hi - lo).toNat lo s

/-- `memset` -/
def fill (bs : List UInt8) (i n : Int) (b : UInt8) : Option (List UInt8) :=
  forInt i (i + n) (fun i bs => write bs i b) bs

theorem forInt_of_le {lo hi : Int} {body : Int → σ → Option σ} {s : σ} (h : hi ≤ lo) :
    forInt lo hi body s = some s := by
  rw [forInt, Int.toNat_eq_zero.mpr (by omega), count]

theorem forInt_of_lt {lo hi : Int} {body : Int → σ → Option σ} {s : σ} (h : lo < hi) :
    forInt lo hi body s = (body lo s).bind (forInt (lo + 1) hi body) := by
  rw [forInt, show (hi - lo).toNat = (hi - (lo + 1)).toNat + 1 by omega, count]
  rfl

/-- The invariant holds before each iteration. -/
theorem forInt_invariant {lo hi : Int} {body : Int → σ → Option σ} {s : σ} (P : Int → σ → Prop)
    (hle : lo ≤ hi) (h : P lo s)
    (hstep : ∀ i s, lo ≤ i → i < hi → P i s → ∃ s', body i s = some s' ∧ P (i + 1) s') :
    ∃ s', forInt lo hi body s = some s' ∧ P hi s' := by
  obtain ⟨n, hn⟩ : ∃ n : Nat, hi - lo = n := ⟨(hi - lo).toNat, by omega⟩
  induction n generalizing lo s with
  | zero =>
    obtain rfl : hi = lo := by omega
    exact ⟨s, forInt_of_le (Int.le_refl _), h⟩
  | succ n ih =>
    obtain ⟨s₁, hs₁, hp₁⟩ := hstep lo s (Int.le_refl _) (by omega) h
    obtain ⟨s', hs', hp'⟩ := ih (by omega) hp₁ (fun i s hi => hstep i s (by omega)) (by omega)
    exact ⟨s', by rw [forInt_of_lt (by omega), hs₁, Option.bind_some, hs'], hp'⟩

/-- What every iteration keeps, the loop keeps. -/
theorem forInt_keeps {lo hi : Int} {body : Int → σ → Option σ} {s : σ} {P : σ → Prop} (h : P s)
    (hstep : ∀ i s, lo ≤ i → i < hi → P s → ∃ s', body i s = some s' ∧ P s') :
    ∃ s', forInt lo hi body s = some s' ∧ P s' := by
  rcases Int.lt_or_le hi lo with hlt | hle
  · exact ⟨s, forInt_of_le (by omega), h⟩
  · exact forInt_invariant (fun _ => P) hle h hstep

/-- A loop over a state that is `place i t` before iteration `i`, where `t` is what the loop is about and
the rest are pointers that walk along. -/
theorem forInt_walk {τ : Type} {lo hi : Int} {body : Int → σ → Option σ} {t : τ} {P : τ → Prop}
    (place : Int → τ → σ) {out : σ → τ} (hout : ∀ i t, out (place i t) = t) (h : P t)
    (hstep : ∀ i t, lo ≤ i → i < hi → P t → ∃ t', body i (place i t) = some (place (i + 1) t') ∧ P t') :
    ∃ t', (forInt lo hi body (place lo t)).map out = some t' ∧ P t' := by
  rcases Int.lt_or_le hi lo with hlt | hle
  · exact ⟨t, by rw [forInt_of_le (by omega), Option.map_some, hout], h⟩
  · obtain ⟨s, hs, t', rfl, ht'⟩ := forInt_invariant (fun i s => ∃ t, s = place i t ∧ P t) hle ⟨t, rfl, h⟩
      (by
        rintro i _ hi hi' ⟨t, rfl, ht⟩
        obtain ⟨t', hbody, ht'⟩ := hstep i t hi hi' ht
        exact ⟨_, hbody, t', rfl, ht'⟩)
    exact ⟨t', by rw [hs, Option.map_some, hout], ht'⟩

/-- The bytes are changed at places in `S` only. -/
structure Only (S : Int → Prop) (bs cs : List UInt8) : Prop where
  length : cs.length = bs.length
  frame : ∀ i : Nat, ¬ S i → cs[i]? = bs[i]?

variable {S T : Int → Prop} {bs cs ds : List UInt8} {i : Int} {b : UInt8}

theorem Only.refl (S : Int → Prop) (bs : List UInt8) : Only S bs bs := ⟨rfl, fun _ _ => rfl⟩

theorem Only.trans (h : Only S bs cs) (h' : Only S cs ds) : Only S bs ds :=
  ⟨h'.length.trans h.length, fun i hi => (h'.frame i hi).trans (h.frame i hi)⟩

theorem Only.mono (h : Only S bs cs) (hst : ∀ i, S i → T i) : Only T bs cs :=
  ⟨h.length, fun i hi => h.frame i fun hs => hi (hst i hs)⟩

theorem read_total (h : 0 ≤ i) (h' : i < bs.length) : ∃ b, read bs i = some b := by
  refine ⟨bs[i.toNat], ?_⟩
  rw [read, if_pos h, List.getElem?_eq_getElem]

theorem read_natCast (bs : List UInt8) (n : Nat) : read bs n = bs[n]? := by
  rw [read, if_pos (Int.natCast_nonneg n), Int.toNat_natCast]

theorem write_natCast {n : Nat} (h : n < bs.length) (b : UInt8) : write bs n b = some (bs.set n b) := by
  rw [write, if_pos ⟨Int.natCast_nonneg n, by omega⟩, Int.toNat_natCast]

theorem write_eq (h : 0 ≤ i) (h' : i < bs.length) (b : UInt8) :
    write bs i b = some (bs.set i.toNat b) := by
  rw [write, if_pos ⟨h, h'⟩]

theorem only_set (hs : S i) (h : 0 ≤ i) (b : UInt8) : Only S bs (bs.set i.toNat b) := by
  refine ⟨List.length_set, fun j hj => List.getElem?_set_ne ?_⟩
  rintro rfl
  exact hj (by rwa [Int.toNat_of_nonneg h])

theorem write_total (hs : S i) (h : 0 ≤ i) (h' : i < bs.length) (b : UInt8) :
    ∃ cs, write bs i b = some cs ∧ Only S bs cs :=
  ⟨_, write_eq h h' b, only_set hs h b⟩

theorem modify_total (hs : S i) (h : 0 ≤ i) (h' : i < bs.length) (f : UInt8 → UInt8) :
    ∃ cs, modify bs i f = some cs ∧ Only S bs cs := by
  obtain ⟨b, hb⟩ := read_total h h'
  obtain ⟨cs, hcs, honly⟩ := write_total hs h h' (f b)
  exact ⟨cs, by rw [modify, hb, Option.bind_eq_bind, Option.bind_some, hcs], honly⟩

/-- `*p++ = b`, for each of the values. -/
def writeAll : List UInt8 → Int → List UInt8 → Option (List UInt8)
  | bs, _, [] => some bs
  | bs, i, x :: xs => (write bs i x).bind fun bs => writeAll bs (i + 1) xs

/-- `*p = f(*p); ++p`, for each of the functions. -/
def modifyAll : List UInt8 → Int → List (UInt8 → UInt8) → Option (List UInt8)
  | bs, _, [] => some bs
  | bs, i, f :: fs => (modify bs i f).bind fun bs => modifyAll bs (i + 1) fs

theorem modifyAll_total (fs : List (UInt8 → UInt8)) (h : ∀ j : Int, i ≤ j → j < i + fs.length → S j)
    (h0 : 0 ≤ i) (hlen : i + fs.length ≤ bs.length) : ∃ cs, modifyAll bs i fs = some cs ∧ Only S bs cs := by
  induction fs generalizing bs i with
  | nil => exact ⟨bs, rfl, Only.refl S bs⟩
  | cons f fs ih =>
    rw [List.length_cons] at h hlen
    obtain ⟨cs, hcs, honly⟩ := modify_total (h i (by omega) (by omega)) h0 (show i < bs.length by omega) f
    have hend : i + 1 + fs.length ≤ cs.length := by have := honly.length; omega
    obtain ⟨ds, hds, honly'⟩ := ih (fun j hj hj' => h j (by omega) (by omega)) (by omega) hend
    exact ⟨ds, by rw [modifyAll, hcs, Option.bind_some, hds], honly.trans honly'⟩

end Accesses
