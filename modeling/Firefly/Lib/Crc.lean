import Mathlib.Data.List.Basic
import Mathlib.Data.UInt

/-!
# Firefly.Lib.Crc

The cyclic redundancy check of a byte string, in a register of `w` bits: the bits enter at the most
significant end, and a bit that leaves the register subtracts the polynomial from it. The polynomial
is given without its leading term.

A program that keeps more bits than the register has computes the same check, if its steps do what
the steps of the register do on the bits they share (`crc_eq_of_image`).
-/

namespace Crc

variable {w : Nat}

def shift (polynomial r : BitVec w) : BitVec w :=
  if r.msb then r <<< 1 ^^^ polynomial else r <<< 1

def enter (r : BitVec w) (b : UInt8) : BitVec w := r ^^^ b.toBitVec.setWidth w <<< (w - 8)

def step (polynomial r : BitVec w) (b : UInt8) : BitVec w :=
  (shift polynomial)^[8] (enter r b)

def crc (polynomial : BitVec w) (data : List UInt8) : BitVec w :=
  data.foldl (step polynomial) 0#w

/-- The check from any other representation `f` of the register. -/
theorem crc_eq_of_image {σ : Type} {polynomial : BitVec w} (f : σ → BitVec w) {start : σ}
    {enter' : σ → UInt8 → σ} {shift' : σ → σ} (hstart : f start = 0#w)
    (henter : ∀ s b, f (enter' s b) = enter (f s) b)
    (hshift : ∀ s, f (shift' s) = shift polynomial (f s)) (data : List UInt8) :
    f (data.foldl (fun s b => shift'^[8] (enter' s b)) start) = crc polynomial data := by
  have hstep (s : σ) (b : UInt8) : step polynomial (f s) b = f (shift'^[8] (enter' s b)) := by
    have hiterate : Function.Semiconj f shift'^[8] (shift polynomial)^[8] :=
      Function.Semiconj.iterate_right hshift 8
    rw [hiterate, henter, step]
  rw [crc, ← hstart]
  exact (List.foldl_hom f hstep).symm

end Crc
