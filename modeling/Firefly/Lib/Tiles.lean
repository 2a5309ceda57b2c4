import Firefly.Lib.Effect
import Mathlib.Logic.ExistsUnique

/-!
# Firefly.Lib.Tiles

Pieces that lie one behind the other and fill a range. Each address of the range is in one piece and
no other (`Tiles.existsUnique`). A program that goes through the pieces carries what holds at the start
of each to its end, and so from the start of the range to the end (`Tiles.total_forM`); one that returns
something for each piece returns it for the range (`Tiles.total_mapM`).
-/

variable {α β σ ε : Type} {start size : α → Nat}

/-- The pieces fill the addresses from `a` up to `b`. -/
inductive Tiles (start size : α → Nat) : Nat → Nat → List α → Prop where
  | nil (a : Nat) : Tiles start size a a []
  | cons {a b : Nat} {p : α} {ps : List α} (hstart : start p = a) (hsize : 0 < size p)
      (h : Tiles start size (a + size p) b ps) : Tiles start size a b (p :: ps)

namespace Tiles

open Effect

variable {a b : Nat} {ps : List α}

theorem le (h : Tiles start size a b ps) : a ≤ b := by
  induction h with
  | nil => exact Nat.le_refl _
  | cons _ _ _ ih => omega

/-- A piece lies in the range. -/
theorem inside (h : Tiles start size a b ps) {p : α} (hp : p ∈ ps) :
    a ≤ start p ∧ start p + size p ≤ b := by
  induction h with
  | nil => cases hp
  | cons hstart _ htiles ih =>
    cases hp with
    | head =>
      have hle := htiles.le
      omega
    | tail _ hp =>
      obtain ⟨hlow, hhigh⟩ := ih hp
      omega

/-- The address `x` is in the piece `i`. -/
def In (start size : α → Nat) (ps : List α) (x i : Nat) : Prop :=
  ∃ p, ps[i]? = some p ∧ start p ≤ x ∧ x < start p + size p

theorem existsUnique (h : Tiles start size a b ps) {x : Nat} (hx : a ≤ x) (hx' : x < b) :
    ∃! i, In start size ps x i := by
  induction h with
  | nil => omega
  | @cons a b p ps hstart hsize htiles ih =>
    by_cases hhead : x < a + size p
    · refine ⟨0, ⟨p, rfl, by omega, by omega⟩, ?_⟩
      rintro (_ | i) ⟨q, hq, hlow, -⟩
      · rfl
      · -- a piece behind the first starts behind it
        have hinside := htiles.inside (List.mem_of_getElem? hq)
        omega
    · obtain ⟨i, ⟨q, hq, hin⟩, hunique⟩ := ih (by omega) hx'
      refine ⟨i + 1, ⟨q, hq, hin⟩, ?_⟩
      rintro (_ | j) ⟨r, hr, hlow, hhigh⟩
      · obtain rfl : p = r := by simpa using hr
        omega
      · rw [hunique j ⟨r, hr, hlow, hhigh⟩]

theorem total_forM {step : α → Effect σ ε Unit} (h : Tiles start size a b ps) (Inv : Nat → σ → Prop)
    (hstep : ∀ p ∈ ps, Total (Inv (start p)) (step p) fun _ => Inv (start p + size p)) :
    Total (Inv a) (ps.forM step) fun _ => Inv b := by
  induction h with
  | nil => exact Triple.pure fun s hs => hs
  | @cons a b p ps hstart _ _ ih =>
    subst hstart
    exact Triple.bind (hstep p List.mem_cons_self) fun _ => ih fun q hq => hstep q (List.mem_cons_of_mem _ hq)

/-- `bytes a n` is what there is to return for the `n` addresses from `a` on. -/
theorem total_mapM {step : α → Effect σ ε (List β)} {Inv : σ → Prop} {bytes : Nat → Nat → List β}
    (hzero : ∀ a, bytes a 0 = []) (hadd : ∀ a n k, bytes a (n + k) = bytes a n ++ bytes (a + n) k)
    (h : Tiles start size a b ps)
    (hstep : ∀ p ∈ ps, Total Inv (step p) fun xs s => xs = bytes (start p) (size p) ∧ Inv s) :
    Total Inv (ps.mapM step) fun xss s => xss.flatten = bytes a (b - a) ∧ Inv s := by
  induction h with
  | nil a =>
    rw [List.mapM_nil]
    refine Triple.pure fun s hs => ⟨?_, hs⟩
    rw [Nat.sub_self, hzero, List.flatten_nil]
  | @cons a b p ps hstart _ htiles ih =>
    subst hstart
    rw [List.mapM_cons]
    refine Triple.bind (hstep p List.mem_cons_self) fun xs => Triple.assume fun hxs => ?_
    refine Triple.bind (ih fun q hq => hstep q (List.mem_cons_of_mem _ hq)) fun xss => Triple.assume fun hxss => ?_
    refine Triple.pure fun s hs => ⟨?_, hs⟩
    have hle := htiles.le
    rw [List.flatten_cons, hxs, hxss, ← hadd]
    congr 1
    omega

end Tiles
