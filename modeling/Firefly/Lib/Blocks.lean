import Firefly.Lib.Result

/-!
# Firefly.Lib.Blocks

The loop that goes through a range of addresses block by block:

    while (location < end) { length = min(end - location, size); step; location += length; }

`run` is the loop, with a step that may fail. `run_total` is its rule of total correctness,
`run_blocks` the rule by the number of blocks and `run_aligned` the rule for a range of whole blocks.
`run_image` carries a map between the states of two loops from one step to all of them.
-/

namespace Blocks

variable {ε σ : Type}

def loop (size : Nat) (step : Nat → Nat → σ → Except ε σ) (stop : Nat) : Nat → Nat → σ → Except ε σ
  | 0, _, s => .ok s
  | fuel + 1, location, s =>
    if location < stop then
      match step location (min (stop - location) size) s with
      | .error e => .error e
      | .ok s => loop size step stop fuel (location + min (stop - location) size) s
    else .ok s

/-- A pass moves the location by a byte at least, so the length of the range is fuel enough. -/
def run (size : Nat) (step : Nat → Nat → σ → Except ε σ) (location stop : Nat) (s : σ) :
    Except ε σ :=
  loop size step stop (stop - location) location s

variable {size location stop : Nat} {step : Nat → Nat → σ → Except ε σ} {s s' : σ}

theorem run_of_le (h : stop ≤ location) : run size step location stop s = .ok s := by
  rw [run, Nat.sub_eq_zero_of_le h]
  rfl

theorem loop_total {Inv : Nat → σ → Prop} (hsize : 0 < size)
    (hstep : ∀ location s, location < stop → Inv location s →
      ∃ s', step location (min (stop - location) size) s = .ok s' ∧
        Inv (location + min (stop - location) size) s') :
    ∀ fuel location s, location ≤ stop → stop - location ≤ fuel → Inv location s →
      ∃ s', loop size step stop fuel location s = .ok s' ∧ Inv stop s' := by
  intro fuel
  induction fuel with
  | zero =>
    intro location s hle hfuel hinv
    obtain rfl : location = stop := by omega
    exact ⟨s, rfl, hinv⟩
  | succ fuel ih =>
    intro location s hle hfuel hinv
    by_cases hlt : location < stop
    · obtain ⟨s₁, hs₁, hinv₁⟩ := hstep location s hlt hinv
      obtain ⟨s', hs', hinv'⟩ := ih (location + min (stop - location) size) s₁ (by omega) (by omega) hinv₁
      exact ⟨s', by rw [loop, if_pos hlt, hs₁]; exact hs', hinv'⟩
    · obtain rfl : location = stop := by omega
      exact ⟨s, by rw [loop, if_neg hlt], hinv⟩

theorem run_total (Inv : Nat → σ → Prop) (hsize : 0 < size)
    (hstep : ∀ location s, location < stop → Inv location s →
      ∃ s', step location (min (stop - location) size) s = .ok s' ∧
        Inv (location + min (stop - location) size) s')
    (hle : location ≤ stop) (hinv : Inv location s) :
    ∃ s', run size step location stop s = .ok s' ∧ Inv stop s' :=
  loop_total hsize hstep _ _ _ hle (Nat.le_refl _) hinv

/-- The total rule by the number of blocks done. The last block may be shorter. -/
theorem run_blocks {Inv : Nat → σ → Prop} {length : Nat} (hsize : 0 < size)
    (hstep : ∀ k s, size * k < length → Inv k s →
      ∃ s', step (location + size * k) (min (length - size * k) size) s = .ok s' ∧ Inv (k + 1) s')
    (hinv : Inv 0 s) :
    ∃ s', run size step location (location + length) s = .ok s' ∧ Inv ((length + (size - 1)) / size) s' := by
  have hstep' : ∀ at_ s, at_ < location + length →
      (∃ k, at_ = location + min (size * k) length ∧ size * k < length + size ∧ Inv k s) →
      ∃ s', step at_ (min (location + length - at_) size) s = .ok s' ∧
        ∃ k, at_ + min (location + length - at_) size = location + min (size * k) length ∧
          size * k < length + size ∧ Inv k s' := by
    rintro _ s hlt ⟨k, rfl, -, hinv⟩
    have hk : size * k < length := by omega
    have hat : location + min (size * k) length = location + size * k := by omega
    have hlength : location + length - (location + size * k) = length - size * k := by omega
    obtain ⟨s', hs', hinv'⟩ := hstep k s hk hinv
    rw [hat, hlength]
    have hsucc : size * (k + 1) = size * k + size := Nat.mul_succ size k
    exact ⟨s', hs', k + 1, by omega, by omega, hinv'⟩
  obtain ⟨s', hs', k, hend, hk, hinv'⟩ :=
    run_total _ hsize hstep' (Nat.le_add_right _ _) ⟨0, by simp, by omega, hinv⟩
  have hcount : (length + (size - 1)) / size = k := by
    have hsucc : (k + 1) * size = size * k + size := by rw [Nat.succ_mul, Nat.mul_comm]
    have hcomm : k * size = size * k := Nat.mul_comm k size
    exact Nat.div_eq_of_lt_le (by omega) (by omega)
  exact ⟨s', hs', hcount ▸ hinv'⟩

/-- The rule for a range of whole blocks. -/
theorem run_aligned {Inv : Nat → σ → Prop} (n : Nat) (hsize : 0 < size)
    (hstep : ∀ k s, k < n → Inv k s →
      ∃ s', step (location + size * k) size s = .ok s' ∧ Inv (k + 1) s')
    (hinv : Inv 0 s) :
    ∃ s', run size step location (location + size * n) s = .ok s' ∧ Inv n s' := by
  have hstep' : ∀ k s, size * k < size * n → Inv k s →
      ∃ s', step (location + size * k) (min (size * n - size * k) size) s = .ok s' ∧ Inv (k + 1) s' := by
    intro k s hk hinv
    have hkn : k < n := Nat.lt_of_mul_lt_mul_left hk
    have hle := Nat.mul_le_mul_left size (Nat.succ_le_of_lt hkn)
    rw [Nat.mul_succ] at hle
    have hblock : min (size * n - size * k) size = size := by omega
    rw [hblock]
    exact hstep k s hkn hinv
  have hcount : (size * n + (size - 1)) / size = n := by
    rw [Nat.mul_add_div hsize, Nat.div_eq_of_lt (by omega), Nat.add_zero]
  have hrun := run_blocks hsize hstep' hinv
  rwa [hcount] at hrun

/-- A map between two loops that commutes with their steps commutes with the loops. -/
theorem run_image {ε' τ : Type} {g : ε → ε'} {f : σ → τ} {step' : Nat → Nat → τ → Except ε' τ}
    (hstep : ∀ location length s,
      Result.image g f (step location length s) = step' location length (f s))
    (location stop : Nat) (s : σ) :
    Result.image g f (run size step location stop s) = run size step' location stop (f s) := by
  rw [run, run]
  generalize stop - location = fuel
  induction fuel generalizing location s with
  | zero => rfl
  | succ fuel ih =>
    rw [loop, loop]
    split
    · have h := hstep location (min (stop - location) size) s
      cases hs : step location (min (stop - location) size) s with
      | error e =>
        rw [hs] at h
        rw [← h]
        rfl
      | ok s₁ =>
        rw [hs] at h
        rw [← h]
        exact ih _ s₁
    · rfl

/-- A relation of the states of two loops that every pass keeps. What the length leaves when it is divided
by the size stays the same. -/
theorem run_related {τ : Type} {R : σ → τ → Prop} {step' : Nat → Nat → τ → Except ε τ} {t : τ}
    (hstep : ∀ location' s t, location' < stop → (stop - location') % size = (stop - location) % size → R s t →
      Result.Related R (step location' (min (stop - location') size) s)
        (step' location' (min (stop - location') size) t))
    (h : R s t) : Result.Related R (run size step location stop s) (run size step' location stop t) := by
  have hloop : ∀ fuel location' s t,
      (location' < stop → (stop - location') % size = (stop - location) % size) → R s t →
      Result.Related R (loop size step stop fuel location' s) (loop size step' stop fuel location' t) := by
    intro fuel
    induction fuel with
    | zero =>
      intro _ s t _ h
      exact h
    | succ fuel ih =>
      intro location' s t hmod h
      rw [loop, loop]
      by_cases hlt : location' < stop
      · rw [if_pos hlt, if_pos hlt]
        have hpass := hstep location' s t hlt (hmod hlt) h
        generalize step location' (min (stop - location') size) s = x at hpass
        generalize step' location' (min (stop - location') size) t = y at hpass
        cases x with
        | error e =>
          cases y with
          | error e' => exact hpass
          | ok t => exact hpass.elim
        | ok s =>
          cases y with
          | error e => exact hpass.elim
          | ok t =>
            refine ih _ s t (fun hnext => ?_) hpass
            have hsize : size ≤ stop - location' := by omega
            have hrest : stop - (location' + min (stop - location') size) = stop - location' - size := by omega
            rw [hrest, ← hmod hlt, Nat.mod_eq_sub_mod hsize]
      · rw [if_neg hlt, if_neg hlt]
        exact h
  exact hloop _ location s t (fun _ => rfl) h

end Blocks
