import Mathlib.Data.List.Basic

/-!
# Firefly.Lib.Ring

Positions on a ring of `n` slots. `back n c j` is the slot `j` steps before slot `c`, and
`order n c` lists all slots from `c` backwards. Advancing `c` moves the last slot of the order
to its front (`order_next`), which is what a log that reuses its oldest segment does.
-/

namespace Ring

def back (n c j : Nat) : Nat := if j ≤ c then c - j else c + n - j

def order (n c : Nat) : List Nat := (List.range n).map (back n c)

/-- The remainder of a number below `2 n`. -/
theorem mod_of_lt_two {a n : Nat} (h : a < 2 * n) : a % n = if a < n then a else a - n := by
  by_cases ha : a < n
  · rw [if_pos ha, Nat.mod_eq_of_lt ha]
  · rw [if_neg ha, Nat.mod_eq_sub_mod (by omega), Nat.mod_eq_of_lt (by omega)]

/-- Slots less than one turn ahead are different. -/
theorem ahead_inj {n c i j : Nat} (hc : c < n) (hi : i < n) (hj : j < n)
    (h : (c + i) % n = (c + j) % n) : i = j := by
  rw [mod_of_lt_two (by omega), mod_of_lt_two (by omega)] at h
  split at h <;> split at h <;> omega

/-- An index that is set to zero at the end. -/
theorem wrap_eq {n t : Nat} (h : t < n) : (if t + 1 ≥ n then 0 else t + 1) = (t + 1) % n := by
  by_cases hlast : t + 1 = n
  · rw [if_pos (Nat.le_of_eq hlast.symm), hlast, Nat.mod_self]
  · rw [if_neg (by omega), Nat.mod_eq_of_lt (by omega)]

/-- The number of slots from the first index to the second, in words of `w` values. -/
theorem distance_eq {n c k w : Nat} (hc : c < n) (hk : k < n) (hw : n < w) :
    (if c ≤ (c + k) % n then (c + k) % n - c else (w - c + n + (c + k) % n) % w) = k := by
  rw [mod_of_lt_two (by omega)]
  by_cases hlt : c + k < n
  · rw [if_pos hlt, if_pos (Nat.le_add_right c k), Nat.add_sub_cancel_left]
  · rw [if_neg hlt, if_neg (by omega), Nat.mod_eq_sub_mod (by omega), Nat.mod_eq_of_lt (by omega)]
    omega

@[simp] theorem back_zero (n c : Nat) : back n c 0 = c := by simp [back]

theorem back_lt {n c j : Nat} (hc : c < n) (hj : j < n) : back n c j < n := by
  unfold back; split <;> omega

theorem back_inj {n c i j : Nat} (hi : i < n) (hj : j < n)
    (h : back n c i = back n c j) : i = j := by
  unfold back at h
  split at h <;> split at h <;> omega

/-- Every slot is some number of steps back. -/
theorem exists_back {n c p : Nat} (_ : c < n) (hp : p < n) : ∃ j < n, back n c j = p := by
  by_cases h : p ≤ c
  · exact ⟨c - p, by omega, by unfold back; split <;> omega⟩
  · exact ⟨c + n - p, by omega, by unfold back; split <;> omega⟩

theorem back_succ_ne {n c j : Nat} (hj : j + 1 < n) : back n c (j + 1) ≠ c :=
  fun he => by
    have := back_inj hj (by omega : 0 < n) (by rw [he, back_zero])
    omega

theorem back_succ {n c j : Nat} (hj : j + 1 < n) :
    back n c (j + 1) = if back n c j > 0 then back n c j - 1 else n - 1 := by
  unfold back
  split <;> split <;> split <;> omega

theorem back_last {n c : Nat} (hc : c < n) : back n c (n - 1) = (c + 1) % n := by
  rw [mod_of_lt_two (by omega)]
  unfold back
  split <;> split <;> omega

/-- One step back from the oldest slot is the newest again. -/
theorem pred_back_last {n c : Nat} (hc : c < n) :
    (if back n c (n - 1) > 0 then back n c (n - 1) - 1 else n - 1) = c := by
  unfold back
  split <;> split <;> omega

theorem next_lt {n c : Nat} (hc : c < n) : (c + 1) % n < n := Nat.mod_lt _ (by omega)

theorem back_next {n c j : Nat} (hc : c < n) (hj : j + 1 < n) :
    back n ((c + 1) % n) (j + 1) = back n c j := by
  rw [mod_of_lt_two (by omega)]
  unfold back
  split <;> split <;> split <;> omega

/-- Walking forward from an older slot. -/
theorem back_add {n c i j : Nat} (hc : c < n) (hj : j < n) (hi : i ≤ j) :
    (back n c j + i) % n = back n c (j - i) := by
  have hlt := back_lt hc hj
  rw [mod_of_lt_two (by omega)]
  by_cases h₁ : j ≤ c
  · have h₂ : j - i ≤ c := by omega
    simp only [back, if_pos h₁, if_pos h₂]
    split <;> omega
  · by_cases h₂ : j - i ≤ c
    · simp only [back, if_neg h₁, if_pos h₂]
      split <;> omega
    · simp only [back, if_neg h₁, if_neg h₂]
      split <;> omega

theorem back_add_succ {n c j : Nat} (hc : c < n) (hj : j < n) :
    (back n c j + (j + 1)) % n = (c + 1) % n := by
  rw [← Nat.add_assoc, ← Nat.mod_add_mod, back_add hc hj (Nat.le_refl j), Nat.sub_self, back_zero]

theorem pred_next {n c : Nat} (hc : c < n) : ((c + 1) % n + n - 1) % n = c := by
  have hlt := next_lt hc
  rw [mod_of_lt_two (a := (c + 1) % n + n - 1) (by omega)]
  rw [mod_of_lt_two (by omega)] at *
  split <;> split <;> omega

theorem next_ne {n c : Nat} (hn : 2 ≤ n) (hc : c < n) : (c + 1) % n ≠ c := by
  rw [mod_of_lt_two (by omega)]
  split <;> omega

@[simp] theorem length_order (n c : Nat) : (order n c).length = n := by simp [order]

theorem mem_order {n c p : Nat} (hc : c < n) : p ∈ order n c ↔ p < n := by
  simp only [order, List.mem_map, List.mem_range]
  constructor
  · rintro ⟨j, hj, rfl⟩; exact back_lt hc hj
  · intro hp
    obtain ⟨j, hj, rfl⟩ := exists_back hc hp
    exact ⟨j, hj, rfl⟩

/-- All slots but the oldest. -/
def recent (n c : Nat) : List Nat := (List.range (n - 1)).map (back n c)

/-- All slots but the newest and the oldest. -/
def middle (n c : Nat) : List Nat := (List.range (n - 2)).map fun j => back n c (j + 1)

theorem recent_eq_cons {n : Nat} (hn : 2 ≤ n) (c : Nat) : recent n c = c :: middle n c := by
  obtain ⟨k, rfl⟩ : ∃ k, n = k + 2 := ⟨n - 2, by omega⟩
  simp [recent, middle, List.range_succ_eq_map, Function.comp_def]

theorem ne_of_mem_middle {n c p : Nat} (hc : c < n) (hp : p ∈ middle n c) :
    p ≠ c ∧ p ≠ (c + 1) % n := by
  simp only [middle, List.mem_map, List.mem_range] at hp
  obtain ⟨j, hj, rfl⟩ := hp
  refine ⟨back_succ_ne (by omega), fun h => ?_⟩
  rw [← back_last hc] at h
  have := back_inj (by omega) (by omega) h
  omega

/-- The slot after `c` is the oldest one. -/
theorem order_eq_recent {n c : Nat} (hc : c < n) :
    order n c = recent n c ++ [(c + 1) % n] := by
  obtain ⟨k, rfl⟩ : ∃ k, n = k + 1 := ⟨n - 1, by omega⟩
  simp only [order, recent, Nat.add_sub_cancel, List.range_succ, List.map_append, List.map_cons,
    List.map_nil]
  rw [← back_last hc, Nat.add_sub_cancel]

/-- Advancing makes the oldest slot the newest. -/
theorem order_next {n c : Nat} (hc : c < n) :
    order n ((c + 1) % n) = (c + 1) % n :: recent n c := by
  obtain ⟨k, rfl⟩ : ∃ k, n = k + 1 := ⟨n - 1, by omega⟩
  simp only [order, recent, Nat.add_sub_cancel, List.range_succ_eq_map, List.map_cons, back_zero,
    List.map_map]
  congr 1
  apply List.map_congr_left
  intro j hj
  have hj' : j < k := List.mem_range.mp hj
  exact back_next hc (by omega)

theorem order_eq_cons {n c : Nat} (hc : c < n) :
    order n c = c :: (List.range (n - 1)).map fun j => back n c (j + 1) := by
  obtain ⟨k, rfl⟩ : ∃ k, n = k + 1 := ⟨n - 1, by omega⟩
  simp [order, List.range_succ_eq_map, Function.comp_def]

end Ring
