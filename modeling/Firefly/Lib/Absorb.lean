import Mathlib.Data.List.Basic

/-!
# Firefly.Lib.Absorb

Functions that take their input in blocks of one size: `chain` puts a number of blocks into a state, one
after the other. After some input, `state` is what its whole blocks have made, and `pending` is what is
left of it, less than a block. More input that does not fill the block is only kept (`pending_append_short`);
otherwise it completes the block, further whole blocks follow, and what is left is kept
(`state_append_full`, `pending_append_full`).
-/

namespace Absorb

variable {α σ : Type} {size : Nat} {compress : σ → List α → σ}

def chain (size : Nat) (compress : σ → List α → σ) : Nat → σ → List α → σ
  | 0, s, _ => s
  | n + 1, s, data => chain size compress n (compress s (data.take size)) (data.drop size)

def state (size : Nat) (compress : σ → List α → σ) (start : σ) (data : List α) : σ :=
  chain size compress (data.length / size) start data

def pending (size : Nat) (data : List α) : List α := data.drop (size * (data.length / size))

theorem chain_append {n : Nat} {data : List α} (m : Nat) (s : σ) (more : List α)
    (h : data.length = size * n) :
    chain size compress (n + m) s (data ++ more) =
      chain size compress m (chain size compress n s data) more := by
  induction n generalizing s data with
  | zero =>
    obtain rfl : data = [] := by simpa using h
    rw [Nat.zero_add, List.nil_append, chain]
  | succ n ih =>
    rw [Nat.mul_succ] at h
    rw [Nat.succ_add, chain, chain, List.take_append_of_le_length (by omega),
      List.drop_append_of_le_length (by omega), ih _ (by rw [List.length_drop]; omega)]

/-- Blocks behind the ones that are taken do not matter. -/
theorem chain_take {n : Nat} {data : List α} (s : σ) (h : size * n ≤ data.length) :
    chain size compress n s (data.take (size * n)) = chain size compress n s data := by
  have hlength : (data.take (size * n)).length = size * n := List.length_take_of_le h
  have happend : chain size compress (n + 0) s (data.take (size * n) ++ data.drop (size * n)) = _ :=
    chain_append 0 s (data.drop (size * n)) hlength
  rw [Nat.add_zero, List.take_append_drop] at happend
  exact happend.symm

@[simp] theorem length_pending (data : List α) : (pending size data).length = data.length % size := by
  rw [pending, List.length_drop, Nat.mod_eq_sub_mul_div]

theorem length_pending_lt (hsize : 0 < size) (data : List α) : (pending size data).length < size := by
  rw [length_pending]
  exact Nat.mod_lt _ hsize

@[simp] theorem state_nil (start : σ) : state size compress start [] = start := by
  simp [state, chain]

@[simp] theorem pending_nil : pending size ([] : List α) = [] := by simp [pending]

/-- The whole blocks and the rest. -/
theorem exists_blocks (size : Nat) (data : List α) : ∃ whole, data = whole ++ pending size data ∧
    whole.length = size * (data.length / size) :=
  ⟨data.take (size * (data.length / size)), (List.take_append_drop _ _).symm,
    List.length_take_of_le (Nat.mul_div_le _ _)⟩

theorem state_of_blocks (compress : σ → List α → σ) {n : Nat} {whole : List α} (rest : List α) (start : σ)
    (hwhole : whole.length = size * n) (hrest : rest.length < size) :
    state size compress start (whole ++ rest) = chain size compress n start whole ∧
      pending size (whole ++ rest) = rest := by
  have hdiv : (whole ++ rest).length / size = n := by
    rw [List.length_append, hwhole, Nat.mul_add_div (by omega), Nat.div_eq_of_lt hrest, Nat.add_zero]
  constructor
  · rw [state, hdiv, ← Nat.add_zero n, chain_append 0 start rest hwhole]
    rfl
  · rw [pending, hdiv, ← hwhole, List.drop_left]

theorem append_short (compress : σ → List α → σ) (data more : List α) (start : σ)
    (h : (pending size data).length + more.length < size) :
    state size compress start (data ++ more) = state size compress start data ∧
      pending size (data ++ more) = pending size data ++ more := by
  obtain ⟨whole, hdata, hwhole⟩ := exists_blocks size data
  obtain ⟨hstate, hpending⟩ := state_of_blocks compress (pending size data ++ more) start hwhole
    (by rw [List.length_append]; exact h)
  obtain ⟨hbefore, -⟩ := state_of_blocks compress (pending size data) start hwhole (by omega)
  rw [← List.append_assoc, ← hdata] at hstate hpending
  rw [← hdata] at hbefore
  exact ⟨hstate.trans hbefore.symm, hpending⟩

theorem state_eq_chain {n : Nat} {whole rest data : List α} (start : σ) (hdata : data = whole ++ rest)
    (hwhole : whole.length = size * n) (hrest : rest.length < size) :
    state size compress start data = chain size compress n start whole := by
  rw [hdata]
  exact (state_of_blocks compress rest start hwhole hrest).1

/-- More input completes a block, and goes on in whole blocks. -/
theorem append_full (compress : σ → List α → σ) (data more : List α) (start : σ) (hsize : 0 < size)
    (h : size ≤ (pending size data).length + more.length) :
    state size compress start (data ++ more) =
        state size compress
          (compress (state size compress start data)
            (pending size data ++ more.take (size - (pending size data).length)))
          (more.drop (size - (pending size data).length)) ∧
      pending size (data ++ more) = pending size (more.drop (size - (pending size data).length)) := by
  have hpending := length_pending_lt hsize data
  obtain ⟨whole, hdata, hwhole⟩ := exists_blocks size data
  generalize pending size data = rest at *
  generalize hfirst : more.take (size - rest.length) = first
  generalize hmore' : more.drop (size - rest.length) = more'
  obtain ⟨whole', hwhole'eq, hwhole'⟩ := exists_blocks size more'
  have hpending' := length_pending_lt hsize more'
  have hlength : (rest ++ first).length = size := by
    rw [List.length_append, ← hfirst, List.length_take]
    omega
  have hsplit : data ++ more = (whole ++ ((rest ++ first) ++ whole')) ++ pending size more' := by
    rw [List.append_assoc, List.append_assoc, ← hwhole'eq, hdata, List.append_assoc, List.append_assoc,
      ← hfirst, ← hmore', List.take_append_drop]
  have hblocks : (whole ++ ((rest ++ first) ++ whole')).length =
      size * (data.length / size + (more'.length / size + 1)) := by
    rw [List.length_append, List.length_append, hwhole, hwhole', hlength, Nat.mul_add, Nat.mul_succ]
    omega
  obtain ⟨hstate, hrest⟩ := state_of_blocks compress (pending size more') start hblocks hpending'
  rw [← hsplit] at hstate hrest
  refine ⟨?_, hrest⟩
  rw [hstate, chain_append _ start _ hwhole, chain, List.take_left' hlength, List.drop_left' hlength,
    state_eq_chain start hdata hwhole hpending, state_eq_chain _ hwhole'eq hwhole' hpending']

end Absorb
