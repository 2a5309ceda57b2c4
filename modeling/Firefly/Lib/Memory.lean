import Mathlib.Data.List.Basic
import Mathlib.Data.List.GetD
import Mathlib.Data.UInt

/-!
# Firefly.Lib.Memory

Memory as a function from addresses to bytes. `read` gives the bytes of a range and `write` stores a
byte string; a write is read back where it was made (`read_write`) and leaves every range apart from
it unchanged (`read_write_of_disjoint`). `move` copies a range to one that may overlap it. `restore`
brings ranges back from another memory, one after the other, and they may overlap (`read_restore`).
-/

abbrev Memory := Nat → UInt8

namespace Memory

def read (m : Memory) (a n : Nat) : List UInt8 := (List.range n).map fun i => m (a + i)

def write (m : Memory) (a : Nat) (bs : List UInt8) : Memory := fun x =>
  if a ≤ x ∧ x < a + bs.length then bs.getD (x - a) 0 else m x

def move (m : Memory) (a b n : Nat) : Memory := m.write a (m.read b n)

/-- The ranges of `n` bytes at the addresses, as they are in `m'`. -/
def restore (m' : Memory) (n : Nat) : Memory → List Nat → Memory
  | m, [] => m
  | m, a :: as => restore m' n (m.write a (m'.read a n)) as

variable {m m' : Memory} {a b n k : Nat} {bs cs : List UInt8}

@[simp] theorem length_read (m : Memory) (a n : Nat) : (m.read a n).length = n := by simp [read]

@[simp] theorem read_zero (m : Memory) (a : Nat) : m.read a 0 = [] := rfl

theorem getElem?_read (m : Memory) (a n i : Nat) :
    (m.read a n)[i]? = if i < n then some (m (a + i)) else none := by
  by_cases h : i < n
  · simp [read, h]
  · simp [read, h]

theorem read_add (m : Memory) (a n k : Nat) : m.read a (n + k) = m.read a n ++ m.read (a + n) k := by
  rw [read, List.range_add, List.map_append, List.map_map, read, read]
  congr 2
  funext i
  rw [Function.comp_apply, Nat.add_assoc]

theorem read_one (m : Memory) (a : Nat) : m.read a 1 = [m a] := rfl

theorem read_succ (m : Memory) (a n : Nat) : m.read a (n + 1) = m a :: m.read (a + 1) n := by
  rw [Nat.add_comm, read_add, read_one, List.singleton_append]

theorem read_congr (h : ∀ i, i < n → m (a + i) = m' (b + i)) : m.read a n = m'.read b n := by
  apply List.map_congr_left
  intro i hi
  exact h i (List.mem_range.mp hi)

theorem take_read (h : k ≤ n) : (m.read a n).take k = m.read a k := by
  obtain ⟨j, rfl⟩ := Nat.exists_eq_add_of_le h
  rw [read_add, List.take_left' (length_read m a k)]

theorem drop_read (h : k ≤ n) : (m.read a n).drop k = m.read (a + k) (n - k) := by
  obtain ⟨j, rfl⟩ := Nat.exists_eq_add_of_le h
  rw [read_add, List.drop_left' (length_read m a k), Nat.add_sub_cancel_left]

/-- A range that begins with a known string. -/
theorem read_eq_append (h : m.read a n = bs ++ cs) :
    m.read a bs.length = bs ∧ m.read (a + bs.length) cs.length = cs := by
  have hn : n = bs.length + cs.length := by rw [← length_read m a n, h, List.length_append]
  rw [hn, read_add] at h
  exact List.append_inj h (length_read m a bs.length)

theorem write_apply (m : Memory) (a : Nat) (bs : List UInt8) {i : Nat} (h : i < bs.length) :
    m.write a bs (a + i) = bs.getD i 0 := by
  rw [write, if_pos ⟨Nat.le_add_right a i, Nat.add_lt_add_left h a⟩, Nat.add_sub_cancel_left]

theorem write_of_outside {x : Nat} (h : x < a ∨ a + bs.length ≤ x) : m.write a bs x = m x := by
  rw [write, if_neg (by omega)]

/-- Memories that agree below `a` agree after the bytes are written there, as far as these go. -/
theorem write_congr {x : Nat} (h : x < a → m' x = m x) (hx : x < a + bs.length) :
    m'.write a bs x = m.write a bs x := by
  by_cases hbelow : x < a
  · rw [write_of_outside (Or.inl hbelow), write_of_outside (Or.inl hbelow), h hbelow]
  · have hin : a ≤ x ∧ x < a + bs.length := by omega
    rw [write, write, if_pos hin, if_pos hin]

@[simp] theorem write_singleton_self (m : Memory) (a : Nat) (x : UInt8) : m.write a [x] a = x := by
  simp [write]

theorem read_write (m : Memory) (a : Nat) (bs : List UInt8) : (m.write a bs).read a bs.length = bs := by
  apply List.ext_getElem?
  intro i
  rw [getElem?_read]
  by_cases h : i < bs.length
  · rw [if_pos h, write_apply m a bs h, List.getElem?_eq_getElem h, List.getD_eq_getElem bs 0 h]
  · rw [if_neg h, List.getElem?_eq_none (Nat.le_of_not_lt h)]

theorem write_nil (m : Memory) (a : Nat) : m.write a [] = m := by
  funext x
  exact write_of_outside (by rw [List.length_nil]; omega)

theorem write_write (m : Memory) (a : Nat) (bs cs : List UInt8) :
    (m.write a bs).write (a + bs.length) cs = m.write a (bs ++ cs) := by
  funext x
  simp only [write, List.length_append]
  by_cases hcs : a + bs.length ≤ x ∧ x < a + bs.length + cs.length
  · rw [if_pos hcs, if_pos (by omega), List.getD_append_right _ _ _ _ (by omega), Nat.sub_sub]
  · rw [if_neg hcs]
    by_cases hbs : a ≤ x ∧ x < a + bs.length
    · rw [if_pos hbs, if_pos (by omega), List.getD_append _ _ _ _ (by omega)]
    · rw [if_neg hbs, if_neg (by omega)]

/-- The second write covers the first. -/
theorem write_over (m : Memory) (a : Nat) (h : bs.length ≤ cs.length) :
    (m.write a bs).write a cs = m.write a cs := by
  funext x
  by_cases hx : x < a + cs.length
  · exact write_congr (fun hbelow => write_of_outside (Or.inl hbelow)) hx
  · rw [write_of_outside (by omega), write_of_outside (by omega), write_of_outside (by omega)]

theorem write_comm (m : Memory) (h : b + cs.length ≤ a ∨ a + bs.length ≤ b) :
    (m.write a bs).write b cs = (m.write b cs).write a bs := by
  funext x
  rw [write, write, write, write]
  split
  · rw [if_neg (by omega)]
  · rfl

/-- Writing in front of what has been written. -/
theorem write_front (m : Memory) (a : Nat) (bs cs : List UInt8) :
    (m.write (a + bs.length) cs).write a bs = m.write a (bs ++ cs) := by
  funext x
  simp only [write, List.length_append]
  by_cases hbs : a ≤ x ∧ x < a + bs.length
  · rw [if_pos hbs, if_pos (by omega), List.getD_append _ _ _ _ (by omega)]
  · rw [if_neg hbs]
    by_cases hcs : a + bs.length ≤ x ∧ x < a + bs.length + cs.length
    · rw [if_pos hcs, if_pos (by omega), List.getD_append_right _ _ _ _ (by omega), Nat.sub_sub]
    · rw [if_neg hcs, if_neg (by omega)]

theorem read_write_of_disjoint (h : b + n ≤ a ∨ a + bs.length ≤ b) :
    (m.write a bs).read b n = m.read b n := by
  apply read_congr
  intro i hi
  exact write_of_outside (by omega)

/-- One byte of a range is replaced. -/
theorem read_write_set (m : Memory) (a : Nat) (x : UInt8) {i : Nat} (hi : i < n) :
    (m.write (a + i) [x]).read a n = (m.read a n).set i x := by
  apply List.ext_getElem?
  intro j
  rw [List.getElem?_set, getElem?_read, getElem?_read, length_read]
  by_cases hj : i = j
  · subst hj
    rw [if_pos hi, if_pos rfl, if_pos hi, write_singleton_self]
  · rw [if_neg hj, write_of_outside (by rw [List.length_singleton]; omega)]

/-- A loop that stores one byte after the other, where the memory gives each byte as it has become. -/
theorem foldl_write (value : Memory → Nat → UInt8)
    (h : ∀ i < bs.length, value (m.write a (bs.take i)) i = bs.getD i 0) :
    (List.range bs.length).foldl (fun m i => m.write (a + i) [value m i]) m = m.write a bs := by
  have hrun : ∀ k ≤ bs.length,
      (List.range k).foldl (fun m i => m.write (a + i) [value m i]) m = m.write a (bs.take k) := by
    intro k hk
    induction k with
    | zero => rw [List.take_zero, write_nil, List.range_zero, List.foldl_nil]
    | succ k ih =>
      have hlength : (bs.take k).length = k := by
        rw [List.length_take]
        omega
      have hwrite := write_write m a (bs.take k) [bs.getD k 0]
      rw [hlength, List.getD_eq_getElem bs 0 hk, List.take_concat_get' bs k hk] at hwrite
      rw [List.range_succ, List.foldl_append, ih (by omega), List.foldl_cons, List.foldl_nil, h k hk,
        List.getD_eq_getElem bs 0 hk, hwrite]
  have hall := hrun bs.length (Nat.le_refl _)
  rwa [List.take_length] at hall

/-- Writing behind what is there. -/
theorem read_write_append (h : m.read a n = bs) (cs : List UInt8) :
    (m.write (a + n) cs).read a (n + cs.length) = bs ++ cs := by
  rw [read_add, read_write_of_disjoint (Or.inl (Nat.le_refl _)), h, read_write]

/-- Writing in front of what is there. -/
theorem read_write_front (h : m.read (a + bs.length) cs.length = cs) :
    (m.write a bs).read a (bs ++ cs).length = bs ++ cs := by
  rw [List.length_append, read_add, read_write, read_write_of_disjoint (Or.inr (Nat.le_refl _)), h]

theorem read_move (m : Memory) (a b n : Nat) : (m.move a b n).read a n = m.read b n := by
  have h := read_write m a (m.read b n)
  rwa [length_read] at h

theorem restore_of_mem {as : List Nat} {x : Nat} (h : m x = m' x ∨ ∃ a ∈ as, a ≤ x ∧ x < a + n) :
    restore m' n m as x = m' x := by
  induction as generalizing m with
  | nil =>
    cases h with
    | inl heq => exact heq
    | inr hin =>
      obtain ⟨a, ha, -⟩ := hin
      cases ha
  | cons a as ih =>
    apply ih
    by_cases hin : a ≤ x ∧ x < a + n
    · left
      obtain ⟨i, rfl⟩ := Nat.exists_eq_add_of_le hin.1
      have hi : i < n := by omega
      rw [write_apply _ _ _ (by rw [length_read]; exact hi), List.getD_eq_getElem?_getD, getElem?_read, if_pos hi]
      rfl
    · cases h with
      | inl heq =>
        left
        rw [write_of_outside (by rw [length_read]; omega), heq]
      | inr hother =>
        obtain ⟨b, hb, hrange⟩ := hother
        right
        cases hb with
        | head => exact absurd hrange hin
        | tail _ hb => exact ⟨b, hb, hrange⟩

/-- What lies outside of the ranges stays. -/
theorem restore_of_outside {as : List Nat} {x : Nat} (h : ∀ a ∈ as, x < a ∨ a + n ≤ x) :
    restore m' n m as x = m x := by
  induction as generalizing m with
  | nil => rfl
  | cons a as ih =>
    rw [restore, ih fun b hb => h b (List.mem_cons_of_mem _ hb)]
    exact write_of_outside (by rw [length_read]; exact h a List.mem_cons_self)

theorem read_restore {as : List Nat} (h : a ∈ as) : (restore m' n m as).read a n = m'.read a n := by
  apply read_congr
  intro i hi
  exact restore_of_mem (Or.inr ⟨a, h, by omega, by omega⟩)

end Memory
