import Firefly.Lib.Memory
import Firefly.Lib.Queue
import Firefly.Lib.Ring
import Firefly.Lib.Simulation

/-!
# Firefly.Base.Fifo

`fd_fifo.c`: a queue of bytes in a ring of `size` bytes, one of which stays unused. `Holds` says
which queue a ring stands for; `get` and `put` do on the ring what they do on the queue. Over any run
the ring answers like the queue of at most `size - 1` bytes (`outputs_step`).

Sizes and indices are 32-bit numbers.
-/

namespace Firefly

structure Fifo where
  buffer : Memory
  size : Nat
  head : Nat
  tail : Nat

namespace Fifo

/-- `fd_fifo_initialize`. -/
def initializeWith (data : Memory) (size : Nat) : Fifo := ⟨data, size, 0, 0⟩

/-- The byte of `fd_fifo_get`, and the queue after it, if there is one. -/
def get (f : Fifo) : Option (UInt8 × Fifo) :=
  let valid := f.head ≠ f.tail
  if valid then
    let head := f.head + 1
    some (f.buffer f.head, { f with head := if head ≥ f.size then 0 else head })
  else none

/-- The queue after `fd_fifo_put`, if there is room. -/
def put (f : Fifo) (data : UInt8) : Option Fifo :=
  let tail := f.tail
  let nextTail := if tail + 1 ≥ f.size then 0 else tail + 1
  let valid := nextTail ≠ f.head
  if valid then some { f with buffer := f.buffer.write tail [data], tail := nextTail } else none

def flush (f : Fifo) : Fifo := { f with head := 0, tail := 0 }

def isEmpty (f : Fifo) : Bool := f.head == f.tail

def getCount (f : Fifo) : Nat :=
  if f.head ≤ f.tail then f.tail - f.head else (2 ^ 32 - f.head + f.size + f.tail) % 2 ^ 32

/-- The slot of the `j`-th byte of the queue. -/
def slot (f : Fifo) (j : Nat) : Nat := (f.head + j) % f.size

structure Holds (f : Fifo) (q : List UInt8) : Prop where
  head : f.head < f.size
  length : q.length < f.size
  tail : f.tail = f.slot q.length
  bytes : ∀ j, j < q.length → f.buffer (f.slot j) = q.getD j 0

variable {f : Fifo} {q : List UInt8}

theorem holds_initializeWith (data : Memory) {size : Nat} (h : 0 < size) :
    (initializeWith data size).Holds [] where
  head := h
  length := h
  tail := (Nat.mod_eq_of_lt h).symm
  bytes := by
    intro j hj
    cases hj

theorem slot_zero (h : f.head < f.size) : f.slot 0 = f.head := Nat.mod_eq_of_lt h

theorem slot_inj {i j : Nat} (h : f.head < f.size) (hi : i < f.size) (hj : j < f.size)
    (he : f.slot i = f.slot j) : i = j := Ring.ahead_inj h hi hj he

/-- Bytes leave in the order of the queue. -/
theorem Holds.get {b : UInt8} (h : f.Holds (b :: q)) : ∃ f', f.get = some (b, f') ∧
    f'.Holds q ∧ f'.size = f.size := by
  have hhead := h.head
  have hlen := h.length
  have hbyte : f.buffer f.head = b := by
    have hfirst := h.bytes 0 (by simp)
    rwa [slot_zero hhead] at hfirst
  have hvalid : f.head ≠ f.tail := by
    intro he
    rw [h.tail, ← slot_zero hhead] at he
    have hzero := slot_inj hhead (by omega) hlen he
    simp at hzero
  have hslot (j : Nat) : ((f.head + 1) % f.size + j) % f.size = f.slot (j + 1) := by
    rw [slot, Nat.mod_add_mod, Nat.add_assoc, Nat.add_comm 1 j]
  refine ⟨{ f with head := (f.head + 1) % f.size }, ?_, ⟨?_, ?_, ?_, ?_⟩, rfl⟩
  · simp only [Fifo.get, if_pos hvalid, hbyte, Ring.wrap_eq hhead]
  · exact Nat.mod_lt _ (by omega)
  · rw [List.length_cons] at hlen
    exact Nat.lt_of_succ_lt hlen
  · rw [slot, hslot]
    exact h.tail
  · intro j hj
    have hnext := h.bytes (j + 1) (by simpa using hj)
    rw [slot, hslot, hnext, List.getD_cons_succ]

/-- A byte joins the queue at its end, while all but one of the slots are not used. -/
theorem Holds.put (h : f.Holds q) (hlen : q.length + 1 < f.size) (b : UInt8) : ∃ f',
    f.put b = some f' ∧ f'.Holds (q ++ [b]) ∧ f'.size = f.size := by
  have hhead := h.head
  have htail : f.tail < f.size := by
    rw [h.tail]
    exact Nat.mod_lt _ (by omega)
  have hnext : (f.tail + 1) % f.size = f.slot (q.length + 1) := by
    rw [h.tail, slot, slot, Nat.mod_add_mod, Nat.add_assoc]
  have hvalid : f.slot (q.length + 1) ≠ f.head := by
    intro he
    rw [← slot_zero hhead] at he
    exact absurd (slot_inj hhead hlen (by omega) he) (Nat.succ_ne_zero _)
  have hsnoc : (q ++ [b]).length = q.length + 1 := by simp
  refine ⟨{ f with buffer := f.buffer.write f.tail [b], tail := f.slot (q.length + 1) }, ?_,
    ⟨hhead, ?_, ?_, ?_⟩, rfl⟩
  · simp only [Fifo.put, Ring.wrap_eq htail, hnext, if_pos hvalid]
  · rw [hsnoc]
    exact hlen
  · rw [hsnoc]
    rfl
  · intro j hj
    rw [hsnoc] at hj
    by_cases hlast : j = q.length
    · subst hlast
      have hslot : f.slot q.length = f.tail := h.tail.symm
      simp only [slot] at hslot ⊢
      rw [hslot, Memory.write_singleton_self, List.getD_append_right _ _ _ _ (Nat.le_refl _),
        Nat.sub_self, List.getD_cons_zero]
    · have hj' : j < q.length := by omega
      have hne : f.slot j ≠ f.tail := by
        intro he
        rw [h.tail] at he
        exact hlast (slot_inj hhead (by omega) h.length he)
      have hbyte := h.bytes j hj'
      simp only [slot] at hne hbyte ⊢
      rw [Memory.write_of_outside (by simp only [List.length_singleton]; omega), hbyte,
        List.getD_append _ _ _ _ hj']

theorem Holds.tail_lt (h : f.Holds q) : f.tail < f.size := by
  rw [h.tail]
  exact Nat.mod_lt _ (Nat.lt_of_le_of_lt (Nat.zero_le _) h.head)

theorem Holds.flush (h : f.Holds q) : f.flush.Holds [] :=
  holds_initializeWith f.buffer (Nat.lt_of_le_of_lt (Nat.zero_le _) h.head)

/-- The ring is empty where the two indices meet, and only there. -/
theorem Holds.head_eq_tail_iff (h : f.Holds q) : f.head = f.tail ↔ q = [] := by
  have hpos : 0 < f.size := Nat.lt_of_le_of_lt (Nat.zero_le _) h.head
  constructor
  · intro he
    rw [h.tail, ← slot_zero h.head] at he
    exact List.eq_nil_of_length_eq_zero (slot_inj h.head hpos h.length he).symm
  · rintro rfl
    rw [h.tail, List.length_nil, slot_zero h.head]

theorem Holds.getCount (h : f.Holds q) (hsize : f.size < 2 ^ 32) : f.getCount = q.length := by
  rw [Fifo.getCount, h.tail]
  exact Ring.distance_eq h.head h.length hsize

theorem Holds.get_nil (h : f.Holds []) : f.get = none := by
  have he : f.head = f.tail := h.head_eq_tail_iff.2 rfl
  rw [Fifo.get]
  exact if_neg (not_not.2 he)

/-- With one slot left the next index is the head, as in an empty ring. -/
theorem Holds.put_full (h : f.Holds q) (hlen : f.size ≤ q.length + 1) (b : UInt8) : f.put b = none := by
  have hhead := h.head
  have hlast : q.length + 1 = f.size := by
    have hlt := h.length
    omega
  have hnext : (f.tail + 1) % f.size = f.head := by
    rw [h.tail, slot, Nat.mod_add_mod, Nat.add_assoc, hlast, Nat.add_mod_right, Nat.mod_eq_of_lt hhead]
  simp only [Fifo.put, Ring.wrap_eq h.tail_lt, hnext]
  exact if_neg (not_not.2 rfl)

/-- A call of one of the functions. -/
def step (f : Fifo) : Queue.Command UInt8 → Queue.Answer UInt8 × Fifo
  | .put data =>
    match f.put data with
    | some f' => (.accepted true, f')
    | none => (.accepted false, f)
  | .get =>
    match f.get with
    | some (byte, f') => (.taken (some byte), f')
    | none => (.taken none, f)
  | .flush => (.flushed, f.flush)
  | .getCount => (.count f.getCount, f)
  | .isEmpty => (.empty f.isEmpty, f)

/-- The ring of the given size stands for the queue. -/
def Stands (size : Nat) (f : Fifo) (q : List UInt8) : Prop := f.Holds q ∧ f.size = size

theorem step_stands {size : Nat} (hsize : size < 2 ^ 32) (f : Fifo) (q : List UInt8)
    (c : Queue.Command UInt8) (h : Stands size f q) :
    (f.step c).1 = (Queue.step (size - 1) q c).1 ∧
      Stands size (f.step c).2 (Queue.step (size - 1) q c).2 := by
  obtain ⟨h, rfl⟩ := h
  have hhead := h.head
  cases c with
  | put b =>
    by_cases hroom : q.length < f.size - 1
    · obtain ⟨f', hput, hholds, hsame⟩ := h.put (by omega) b
      simp only [step, hput, Queue.step, if_pos hroom]
      exact ⟨trivial, hholds, hsame⟩
    · simp only [step, h.put_full (by omega) b, Queue.step, if_neg hroom]
      exact ⟨trivial, h, rfl⟩
  | get =>
    cases q with
    | nil =>
      simp only [step, h.get_nil]
      exact ⟨rfl, h, rfl⟩
    | cons b q =>
      obtain ⟨f', hget, hholds, hsame⟩ := h.get
      simp only [step, hget]
      exact ⟨rfl, hholds, hsame⟩
  | flush => exact ⟨rfl, h.flush, rfl⟩
  | getCount => exact ⟨congrArg Queue.Answer.count (h.getCount hsize), h, rfl⟩
  | isEmpty =>
    have hempty : f.isEmpty = q.isEmpty := by
      rw [isEmpty, Bool.eq_iff_iff, beq_iff_eq, List.isEmpty_iff]
      exact h.head_eq_tail_iff
    exact ⟨congrArg Queue.Answer.empty hempty, h, rfl⟩

theorem outputs_step (data : Memory) (size : UInt32) (hsize : 0 < size.toNat)
    (calls : List (Queue.Command UInt8)) :
    Simulation.outputs step (initializeWith data size.toNat) calls =
      Simulation.outputs (Queue.step (size.toNat - 1)) [] calls :=
  Simulation.outputs_eq (step_stands size.toNat_lt) ⟨holds_initializeWith data hsize, rfl⟩ calls

theorem outputs_step_sample : 0 < (3 : UInt32).toNat ∧
    Simulation.outputs step (initializeWith (fun _ => 0) 3) [.put 1, .put 2, .put 3, .get, .put 4, .get] =
      Simulation.outputs (Queue.step 2) [] [.put 1, .put 2, .put 3, .get, .put 4, .get] :=
  ⟨by decide, outputs_step _ 3 (by decide) _⟩

end Fifo
end Firefly
