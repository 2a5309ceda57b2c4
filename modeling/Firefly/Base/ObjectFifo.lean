import Firefly.Lib.Memory
import Firefly.Lib.Ring
import Firefly.Lib.Simulation

/-!
# Firefly.Base.ObjectFifo

`fd_object_fifo.c`: a queue of objects of one size in a ring, one of which stays unused. A producer
allocates the object behind the last one, writes it and commits it; a consumer views the objects that
have been committed and deallocates the first. `Objects` is the queue that the ring stands for.

Flushing leaves `is_allocated` as it is: the object that was allocated before is then committed without
another allocation, and it is the one in slot 0, wherever its content was written
(`flush_pending`). Apart from that, and from indices whose sum with the head wraps, every run is one of
the queue (`allows_outputs_step`).

Sizes and indices are 32-bit numbers, and so is `size_t`.
-/

namespace Firefly

structure ObjectFifo where
  buffer : Memory
  objectSize : Nat
  size : Nat
  head : Nat
  tail : Nat
  isAllocated : Bool
  assertCount : Nat

namespace ObjectFifo

def assert (f : ObjectFifo) (c : Bool) : ObjectFifo :=
  if c then f else { f with assertCount := f.assertCount + 1 }

/-- `fd_object_fifo_initialize`. -/
def initializeWith (buffer : Memory) (size objectSize : UInt32) : ObjectFifo :=
  if size = 0 then ⟨fun _ => 0, 0, 0, 0, 0, false, 0⟩
  else
    let f : ObjectFifo := ⟨buffer, objectSize.toNat, size.toNat / objectSize.toNat, 0, 0, false, 0⟩
    f.assert (f.size ≥ 1)

def flush (f : ObjectFifo) : ObjectFifo := { f with head := 0, tail := 0 }

def getCount (f : ObjectFifo) : Nat :=
  if f.head ≤ f.tail then f.tail - f.head else (2 ^ 32 - f.head + f.size + f.tail) % 2 ^ 32

def isEmpty (f : ObjectFifo) : Bool := f.head == f.tail

def isFull (f : ObjectFifo) : Bool := f.getCount ≥ (2 ^ 32 - 1 + f.size) % 2 ^ 32

/-- The place of an object in the buffer. -/
def place (f : ObjectFifo) (position : Nat) : Nat := position * f.objectSize % 2 ^ 32

/-- `fd_object_fifo_allocate`: the place of the object, or nothing for a null pointer. -/
def allocate (f : ObjectFifo) : Option Nat × ObjectFifo :=
  if f.isAllocated then (none, f.assert false)
  else if f.isFull then (none, f)
  else (some (f.place f.tail), { f with isAllocated := true })

def getNextTail (f : ObjectFifo) : Nat :=
  let nextTail := f.tail + 1
  if nextTail ≥ f.size then 0 else nextTail

def commit (f : ObjectFifo) : ObjectFifo :=
  if !f.isAllocated then f.assert false
  else { f with tail := f.getNextTail, isAllocated := false }

def view (f : ObjectFifo) (index : Nat) : Option Nat :=
  let count := f.getCount
  if index ≥ count then none
  else
    let position := (f.head + index) % 2 ^ 32 % f.size
    some (f.place position)

def deallocate (f : ObjectFifo) : ObjectFifo :=
  if f.isEmpty then f.assert false
  else
    let head := f.head + 1
    { f with head := if head ≥ f.size then 0 else head }

/-! ## Calls -/

inductive Call where
  | allocate
  | write (offset : Nat) (byte : UInt8)
  | commit
  | view (index : UInt32)
  | deallocate
  | flush
  | getCount
  deriving DecidableEq

inductive Answer where
  | allocated (given : Bool)
  | viewed (content : Option (List UInt8))
  | count (n : Nat)
  | done
  deriving DecidableEq

/-- The fifo with the object that its caller was handed and has not committed. -/
structure Caller where
  fifo : ObjectFifo
  object : Option Nat

/-- The caller writes a byte of its object. -/
def Caller.write (s : Caller) (offset : Nat) (byte : UInt8) : Caller :=
  match s.object with
  | some place =>
    if offset < s.fifo.objectSize then
      { s with fifo := { s.fifo with buffer := s.fifo.buffer.write (place + offset) [byte] } }
    else s
  | none => s

/-- A call, or a byte that the caller writes. What is viewed is read. -/
def step (s : Caller) : Call → Answer × Caller
  | .allocate =>
    match s.fifo.allocate with
    | (some place, fifo) => (.allocated true, ⟨fifo, some place⟩)
    | (none, fifo) => (.allocated false, { s with fifo })
  | .write offset byte => (.done, s.write offset byte)
  | .commit => (.done, ⟨s.fifo.commit, none⟩)
  | .view index =>
    (.viewed ((s.fifo.view index.toNat).map fun place => s.fifo.buffer.read place s.fifo.objectSize), s)
  | .deallocate => (.done, { s with fifo := s.fifo.deallocate })
  | .flush => (.done, { s with fifo := s.fifo.flush })
  | .getCount => (.count s.fifo.getCount, s)

/-! ## The queue -/

/-- The committed objects, the oldest first, and the one that has been allocated. -/
structure Objects where
  committed : List (List UInt8)
  pending : Option (List UInt8)

/-- What a queue of `capacity` objects does. The content of a new object is arbitrary. -/
inductive Objects.Step (objectSize capacity : Nat) : Objects → Call → Answer → Objects → Prop where
  | allocate {q : Objects} (hroom : q.committed.length < capacity) (hnone : q.pending = none)
      {content : List UInt8} (hlen : content.length = objectSize) :
      Step objectSize capacity q .allocate (.allocated true) { q with pending := some content }
  | refuse {q : Objects} (h : capacity ≤ q.committed.length ∨ q.pending ≠ none) :
      Step objectSize capacity q .allocate (.allocated false) q
  | write (q : Objects) (offset : Nat) (byte : UInt8) :
      Step objectSize capacity q (.write offset byte) .done
        { q with pending := q.pending.map (·.set offset byte) }
  | commit (q : Objects) :
      Step objectSize capacity q .commit .done ⟨q.committed ++ q.pending.toList, none⟩
  | view (q : Objects) (index : UInt32) :
      Step objectSize capacity q (.view index) (.viewed q.committed[index.toNat]?) q
  | deallocate (q : Objects) :
      Step objectSize capacity q .deallocate .done { q with committed := q.committed.tail }
  | flush (q : Objects) : Step objectSize capacity q .flush .done ⟨[], none⟩
  | getCount (q : Objects) :
      Step objectSize capacity q .getCount (.count q.committed.length) q

theorem Objects.Step.viewed_eq {objectSize capacity : Nat} {q q' : Objects} {index : UInt32}
    {content : Option (List UInt8)}
    (h : Objects.Step objectSize capacity q (.view index) (.viewed content) q') :
    content = q.committed[index.toNat]? := by
  cases h
  rfl

/-! ## The ring stands for the queue -/

/-- The slot of the `j`-th committed object. -/
def slot (f : ObjectFifo) (j : Nat) : Nat := (f.head + j) % f.size

def object (f : ObjectFifo) (position : Nat) : List UInt8 :=
  f.buffer.read (position * f.objectSize) f.objectSize

structure Holds (f : ObjectFifo) (q : Objects) : Prop where
  size_lt : f.size < 2 ^ 32
  fits : f.size * f.objectSize < 2 ^ 32
  head : f.head < f.size
  length : q.committed.length < f.size
  tail : f.tail = f.slot q.committed.length
  allocated : f.isAllocated = q.pending.isSome
  contents : ∀ j content, q.committed[j]? = some content → f.object (f.slot j) = content
  pending : ∀ content, q.pending = some content →
    f.object f.tail = content ∧ q.committed.length + 1 < f.size

/-- The caller has the object that is pending, and no other. -/
structure Caller.Stands (objectSize capacity : Nat) (s : Caller) (q : Objects) : Prop where
  holds : s.fifo.Holds q
  object : s.object = q.pending.map fun _ => s.fifo.tail * objectSize
  objectSize : s.fifo.objectSize = objectSize
  capacity : s.fifo.size = capacity + 1

variable {f : ObjectFifo} {q : Objects}

theorem Holds.failed (h : f.Holds q) : (f.assert false).Holds q :=
  ⟨h.size_lt, h.fits, h.head, h.length, h.tail, h.allocated, h.contents, h.pending⟩

theorem Holds.slot_lt (h : f.Holds q) (j : Nat) : f.slot j < f.size :=
  Nat.mod_lt _ (Nat.lt_of_le_of_lt (Nat.zero_le _) h.head)

theorem Holds.tail_lt (h : f.Holds q) : f.tail < f.size := by
  rw [h.tail]
  exact h.slot_lt _

theorem Holds.getCount (h : f.Holds q) : f.getCount = q.committed.length := by
  rw [ObjectFifo.getCount, h.tail]
  exact Ring.distance_eq h.head h.length h.size_lt

theorem Holds.isFull (h : f.Holds q) : f.isFull = true ↔ f.size ≤ q.committed.length + 1 := by
  have hsize := h.size_lt
  have hhead := h.head
  have hlast : (2 ^ 32 - 1 + f.size) % 2 ^ 32 = f.size - 1 := by omega
  rw [ObjectFifo.isFull, h.getCount, hlast, decide_eq_true_iff]
  omega

theorem Holds.isEmpty (h : f.Holds q) : f.isEmpty = true ↔ q.committed = [] := by
  have hhead := h.head
  have hzero : f.slot 0 = f.head := Nat.mod_eq_of_lt hhead
  rw [ObjectFifo.isEmpty, beq_iff_eq, h.tail, ← List.length_eq_zero_iff]
  constructor
  · intro he
    rw [← hzero] at he
    exact (Ring.ahead_inj hhead (by omega) h.length he).symm
  · intro he
    rw [he, hzero]

theorem Holds.place (h : f.Holds q) {position : Nat} (hlt : position < f.size) :
    f.place position = position * f.objectSize := by
  have hle : position * f.objectSize ≤ f.size * f.objectSize := Nat.mul_le_mul_right _ (Nat.le_of_lt hlt)
  exact Nat.mod_eq_of_lt (Nat.lt_of_le_of_lt hle h.fits)

theorem Holds.allocate (h : f.Holds q) (hroom : q.committed.length + 1 < f.size) :
    { f with isAllocated := true : ObjectFifo }.Holds { q with pending := some (f.object f.tail) } where
  size_lt := h.size_lt
  fits := h.fits
  head := h.head
  length := h.length
  tail := h.tail
  allocated := rfl
  contents := h.contents
  pending := by
    intro content hcontent
    exact ⟨Option.some.inj hcontent, hroom⟩

/-- A byte of one object is in no other. -/
theorem object_write {offset : Nat} (hoffset : offset < f.objectSize) (t position : Nat) (byte : UInt8) :
    { f with buffer := f.buffer.write (t * f.objectSize + offset) [byte] : ObjectFifo }.object position =
      if position = t then (f.object t).set offset byte else f.object position := by
  simp only [object]
  split
  · rename_i he
    rw [he]
    exact Memory.read_write_set _ _ _ hoffset
  · rename_i hne
    apply Memory.read_write_of_disjoint
    rw [List.length_singleton]
    rcases Nat.lt_or_gt_of_ne hne with hlt | hgt
    · have hmul := Nat.mul_le_mul_right f.objectSize (Nat.succ_le_of_lt hlt)
      rw [Nat.succ_mul] at hmul
      omega
    · have hmul := Nat.mul_le_mul_right f.objectSize (Nat.succ_le_of_lt hgt)
      rw [Nat.succ_mul] at hmul
      omega

theorem Holds.write (h : f.Holds q) {offset : Nat} (hoffset : offset < f.objectSize) (byte : UInt8) :
    { f with buffer := f.buffer.write (f.tail * f.objectSize + offset) [byte] : ObjectFifo }.Holds
      { q with pending := q.pending.map (·.set offset byte) } where
  size_lt := h.size_lt
  fits := h.fits
  head := h.head
  length := h.length
  tail := h.tail
  allocated := by rw [Option.isSome_map, ← h.allocated]
  contents := by
    intro j content hcontent
    obtain ⟨hj, -⟩ := List.getElem?_eq_some_iff.1 hcontent
    have hne : f.slot j ≠ f.tail := by
      rw [h.tail]
      intro he
      exact Nat.ne_of_lt hj (Ring.ahead_inj h.head (Nat.lt_trans hj h.length) h.length he)
    have hsame := object_write hoffset f.tail (f.slot j) byte
    rw [if_neg hne, h.contents j content hcontent] at hsame
    exact hsame
  pending := by
    intro content hcontent
    obtain ⟨before, hbefore, rfl⟩ := Option.map_eq_some_iff.1 hcontent
    obtain ⟨hobject, hroom⟩ := h.pending before hbefore
    have hself := object_write hoffset f.tail f.tail byte
    rw [if_pos rfl, hobject] at hself
    exact ⟨hself, hroom⟩

theorem Holds.commit (h : f.Holds q) : f.commit.Holds ⟨q.committed ++ q.pending.toList, none⟩ := by
  have hallocated := h.allocated
  rw [ObjectFifo.commit]
  cases hpending : q.pending with
  | none =>
    rw [hpending] at hallocated
    rw [hallocated, Option.toList_none, List.append_nil]
    have hsame : q = ⟨q.committed, none⟩ := by rw [← hpending]
    rw [← hsame]
    exact h.failed
  | some content =>
    obtain ⟨hobject, hroom⟩ := h.pending content hpending
    rw [hpending] at hallocated
    rw [hallocated]
    have hlen : (q.committed ++ [content]).length = q.committed.length + 1 := by simp
    have htail : f.getNextTail = f.slot (q.committed.length + 1) := by
      rw [getNextTail, Ring.wrap_eq h.tail_lt, h.tail, slot, slot, Nat.mod_add_mod, Nat.add_assoc]
    refine ⟨h.size_lt, h.fits, h.head, ?_, ?_, rfl, ?_, ?_⟩
    · exact hlen ▸ hroom
    · exact hlen ▸ htail
    · intro j c hc
      by_cases hj : j < q.committed.length
      · rw [Option.toList_some, List.getElem?_append_left hj] at hc
        exact h.contents j c hc
      · have hlast : j = q.committed.length := by
          obtain ⟨hlt, -⟩ := List.getElem?_eq_some_iff.1 hc
          rw [Option.toList_some, hlen] at hlt
          omega
        rw [hlast, Option.toList_some, List.getElem?_concat_length] at hc
        rw [hlast, ← Option.some.inj hc, ← hobject, h.tail]
        rfl
    · intro c hc
      cases hc

theorem Holds.view (h : f.Holds q) {index : Nat} (hwrap : index < f.getCount → f.head + index < 2 ^ 32) :
    ((f.view index).map fun place => f.buffer.read place f.objectSize) = q.committed[index]? := by
  rw [h.getCount] at hwrap
  rw [ObjectFifo.view, h.getCount]
  by_cases hindex : index < q.committed.length
  · have hplace : f.place ((f.head + index) % f.size) = f.slot index * f.objectSize :=
      h.place (h.slot_lt index)
    have hcontent := h.contents index _ (List.getElem?_eq_getElem hindex)
    rw [if_neg (Nat.not_le.2 hindex), Nat.mod_eq_of_lt (hwrap hindex)]
    simp only [hplace, Option.map_some]
    rw [List.getElem?_eq_getElem hindex, ← hcontent]
    rfl
  · have hle := Nat.not_lt.1 hindex
    rw [if_pos hle, List.getElem?_eq_none hle]
    rfl

theorem Holds.deallocate (h : f.Holds q) : f.deallocate.Holds { q with committed := q.committed.tail } := by
  rw [ObjectFifo.deallocate]
  by_cases hempty : q.committed = []
  · have hsame : { q with committed := q.committed.tail } = q := by
      rw [hempty, List.tail_nil, ← hempty]
    rw [if_pos (h.isEmpty.2 hempty), hsame]
    exact h.failed
  · rw [if_neg fun he => hempty (h.isEmpty.1 he)]
    have hhead := h.head
    have hpos := List.length_pos_of_ne_nil hempty
    have hlen : q.committed.tail.length + 1 = q.committed.length := by
      rw [List.length_tail]
      omega
    have hslot (j : Nat) : ((f.head + 1) % f.size + j) % f.size = f.slot (j + 1) := by
      rw [slot, Nat.mod_add_mod, Nat.add_assoc, Nat.add_comm 1 j]
    simp only [Ring.wrap_eq hhead]
    have hshort : q.committed.tail.length < q.committed.length := by omega
    refine ⟨h.size_lt, h.fits, Nat.mod_lt _ (by omega), Nat.lt_trans hshort h.length, ?_, h.allocated,
      ?_, ?_⟩
    · rw [slot, hslot, hlen]
      exact h.tail
    · intro j content hcontent
      rw [slot, hslot]
      refine h.contents (j + 1) content ?_
      rw [← hcontent, List.getElem?_tail]
    · intro content hcontent
      obtain ⟨hobject, hroom⟩ := h.pending content hcontent
      exact ⟨hobject, Nat.lt_trans (Nat.succ_lt_succ hshort) hroom⟩

theorem Holds.flush (h : f.Holds q) (hfree : f.isAllocated = false) : f.flush.Holds ⟨[], none⟩ where
  size_lt := h.size_lt
  fits := h.fits
  head := Nat.lt_of_le_of_lt (Nat.zero_le _) h.head
  length := Nat.lt_of_le_of_lt (Nat.zero_le _) h.head
  tail := (Nat.zero_mod _).symm
  allocated := hfree
  contents := by
    intro j content hcontent
    cases hcontent
  pending := by
    intro content hcontent
    cases hcontent

/-! ## Runs -/

@[simp] theorem commit_size (f : ObjectFifo) : f.commit.size = f.size := by
  rw [commit]
  split <;> rfl

@[simp] theorem commit_objectSize (f : ObjectFifo) : f.commit.objectSize = f.objectSize := by
  rw [commit]
  split <;> rfl

@[simp] theorem deallocate_size (f : ObjectFifo) : f.deallocate.size = f.size := by
  rw [deallocate]
  split <;> rfl

@[simp] theorem deallocate_objectSize (f : ObjectFifo) : f.deallocate.objectSize = f.objectSize := by
  rw [deallocate]
  split <;> rfl

@[simp] theorem deallocate_tail (f : ObjectFifo) : f.deallocate.tail = f.tail := by
  rw [deallocate]
  split <;> rfl

theorem Caller.Stands.write {objectSize capacity : Nat} {s : Caller} {q : Objects}
    (h : s.Stands objectSize capacity q) (offset : Nat) (byte : UInt8) :
    (s.write offset byte).Stands objectSize capacity
      { q with pending := q.pending.map (·.set offset byte) } := by
  obtain ⟨f, object⟩ := s
  obtain ⟨h, hobject, hsize, hcapacity⟩ := h
  simp only at h hobject hsize hcapacity
  subst hsize
  obtain ⟨committed, pending⟩ := q
  cases pending with
  | none =>
    obtain rfl : object = none := hobject
    exact ⟨h, rfl, rfl, hcapacity⟩
  | some content =>
    obtain rfl : object = some (f.tail * f.objectSize) := hobject
    simp only [Caller.write, Option.map_some]
    split
    · rename_i hoffset
      exact ⟨h.write hoffset byte, rfl, rfl, hcapacity⟩
    · rename_i hoffset
      have hread := (h.pending content rfl).1
      have hlen : content.length ≤ offset := by
        rw [← hread, ObjectFifo.object, Memory.length_read]
        exact Nat.not_lt.1 hoffset
      rw [List.set_eq_of_length_le hlen]
      exact ⟨h, rfl, rfl, hcapacity⟩

/-- Nothing is allocated when the fifo is flushed, and the sum of the head and an index does not wrap. -/
def Regular (s : Caller) : Call → Prop
  | .flush => s.fifo.isAllocated = false
  | .view index => index.toNat < s.fifo.getCount → s.fifo.head + index.toNat < 2 ^ 32
  | _ => True

theorem step_stands {objectSize capacity : Nat} (s : Caller) (q : Objects) (c : Call)
    (h : s.Stands objectSize capacity q) (hc : Regular s c) : ∃ q',
      Objects.Step objectSize capacity q c (step s c).1 q' ∧
        (step s c).2.Stands objectSize capacity q' := by
  have stands := h
  obtain ⟨f, object⟩ := s
  obtain ⟨h, hobject, hsize, hcapacity⟩ := h
  simp only at h hobject hsize hcapacity
  subst hsize
  cases c with
  | allocate =>
    have hallocated := h.allocated
    cases hpending : q.pending with
    | some content =>
      rw [hpending] at hallocated
      have hrefused : f.allocate = (none, f.assert false) := if_pos hallocated
      simp only [step, hrefused]
      exact ⟨q, .refuse (Or.inr (by rw [hpending]; simp)), h.failed, hobject, rfl, hcapacity⟩
    | none =>
      rw [hpending] at hallocated
      have hfree : ¬ f.isAllocated = true := by
        rw [hallocated]
        simp
      by_cases hfull : f.isFull = true
      · have hrefused : f.allocate = (none, f) := by rw [allocate, if_neg hfree, if_pos hfull]
        have hlen := h.isFull.1 hfull
        simp only [step, hrefused]
        exact ⟨q, .refuse (Or.inl (by omega)), h, hobject, rfl, hcapacity⟩
      · have hgiven : f.allocate = (some (f.place f.tail), { f with isAllocated := true }) := by
          rw [allocate, if_neg hfree, if_neg hfull]
        have hlen : q.committed.length + 1 < f.size := Nat.not_le.1 fun hle => hfull (h.isFull.2 hle)
        simp only [step, hgiven, h.place h.tail_lt]
        exact ⟨_, .allocate (by omega) hpending (Memory.length_read _ _ _), h.allocate hlen, rfl, rfl,
          hcapacity⟩
  | write offset byte => exact ⟨_, .write q offset byte, stands.write offset byte⟩
  | commit => exact ⟨_, .commit q, h.commit, rfl, commit_objectSize f, (commit_size f).trans hcapacity⟩
  | view index =>
    have hview := h.view hc
    simp only [step, hview]
    exact ⟨q, .view q index, h, hobject, rfl, hcapacity⟩
  | deallocate =>
    refine ⟨_, .deallocate q, h.deallocate, ?_, deallocate_objectSize f, (deallocate_size f).trans hcapacity⟩
    simp only [step, deallocate_tail]
    exact hobject
  | flush =>
    have hnone : q.pending = none := by
      rw [← Option.isNone_iff_eq_none, ← Option.not_isSome, ← h.allocated, Bool.not_eq_true']
      exact hc
    rw [hnone] at hobject
    exact ⟨_, .flush q, h.flush hc, hobject, rfl, hcapacity⟩
  | getCount =>
    simp only [step, h.getCount]
    exact ⟨q, .getCount q, h, hobject, rfl, hcapacity⟩

def start (buffer : Memory) (size objectSize : UInt32) : Caller :=
  ⟨initializeWith buffer size objectSize, none⟩

theorem stands_start (buffer : Memory) {size objectSize : UInt32}
    (h : 2 ≤ size.toNat / objectSize.toNat) :
    (start buffer size objectSize).Stands objectSize.toNat (size.toNat / objectSize.toNat - 1)
      ⟨[], none⟩ := by
  have hle : size.toNat / objectSize.toNat * objectSize.toNat ≤ size.toNat := Nat.div_mul_le_self _ _
  have hcount : size.toNat / objectSize.toNat ≤ size.toNat := Nat.div_le_self _ _
  have hlt := size.toNat_lt
  have hsize : size ≠ 0 := by
    rintro rfl
    rw [UInt32.toNat_zero, Nat.zero_div] at h
    exact absurd h (by decide)
  have hmany : (decide (size.toNat / objectSize.toNat ≥ 1)) = true := by
    rw [decide_eq_true_iff]
    omega
  have hstart : initializeWith buffer size objectSize =
      ⟨buffer, objectSize.toNat, size.toNat / objectSize.toNat, 0, 0, false, 0⟩ := by
    rw [initializeWith, if_neg hsize]
    exact if_pos hmany
  rw [start, hstart]
  refine ⟨⟨Nat.lt_of_le_of_lt hcount hlt, Nat.lt_of_le_of_lt hle hlt, ?_, ?_, ?_, rfl, ?_, ?_⟩, rfl, rfl, ?_⟩
  · exact Nat.lt_of_lt_of_le Nat.two_pos h
  · exact Nat.lt_of_lt_of_le Nat.two_pos h
  · exact (Nat.zero_mod _).symm
  · intro j content hcontent
    cases hcontent
  · intro content hcontent
    cases hcontent
  · simp only
    omega

theorem allows_outputs_step (buffer : Memory) (size objectSize : UInt32)
    (h : 2 ≤ size.toNat / objectSize.toNat) (calls : List Call)
    (hregular : Simulation.Along step Regular (start buffer size objectSize) calls) :
    Simulation.Allows (Objects.Step objectSize.toNat (size.toNat / objectSize.toNat - 1)) ⟨[], none⟩ calls
      (Simulation.outputs step (start buffer size objectSize) calls) :=
  Simulation.allows_outputs step_stands (stands_start buffer h) hregular

theorem allows_outputs_step_sample : Simulation.Allows (Objects.Step 2 1) ⟨[], none⟩
    [.allocate, .write 0 7, .commit, .allocate, .view 0, .commit, .flush, .getCount]
    (Simulation.outputs step (start (fun _ => 0) 4 2)
      [.allocate, .write 0 7, .commit, .allocate, .view 0, .commit, .flush, .getCount]) :=
  allows_outputs_step (fun _ => 0) 4 2 (by decide) _
    ⟨trivial, trivial, trivial, trivial, fun _ => by decide, trivial, rfl, trivial, trivial⟩

/-- The second object is allocated and written, and then the fifo is flushed: what is committed is the
first object. -/
theorem flush_pending : ¬ Simulation.Allows (Objects.Step 1 2) ⟨[], none⟩
    [.allocate, .commit, .allocate, .write 0 7, .flush, .commit, .view 0]
    (Simulation.outputs step (start (fun _ => 0) 3 1)
      [.allocate, .commit, .allocate, .write 0 7, .flush, .commit, .view 0]) := by
  have hout : Simulation.outputs step (start (fun _ => 0) 3 1)
      [.allocate, .commit, .allocate, .write 0 7, .flush, .commit, .view 0] =
        [.allocated true, .done, .allocated true, .done, .done, .done, .viewed (some [0])] := by decide
  rw [hout]
  intro h
  obtain _ | ⟨_, h⟩ := h
  obtain _ | ⟨_, h⟩ := h
  obtain _ | ⟨_, h⟩ := h
  obtain _ | ⟨_, h⟩ := h
  obtain _ | ⟨hflush, h⟩ := h
  obtain _ | ⟨hcommit, h⟩ := h
  obtain _ | ⟨hview, -⟩ := h
  cases hflush
  cases hcommit
  exact absurd hview.viewed_eq (by decide)

end ObjectFifo
end Firefly
