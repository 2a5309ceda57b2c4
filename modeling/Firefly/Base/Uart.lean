import Mathlib.Logic.Relation
import Firefly.Base.Fifo

/-!
# Firefly.Base.Uart

The transmit path of `fd_uart_nrf5.c`. Three parties share a device: the thread in `fd_uart_instance_tx`,
the interrupt `fd_uart_serial_handler`, which preempts the thread, and the UARTE, which sends the bytes of
the DMA buffer and raises `EVENTS_TXDRDY` for each. `Step` interleaves their accesses to the shared
variables; the store of a byte by `fd_fifo_put` and the store of the new tail are steps of their own.

`Inv` says where the bytes are that calls have taken, and what each party relies on where it is.
-/

namespace Firefly
namespace Uart

open Relation

/-! ## Device -/

/-- `FD_UART_DEVICE_TX_FIFO_LIMIT` and `FD_UART_DEVICE_TX_DMA_LIMIT`. -/
structure Limits where
  fifo : Nat
  dma : Nat
  fifo_pos : 0 < fifo
  fifo_lt : fifo < 2 ^ 32
  dma_pos : 0 < dma
  dma_lt : dma < 2 ^ 32

/-- Where `fd_uart_tx_set_next_dma_buffer` is: in its loop, behind it, before the start, or at the return. -/
inductive Fill where
  | get (i : Nat)
  | exit (i : Nat)
  | start (i : Nat)
  | done (i : Nat)

/-- Where the thread is in `fd_uart_instance_tx` with its `data`. -/
inductive Thread where
  | idle
  | put (data : List UInt8) (i : Nat)
  | store (data : List UInt8) (i tail : Nat)
  | commit (data : List UInt8) (i tail : Nat)
  | check (data : List UInt8) (i : Nat)
  | fill (data : List UInt8) (i : Nat) (f : Fill)

/-- Where `fd_uart_serial_handler` is in its part for `EVENTS_TXDRDY`. -/
inductive Handler where
  | idle
  | count
  | fill (f : Fill)

/-- `fd_uart_device_tx_t` and the UARTE, which has sent `sent` of the `count` bytes it was started with.
`wire` are the bytes it has sent in all, `returned` the calls with what they returned, and `notices` the
number of times the handler told that all is sent. -/
structure Device where
  fifo : Fifo
  dma : Memory
  pending : Nat
  sent : Nat
  count : Nat
  txdrdy : Bool
  thread : Thread
  handler : Handler
  wire : List UInt8
  returned : List (List UInt8 × Nat)
  notices : Nat

/-- The device after `fd_uart_instance_initialize`. -/
def initializeWith (l : Limits) (data dma : Memory) : Device where
  fifo := Fifo.initializeWith data l.fifo
  dma := dma
  pending := 0
  sent := 0
  count := 0
  txdrdy := false
  thread := .idle
  handler := .idle
  wire := []
  returned := []
  notices := 0

/-! ## Steps -/

/-- `next_tail` of `fd_fifo_put`. -/
def nextTail (size tail : Nat) : Nat := if tail + 1 ≥ size then 0 else tail + 1

/-- A step of `fd_uart_tx_set_next_dma_buffer`. -/
def Fill.step (l : Limits) (s : Device) : Fill → Fill × Device
  | .get i =>
    if i < l.dma then
      match s.fifo.get with
      | some (byte, fifo) => (.get (i + 1), { s with fifo := fifo, dma := s.dma.write i [byte] })
      | none => (.exit i, s)
    else (.exit i, s)
  | .exit i => if i > 0 then (.start i, { s with pending := i }) else (.done i, s)
  | .start i => (.done i, { s with sent := 0, count := i })
  | .done i => (.done i, s)

/-- The call returns the number of bytes it took. -/
def Device.finish (s : Device) (data : List UInt8) (i : Nat) : Device :=
  { s with thread := .idle, returned := s.returned ++ [(data, i)] }

/-- A step of `fd_uart_instance_tx`. -/
def Device.threadStep (l : Limits) (s : Device) : Option Device :=
  match s.thread with
  | .idle => none
  | .put data i =>
    if i < data.length ∧ nextTail s.fifo.size s.fifo.tail ≠ s.fifo.head then
      some { s with thread := .store data i s.fifo.tail }
    else some { s with thread := .check data i }
  | .store data i tail =>
    some { s with
      fifo := { s.fifo with buffer := s.fifo.buffer.write tail [data.getD i 0] }
      thread := .commit data i tail }
  | .commit data i tail =>
    some { s with
      fifo := { s.fifo with tail := nextTail s.fifo.size tail }
      thread := .put data (i + 1) }
  | .check data i =>
    if s.pending = 0 then some { s with thread := .fill data i (.get 0) } else some (s.finish data i)
  | .fill data i (.done _) => some (s.finish data i)
  | .fill data i f => some { (f.step l s).2 with thread := .fill data i (f.step l s).1 }

/-- A step of `fd_uart_serial_handler`. -/
def Device.handlerStep (l : Limits) (s : Device) : Option Device :=
  match s.handler with
  | .idle => if s.txdrdy then some { s with txdrdy := false, handler := .count } else none
  | .count =>
    let pending := (s.pending + 2 ^ 32 - 1) % 2 ^ 32
    some { s with pending := pending, handler := if pending = 0 then .fill (.get 0) else .idle }
  | .fill (.done i) =>
    some { s with handler := .idle, notices := if i = 0 then s.notices + 1 else s.notices }
  | .fill f => some { (f.step l s).2 with handler := .fill (f.step l s).1 }

/-- The UARTE sends a byte. -/
def Device.uarteStep (s : Device) : Option Device :=
  if s.sent < s.count then
    some { s with wire := s.wire ++ [s.dma s.sent], sent := s.sent + 1, txdrdy := true }
  else none

inductive Party where
  | thread
  | handler
  | uarte

/-- The handler runs to its end before the thread goes on. -/
def Device.step (l : Limits) (s : Device) : Party → Option Device
  | .thread =>
    match s.handler with
    | .idle => s.threadStep l
    | _ => none
  | .handler => s.handlerStep l
  | .uarte => s.uarteStep

/-- A step in which no new call begins. -/
inductive Work (l : Limits) (P : Device → Party → Prop) (s : Device) : Device → Prop where
  | mk {s' : Device} (p : Party) (hp : P s p) (h : s.step l p = some s') : Work l P s s'

inductive Step (l : Limits) (P : Device → Party → Prop) (s : Device) : Device → Prop where
  | call (data : List UInt8) (ht : s.thread = .idle) (hh : s.handler = .idle) :
    Step l P s { s with thread := .put data 0 }
  | work {s' : Device} (h : Work l P s s') : Step l P s s'

/-- Any order of steps. -/
def Free (_ : Device) (_ : Party) : Prop := True

/-- A byte goes out only when the event of the byte before is served. -/
def Served (s : Device) : Party → Prop
  | .uarte => s.txdrdy = false
  | _ => True

/-! ## The fifo between the two sides -/

section Fifo

variable {f : Fifo} {q : List UInt8}

theorem put_eq (f : Fifo) (b : UInt8) : f.put b =
    if nextTail f.size f.tail ≠ f.head then
      some { f with buffer := f.buffer.write f.tail [b], tail := nextTail f.size f.tail }
    else none := rfl

theorem nextTail_ne_head_iff (h : f.Holds q) : nextTail f.size f.tail ≠ f.head ↔ q.length + 1 < f.size := by
  constructor
  · intro hne
    by_contra hfull
    have hput := h.put_full (Nat.le_of_not_lt hfull) 0
    rw [put_eq, if_pos hne] at hput
    cases hput
  · intro hroom he
    obtain ⟨f', hput, -, -⟩ := h.put hroom 0
    rw [put_eq, if_neg (not_not.2 he)] at hput
    cases hput

/-- The slot at the tail is not part of the queue. -/
theorem holds_store (h : f.Holds q) (b : UInt8) :
    Fifo.Holds { f with buffer := f.buffer.write f.tail [b] } q where
  head := h.head
  length := h.length
  tail := h.tail
  bytes := by
    intro j hj
    have hlen := h.length
    have hne : f.slot j ≠ f.tail := by
      intro he
      rw [h.tail] at he
      exact absurd (Fifo.slot_inj h.head (by omega) hlen he) (Nat.ne_of_lt hj)
    have hbyte := h.bytes j hj
    simp only [Fifo.slot] at hne hbyte ⊢
    rw [Memory.write_of_outside (by simp only [List.length_singleton]; omega), hbyte]

/-- With its byte in place, the new tail is all that `fd_fifo_put` has left to do. -/
theorem holds_commit {b : UInt8} (h : f.Holds q) (hroom : q.length + 1 < f.size) (hb : f.buffer f.tail = b) :
    Fifo.Holds { f with tail := nextTail f.size f.tail } (q ++ [b]) := by
  obtain ⟨f', hput, hholds, -⟩ := h.put hroom b
  have hne := (nextTail_ne_head_iff h).2 hroom
  rw [put_eq, if_pos hne] at hput
  injection hput with hput
  have hsame : f.buffer.write f.tail [b] = f.buffer := by
    funext x
    by_cases hx : x = f.tail
    · rw [hx, Memory.write_singleton_self, hb]
    · exact Memory.write_of_outside (by simp only [List.length_singleton]; omega)
  rw [← hput, hsame] at hholds
  exact hholds

/-- Taking a byte leaves the side of the writer alone. -/
theorem get_tail {b : UInt8} {f' : Fifo} (h : f.get = some (b, f')) : f'.tail = f.tail ∧ f'.buffer = f.buffer := by
  simp only [Fifo.get] at h
  split at h
  · injection h with h
    injection h with hb hf
    rw [← hf]
    exact ⟨rfl, rfl⟩
  · cases h

end Fifo

/-! ## Invariant -/

/-- The buffer is being filled, and the UARTE not started yet. -/
def Fill.Open : Fill → Prop
  | .done _ => False
  | _ => True

/-- The bytes in the buffer that the UARTE was not started with yet. -/
def Fill.loaded : Fill → Nat
  | .get i | .exit i | .start i => i
  | .done _ => 0

/-- The bytes that are counted in `pending` and that the UARTE was not started with yet. -/
def Fill.counted : Fill → Nat
  | .start i => i
  | _ => 0

def Thread.Filling : Thread → Prop
  | .fill _ _ f => f.Open
  | _ => False

def Thread.loaded : Thread → Nat
  | .fill _ _ f => f.loaded
  | _ => 0

def Thread.counted : Thread → Nat
  | .fill _ _ f => f.counted
  | _ => 0

/-- The bytes of its call that the thread has put. -/
def Thread.accepted : Thread → List UInt8
  | .idle => []
  | .put data i | .store data i _ | .commit data i _ | .check data i | .fill data i _ => data.take i

def Handler.Filling : Handler → Prop
  | .fill f => f.Open
  | _ => False

def Handler.loaded : Handler → Nat
  | .fill f => f.loaded
  | _ => 0

/-- An event that is cleared and not counted yet counts too. -/
def Handler.counted : Handler → Nat
  | .idle => 0
  | .count => 1
  | .fill f => f.counted

@[simp] theorem Thread.loaded_idle : Thread.loaded .idle = 0 := rfl

@[simp] theorem Thread.counted_idle : Thread.counted .idle = 0 := rfl

@[simp] theorem Thread.loaded_fill (data : List UInt8) (i : Nat) (f : Fill) :
    Thread.loaded (.fill data i f) = f.loaded := rfl

@[simp] theorem Thread.counted_fill (data : List UInt8) (i : Nat) (f : Fill) :
    Thread.counted (.fill data i f) = f.counted := rfl

@[simp] theorem Handler.loaded_idle : Handler.loaded .idle = 0 := rfl

@[simp] theorem Handler.loaded_count : Handler.loaded .count = 0 := rfl

@[simp] theorem Handler.loaded_fill (f : Fill) : Handler.loaded (.fill f) = f.loaded := rfl

@[simp] theorem Handler.counted_idle : Handler.counted .idle = 0 := rfl

@[simp] theorem Handler.counted_count : Handler.counted .count = 1 := rfl

@[simp] theorem Handler.counted_fill (f : Fill) : Handler.counted (.fill f) = f.counted := rfl

theorem Fill.eq_done {f : Fill} (h : ¬ f.Open) : ∃ i, f = .done i := by
  cases f with
  | done i => exact ⟨i, rfl⟩
  | get i => exact absurd trivial h
  | exit i => exact absurd trivial h
  | start i => exact absurd trivial h

theorem Thread.Filling.eq_fill {t : Thread} (h : t.Filling) : ∃ data i f, t = .fill data i f ∧ f.Open := by
  cases t with
  | fill data i f => exact ⟨data, i, f, rfl, h⟩
  | idle => exact h.elim
  | put data i => exact h.elim
  | store data i tail => exact h.elim
  | commit data i tail => exact h.elim
  | check data i => exact h.elim

theorem Thread.of_not_filling {t : Thread} (h : ¬ t.Filling) : t.loaded = 0 ∧ t.counted = 0 := by
  cases t with
  | fill data i f =>
    obtain ⟨j, rfl⟩ := Fill.eq_done h
    exact ⟨rfl, rfl⟩
  | idle => exact ⟨rfl, rfl⟩
  | put data i => exact ⟨rfl, rfl⟩
  | store data i tail => exact ⟨rfl, rfl⟩
  | commit data i tail => exact ⟨rfl, rfl⟩
  | check data i => exact ⟨rfl, rfl⟩

namespace Device

variable (s : Device)

/-- The bytes the UARTE has still to send. -/
def remaining : List UInt8 := s.dma.read s.sent (s.count - s.sent)

/-- The bytes that left the queue and are not sent. -/
def inflight : List UInt8 := s.remaining ++ s.dma.read 0 (s.thread.loaded + s.handler.loaded)

/-- The bytes that calls have taken. -/
def accepted : List UInt8 := s.returned.flatMap (fun c => c.1.take c.2) ++ s.thread.accepted

/-- The events that are to be counted. -/
def outstanding : Nat :=
  (s.count - s.sent) + (if s.txdrdy then 1 else 0) + s.thread.counted + s.handler.counted

/-- Nothing is under way between the UARTE and the handler. -/
structure Rest : Prop where
  sent : s.count ≤ s.sent
  txdrdy : s.txdrdy = false

/-- What is in the queue will be sent without another call. -/
def Awake (q : List UInt8) : Prop := s.handler.Filling ∨ q = [] ∨ 0 < s.pending

end Device

/-- What holds where a party fills the buffer, with `q` in the queue. -/
def Fill.Ok (l : Limits) (s : Device) (q : List UInt8) : Fill → Prop
  | .get i => s.Rest ∧ s.pending = 0 ∧ i ≤ l.dma
  | .exit i => s.Rest ∧ s.pending = 0 ∧ i ≤ l.dma ∧ (i = 0 → q = [])
  | .start i => s.Rest ∧ s.pending = i ∧ 0 < i
  | .done i => (i = 0 → q = [] ∧ s.count ≤ s.sent) ∧ (q = [] ∨ 0 < s.pending)

def Thread.Ok (l : Limits) (s : Device) (q : List UInt8) : Thread → Prop
  | .idle => s.Awake q
  | .put _ _ | .check _ _ => True
  | .store data i tail => i < data.length ∧ tail = s.fifo.tail ∧ q.length + 1 < s.fifo.size
  | .commit data i tail => i < data.length ∧ tail = s.fifo.tail ∧ q.length + 1 < s.fifo.size ∧
      s.fifo.buffer tail = data.getD i 0
  | .fill _ _ f => (f.Open → f.Ok l s q ∧ s.handler = .idle) ∧ (¬ f.Open → s.Awake q)

def Handler.Ok (l : Limits) (s : Device) (q : List UInt8) : Handler → Prop
  | .fill f => f.Ok l s q
  | _ => True

structure Inv (l : Limits) (s : Device) (q : List UInt8) : Prop where
  fifo : s.fifo.Holds q
  size : s.fifo.size = l.fifo
  bytes : s.wire ++ s.inflight ++ q = s.accepted
  counted : s.outstanding ≤ s.pending
  pending : s.pending < 2 ^ 32
  thread : s.thread.Ok l s q
  handler : s.handler.Ok l s q

variable {l : Limits} {s s' : Device} {q : List UInt8}

theorem inv_initializeWith (l : Limits) (data dma : Memory) : Inv l (initializeWith l data dma) [] where
  fifo := Fifo.holds_initializeWith data l.fifo_pos
  size := rfl
  bytes := rfl
  counted := Nat.le_refl 0
  pending := by simp [initializeWith]
  thread := Or.inr (Or.inl rfl)
  handler := trivial

/-! ## Filling the buffer -/

/-- What a step of `fd_uart_tx_set_next_dma_buffer` does, with `q'` in the queue after it. -/
structure Stepped (l : Limits) (s : Device) (q : List UInt8) (f : Fill) (s' : Device) (q' : List UInt8)
    (f' : Fill) : Prop where
  fifo : s'.fifo.Holds q'
  size : s'.fifo.size = s.fifo.size
  tail : s'.fifo.tail = s.fifo.tail
  buffer : s'.fifo.buffer = s.fifo.buffer
  length : q'.length ≤ q.length
  bytes : s'.remaining ++ s'.dma.read 0 f'.loaded ++ q' = s.remaining ++ s.dma.read 0 f.loaded ++ q
  counted : s'.pending + ((s.count - s.sent) + f.counted) = s.pending + ((s'.count - s'.sent) + f'.counted)
  pending : s'.pending < 2 ^ 32
  ok : f'.Ok l s' q'

theorem Device.Rest.remaining (h : s.Rest) : s.remaining = [] := by
  rw [Device.remaining, Nat.sub_eq_zero_of_le h.sent, Memory.read_zero]

/-- What stays as it is while the buffer is filled. -/
structure Framed (s s' : Device) : Prop where
  txdrdy : s'.txdrdy = s.txdrdy
  thread : s'.thread = s.thread
  handler : s'.handler = s.handler
  wire : s'.wire = s.wire
  returned : s'.returned = s.returned
  notices : s'.notices = s.notices

theorem Fill.step_framed (l : Limits) (s : Device) (f : Fill) : Framed s (f.step l s).2 := by
  have hself : Framed s s := ⟨rfl, rfl, rfl, rfl, rfl, rfl⟩
  cases f with
  | get i =>
    simp only [Fill.step]
    split
    · split
      · exact ⟨rfl, rfl, rfl, rfl, rfl, rfl⟩
      · exact hself
    · exact hself
  | exit i =>
    simp only [Fill.step]
    split
    · exact ⟨rfl, rfl, rfl, rfl, rfl, rfl⟩
    · exact hself
  | start i => exact ⟨rfl, rfl, rfl, rfl, rfl, rfl⟩
  | done i => exact hself

theorem Fill.Ok.step {f : Fill} (hopen : f.Open) (h : f.Ok l s q) (hfifo : s.fifo.Holds q)
    (hpending : s.pending < 2 ^ 32) : ∃ q', Stepped l s q f (f.step l s).2 q' (f.step l s).1 := by
  cases f with
  | get i =>
    obtain ⟨hrest, hzero, hle⟩ := h
    by_cases hroom : i < l.dma
    · cases q with
      | nil =>
        have hget := hfifo.get_nil
        simp only [Fill.step, if_pos hroom, hget]
        exact ⟨[], hfifo, rfl, rfl, rfl, Nat.le_refl _, rfl, rfl, hpending, hrest, hzero, hle, fun _ => rfl⟩
      | cons b q =>
        obtain ⟨f', hget, hholds, hsize⟩ := hfifo.get
        obtain ⟨htail, hbuffer⟩ := get_tail hget
        simp only [Fill.step, if_pos hroom, hget]
        refine ⟨q, hholds, hsize, htail, hbuffer, Nat.le_succ _, ?_, rfl, hpending, ⟨hrest.sent, hrest.txdrdy⟩,
          hzero, hroom⟩
        have hloaded : (s.dma.write i [b]).read 0 (i + 1) = s.dma.read 0 i ++ [b] := by
          rw [Memory.read_add, Memory.read_write_of_disjoint (Or.inl (by omega)), Memory.read_one, Nat.zero_add,
            Memory.write_singleton_self]
        have hleft := hrest.remaining
        have hleft' : Device.remaining { s with fifo := f', dma := s.dma.write i [b] } = [] := by
          simp [Device.remaining, Nat.sub_eq_zero_of_le hrest.sent]
        simp only [hleft, hleft', Fill.loaded, hloaded, List.nil_append, List.append_assoc, List.singleton_append]
    · simp only [Fill.step, if_neg hroom]
      refine ⟨q, hfifo, rfl, rfl, rfl, Nat.le_refl _, rfl, rfl, hpending, hrest, hzero, hle, ?_⟩
      intro hi
      have hpos := l.dma_pos
      omega
  | exit i =>
    obtain ⟨hrest, hzero, hle, hempty⟩ := h
    by_cases hi : i > 0
    · have hlimit := l.dma_lt
      simp only [Fill.step, if_pos hi]
      refine ⟨q, hfifo, rfl, rfl, rfl, Nat.le_refl _, rfl, ?_, Nat.lt_of_le_of_lt hle hlimit,
        ⟨hrest.sent, hrest.txdrdy⟩, rfl, hi⟩
      simp only [Fill.counted, hzero]
      omega
    · have hnone : i = 0 := Nat.eq_zero_of_not_pos hi
      subst hnone
      simp only [Fill.step, if_neg hi]
      exact ⟨q, hfifo, rfl, rfl, rfl, Nat.le_refl _, rfl, rfl, hpending,
        fun _ => ⟨hempty rfl, hrest.sent⟩, Or.inl (hempty rfl)⟩
  | start i =>
    obtain ⟨hrest, hall, hi⟩ := h
    have hstopped := Nat.sub_eq_zero_of_le hrest.sent
    have hpos : 0 < s.pending := by
      rw [hall]
      exact hi
    simp only [Fill.step]
    refine ⟨q, hfifo, rfl, rfl, rfl, Nat.le_refl _, ?_, ?_, hpending, ?_, Or.inr hpos⟩
    · simp [Device.remaining, Fill.loaded, hstopped]
    · simp only [Fill.counted]
      omega
    · intro hzero
      omega
  | done i => exact hopen.elim

theorem Fill.Ok.congr {f : Fill} (h : f.Ok l s q) (hsent : s'.sent = s.sent) (hcount : s'.count = s.count)
    (htxdrdy : s'.txdrdy = s.txdrdy) (hpending : s'.pending = s.pending) : f.Ok l s' q := by
  have hrest (hr : s.Rest) : s'.Rest := ⟨by rw [hsent, hcount]; exact hr.sent, by rw [htxdrdy]; exact hr.txdrdy⟩
  cases f with
  | get i => exact ⟨hrest h.1, by rw [hpending]; exact h.2.1, h.2.2⟩
  | exit i => exact ⟨hrest h.1, by rw [hpending]; exact h.2.1, h.2.2⟩
  | start i => exact ⟨hrest h.1, by rw [hpending]; exact h.2.1, h.2.2⟩
  | done i =>
    simp only [Fill.Ok, hsent, hcount, hpending]
    exact h

theorem Fill.Ok.left {f : Fill} (h : f.Ok l s q) (hopen : ¬ f.Open) : q = [] ∨ 0 < s.pending := by
  obtain ⟨i, rfl⟩ := Fill.eq_done hopen
  exact h.2

/-- Where the handler fills the buffer, it takes care of the queue. -/
theorem Fill.Ok.awake {f : Fill} (h : f.Ok l s q) (hh : s.handler = .fill f) : s.Awake q := by
  cases f with
  | done i => exact Or.inr h.2
  | get i => exact Or.inl (by rw [hh]; trivial)
  | exit i => exact Or.inl (by rw [hh]; trivial)
  | start i => exact Or.inl (by rw [hh]; trivial)

/-- Either context steps through `fd_uart_tx_set_next_dma_buffer`. -/
theorem Inv.fill {f f' : Fill} {u : Device} {q' : List UInt8} (h : Inv l s q) (hframe : Framed s u)
    (hstep : Stepped l s q f u q' f')
    {t : Thread} {n : Handler} (hloaded : s.thread.loaded + s.handler.loaded = f.loaded)
    (hcounted : s.thread.counted + s.handler.counted = f.counted)
    (hloaded' : t.loaded + n.loaded = f'.loaded) (hcounted' : t.counted + n.counted = f'.counted)
    (haccepted : t.accepted = s.thread.accepted) (ht : t.Ok l { u with thread := t, handler := n } q')
    (hn : n.Ok l { u with thread := t, handler := n } q') :
    Inv l { u with thread := t, handler := n } q' ∧
      s.pending + Device.outstanding { u with thread := t, handler := n } = u.pending + s.outstanding := by
  have hsame : s.pending + Device.outstanding { u with thread := t, handler := n } = u.pending + s.outstanding := by
    have hkept := hstep.counted
    simp only [Device.outstanding, hframe.txdrdy]
    omega
  refine ⟨⟨hstep.fifo, hstep.size.trans h.size, ?_, ?_, hstep.pending, ht, hn⟩, hsame⟩
  · have hbytes := h.bytes
    simp only [Device.inflight, Device.accepted, hloaded] at hbytes
    simp only [Device.inflight, Device.accepted, hloaded', hframe.wire, hframe.returned, haccepted]
    have hmoved := congrArg (s.wire ++ ·) hstep.bytes
    rw [← hbytes]
    simpa [Device.remaining] using hmoved
  · have hall := h.counted
    simp only
    omega

end Uart
end Firefly
