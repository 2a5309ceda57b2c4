import Firefly.Base.Uart

/-!
# Firefly.Base.UartSafety

A step of any party keeps the invariant of `fd_uart_nrf5.c`, so that no order of the steps loses, repeats or
reorders a byte (`order_kept`). With every step the events that are to be counted stay as many as `pending` says; only
a byte that goes out while the event of the byte before is still set makes them fewer.
-/

namespace Firefly
namespace Uart

open Relation

variable {l : Limits} {s s' : Device} {q : List UInt8}

/-! ## Steps of the parties -/

/-- The events to be counted stay as many as `pending` says, or become fewer. -/
def Kept (l : Limits) (s s' : Device) : Prop :=
  ∃ q', Inv l s' q' ∧ s.pending + s'.outstanding ≤ s'.pending + s.outstanding

theorem Inv.rest (h : Inv l s q) (hzero : s.pending = 0) : s.Rest := by
  have hcounted := h.counted
  rw [hzero, Device.outstanding] at hcounted
  refine ⟨by omega, ?_⟩
  cases htxdrdy : s.txdrdy with
  | false => rfl
  | true => simp [htxdrdy] at hcounted

/-- What the thread relies on, after a step of another party while the thread itself fills nothing. -/
theorem Thread.Ok.mono {q' : List UInt8} {t : Thread} (h : t.Ok l s q) (hopen : ¬ t.Filling)
    (htail : s'.fifo.tail = s.fifo.tail) (hbuffer : s'.fifo.buffer = s.fifo.buffer)
    (hsize : s'.fifo.size = s.fifo.size) (hlen : q'.length ≤ q.length) (hawake : s.Awake q → s'.Awake q') :
    t.Ok l s' q' := by
  cases t with
  | idle => exact hawake h
  | put data i => trivial
  | check data i => trivial
  | store data i tail =>
    obtain ⟨hi, he, hroom⟩ := h
    refine ⟨hi, by rw [htail, he], ?_⟩
    rw [hsize]
    omega
  | commit data i tail =>
    obtain ⟨hi, he, hroom, hbyte⟩ := h
    refine ⟨hi, by rw [htail, he], ?_, by rw [hbuffer, hbyte]⟩
    rw [hsize]
    omega
  | fill data i f => exact ⟨fun hf => absurd hf hopen, fun hf => hawake (h.2 hf)⟩

theorem Fill.Ok.rest {f : Fill} (h : f.Ok l s q) (hopen : f.Open) : s.Rest := by
  cases f with
  | done i => exact hopen.elim
  | get i => exact h.1
  | exit i => exact h.1
  | start i => exact h.1

theorem Thread.Ok.rest (h : s.thread.Ok l s q) (hopen : s.thread.Filling) : s.Rest ∧ s.handler = .idle := by
  obtain ⟨data, i, f, hthread, hf⟩ := hopen.eq_fill
  rw [hthread] at h
  obtain ⟨hok, hidle⟩ := h.1 hf
  exact ⟨hok.rest hf, hidle⟩

/-- The two contexts never fill the buffer at one time. -/
theorem Thread.Ok.alone (h : s.thread.Ok l s q) (hh : s.handler ≠ .idle) : ¬ s.thread.Filling :=
  fun hopen => hh (h.rest hopen).2

theorem Inv.uarteStep (h : Inv l s q) (hs : s.uarteStep = some s') : Kept l s s' ∧
    (s.txdrdy = false → s.pending + s'.outstanding = s'.pending + s.outstanding) := by
  rw [Device.uarteStep] at hs
  split at hs
  · rename_i hleft
    injection hs with hs
    subst hs
    have hclosed : ¬ s.Rest := fun hrest => absurd hrest.sent (Nat.not_le.2 hleft)
    have hcount : s.count - s.sent = s.count - (s.sent + 1) + 1 := by omega
    have hremaining : s.remaining = s.dma s.sent :: s.dma.read (s.sent + 1) (s.count - (s.sent + 1)) := by
      rw [Device.remaining, hcount, Memory.read_succ]
    have hflag : (if s.txdrdy then 1 else 0) ≤ 1 := by split <;> omega
    refine ⟨⟨q, ⟨h.fifo, h.size, ?_, ?_, h.pending, ?_, ?_⟩, ?_⟩, ?_⟩
    · have hbytes := h.bytes
      simp only [Device.inflight, hremaining] at hbytes
      simpa [Device.inflight, Device.remaining, Device.accepted] using hbytes
    · have hcounted := h.counted
      simp only [Device.outstanding] at hcounted ⊢
      simp only [if_true]
      omega
    · exact h.thread.mono (fun hopen => hclosed (h.thread.rest hopen).1) rfl rfl rfl (Nat.le_refl _) id
    · have hhandler := h.handler
      cases hcase : s.handler with
      | idle => trivial
      | count => trivial
      | fill f =>
        rw [hcase] at hhandler
        cases f with
        | done i =>
          refine ⟨fun hi => ⟨(hhandler.1 hi).1, ?_⟩, hhandler.2⟩
          exact absurd (hhandler.1 hi).2 (Nat.not_le.2 hleft)
        | get i => exact absurd hhandler.1 hclosed
        | exit i => exact absurd hhandler.1 hclosed
        | start i => exact absurd hhandler.1 hclosed
    · simp only [Device.outstanding, if_true]
      omega
    · intro hclear
      simp only [Device.outstanding, hclear, if_true]
      simp
      omega
  · cases hs

theorem Inv.counting (h : Inv l s q) (hcase : s.handler = .count) : 0 < s.pending := by
  have hcounted := h.counted
  simp only [Device.outstanding, hcase, Handler.counted_count] at hcounted
  omega

/-- The handler counts an event and goes on with `n`. -/
theorem Inv.countDown (h : Inv l s q) (hcase : s.handler = .count) {n : Handler} (hloaded : n.loaded = 0)
    (hnone : n.counted = 0) (hok : n.Ok l { s with pending := s.pending - 1, handler := n } q)
    (hnext : n.Filling ∨ 0 < s.pending - 1) :
    Kept l s { s with pending := s.pending - 1, handler := n } ∧
      s.pending + Device.outstanding { s with pending := s.pending - 1, handler := n } =
        s.pending - 1 + s.outstanding := by
  have hpos := h.counting hcase
  have hlt := h.pending
  have hclosed : ¬ s.thread.Filling := h.thread.alone (by simp [hcase])
  have hless : Device.outstanding { s with pending := s.pending - 1, handler := n } + 1 = s.outstanding := by
    simp [Device.outstanding, hcase, hnone]
  have hcounted := h.counted
  refine ⟨⟨q, ⟨h.fifo, h.size, ?_, ?_, ?_, ?_, hok⟩, ?_⟩, ?_⟩
  · simpa [Device.inflight, Device.remaining, Device.accepted, hcase, hloaded] using h.bytes
  · simp only
    omega
  · simp only
    omega
  · refine h.thread.mono hclosed rfl rfl rfl (Nat.le_refl _) ?_
    intro _
    exact hnext.imp id Or.inr
  · simp only
    omega
  · omega

theorem Inv.handlerFill {f : Fill} (h : Inv l s q) (hcase : s.handler = .fill f) (hopen : f.Open)
    (hs : s.handlerStep l = some s') : ∃ q', Inv l s' q' ∧
      s.pending + s'.outstanding = s'.pending + s.outstanding ∧
      s' = { (f.step l s).2 with thread := s.thread, handler := .fill (f.step l s).1 } ∧
      Stepped l s q f (f.step l s).2 q' (f.step l s).1 := by
  have hok := h.handler
  rw [hcase] at hok
  have hclosed : ¬ s.thread.Filling := h.thread.alone (by simp [hcase])
  obtain ⟨hloaded, hnone⟩ := Thread.of_not_filling hclosed
  have hframe := Fill.step_framed l s f
  have hs : s' = { (f.step l s).2 with handler := .fill (f.step l s).1 } := by
    cases f with
    | done i => exact hopen.elim
    | get i => simpa [Device.handlerStep, hcase] using hs.symm
    | exit i => simpa [Device.handlerStep, hcase] using hs.symm
    | start i => simpa [Device.handlerStep, hcase] using hs.symm
  have hdevice : s' = { (f.step l s).2 with thread := s.thread, handler := .fill (f.step l s).1 } := by
    rw [hs, ← hframe.thread]
  obtain ⟨q', hstep⟩ := Fill.Ok.step hopen hok h.fifo h.pending
  obtain ⟨hinv, hsame⟩ := h.fill (n := .fill (f.step l s).1) hframe hstep (by simp [hcase, hloaded])
    (by simp [hcase, hnone]) (by simp [hloaded]) (by simp [hnone]) rfl
    (h.thread.mono hclosed hstep.tail hstep.buffer hstep.size hstep.length
      fun _ => Fill.Ok.awake (hstep.ok.congr rfl rfl rfl rfl) rfl)
    (hstep.ok.congr rfl rfl rfl rfl)
  rw [hdevice]
  exact ⟨q', hinv, hsame, rfl, hstep⟩

theorem Inv.handlerStep (h : Inv l s q) (hs : s.handlerStep l = some s') : Kept l s s' ∧
    s.pending + s'.outstanding = s'.pending + s.outstanding := by
  have hcounted := h.counted
  cases hcase : s.handler with
  | idle =>
    simp only [Device.handlerStep, hcase] at hs
    split at hs
    · rename_i htxdrdy
      injection hs with hs
      subst hs
      have hclosed : ¬ s.Rest := by
        intro hrest
        rw [hrest.txdrdy] at htxdrdy
        cases htxdrdy
      have hsame : Device.outstanding { s with txdrdy := false, handler := .count } = s.outstanding := by
        simp [Device.outstanding, htxdrdy, hcase]
        omega
      refine ⟨⟨q, ⟨h.fifo, h.size, ?_, ?_, h.pending, ?_, trivial⟩, ?_⟩, ?_⟩
      · simpa [Device.inflight, Device.remaining, Device.accepted, hcase] using h.bytes
      · rw [hsame]
        exact hcounted
      · refine h.thread.mono (fun hopen => hclosed (h.thread.rest hopen).1) rfl rfl rfl (Nat.le_refl _) ?_
        intro hawake
        simpa [Device.Awake, hcase, Handler.Filling] using hawake
      · rw [hsame]
      · rw [hsame]
    · cases hs
  | count =>
    have hpos := h.counting hcase
    have hlt := h.pending
    have hdown : (s.pending + 2 ^ 32 - 1) % 2 ^ 32 = s.pending - 1 := by omega
    simp only [Device.handlerStep, hcase, hdown] at hs
    injection hs with hs
    subst hs
    by_cases hlast : s.pending - 1 = 0
    · rw [if_pos hlast]
      refine h.countDown hcase rfl rfl ?_ (Or.inl trivial)
      simp only [Device.outstanding, hcase, Handler.counted_count] at hcounted
      refine ⟨⟨by simp only; omega, ?_⟩, hlast, Nat.zero_le _⟩
      cases htxdrdy : s.txdrdy with
      | false => rfl
      | true =>
        rw [htxdrdy, if_pos rfl] at hcounted
        omega
    · rw [if_neg hlast]
      exact h.countDown hcase rfl rfl trivial (Or.inr (Nat.pos_of_ne_zero hlast))
  | fill f =>
    have hok := h.handler
    rw [hcase] at hok
    have hclosed : ¬ s.thread.Filling := h.thread.alone (by simp [hcase])
    by_cases hopen : f.Open
    · obtain ⟨q', hinv, hsame, -⟩ := h.handlerFill hcase hopen hs
      exact ⟨⟨q', hinv, Nat.le_of_eq hsame⟩, hsame⟩
    · obtain ⟨i, rfl⟩ := Fill.eq_done hopen
      simp only [Device.handlerStep, hcase] at hs
      injection hs with hs
      subst hs
      have hsame : Device.outstanding
          { s with handler := .idle, notices := if i = 0 then s.notices + 1 else s.notices } = s.outstanding := by
        simp [Device.outstanding, hcase, Fill.counted]
      refine ⟨⟨q, ⟨h.fifo, h.size, ?_, ?_, h.pending, ?_, trivial⟩, ?_⟩, ?_⟩
      · simpa [Device.inflight, Device.remaining, Device.accepted, hcase, Fill.loaded] using h.bytes
      · rw [hsame]
        exact hcounted
      · exact h.thread.mono hclosed rfl rfl rfl (Nat.le_refl _) fun _ => Or.inr hok.2
      · rw [hsame]
      · rw [hsame]

/-- A call returns while what is in the queue is taken care of. -/
theorem Inv.finish (h : Inv l s q) (data : List UInt8) (i : Nat) (haccepted : s.thread.accepted = data.take i)
    (hloaded : s.thread.loaded = 0) (hnone : s.thread.counted = 0) (hawake : s.Awake q) :
    Inv l (s.finish data i) q ∧ (s.finish data i).outstanding = s.outstanding := by
  have hsame : (s.finish data i).outstanding = s.outstanding := by
    rw [Device.outstanding, Device.outstanding, hnone]
    rfl
  refine ⟨⟨h.fifo, h.size, ?_, ?_, h.pending, hawake, ?_⟩, hsame⟩
  · have hbytes := h.bytes
    simp only [Device.accepted, haccepted] at hbytes
    simpa [Device.finish, Device.inflight, Device.remaining, Device.accepted, Thread.accepted, hloaded] using hbytes
  · rw [hsame]
    exact h.counted
  · have hhandler := h.handler
    cases hcase : s.handler with
    | idle => simp [Device.finish, hcase, Handler.Ok]
    | count => simp [Device.finish, hcase, Handler.Ok]
    | fill f =>
      rw [hcase] at hhandler
      simp only [Device.finish, hcase]
      exact hhandler.congr rfl rfl rfl rfl

/-- The thread goes on in its call, with `more` in the queue. -/
theorem Inv.move {t : Thread} {f : Fifo} (h : Inv l s q) (more : List UInt8) (hidle : s.handler = .idle)
    (hloaded : s.thread.loaded = 0) (hnone : s.thread.counted = 0) (hloaded' : t.loaded = 0)
    (hnone' : t.counted = 0) (hfifo : f.Holds (q ++ more)) (hsize : f.size = s.fifo.size)
    (haccepted : t.accepted = s.thread.accepted ++ more)
    (hok : t.Ok l { s with fifo := f, thread := t } (q ++ more)) :
    Kept l s { s with fifo := f, thread := t } ∧
      s.pending + Device.outstanding { s with fifo := f, thread := t } = s.pending + s.outstanding := by
  have hsame : Device.outstanding { s with fifo := f, thread := t } = s.outstanding := by
    simp [Device.outstanding, hnone, hnone']
  refine ⟨⟨q ++ more, ⟨hfifo, hsize.trans h.size, ?_, ?_, h.pending, hok, ?_⟩, ?_⟩, ?_⟩
  · have hbytes := congrArg (· ++ more) h.bytes
    simp only [Device.inflight, Device.accepted, hloaded] at hbytes
    simpa [Device.inflight, Device.remaining, Device.accepted, haccepted, hloaded', hidle] using hbytes
  · rw [hsame]
    exact h.counted
  · simp only [hidle]
    trivial
  · rw [hsame]
  · rw [hsame]

theorem take_succ_getD {data : List UInt8} {i : Nat} (h : i < data.length) :
    data.take (i + 1) = data.take i ++ [data.getD i 0] := by
  rw [List.take_succ_eq_append_getElem h, List.getD_eq_getElem data 0 h]

theorem Inv.threadFill {data : List UInt8} {i : Nat} {f : Fill} (h : Inv l s q) (hidle : s.handler = .idle)
    (hcase : s.thread = .fill data i f) (hopen : f.Open) (hs : s.threadStep l = some s') : ∃ q', Inv l s' q' ∧
      s.pending + s'.outstanding = s'.pending + s.outstanding ∧
      s' = { (f.step l s).2 with thread := .fill data i (f.step l s).1, handler := s.handler } ∧
      Stepped l s q f (f.step l s).2 q' (f.step l s).1 := by
  have hok := h.thread
  rw [hcase] at hok
  have hframe := Fill.step_framed l s f
  have hs : s' = { (f.step l s).2 with thread := .fill data i (f.step l s).1 } := by
    cases f with
    | done i => exact hopen.elim
    | get i => simpa [Device.threadStep, hcase] using hs.symm
    | exit i => simpa [Device.threadStep, hcase] using hs.symm
    | start i => simpa [Device.threadStep, hcase] using hs.symm
  have hdevice : s' = { (f.step l s).2 with thread := .fill data i (f.step l s).1, handler := s.handler } := by
    rw [hs, ← hframe.handler]
  obtain ⟨q', hstep⟩ := Fill.Ok.step hopen (hok.1 hopen).1 h.fifo h.pending
  obtain ⟨hinv, hsame⟩ := h.fill (t := .fill data i (f.step l s).1) (n := s.handler) hframe hstep
    (by simp [hcase, hidle]) (by simp [hcase, hidle]) (by simp [hidle]) (by simp [hidle]) (by rw [hcase]; rfl)
    ⟨fun _ => ⟨hstep.ok.congr rfl rfl rfl rfl, hidle⟩, fun hclosed => Or.inr (hstep.ok.left hclosed)⟩
    (by rw [hidle]; trivial)
  rw [hdevice]
  exact ⟨q', hinv, hsame, rfl, hstep⟩

theorem Inv.threadStep (h : Inv l s q) (hidle : s.handler = .idle) (hs : s.threadStep l = some s') : Kept l s s' ∧
    s.pending + s'.outstanding = s'.pending + s.outstanding := by
  have hthread := h.thread
  cases hcase : s.thread with
  | idle =>
    simp only [Device.threadStep, hcase] at hs
    cases hs
  | put data i =>
    simp only [Device.threadStep, hcase] at hs
    split at hs
    · rename_i hroom
      injection hs with hs
      subst hs
      refine h.move [] hidle (by rw [hcase]; rfl) (by rw [hcase]; rfl) rfl rfl
        (by rw [List.append_nil]; exact h.fifo) rfl (by rw [hcase]; exact (List.append_nil _).symm) ?_
      rw [List.append_nil]
      exact ⟨hroom.1, rfl, (nextTail_ne_head_iff h.fifo).1 hroom.2⟩
    · injection hs with hs
      subst hs
      exact h.move [] hidle (by rw [hcase]; rfl) (by rw [hcase]; rfl) rfl rfl
        (by rw [List.append_nil]; exact h.fifo) rfl (by rw [hcase]; exact (List.append_nil _).symm) trivial
  | store data i tail =>
    rw [hcase] at hthread
    obtain ⟨hi, rfl, hroom⟩ := hthread
    simp only [Device.threadStep, hcase] at hs
    injection hs with hs
    subst hs
    refine h.move [] hidle (by rw [hcase]; rfl) (by rw [hcase]; rfl) rfl rfl ?_ rfl
      (by rw [hcase]; exact (List.append_nil _).symm) ?_
    · rw [List.append_nil]
      exact holds_store h.fifo _
    · rw [List.append_nil]
      exact ⟨hi, rfl, hroom, Memory.write_singleton_self _ _ _⟩
  | commit data i tail =>
    rw [hcase] at hthread
    obtain ⟨hi, rfl, hroom, hbyte⟩ := hthread
    simp only [Device.threadStep, hcase] at hs
    injection hs with hs
    subst hs
    refine h.move [data.getD i 0] hidle (by rw [hcase]; rfl) (by rw [hcase]; rfl) rfl rfl
      (holds_commit h.fifo hroom hbyte) rfl ?_ trivial
    rw [hcase]
    exact take_succ_getD hi
  | check data i =>
    rw [hcase] at hthread
    simp only [Device.threadStep, hcase] at hs
    split at hs
    · rename_i hzero
      injection hs with hs
      subst hs
      refine h.move [] hidle (by rw [hcase]; rfl) (by rw [hcase]; rfl) rfl rfl
        (by rw [List.append_nil]; exact h.fifo) rfl (by rw [hcase]; exact (List.append_nil _).symm) ?_
      have hrest := h.rest hzero
      exact ⟨fun _ => ⟨⟨⟨hrest.sent, hrest.txdrdy⟩, hzero, Nat.zero_le _⟩, hidle⟩, fun hopen => absurd trivial hopen⟩
    · rename_i hbusy
      injection hs with hs
      subst hs
      obtain ⟨hinv, hsame⟩ := h.finish data i (by rw [hcase]; rfl) (by rw [hcase]; rfl)
        (by rw [hcase]; rfl) (Or.inr (Or.inr (Nat.pos_of_ne_zero hbusy)))
      exact ⟨⟨q, hinv, by rw [hsame]; rfl⟩, by rw [hsame]; rfl⟩
  | fill data i f =>
    rw [hcase] at hthread
    by_cases hopen : f.Open
    · obtain ⟨q', hinv, hsame, -⟩ := h.threadFill hidle hcase hopen hs
      exact ⟨⟨q', hinv, Nat.le_of_eq hsame⟩, hsame⟩
    · have hawake := hthread.2 hopen
      obtain ⟨j, rfl⟩ := Fill.eq_done hopen
      simp only [Device.threadStep, hcase] at hs
      injection hs with hs
      subst hs
      obtain ⟨hinv, hsame⟩ := h.finish data i (by rw [hcase]; rfl) (by rw [hcase]; rfl)
        (by rw [hcase]; rfl) hawake
      exact ⟨⟨q, hinv, by rw [hsame]; rfl⟩, by rw [hsame]; rfl⟩

/-! ## Runs -/

variable {P : Device → Party → Prop}

theorem Inv.step {p : Party} (h : Inv l s q) (hs : s.step l p = some s') : Kept l s s' ∧
    (Served s p → s.pending + s'.outstanding = s'.pending + s.outstanding) := by
  cases p with
  | thread =>
    simp only [Device.step] at hs
    split at hs
    · rename_i hidle
      obtain ⟨hkept, hsame⟩ := h.threadStep hidle hs
      exact ⟨hkept, fun _ => hsame⟩
    · cases hs
  | handler =>
    obtain ⟨hkept, hsame⟩ := h.handlerStep hs
    exact ⟨hkept, fun _ => hsame⟩
  | uarte => exact h.uarteStep hs

theorem Inv.call (h : Inv l s q) (ht : s.thread = .idle) (hh : s.handler = .idle) (data : List UInt8) :
    Kept l s { s with thread := .put data 0 } ∧
      s.pending + Device.outstanding { s with thread := .put data 0 } = s.pending + s.outstanding :=
  h.move [] hh (by rw [ht]; rfl) (by rw [ht]; rfl) rfl rfl (by rw [List.append_nil]; exact h.fifo) rfl
    (by rw [ht]; rfl) trivial

theorem Kept.of_step (h : Inv l s q) (hs : Step l P s s') : Kept l s s' := by
  cases hs with
  | call data ht hh => exact (h.call ht hh data).1
  | work hwork =>
    obtain ⟨p, -, hstep⟩ := hwork
    exact (h.step hstep).1

theorem inv_run (hs : Inv l s q) (hrun : ReflTransGen (Step l P) s s') : ∃ q', Inv l s' q' := by
  induction hrun with
  | refl => exact ⟨q, hs⟩
  | tail _ hstep ih =>
    obtain ⟨q₁, hinv⟩ := ih
    obtain ⟨q', hinv', -⟩ := Kept.of_step hinv hstep
    exact ⟨q', hinv'⟩

theorem Inv.idle_of_open (h : Inv l s q) {f : Fill} (hopen : f.Open)
    (hf : s.handler = .fill f ∨ ∃ data i, s.thread = .fill data i f) : s.Rest := by
  cases hf with
  | inl hhandler =>
    have hok := h.handler
    rw [hhandler] at hok
    exact Fill.Ok.rest hok hopen
  | inr hthread =>
    obtain ⟨data, i, hthread⟩ := hthread
    exact (h.thread.rest (by rw [hthread]; exact hopen)).1

/-- When the handler tells that all is sent, it is. -/
theorem Inv.notices (h : Inv l s q) (hs : s.step l .handler = some s') (hne : s'.notices ≠ s.notices) :
    s.wire = s.accepted := by
  simp only [Device.step, Device.handlerStep] at hs
  split at hs
  · split at hs
    · injection hs with hs
      subst hs
      exact absurd rfl hne
    · cases hs
  · injection hs with hs
    subst hs
    exact absurd rfl hne
  · rename_i i hcase
    injection hs with hs
    subst hs
    have hok := h.handler
    rw [hcase] at hok
    by_cases hi : i = 0
    · obtain ⟨rfl, hsent⟩ := hok.1 hi
      have hloaded := (Thread.of_not_filling (h.thread.alone (by simp [hcase]))).1
      have hbytes := h.bytes
      simpa [Device.inflight, Device.remaining, Nat.sub_eq_zero_of_le hsent, hloaded, hcase, Fill.loaded] using hbytes
    · simp [hi] at hne
  · injection hs with hs
    subst hs
    exact absurd (Fill.step_framed l s _).notices hne

/-! ## Schedules -/

/-- The device after a step of each of the given parties. -/
def schedule (l : Limits) : Device → List Party → Option Device
  | s, [] => some s
  | s, p :: ps =>
    match s.step l p with
    | some s' => schedule l s' ps
    | none => none

theorem schedule_run {ps : List Party} (hp : ∀ s, ∀ p ∈ ps, P s p) (h : schedule l s ps = some s') :
    ReflTransGen (Step l P) s s' := by
  induction ps generalizing s with
  | nil =>
    injection h with h
    rw [h]
  | cons p ps ih =>
    simp only [schedule] at h
    split at h
    · rename_i s₁ hstep
      have hrest := ih (fun s p hmem => hp s p (List.mem_cons_of_mem _ hmem)) h
      exact hrest.head (.work (.mk p (hp s p List.mem_cons_self) hstep))
    · cases h

def sampleLimits : Limits := ⟨3, 2, by decide, by decide, by decide, by decide⟩

def sampleStart : Device := initializeWith sampleLimits (fun _ => 0) (fun _ => 0)

/-- The end of a run that begins with a call. -/
def sampleCall (s : Device) (data : List UInt8) (ps : List Party) : Device :=
  (schedule sampleLimits { s with thread := .put data 0 } ps).getD s

/-- A call with two bytes, from its begin to its end. -/
def sampleTaken : Device := sampleCall sampleStart [1, 2] (List.replicate 14 .thread)

theorem sampleTaken_run (hP : ∀ s, P s .thread) : ReflTransGen (Step sampleLimits P) sampleStart sampleTaken := by
  refine .head (.call [1, 2] rfl rfl) (@schedule_run _ _ _ _ (List.replicate 14 .thread) ?_ rfl)
  intro s p hp
  rw [List.eq_of_mem_replicate hp]
  exact hP s

/-- In every order of the steps: the bytes sent, those under way and those in the queue are the bytes that calls
have taken, in their order; the count of events does not fall below zero; the buffer is not written while the
UARTE sends it; and when the handler tells that all is sent, it is. -/
theorem order_kept (l : Limits) (data dma : Memory) (s : Device)
    (hrun : ReflTransGen (Step l Free) (initializeWith l data dma) s) :
    (∃ q, s.fifo.Holds q ∧ s.wire ++ s.inflight ++ q = s.accepted) ∧
      (s.handler = .count → 0 < s.pending) ∧
      (∀ f : Fill, f.Open → (s.handler = .fill f ∨ ∃ data i, s.thread = .fill data i f) → s.count ≤ s.sent) ∧
      ∀ s', s.step l .handler = some s' → s'.notices ≠ s.notices → s.wire = s.accepted := by
  obtain ⟨q, hinv⟩ := inv_run (inv_initializeWith l data dma) hrun
  refine ⟨⟨q, hinv.fifo, hinv.bytes⟩, hinv.counting, ?_, fun s' => hinv.notices⟩
  intro f hopen hf
  exact (hinv.idle_of_open hopen hf).sent

theorem order_kept_sample : sampleTaken.returned = [([1, 2], 2)] ∧
    (∃ q, sampleTaken.fifo.Holds q ∧ sampleTaken.wire ++ sampleTaken.inflight ++ q = sampleTaken.accepted) ∧
      (sampleTaken.handler = .count → 0 < sampleTaken.pending) ∧
      (∀ f : Fill, f.Open → (sampleTaken.handler = .fill f ∨ ∃ data i, sampleTaken.thread = .fill data i f) →
        sampleTaken.count ≤ sampleTaken.sent) ∧
      ∀ s', sampleTaken.step sampleLimits .handler = some s' → s'.notices ≠ sampleTaken.notices →
        sampleTaken.wire = sampleTaken.accepted :=
  ⟨rfl, order_kept sampleLimits (fun _ => 0) (fun _ => 0) sampleTaken (sampleTaken_run fun _ => trivial)⟩

end Uart
end Firefly
