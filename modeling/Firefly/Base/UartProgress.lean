import Firefly.Base.UartSafety

/-!
# Firefly.Base.UartProgress

What becomes of the bytes that `fd_uart_instance_tx` has taken. While every event of the UARTE is served before
the next byte is out, they all get out without another call, in a number of steps that is bounded (`drains`).
The event is one bit: where two bytes raised it and the handler counted one, `pending` never gets to zero again,
and nothing but the rest of the DMA buffer is ever sent (`stalls`).
-/

namespace Firefly
namespace Uart

open Relation

variable {l : Limits} {P : Device → Party → Prop} {s s' : Device} {q : List UInt8}

/-! ## All bytes get out -/

def Fill.measure : Fill → Nat
  | .get _ => 7
  | .exit _ => 5
  | .start _ => 4
  | .done _ => 3

def Thread.measure : Thread → Nat
  | .idle => 0
  | .put data i => 20 * (data.length - i) + 10
  | .store data i _ => 20 * (data.length - i) + 9
  | .commit data i _ => 20 * (data.length - i) + 8
  | .check _ _ => 9
  | .fill _ _ f => f.measure + 1

def Handler.measure : Handler → Nat
  | .idle => 0
  | .count => 9
  | .fill f => f.measure + 1

/-- A bound for the steps until all is done. -/
def Device.measure (s : Device) : Nat :=
  s.thread.measure + 13 * s.fifo.getCount + 11 * ((s.count - s.sent) + s.thread.loaded + s.handler.loaded) +
    (if s.txdrdy then 10 else 0) + s.handler.measure

theorem Inv.getCount (h : Inv l s q) : s.fifo.getCount = q.length :=
  h.fifo.getCount (by rw [h.size]; exact l.fifo_lt)

theorem Fill.step_measure {f : Fill} {q' : List UInt8} (hopen : f.Open)
    (h : Stepped l s q f (f.step l s).2 q' (f.step l s).1) :
    (f.step l s).1.measure + 2 * q'.length < f.measure + 2 * q.length := by
  have hlen := h.length
  cases f with
  | get i =>
    have hbytes := congrArg List.length h.bytes
    simp only [Fill.step] at hbytes ⊢
    split
    · rename_i hroom
      rw [if_pos hroom] at hbytes
      split
      · rename_i byte fifo hget
        simp only [hget] at hbytes
        simp [Device.remaining, Fill.loaded] at hbytes
        simp only [Fill.measure]
        omega
      · simp only [Fill.measure]
        omega
    · simp only [Fill.measure]
      omega
  | exit i =>
    simp only [Fill.step]
    split <;> simp only [Fill.measure] <;> omega
  | start i =>
    simp only [Fill.step, Fill.measure]
    omega
  | done i => exact hopen.elim

/-- Moving a byte from the queue to the buffer brings it nearer to the line. -/
theorem Stepped.weight {f f' : Fill} {q' : List UInt8} (h : Stepped l s q f s' q' f') :
    (s'.count - s'.sent) + f'.loaded + q'.length = (s.count - s.sent) + f.loaded + q.length := by
  have hbytes := congrArg List.length h.bytes
  simpa [Device.remaining, Nat.add_assoc] using hbytes

theorem uarte_measure (hs : s.uarteStep = some s') : s'.measure < s.measure := by
  rw [Device.uarteStep] at hs
  split at hs
  · rename_i hleft
    injection hs with hs
    subst hs
    simp only [Device.measure, if_true]
    split <;> omega
  · cases hs

theorem Inv.handler_measure (h : Inv l s q) (hs : s.handlerStep l = some s') : s'.measure < s.measure := by
  cases hcase : s.handler with
  | idle =>
    simp only [Device.handlerStep, hcase] at hs
    split at hs
    · rename_i htxdrdy
      injection hs with hs
      subst hs
      simp [Device.measure, htxdrdy, hcase, Handler.measure]
    · cases hs
  | count =>
    simp only [Device.handlerStep, hcase] at hs
    injection hs with hs
    subst hs
    split <;> simp [Device.measure, hcase, Handler.measure, Fill.measure, Fill.loaded]
  | fill f =>
    by_cases hopen : f.Open
    · obtain ⟨q', hinv, -, rfl, hstep⟩ := h.handlerFill hcase hopen hs
      have hcount := h.getCount
      have hcount' := hinv.getCount
      have hweight := hstep.weight
      have hprogress := Fill.step_measure hopen hstep
      have htxdrdy := (Fill.step_framed l s f).txdrdy
      simp only [Device.measure, hcase, Handler.loaded_fill, Handler.measure, htxdrdy, hcount] at hcount' ⊢
      rw [hcount']
      omega
    · obtain ⟨i, rfl⟩ := Fill.eq_done hopen
      simp only [Device.handlerStep, hcase] at hs
      injection hs with hs
      subst hs
      simp [Device.measure, hcase, Handler.measure, Fill.measure, Fill.loaded]

theorem finish_measure (s : Device) (data : List UInt8) (i : Nat) :
    (s.finish data i).measure + s.thread.measure + 11 * s.thread.loaded = s.measure := by
  have hfifo : (s.finish data i).fifo = s.fifo := rfl
  have hhandler : (s.finish data i).handler = s.handler := rfl
  have htxdrdy : (s.finish data i).txdrdy = s.txdrdy := rfl
  have hcount : (s.finish data i).count - (s.finish data i).sent = s.count - s.sent := rfl
  have hthread : (s.finish data i).thread = .idle := rfl
  rw [Device.measure, Device.measure, hfifo, hhandler, htxdrdy, hcount, hthread, Thread.measure, Thread.loaded_idle]
  omega

theorem Inv.thread_measure (h : Inv l s q) (hidle : s.handler = .idle) (hs : s.threadStep l = some s') :
    s'.measure < s.measure := by
  have hthread := h.thread
  cases hcase : s.thread with
  | idle =>
    simp only [Device.threadStep, hcase] at hs
    cases hs
  | put data i =>
    simp only [Device.threadStep, hcase] at hs
    split at hs
    · injection hs with hs
      subst hs
      simp [Device.measure, hcase, Thread.measure, Thread.loaded]
    · injection hs with hs
      subst hs
      simp [Device.measure, hcase, Thread.measure, Thread.loaded]
  | store data i tail =>
    simp only [Device.threadStep, hcase] at hs
    injection hs with hs
    subst hs
    simp [Device.measure, hcase, Thread.measure, Thread.loaded, Fifo.getCount]
  | commit data i tail =>
    rw [hcase] at hthread
    obtain ⟨hi, rfl, hroom, hbyte⟩ := hthread
    have hholds := holds_commit h.fifo hroom hbyte
    have hcount := hholds.getCount (by rw [h.size]; exact l.fifo_lt)
    simp only [Device.threadStep, hcase] at hs
    injection hs with hs
    subst hs
    rw [List.length_append, List.length_singleton] at hcount
    simp only [Device.measure, hcase, hidle, hcount, h.getCount, Thread.measure, Thread.loaded]
    omega
  | check data i =>
    simp only [Device.threadStep, hcase] at hs
    split at hs
    · injection hs with hs
      subst hs
      simp [Device.measure, hcase, Thread.measure, Thread.loaded, Fill.measure, Fill.loaded]
    · injection hs with hs
      subst hs
      have hfinish := finish_measure s data i
      rw [hcase, Thread.measure] at hfinish
      omega
  | fill data i f =>
    by_cases hopen : f.Open
    · obtain ⟨q', hinv, -, rfl, hstep⟩ := h.threadFill hidle hcase hopen hs
      have hcount := h.getCount
      have hcount' := hinv.getCount
      have hweight := hstep.weight
      have hprogress := Fill.step_measure hopen hstep
      have htxdrdy := (Fill.step_framed l s f).txdrdy
      simp only [Device.measure, hcase, Thread.loaded_fill, Thread.measure, htxdrdy, hcount] at hcount' ⊢
      rw [hcount']
      omega
    · obtain ⟨j, rfl⟩ := Fill.eq_done hopen
      simp only [Device.threadStep, hcase] at hs
      injection hs with hs
      subst hs
      have hfinish := finish_measure s data i
      rw [hcase, Thread.measure, Fill.measure] at hfinish
      omega

theorem Inv.work_measure (h : Inv l s q) (hs : Work l P s s') : s'.measure < s.measure := by
  obtain ⟨p, -, hstep⟩ := hs
  cases p with
  | thread =>
    simp only [Device.step] at hstep
    split at hstep
    · rename_i hidle
      exact h.thread_measure hidle hstep
    · cases hstep
  | handler => exact h.handler_measure hstep
  | uarte => exact uarte_measure hstep

theorem Inv.chain_length {states : List Device} (h : Inv l s q) (hwork : List.IsChain (Work l P) (s :: states)) :
    states.length ≤ s.measure := by
  induction states generalizing s q with
  | nil => exact Nat.zero_le _
  | cons s' states ih =>
    rw [List.isChain_cons_cons] at hwork
    obtain ⟨hfirst, hrest⟩ := hwork
    obtain ⟨q', hinv, -⟩ := Kept.of_step h (.work hfirst)
    have hless := h.work_measure hfirst
    have hbound := ih hinv hrest
    rw [List.length_cons]
    omega

/-- Every event is counted, or will be. -/
def Exact (s : Device) : Prop := s.pending = s.outstanding

theorem exact_run (hs : Inv l s q) (hexact : Exact s) (hrun : ReflTransGen (Step l Served) s s') :
    ∃ q', Inv l s' q' ∧ Exact s' := by
  induction hrun with
  | refl => exact ⟨q, hs, hexact⟩
  | tail _ hstep ih =>
    obtain ⟨q₁, hinv, hsame⟩ := ih
    obtain ⟨q', hinv', -⟩ := Kept.of_step hinv hstep
    refine ⟨q', hinv', ?_⟩
    rw [Exact] at hsame ⊢
    cases hstep with
    | call data ht hh =>
      have hcall := (hinv.call ht hh data).2
      simp only at hcall ⊢
      omega
    | work hwork =>
      obtain ⟨p, hserved, hstep⟩ := hwork
      have hkept := (hinv.step hstep).2 hserved
      omega

theorem handlerStep_none (h : s.handlerStep l = none) : s.handler = .idle ∧ s.txdrdy = false := by
  simp only [Device.handlerStep] at h
  split at h
  · rename_i hidle
    split at h
    · cases h
    · rename_i hclear
      exact ⟨hidle, Bool.eq_false_of_not_eq_true hclear⟩
  · cases h
  · cases h
  · cases h

theorem threadStep_none (h : s.threadStep l = none) : s.thread = .idle := by
  simp only [Device.threadStep] at h
  split at h
  · assumption
  · split at h <;> cases h
  · cases h
  · cases h
  · split at h <;> cases h
  · cases h
  · cases h

theorem uarteStep_none (h : s.uarteStep = none) : s.count ≤ s.sent := by
  simp only [Device.uarteStep] at h
  split at h
  · cases h
  · rename_i hall
    exact Nat.le_of_not_lt hall

/-- Where no step is left, everything is sent. -/
theorem Inv.settled (h : Inv l s q) (hexact : Exact s) (hend : ∀ s', ¬ Work l Served s s') :
    s.thread = .idle ∧ s.wire = s.returned.flatMap fun c => c.1.take c.2 := by
  have hstop (p : Party) (hp : Served s p) : s.step l p = none := by
    cases hstep : s.step l p with
    | none => rfl
    | some s' => exact absurd (.mk p hp hstep) (hend s')
  obtain ⟨hidle, hclear⟩ := handlerStep_none (hstop .handler trivial)
  have hthread : s.thread = .idle := by
    have hnone := hstop .thread trivial
    simp only [Device.step, hidle] at hnone
    exact threadStep_none hnone
  have hsent := uarteStep_none (hstop .uarte hclear)
  have hstopped := Nat.sub_eq_zero_of_le hsent
  have hpending : s.pending = 0 := by
    rw [hexact, Device.outstanding, hstopped, hclear, hthread, hidle]
    rfl
  have hempty : q = [] := by
    have hok := h.thread
    rw [hthread] at hok
    rcases hok with hfilling | hempty | hpos
    · rw [hidle] at hfilling
      exact hfilling.elim
    · exact hempty
    · omega
  have hbytes := h.bytes
  refine ⟨hthread, ?_⟩
  simpa [Device.inflight, Device.remaining, Device.accepted, Thread.accepted, hstopped, hthread, hidle, hempty]
    using hbytes

/-- While every event is served before the next byte is out, the device comes to rest in a bounded number of
steps, and then all bytes that calls have taken are sent, in their order. -/
theorem drains (l : Limits) (data dma : Memory) (s : Device)
    (hrun : ReflTransGen (Step l Served) (initializeWith l data dma) s) :
    (∀ states, List.IsChain (Work l Served) (s :: states) → states.length ≤ s.measure) ∧
      ((∀ s', ¬ Work l Served s s') → s.thread = .idle ∧ s.wire = s.returned.flatMap fun c => c.1.take c.2) := by
  obtain ⟨q, hinv, hexact⟩ := exact_run (inv_initializeWith l data dma) rfl hrun
  exact ⟨fun _ hwork => hinv.chain_length hwork, fun hend => hinv.settled hexact hend⟩

theorem drains_sample : sampleTaken.returned = [([1, 2], 2)] ∧
    (∀ states, List.IsChain (Work sampleLimits Served) (sampleTaken :: states) →
      states.length ≤ sampleTaken.measure) ∧
      ((∀ s', ¬ Work sampleLimits Served sampleTaken s') → sampleTaken.thread = .idle ∧
        sampleTaken.wire = sampleTaken.returned.flatMap fun c => c.1.take c.2) := by
  refine ⟨rfl, ?_⟩
  exact drains sampleLimits (fun _ => 0) (fun _ => 0) sampleTaken (sampleTaken_run fun _ => trivial)

/-! ## A missed event -/

/-- The line when nothing new gets into the buffer. -/
def Device.line (s : Device) : List UInt8 := s.wire ++ s.remaining

theorem Fill.Ok.exact {f : Fill} (h : f.Ok l s q) (hopen : f.Open) : s.pending = f.counted := by
  cases f with
  | done i => exact hopen.elim
  | get i => exact h.2.1
  | exit i => exact h.2.1
  | start i => exact h.2.1

/-- With an event missed, no party fills the buffer. -/
theorem Inv.not_filling (h : Inv l s q) (hmissed : s.outstanding < s.pending) :
    ¬ s.thread.Filling ∧ ¬ s.handler.Filling := by
  constructor
  · intro hopen
    obtain ⟨data, i, f, hcase, hf⟩ := hopen.eq_fill
    have hok := h.thread
    rw [hcase] at hok
    have hexact := (hok.1 hf).1.exact hf
    simp only [Device.outstanding, hcase, Thread.counted_fill] at hmissed
    omega
  · intro hopen
    cases hcase : s.handler with
    | idle =>
      rw [hcase] at hopen
      exact hopen
    | count =>
      rw [hcase] at hopen
      exact hopen
    | fill f =>
      rw [hcase] at hopen
      have hok := h.handler
      rw [hcase] at hok
      have hexact := Fill.Ok.exact hok hopen
      simp only [Device.outstanding, hcase, Handler.counted_fill] at hmissed
      omega

theorem uarte_line (hs : s.uarteStep = some s') : s'.line = s.line := by
  rw [Device.uarteStep] at hs
  split at hs
  · rename_i hleft
    injection hs with hs
    subst hs
    have hcount : s.count - s.sent = s.count - (s.sent + 1) + 1 := by omega
    simp only [Device.line, Device.remaining, hcount, Memory.read_succ, List.append_assoc, List.singleton_append]
  · cases hs

theorem handler_line (hclosed : ¬ s.handler.Filling) (hs : s.handlerStep l = some s') : s'.line = s.line := by
  cases hcase : s.handler with
  | idle =>
    simp only [Device.handlerStep, hcase] at hs
    split at hs
    · injection hs with hs
      rw [← hs]
      rfl
    · cases hs
  | count =>
    simp only [Device.handlerStep, hcase] at hs
    injection hs with hs
    rw [← hs]
    simp only [Device.line, Device.remaining]
  | fill f =>
    rw [hcase] at hclosed
    obtain ⟨i, rfl⟩ := Fill.eq_done hclosed
    simp only [Device.handlerStep, hcase] at hs
    injection hs with hs
    rw [← hs]
    rfl

theorem thread_line (hclosed : ¬ s.thread.Filling) (hs : s.threadStep l = some s') : s'.line = s.line := by
  cases hcase : s.thread with
  | idle =>
    simp only [Device.threadStep, hcase] at hs
    cases hs
  | put data i =>
    simp only [Device.threadStep, hcase] at hs
    split at hs <;> injection hs with hs <;> rw [← hs] <;> rfl
  | store data i tail =>
    simp only [Device.threadStep, hcase] at hs
    injection hs with hs
    rw [← hs]
    rfl
  | commit data i tail =>
    simp only [Device.threadStep, hcase] at hs
    injection hs with hs
    rw [← hs]
    rfl
  | check data i =>
    simp only [Device.threadStep, hcase] at hs
    split at hs <;> injection hs with hs <;> rw [← hs] <;> rfl
  | fill data i f =>
    rw [hcase] at hclosed
    obtain ⟨j, rfl⟩ := Fill.eq_done hclosed
    simp only [Device.threadStep, hcase] at hs
    injection hs with hs
    rw [← hs]
    rfl

theorem Inv.missed_step (h : Inv l s q) (hmissed : s.outstanding < s.pending) (hs : Step l P s s') :
    ∃ q', Inv l s' q' ∧ s'.outstanding < s'.pending ∧ s'.line = s.line := by
  obtain ⟨q', hinv, hkept⟩ := Kept.of_step h hs
  refine ⟨q', hinv, by omega, ?_⟩
  obtain ⟨hthread, hhandler⟩ := h.not_filling hmissed
  cases hs with
  | call data ht hh => rfl
  | work hwork =>
    obtain ⟨p, -, hstep⟩ := hwork
    cases p with
    | thread =>
      simp only [Device.step] at hstep
      split at hstep
      · exact thread_line hthread hstep
      · cases hstep
    | handler => exact handler_line hhandler hstep
    | uarte => exact uarte_line hstep

theorem Inv.missed_run (h : Inv l s q) (hmissed : s.outstanding < s.pending)
    (hrun : ReflTransGen (Step l P) s s') : ∃ q', Inv l s' q' ∧ s'.outstanding < s'.pending ∧ s'.line = s.line := by
  induction hrun with
  | refl => exact ⟨q, h, hmissed, rfl⟩
  | tail _ hstep ih =>
    obtain ⟨q₁, hinv, hless, hline⟩ := ih
    obtain ⟨q', hinv', hless', hline'⟩ := hinv.missed_step hless hstep
    exact ⟨q', hinv', hless', hline'.trans hline⟩

/-- A byte that goes out while the event of the byte before is still set stops the device for good: whatever
calls come later, only the rest of the DMA buffer is sent. -/
theorem stalls (l : Limits) (data dma : Memory) (s s₁ s' : Device)
    (hrun : ReflTransGen (Step l Free) (initializeWith l data dma) s) (hset : s.txdrdy = true)
    (hsend : s.step l .uarte = some s₁) (hlater : ReflTransGen (Step l Free) s₁ s') :
    s'.wire ++ s'.remaining = s₁.wire ++ s₁.remaining := by
  obtain ⟨q, hinv⟩ := inv_run (inv_initializeWith l data dma) hrun
  have hcounted := hinv.counted
  obtain ⟨⟨q₁, hinv₁, -⟩, -⟩ := hinv.step hsend
  have hmissed : s₁.outstanding < s₁.pending := by
    simp only [Device.step, Device.uarteStep] at hsend
    split at hsend
    · injection hsend with hsend
      subst hsend
      simp only [Device.outstanding, hset, if_true] at hcounted ⊢
      omega
    · cases hsend
  obtain ⟨q', -, -, hline⟩ := hinv₁.missed_run hmissed hlater
  exact hline

/-- The second byte of the call goes out before the handler runs; a third is taken and stays. -/
def sampleSent : Device := (sampleTaken.uarteStep).getD sampleTaken

def sampleMissed : Device := (sampleSent.uarteStep).getD sampleSent

def sampleStalled : Device := sampleCall sampleMissed [3] (List.replicate 5 .thread)

theorem stalls_sample : sampleStalled.returned = [([1, 2], 2), ([3], 1)] ∧
    sampleStalled.wire ++ sampleStalled.remaining = sampleMissed.wire ++ sampleMissed.remaining := by
  refine ⟨rfl, stalls sampleLimits (fun _ => 0) (fun _ => 0) sampleSent sampleMissed sampleStalled ?_ rfl rfl ?_⟩
  · exact (sampleTaken_run fun _ => trivial).tail (.work (.mk .uarte trivial rfl))
  · exact .head (.call [3] rfl rfl) (@schedule_run _ _ _ _ (List.replicate 5 .thread) (fun _ _ _ => trivial) rfl)

end Uart
end Firefly
