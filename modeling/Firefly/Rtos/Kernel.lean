import Mathlib.Data.Set.Card
import Firefly.Lib.Events
import Firefly.Rtos.Scheduler

/-!
# Firefly.Rtos.Kernel

The tasks of `fd_rtos.c` as they wait, delay and yield, the interrupts that signal a condition or end a delay, and the
PendSV interrupt that changes the task. A section of code with the interrupts disabled is one step, and so is an
interrupt handler; a task only moves while no PendSV interrupt is pending. `fd_rtos_yield` is for tasks, and no
interrupt handler calls it: one that did so between the two halves of `fd_rtos_delay` would leave the task without its
callback.

Of each task that cannot run one condition or one callback knows, or its delay is about to be scheduled (`claims`).
Only a `fd_rtos_condition_wait` on a condition that another task waits on, for which its assertion fails, takes the
claim of a task away, for ever. So `assertion_failure_count` is the number of tasks that no run makes runnable again
(`failures_eq_lost`).
-/

namespace Firefly
namespace Rtos

/-- `conditions` are the `task` fields of the conditions, and `callbacks` the tasks of the delay callbacks that are
scheduled. `cpu` is the context of the task at `task_index`, whose own is out of date. -/
structure Kernel where
  tasks : List Task
  taskIndex : Nat
  taskStart : Bool
  assertionFailureCount : Nat
  conditions : List (Option Nat)
  callbacks : List Nat
  pendsv : Bool
  cpu : Context

/-- `fd_rtos_add_task`, of which the stack is left out. -/
def addTask (limit priority : Nat) (s : Kernel) : Kernel :=
  if s.tasks.length ≥ limit then s
  else { s with tasks := s.tasks ++ [{ priority := priority, runnable := true, context := .run }] }

/-- `fd_rtos_initialize`, with conditions that are initialized. -/
def initializeWith (limit conditionCount : Nat) : Kernel :=
  addTask limit 0
    { tasks := []
      taskIndex := 0
      taskStart := true
      assertionFailureCount := 0
      conditions := List.replicate conditionCount none
      callbacks := []
      pendsv := false
      cpu := .run }

/-- The tasks are added, and `fd_rtos_run` yields. -/
def boot (limit conditionCount : Nat) (priorities : List Nat) : Kernel :=
  let s := priorities.foldl (fun s priority => addTask limit priority s) (initializeWith limit conditionCount)
  { s with pendsv := true }

namespace Kernel

def setRunnable (s : Kernel) (i : Nat) (runnable : Bool) : Kernel :=
  { s with tasks := s.tasks.modify i fun t => { t with runnable := runnable } }

def isAnyTaskRunnable (s : Kernel) : Bool := (s.tasks.drop 1).any (·.runnable)

/-- `fd_rtos_condition_wait`, up to its yield. -/
def conditionWait (s : Kernel) (k : Nat) : Kernel :=
  let failed := s.conditions.getD k none ≠ none
  { s.setRunnable s.taskIndex false with
    assertionFailureCount := if failed then (s.assertionFailureCount + 1) % 2 ^ 32 else s.assertionFailureCount
    conditions := s.conditions.set k (some s.taskIndex)
    cpu := .yield }

/-- `fd_rtos_condition_signal`. -/
def conditionSignal (s : Kernel) (k : Nat) : Kernel :=
  match s.conditions.getD k none with
  | none => s
  | some t => { s.setRunnable t true with conditions := s.conditions.set k none }

/-- `fd_rtos_delay`, until the interrupts are enabled again. -/
def delay (s : Kernel) : Kernel := { s.setRunnable s.taskIndex false with cpu := .delay }

/-- `fd_rtos_delay_callback`. -/
def delayCallback (s : Kernel) (t : Nat) : Kernel :=
  { s.setRunnable t true with callbacks := s.callbacks.erase t }

/-- What the current task does next by itself: the sleep task looks for other tasks and sleeps, or wakes up for an
interrupt; `fd_rtos_delay` schedules its callback; and a call yields. -/
def resume (s : Kernel) : Option Kernel :=
  match s.cpu with
  | .run => if s.taskIndex = 0 then some { s with cpu := if s.isAnyTaskRunnable then .yield else .sleep } else none
  | .sleep => some { s with cpu := .yield }
  | .delay => some { s with callbacks := s.taskIndex :: s.callbacks, cpu := .yield }
  | .yield => some { s with pendsv := true, cpu := .run }

/-- `fd_rtos_schedule`, with the contexts in the place of the stacks. -/
def schedule (s : Kernel) : Kernel :=
  let tasks := if s.taskStart then s.tasks else s.tasks.modify s.taskIndex fun t => { t with context := s.cpu }
  let index := select tasks
  { s with
    tasks := tasks
    taskIndex := index
    taskStart := false
    pendsv := false
    cpu := (task tasks index).context }

end Kernel

inductive Event where
  | wait (k : Nat)
  | delay
  | yield
  | resume
  | signal (k : Nat)
  | expire (t : Nat)
  | pendsv

/-- An event, where it can happen. A task other than the sleep task waits, delays and yields. -/
def step (s : Kernel) : Event → Option Kernel
  | .wait k =>
    if s.pendsv = false ∧ s.cpu = .run ∧ s.taskIndex ≠ 0 ∧ k < s.conditions.length then some (s.conditionWait k)
    else none
  | .delay => if s.pendsv = false ∧ s.cpu = .run ∧ s.taskIndex ≠ 0 then some s.delay else none
  | .yield => if s.pendsv = false ∧ s.cpu = .run ∧ s.taskIndex ≠ 0 then some { s with cpu := .yield } else none
  | .resume => if s.pendsv = false then s.resume else none
  | .signal k => if s.cpu ≠ .sleep then some (s.conditionSignal k) else none
  | .expire t => if s.cpu ≠ .sleep ∧ t ∈ s.callbacks then some (s.delayCallback t) else none
  | .pendsv => if s.pendsv = true then some s.schedule else none

/-- What an event does, and when it can happen. -/
inductive Moves (s : Kernel) : Kernel → Prop where
  | wait {k : Nat} (hpendsv : s.pendsv = false) (hcpu : s.cpu = .run) (hindex : s.taskIndex ≠ 0)
      (hk : k < s.conditions.length) : Moves s (s.conditionWait k)
  | delay (hpendsv : s.pendsv = false) (hcpu : s.cpu = .run) (hindex : s.taskIndex ≠ 0) : Moves s s.delay
  | yield (hpendsv : s.pendsv = false) (hcpu : s.cpu = .run) : Moves s { s with cpu := .yield }
  | resume {s' : Kernel} (hpendsv : s.pendsv = false) (hresume : s.resume = some s') : Moves s s'
  | signal (k : Nat) (hsleep : s.cpu ≠ .sleep) : Moves s (s.conditionSignal k)
  | expire {t : Nat} (hsleep : s.cpu ≠ .sleep) (ht : t ∈ s.callbacks) : Moves s (s.delayCallback t)
  | pendsv (hpendsv : s.pendsv = true) : Moves s s.schedule

theorem moves_of_step {s s' : Kernel} (hstep : Events.Step step s s') : Moves s s' := by
  obtain ⟨e, hstep⟩ := hstep
  cases e with
  | wait k =>
    obtain ⟨⟨hpendsv, hcpu, hindex, hk⟩, ⟨⟩⟩ := Option.ite_none_right_eq_some.1 hstep
    exact .wait hpendsv hcpu hindex hk
  | delay =>
    obtain ⟨⟨hpendsv, hcpu, hindex⟩, ⟨⟩⟩ := Option.ite_none_right_eq_some.1 hstep
    exact .delay hpendsv hcpu hindex
  | yield =>
    obtain ⟨⟨hpendsv, hcpu, -⟩, ⟨⟩⟩ := Option.ite_none_right_eq_some.1 hstep
    exact .yield hpendsv hcpu
  | resume =>
    obtain ⟨hpendsv, hresume⟩ := Option.ite_none_right_eq_some.1 hstep
    exact .resume hpendsv hresume
  | signal k =>
    obtain ⟨hsleep, ⟨⟩⟩ := Option.ite_none_right_eq_some.1 hstep
    exact .signal k hsleep
  | expire t =>
    obtain ⟨⟨hsleep, ht⟩, ⟨⟩⟩ := Option.ite_none_right_eq_some.1 hstep
    exact .expire hsleep ht
  | pendsv =>
    obtain ⟨hpendsv, ⟨⟩⟩ := Option.ite_none_right_eq_some.1 hstep
    exact .pendsv hpendsv

/-! ## Claims -/

/-- Who will run a task, or make it runnable: the scheduler, a condition, a callback, or its own delay. -/
def claims (s : Kernel) (t : Nat) : Nat :=
  (task s.tasks t).runnable.toNat + s.conditions.count (some t) + s.callbacks.count t +
    (decide (t = s.taskIndex ∧ s.cpu = .delay)).toNat

/-- No run makes the task runnable. -/
def Lost (s : Kernel) (t : Nat) : Prop := ∀ s', Events.Reaches step s s' → (task s'.tasks t).runnable = false

structure Shape (s : Kernel) : Prop where
  sleeps : Sleeps s.tasks
  small : s.tasks.length ≤ 2 ^ 32
  index : s.taskIndex < s.tasks.length
  saved : ∀ t, (task s.tasks t).context = .run
  pending : s.pendsv = true → s.cpu = .run
  current : s.pendsv = false → s.cpu = .run → (task s.tasks s.taskIndex).runnable = true
  asleep : s.cpu = .sleep → s.taskIndex = 0 ∧ ∀ t, 0 < t → (task s.tasks t).runnable = false

/-- The tasks of which no claim is left. -/
def orphans (s : Kernel) : Finset Nat := (Finset.range s.tasks.length).filter fun t => claims s t = 0

structure Inv (s : Kernel) : Prop extends Shape s where
  once : ∀ t, claims s t ≤ 1
  outside : ∀ t, s.tasks.length ≤ t → claims s t = 0
  failures : s.assertionFailureCount = (orphans s).card

variable {s s' : Kernel} {tasks : List Task} {i j t k : Nat}

theorem task_modify (f : Task → Task) : task (tasks.modify i f) j =
    if i = j ∧ j < tasks.length then f (task tasks j) else task tasks j := by
  simp only [task, List.getD_eq_getElem?_getD, List.getElem?_modify]
  by_cases hj : j < tasks.length
  · by_cases hi : i = j <;> simp [hi, hj]
  · simp [hj]

theorem task_of_length_le (h : tasks.length ≤ i) : task tasks i = .unused := by
  rw [task, List.getD_eq_getElem?_getD, List.getElem?_eq_none h, Option.getD_none]

@[simp] theorem length_setRunnable (b : Bool) : (s.setRunnable i b).tasks.length = s.tasks.length := by
  simp [Kernel.setRunnable]

theorem runnable_setRunnable (b : Bool) (hi : i < s.tasks.length) :
    (task (s.setRunnable i b).tasks j).runnable = if i = j then b else (task s.tasks j).runnable := by
  rw [Kernel.setRunnable, task_modify]
  by_cases h : i = j
  · subst h
    simp [hi]
  · simp [h]

theorem priority_setRunnable (b : Bool) :
    (task (s.setRunnable i b).tasks j).priority = (task s.tasks j).priority := by
  rw [Kernel.setRunnable, task_modify]
  split <;> rfl

theorem context_setRunnable (b : Bool) : (task (s.setRunnable i b).tasks j).context = (task s.tasks j).context := by
  rw [Kernel.setRunnable, task_modify]
  split <;> rfl

theorem count_conditions {conditions : List (Option Nat)} (v : Option Nat) (hk : k < conditions.length) :
    (conditions.set k v).count (some t) + (if conditions.getD k none = some t then 1 else 0) =
      conditions.count (some t) + if v = some t then 1 else 0 := by
  have hget : conditions.getD k none = conditions[k] := by
    rw [List.getD_eq_getElem?_getD, List.getElem?_eq_getElem hk, Option.getD_some]
  rw [List.count_set hk, hget]
  by_cases hold : conditions[k] = some t
  · have hpos : 0 < conditions.count (some t) := List.count_pos_iff.2 (hold ▸ List.getElem_mem hk)
    simp only [hold, beq_self_eq_true, if_true, beq_iff_eq]
    omega
  · simp only [hold, beq_iff_eq, if_false]
    omega

theorem waits_of_getD {conditions : List (Option Nat)} (h : conditions.getD k none = some t) :
    k < conditions.length ∧ some t ∈ conditions := by
  rw [List.getD_eq_getElem?_getD] at h
  cases hk : conditions[k]? with
  | none =>
    rw [hk] at h
    cases h
  | some v =>
    rw [hk, Option.getD_some] at h
    subst h
    obtain ⟨hlt, -⟩ := List.getElem?_eq_some_iff.1 hk
    exact ⟨hlt, List.mem_of_getElem? hk⟩

theorem Inv.lt_of_claims (h : Inv s) (ht : 0 < claims s t) : t < s.tasks.length := by
  by_contra hlt
  rw [h.outside t (Nat.le_of_not_lt hlt)] at ht
  exact Nat.lt_irrefl 0 ht

/-- A task that can run has no other claim. -/
theorem Inv.free (h : Inv s) (hrun : (task s.tasks t).runnable = true) :
    s.conditions.count (some t) = 0 ∧ s.callbacks.count t = 0 := by
  have honce := h.once t
  rw [claims, hrun, Bool.toNat_true] at honce
  omega

theorem Inv.stopped (h : Inv s) (hheld : 0 < s.conditions.count (some t) + s.callbacks.count t) :
    t < s.tasks.length ∧ (task s.tasks t).runnable = false := by
  have hlt : t < s.tasks.length := h.lt_of_claims (by rw [claims]; omega)
  cases hrun : (task s.tasks t).runnable with
  | false => exact ⟨hlt, rfl⟩
  | true =>
    have hfree := h.free hrun
    omega

theorem Inv.claims_conditionWait (h : Inv s) (hpendsv : s.pendsv = false) (hcpu : s.cpu = .run)
    (hk : k < s.conditions.length) (t : Nat) :
    claims (s.conditionWait k) t + (if s.conditions.getD k none = some t then 1 else 0) = claims s t := by
  have hrun := h.current hpendsv hcpu
  have hfree := h.free hrun
  have hcount := count_conditions (t := t) (some s.taskIndex) hk
  have hclaims : claims (s.conditionWait k) t = (task (s.setRunnable s.taskIndex false).tasks t).runnable.toNat +
      (s.conditions.set k (some s.taskIndex)).count (some t) + s.callbacks.count t := by
    simp [claims, Kernel.conditionWait, Kernel.setRunnable]
  have hbefore : claims s t =
      (task s.tasks t).runnable.toNat + s.conditions.count (some t) + s.callbacks.count t := by
    simp [claims, hcpu]
  rw [hclaims, hbefore, runnable_setRunnable false h.index]
  by_cases ht : s.taskIndex = t
  · subst ht
    rw [if_pos rfl] at hcount
    rw [if_pos rfl, hrun, Bool.toNat_true, Bool.toNat_false]
    omega
  · have hne : some s.taskIndex ≠ some t := fun he => ht (Option.some.inj he)
    rw [if_neg hne] at hcount
    rw [if_neg ht]
    omega

theorem Inv.claims_conditionSignal (h : Inv s) (k t : Nat) : claims (s.conditionSignal k) t = claims s t := by
  unfold Kernel.conditionSignal
  split
  · rfl
  · rename_i u hu
    have hk := (waits_of_getD hu).1
    have hcount (t : Nat) := count_conditions (t := t) none hk
    rw [hu] at hcount
    have hheld := hcount u
    simp only [if_true, reduceCtorEq, if_false] at hheld
    obtain ⟨hlt, hstopped⟩ := h.stopped (t := u) (by omega)
    have hcountt := hcount t
    have hclaims : claims { s.setRunnable u true with conditions := s.conditions.set k none } t =
        (task (s.setRunnable u true).tasks t).runnable.toNat + (s.conditions.set k none).count (some t) +
          s.callbacks.count t + (decide (t = s.taskIndex ∧ s.cpu = .delay)).toNat := rfl
    rw [hclaims, claims, runnable_setRunnable true hlt]
    by_cases ht : u = t
    · subst ht
      rw [if_pos rfl] at hcountt
      rw [if_pos rfl, hstopped, Bool.toNat_true, Bool.toNat_false]
      simp only [reduceCtorEq, if_false] at hcountt
      omega
    · have hne : some u ≠ some t := fun he => ht (Option.some.inj he)
      rw [if_neg hne] at hcountt
      rw [if_neg ht]
      simp only [reduceCtorEq, if_false] at hcountt
      omega

theorem Inv.claims_delay (h : Inv s) (hpendsv : s.pendsv = false) (hcpu : s.cpu = .run) (t : Nat) :
    claims s.delay t = claims s t := by
  have hrun := h.current hpendsv hcpu
  have hclaims : claims s.delay t = (task (s.setRunnable s.taskIndex false).tasks t).runnable.toNat +
      s.conditions.count (some t) + s.callbacks.count t + (decide (t = s.taskIndex)).toNat := by
    simp [claims, Kernel.delay, Kernel.setRunnable]
  have hbefore : claims s t =
      (task s.tasks t).runnable.toNat + s.conditions.count (some t) + s.callbacks.count t := by
    simp [claims, hcpu]
  rw [hclaims, hbefore, runnable_setRunnable false h.index]
  by_cases ht : s.taskIndex = t
  · subst ht
    simp only [if_true, hrun, decide_true, Bool.toNat_true, Bool.toNat_false]
    omega
  · simp only [if_neg ht, Ne.symm ht, decide_false, Bool.toNat_false, Nat.add_zero]

theorem Inv.claims_delayCallback (h : Inv s) {u : Nat} (hu : u ∈ s.callbacks) (t : Nat) :
    claims (s.delayCallback u) t = claims s t := by
  have hmem := List.count_pos_iff.2 hu
  obtain ⟨hlt, hstopped⟩ := h.stopped (t := u) (by omega)
  have hclaims : claims (s.delayCallback u) t = (task (s.setRunnable u true).tasks t).runnable.toNat +
      s.conditions.count (some t) + (s.callbacks.erase u).count t +
      (decide (t = s.taskIndex ∧ s.cpu = .delay)).toNat := rfl
  rw [hclaims, claims, runnable_setRunnable true hlt]
  by_cases ht : u = t
  · subst ht
    rw [if_pos rfl, hstopped, List.count_erase_self, Bool.toNat_true, Bool.toNat_false]
    omega
  · rw [if_neg ht, List.count_erase_of_ne (Ne.symm ht)]

theorem claims_resume (hs : s.resume = some s') (t : Nat) : claims s' t = claims s t := by
  unfold Kernel.resume at hs
  cases hcpu : s.cpu with
  | run =>
    simp only [hcpu] at hs
    split at hs
    · cases hs
      have hnot : (if s.isAnyTaskRunnable then Context.yield else Context.sleep) ≠ .delay := by split <;> simp
      simp [claims, hcpu, hnot]
    · cases hs
  | sleep =>
    simp only [hcpu] at hs
    cases hs
    simp [claims, hcpu]
  | delay =>
    simp only [hcpu] at hs
    cases hs
    by_cases ht : s.taskIndex = t
    · subst ht
      simp [claims, hcpu]
      omega
    · simp [claims, hcpu, ht, Ne.symm ht]
  | yield =>
    simp only [hcpu] at hs
    cases hs
    simp [claims, hcpu]

theorem task_saved (c : Context) : (task (tasks.modify i fun t => { t with context := c }) j).runnable =
    (task tasks j).runnable ∧ (task (tasks.modify i fun t => { t with context := c }) j).priority =
    (task tasks j).priority := by
  rw [task_modify]
  split <;> exact ⟨rfl, rfl⟩

/-- What `fd_rtos_schedule` changes of the tasks. -/
theorem Shape.schedule_tasks (h : Shape s) (hpendsv : s.pendsv = true) :
    s.schedule.tasks.length = s.tasks.length ∧ ∀ t,
      (task s.schedule.tasks t).runnable = (task s.tasks t).runnable ∧
      (task s.schedule.tasks t).priority = (task s.tasks t).priority ∧ (task s.schedule.tasks t).context = .run := by
  have hcpu := h.pending hpendsv
  simp only [Kernel.schedule]
  split
  · exact ⟨rfl, fun t => ⟨rfl, rfl, h.saved t⟩⟩
  · refine ⟨List.length_modify _ _ _, fun t => ⟨(task_saved _).1, (task_saved _).2, ?_⟩⟩
    rw [task_modify, hcpu]
    split
    · rfl
    · exact h.saved t

theorem Shape.schedule_cpu (h : Shape s) (hpendsv : s.pendsv = true) : s.schedule.cpu = .run :=
  ((h.schedule_tasks hpendsv).2 s.schedule.taskIndex).2.2

theorem Shape.schedule_sleeps (h : Shape s) (hpendsv : s.pendsv = true) : Sleeps s.schedule.tasks := by
  obtain ⟨hlength, htask⟩ := h.schedule_tasks hpendsv
  refine ⟨?_, ?_, ?_⟩
  · rw [hlength]
    exact h.sleeps.pos
  · rw [(htask 0).1]
    exact h.sleeps.runnable
  · rw [(htask 0).2.1]
    exact h.sleeps.priority

theorem Shape.claims_schedule (h : Shape s) (hpendsv : s.pendsv = true) (t : Nat) :
    claims s.schedule t = claims s t := by
  have hafter := h.schedule_cpu hpendsv
  have hbefore := h.pending hpendsv
  have hrunnable := ((h.schedule_tasks hpendsv).2 t).1
  simp only [claims, hafter, hbefore, hrunnable, reduceCtorEq, and_false, decide_false]
  rfl

/-! ## Invariant -/

/-- A step after which each claim is still there, and no assertion has failed. -/
theorem Inv.conserved (h : Inv s) (hshape : Shape s') (hlength : s'.tasks.length = s.tasks.length)
    (hfailures : s'.assertionFailureCount = s.assertionFailureCount) (hclaims : ∀ t, claims s' t = claims s t) :
    Inv s' := by
  refine ⟨hshape, ?_, ?_, ?_⟩
  · intro t
    rw [hclaims]
    exact h.once t
  · intro t ht
    rw [hclaims]
    exact h.outside t (hlength ▸ ht)
  · rw [hfailures, h.failures, orphans, orphans, hlength]
    simp only [hclaims]

theorem Sleeps.setRunnable (h : Sleeps s.tasks) {b : Bool} (hi : i < s.tasks.length) (hb : i = 0 → b = true) :
    Sleeps (s.setRunnable i b).tasks := by
  refine ⟨?_, ?_, ?_⟩
  · rw [length_setRunnable]
    exact h.pos
  · rw [runnable_setRunnable b hi]
    split
    · rename_i h0
      exact hb h0
    · exact h.runnable
  · rw [priority_setRunnable]
    exact h.priority

theorem Shape.schedule (h : Shape s) (hpendsv : s.pendsv = true) : Shape s.schedule := by
  obtain ⟨hlength, htask⟩ := h.schedule_tasks hpendsv
  have hsleeps := h.schedule_sleeps hpendsv
  have hscan := scanned_select hsleeps
  refine ⟨hsleeps, ?_, hscan.lt, fun t => (htask t).2.2, ?_, fun _ _ => hscan.runnable, ?_⟩
  · rw [hlength]
    exact h.small
  · intro hp
    cases hp
  · intro hasleep
    rw [h.schedule_cpu hpendsv] at hasleep
    cases hasleep

/-- The current task stops in a call. -/
theorem Shape.stopped (h : Shape s) (hpendsv : s.pendsv = false) (hindex : s.taskIndex ≠ 0)
    (htasks : s'.tasks = (s.setRunnable s.taskIndex false).tasks) (htaskIndex : s'.taskIndex = s.taskIndex)
    (hpendsv' : s'.pendsv = s.pendsv) (hrun : s'.cpu ≠ .run) (hsleep : s'.cpu ≠ .sleep) : Shape s' where
  sleeps := by
    rw [htasks]
    exact h.sleeps.setRunnable h.index fun h0 => absurd h0 hindex
  small := by
    rw [htasks, length_setRunnable]
    exact h.small
  index := by
    rw [htasks, length_setRunnable, htaskIndex]
    exact h.index
  saved := by
    intro t
    rw [htasks, context_setRunnable]
    exact h.saved t
  pending := by
    intro hp
    rw [hpendsv', hpendsv] at hp
    cases hp
  current := fun _ hcpu => absurd hcpu hrun
  asleep := fun hcpu => absurd hcpu hsleep

/-- A task is made runnable. -/
theorem Shape.woken (h : Shape s) (hi : i < s.tasks.length) (hsleep : s.cpu ≠ .sleep)
    (htasks : s'.tasks = (s.setRunnable i true).tasks) (htaskIndex : s'.taskIndex = s.taskIndex)
    (hpendsv : s'.pendsv = s.pendsv) (hcpu : s'.cpu = s.cpu) : Shape s' where
  sleeps := by
    rw [htasks]
    exact h.sleeps.setRunnable hi fun _ => rfl
  small := by
    rw [htasks, length_setRunnable]
    exact h.small
  index := by
    rw [htasks, length_setRunnable, htaskIndex]
    exact h.index
  saved := by
    intro t
    rw [htasks, context_setRunnable]
    exact h.saved t
  pending := by
    rw [hpendsv, hcpu]
    exact h.pending
  current := by
    intro hp hc
    rw [htasks, runnable_setRunnable true hi, htaskIndex]
    split
    · rfl
    · exact h.current (hpendsv ▸ hp) (hcpu ▸ hc)
  asleep := fun hc => absurd (hcpu ▸ hc) hsleep

theorem stopped_of_isAnyTaskRunnable (hnone : s.isAnyTaskRunnable = false) (ht : 0 < t) :
    (task s.tasks t).runnable = false := by
  rcases Nat.lt_or_ge t s.tasks.length with hlt | hge
  · have hmem : task s.tasks t ∈ s.tasks.drop 1 := by
      rw [List.mem_drop_iff_getElem]
      refine ⟨t - 1, by omega, ?_⟩
      have hadd : t - 1 + 1 = t := Nat.sub_add_cancel ht
      simp [task, List.getD_eq_getElem?_getD, List.getElem?_eq_getElem hlt, Nat.add_comm 1, hadd]
    simpa using List.any_eq_false.1 hnone _ hmem
  · rw [task_of_length_le hge]
    rfl

theorem Shape.resume (h : Shape s) (hpendsv : s.pendsv = false) (hs : s.resume = some s') : Shape s' := by
  have hnot : s.pendsv ≠ true := by simp [hpendsv]
  unfold Kernel.resume at hs
  cases hcpu : s.cpu with
  | run =>
    simp only [hcpu] at hs
    split at hs
    · rename_i hindex
      cases hs
      refine ⟨h.sleeps, h.small, h.index, h.saved, fun hp => absurd hp hnot, fun _ _ => h.current hpendsv hcpu, ?_⟩
      intro hasleep
      refine ⟨hindex, ?_⟩
      intro t ht
      cases hany : s.isAnyTaskRunnable with
      | false => exact stopped_of_isAnyTaskRunnable hany ht
      | true => simp [hany] at hasleep
    · cases hs
  | sleep =>
    simp only [hcpu] at hs
    cases hs
    exact ⟨h.sleeps, h.small, h.index, h.saved, fun hp => absurd hp hnot, nofun, nofun⟩
  | delay =>
    simp only [hcpu] at hs
    cases hs
    exact ⟨h.sleeps, h.small, h.index, h.saved, fun hp => absurd hp hnot, nofun, nofun⟩
  | yield =>
    simp only [hcpu] at hs
    cases hs
    exact ⟨h.sleeps, h.small, h.index, h.saved, fun _ => rfl, nofun, nofun⟩

/-- The sleep task is no orphan, so the count of failed assertions does not overflow. -/
theorem Shape.orphans_lt (h : Shape s) : (orphans s).card < s.tasks.length := by
  have hsubset : orphans s ⊂ Finset.range s.tasks.length := by
    refine Finset.ssubset_iff_subset_ne.2 ⟨Finset.filter_subset _ _, ?_⟩
    intro heq
    have hmem : 0 ∈ orphans s := by
      rw [heq]
      exact Finset.mem_range.2 h.sleeps.pos
    have hzero := (Finset.mem_filter.1 hmem).2
    rw [claims, h.sleeps.runnable, Bool.toNat_true] at hzero
    omega
  have hlt := Finset.card_lt_card hsubset
  rwa [Finset.card_range] at hlt

theorem Inv.conditionWait (h : Inv s) (hpendsv : s.pendsv = false) (hcpu : s.cpu = .run) (hindex : s.taskIndex ≠ 0)
    (hk : k < s.conditions.length) : Inv (s.conditionWait k) := by
  have hshape : Shape (s.conditionWait k) := h.toShape.stopped hpendsv hindex rfl rfl rfl nofun nofun
  have hlength : (s.conditionWait k).tasks.length = s.tasks.length := length_setRunnable false
  have hclaims := h.claims_conditionWait hpendsv hcpu hk
  cases hold : s.conditions.getD k none with
  | none =>
    simp only [hold, reduceCtorEq, if_false, Nat.add_zero] at hclaims
    refine h.conserved hshape hlength ?_ hclaims
    simp only [Kernel.conditionWait, hold, ne_eq, not_true_eq_false, if_false]
  | some u =>
    simp only [hold, Option.some.injEq] at hclaims
    have hu := hclaims u
    rw [if_pos rfl] at hu
    have hone := h.once u
    have hother (t : Nat) (ht : u ≠ t) : claims (s.conditionWait k) t = claims s t := by
      have htclaims := hclaims t
      rwa [if_neg ht, Nat.add_zero] at htclaims
    have hult : u < s.tasks.length := h.lt_of_claims (by omega)
    -- The task that waited is an orphan now, and it was not before.
    have horphans : orphans (s.conditionWait k) = insert u (orphans s) := by
      ext t
      simp only [orphans, Finset.mem_filter, Finset.mem_range, Finset.mem_insert, hlength]
      by_cases ht : u = t
      · subst ht
        exact ⟨fun _ => Or.inl rfl, fun _ => ⟨hult, by omega⟩⟩
      · rw [hother t ht]
        exact ⟨Or.inr, fun hor => hor.resolve_left (Ne.symm ht)⟩
    have hnew : u ∉ orphans s := by
      intro hmem
      have hzero := (Finset.mem_filter.1 hmem).2
      omega
    have hcard : (orphans (s.conditionWait k)).card = (orphans s).card + 1 := by
      rw [horphans, Finset.card_insert_of_notMem hnew]
    have hbound := hshape.orphans_lt
    refine ⟨hshape, ?_, ?_, ?_⟩
    · intro t
      have htclaims := hclaims t
      have htone := h.once t
      omega
    · intro t ht
      have htclaims := hclaims t
      have htzero := h.outside t (hlength ▸ ht)
      omega
    · have hfailed : (s.conditionWait k).assertionFailureCount = (s.assertionFailureCount + 1) % 2 ^ 32 := by
        simp only [Kernel.conditionWait, hold, ne_eq, reduceCtorEq, not_false_eq_true, if_true]
      have hsmall := h.small
      rw [hfailed, hcard, h.failures, Nat.mod_eq_of_lt (by omega)]

theorem Inv.conditionSignal (h : Inv s) (hsleep : s.cpu ≠ .sleep) (k : Nat) : Inv (s.conditionSignal k) := by
  have hclaims := h.claims_conditionSignal k
  cases hold : s.conditions.getD k none with
  | none =>
    have heq : s.conditionSignal k = s := by simp only [Kernel.conditionSignal, hold]
    rw [heq]
    exact h
  | some u =>
    have heq : s.conditionSignal k = { s.setRunnable u true with conditions := s.conditions.set k none } := by
      simp only [Kernel.conditionSignal, hold]
    have hheld := List.count_pos_iff.2 (waits_of_getD hold).2
    have hult := (h.stopped (Nat.add_pos_left hheld _)).1
    rw [heq] at hclaims ⊢
    exact h.conserved (h.toShape.woken hult hsleep rfl rfl rfl rfl) (length_setRunnable true) rfl hclaims

theorem Inv.delayCallback (h : Inv s) (hsleep : s.cpu ≠ .sleep) (ht : t ∈ s.callbacks) :
    Inv (s.delayCallback t) := by
  have hlt := (h.stopped (Nat.add_pos_right _ (List.count_pos_iff.2 ht))).1
  exact h.conserved (h.toShape.woken hlt hsleep rfl rfl rfl rfl) (length_setRunnable true) rfl
    (h.claims_delayCallback ht)

theorem resume_frame (hs : s.resume = some s') :
    s'.tasks = s.tasks ∧ s'.assertionFailureCount = s.assertionFailureCount := by
  unfold Kernel.resume at hs
  split at hs
  · split at hs
    · cases hs
      exact ⟨rfl, rfl⟩
    · cases hs
  all_goals
    cases hs
    exact ⟨rfl, rfl⟩

theorem Inv.next (h : Inv s) (hstep : Events.Step step s s') : Inv s' := by
  cases moves_of_step hstep with
  | wait hpendsv hcpu hindex hk => exact h.conditionWait hpendsv hcpu hindex hk
  | delay hpendsv hcpu hindex =>
    have hshape : Shape s.delay := by
      refine h.toShape.stopped hpendsv hindex rfl rfl rfl ?_ ?_
      · intro hrun
        cases hrun
      · intro hsleep
        cases hsleep
    exact h.conserved hshape (length_setRunnable false) rfl (h.claims_delay hpendsv hcpu)
  | yield hpendsv hcpu =>
    have hnot : s.pendsv ≠ true := by simp [hpendsv]
    have hshape : Shape { s with cpu := .yield } := by
      refine ⟨h.sleeps, h.small, h.index, h.saved, fun hp => absurd hp hnot, ?_, ?_⟩
      · intro _ hrun
        cases hrun
      · intro hsleep
        cases hsleep
    refine h.conserved hshape rfl rfl ?_
    intro t
    simp [claims, hcpu]
  | resume hpendsv hresume =>
    obtain ⟨htasks, hfailures⟩ := resume_frame hresume
    exact h.conserved (h.toShape.resume hpendsv hresume) (htasks ▸ rfl) hfailures (claims_resume hresume)
  | signal k hsleep => exact h.conditionSignal hsleep k
  | expire hsleep ht => exact h.delayCallback hsleep ht
  | pendsv hpendsv =>
    exact h.conserved (h.toShape.schedule hpendsv) (h.toShape.schedule_tasks hpendsv).1 rfl
      (h.toShape.claims_schedule hpendsv)

end Rtos
end Firefly
