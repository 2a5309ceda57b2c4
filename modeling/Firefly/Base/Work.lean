import Mathlib.Algebra.Order.Ring.Rat
import Mathlib.Data.List.Induction

/-!
# Firefly.Base.Work

The tasks of a work queue (`fd_work.c`). A pass goes through the table once, from the first item to the last: an
item whose delay is over is taken from the queue and its task runs, the others wait. The task may queue and
cancel any task of the table, on both sides of the position, and the pass has work left when an item had to
wait. What a task does at or before the position is not seen again by the pass (`process_reports`).

The delays are exact numbers. The history of a pass is what waited, and what the tasks did with items that the
pass had come to; no function reads it.
-/

namespace Firefly
namespace Work

def taskLimit : Nat := 8

structure Item (α : Type) where
  task : α
  isQueued : Bool
  delay : ℚ
  deriving DecidableEq

/-- `fd_work_queue_impl_t`: the items up to `item_count`. Those behind are zero. -/
structure Queue (α : Type) where
  items : List (Item α)
  fits : items.length ≤ taskLimit

inductive SubmitResult where
  | notQueued
  | queuedAlready
  | queued
  | queuedWhileRunning
  deriving DecidableEq

/-- What a task can do with the queue. -/
inductive Call (α : Type) where
  | submitWithDelay (task : α) (delay : ℚ)
  | cancelTask (task : α)

/-- The item at an index waits, or a task that runs at this index or behind it submits or cancels it. -/
inductive Event where
  | waits (index : Nat)
  | submits (index : Nat)
  | cancels (index : Nat)
  deriving DecidableEq

/-- The locals of `fd_work_queue_impl_process`, the state that the tasks share, and the history. -/
structure Pass (α σ : Type) where
  anyWorkLeft : Bool
  queue : Queue α
  context : σ
  events : List Event

/-- What a task does, from the state of the tasks and the items when it is called. -/
abbrev Tasks (α σ : Type) := α → σ → List (Item α) → List (Call α) × σ

variable {α σ : Type}

namespace Queue

def update (q : Queue α) (i : Nat) (f : Item α → Item α) : Queue α :=
  ⟨q.items.modify i f, (List.length_modify f q.items i).symm ▸ q.fits⟩

/-- The item at an index is queued. -/
def queued (q : Queue α) (i : Nat) : Bool := (q.items[i]?.map Item.isQueued).getD false

theorem queued_update (q : Queue α) {i j : Nat} (f : Item α → Item α) (hi : i < q.items.length) :
    (q.update i f).queued j = if i = j then (f q.items[i]).isQueued else q.queued j := by
  rw [Queue.queued, Queue.update, List.getElem?_modify, Queue.queued]
  by_cases hij : i = j
  · subst hij
    simp [hi]
  · simp [hij]

theorem length_update (q : Queue α) (i : Nat) (f : Item α → Item α) :
    (q.update i f).items.length = q.items.length := List.length_modify f q.items i

theorem queued_update_of_ne (q : Queue α) {i j : Nat} (f : Item α → Item α) (hij : i ≠ j) :
    (q.update i f).queued j = q.queued j := by
  rw [Queue.queued, Queue.update, List.getElem?_modify, Queue.queued]
  simp [hij]

section Calls

variable [DecidableEq α]

/-- `fd_work_item_for_task`: the index of the item. -/
def itemForTask (q : Queue α) (task : α) : Option Nat := q.items.findIdx? fun item => item.task = task

/-- `fd_work_queue_submit_with_delay`. A new item is not queued yet. -/
def submitWithDelay (q : Queue α) (task : α) (delay : ℚ) : SubmitResult × Queue α :=
  match q.itemForTask task with
  | none =>
    if h : q.items.length < taskLimit then
      (.queued, ⟨q.items ++ [⟨task, true, delay⟩], (List.length_append ..).symm ▸ h⟩)
    else (.queued, q)
  | some i =>
    if q.queued i then (.queuedAlready, q)
    else (.queued, q.update i fun item => { item with isQueued := true, delay := delay })

def submit (q : Queue α) (task : α) : SubmitResult × Queue α := q.submitWithDelay task 0

/-- `fd_work_queue_cancel_task`. -/
def cancelTask (q : Queue α) (task : α) : Queue α :=
  match q.itemForTask task with
  | none => q
  | some i => q.update i fun item => { item with isQueued := false }

def perform (q : Queue α) : Call α → Queue α
  | .submitWithDelay task delay => (q.submitWithDelay task delay).2
  | .cancelTask task => q.cancelTask task

end Calls

end Queue

section Process

variable [DecidableEq α]

/-- What a call of the task at `position` leaves in the history. -/
def Call.events (position : Nat) (q : Queue α) : Call α → List Event
  | .submitWithDelay task _ => ((q.itemForTask task).filter (· ≤ position)).toList.map .submits
  | .cancelTask task => ((q.itemForTask task).filter (· ≤ position)).toList.map .cancels

def call (position : Nat) (s : Queue α × List Event) (c : Call α) : Queue α × List Event :=
  (s.1.perform c, s.2 ++ c.events position s.1)

/-- One pass of the loop, at an index of the table. -/
def step (tasks : Tasks α σ) (elapsed : ℚ) (i : Nat) (p : Pass α σ) (item : Item α) : Pass α σ :=
  if !item.isQueued then p
  else
    let delay := item.delay - elapsed
    let queue := p.queue.update i fun item => { item with delay := delay }
    if delay ≤ 0 then
      let queue := queue.update i fun item => { item with isQueued := false }
      let (calls, context) := tasks item.task p.context queue.items
      let (queue, events) := calls.foldl (call i) (queue, p.events)
      { p with queue := queue, context := context, events := events }
    else { p with anyWorkLeft := true, queue := queue, events := p.events ++ [.waits i] }

/-- The loop from an index on: the table may grow while it is gone through, up to its limit. -/
def processFrom (tasks : Tasks α σ) (elapsed : ℚ) (i : Nat) (p : Pass α σ) : Pass α σ :=
  if h : i < p.queue.items.length then processFrom tasks elapsed (i + 1) (step tasks elapsed i p p.queue.items[i])
  else p
  termination_by taskLimit - i
  decreasing_by
    have hfits := p.queue.fits
    omega

/-- `fd_work_queue_impl_process`: its result is `anyWorkLeft`. -/
def process (tasks : Tasks α σ) (q : Queue α) (elapsed : ℚ) (context : σ) : Pass α σ :=
  processFrom tasks elapsed 0 ⟨false, q, context, []⟩

end Process

/-! ## The history -/

def Event.index : Event → Nat
  | .waits i | .submits i | .cancels i => i

/-- What an event makes of its item. -/
def Event.queues : Event → Bool
  | .waits _ | .submits _ => true
  | .cancels _ => false

/-- Whether the item is queued behind the events, when it is not before them. -/
def replay (i : Nat) (events : List Event) : Bool :=
  events.foldl (fun queued e => if e.index = i then e.queues else queued) false

variable {i j n : Nat} {events : List Event} {e : Event}

theorem replay_snoc (i : Nat) (events : List Event) (e : Event) :
    replay i (events ++ [e]) = if e.index = i then e.queues else replay i events := by
  rw [replay, List.foldl_append, List.foldl_cons, List.foldl_nil, replay]

/-- An item that no event is about is not queued. -/
theorem replay_of_forall (h : ∀ e ∈ events, e.index ≠ i) : replay i events = false := by
  induction events using List.reverseRecOn with
  | nil => rfl
  | append_singleton events e ih =>
    rw [List.forall_mem_append, List.forall_mem_singleton] at h
    rw [replay_snoc, if_neg h.2, ih h.1]

variable {q : Queue α}

/-- The history says which of the first `n` items are queued. -/
structure Tracks (n : Nat) (q : Queue α) (events : List Event) : Prop where
  within : n ≤ q.items.length
  queued : ∀ j, j < n → q.queued j = replay j events
  index : ∀ e ∈ events, e.index < n

/-- An item that is not queued, and that no event is about yet. -/
theorem Tracks.pass (h : Tracks n q events) (hn : n < q.items.length) (hq : q.queued n = false) :
    Tracks (n + 1) q events := by
  refine ⟨hn, fun j hj => ?_, fun e he => Nat.lt_succ_of_lt (h.index e he)⟩
  rcases Nat.lt_succ_iff_lt_or_eq.mp hj with hlt | rfl
  · exact h.queued j hlt
  · rw [hq, replay_of_forall fun e he => Nat.ne_of_lt (h.index e he)]

theorem Tracks.wait (h : Tracks n q events) (hn : n < q.items.length) (hq : q.queued n = true) :
    Tracks (n + 1) q (events ++ [.waits n]) := by
  refine ⟨hn, fun j hj => ?_, fun e he => ?_⟩
  · rw [replay_snoc]
    rcases Nat.lt_succ_iff_lt_or_eq.mp hj with hlt | rfl
    · rw [if_neg (show (Event.waits n).index ≠ j from Nat.ne_of_gt hlt), h.queued j hlt]
    · rw [if_pos (show (Event.waits j).index = j from rfl), hq]
      rfl
  · rcases List.mem_append.mp he with hold | hnew
    · exact Nat.lt_succ_of_lt (h.index e hold)
    · rw [List.mem_singleton.mp hnew]
      exact Nat.lt_succ_self n

/-- An event about one of the items, and what the event makes of it. -/
theorem Tracks.update (h : Tracks n q events) (he : e.index < n) {f : Item α → Item α}
    (hf : ∀ item, (f item).isQueued = e.queues) : Tracks n (q.update e.index f) (events ++ [e]) := by
  have hwithin := h.within
  refine ⟨(Queue.length_update q e.index f).symm ▸ hwithin, fun j hj => ?_, fun e' he' => ?_⟩
  · rw [Queue.queued_update q f (Nat.lt_of_lt_of_le he hwithin), replay_snoc, hf, h.queued j hj]
  · rcases List.mem_append.mp he' with hold | hnew
    · exact h.index e' hold
    · rwa [List.mem_singleton.mp hnew]

/-- An event that finds its item as it would make it. -/
theorem Tracks.again (h : Tracks n q events) (he : e.index < n) (hq : q.queued e.index = e.queues) :
    Tracks n q (events ++ [e]) := by
  refine ⟨h.within, fun j hj => ?_, fun e' he' => ?_⟩
  · rw [replay_snoc]
    split
    · rename_i hindex
      rw [← hindex, hq]
    · exact h.queued j hj
  · rcases List.mem_append.mp he' with hold | hnew
    · exact h.index e' hold
    · rwa [List.mem_singleton.mp hnew]

/-- An item behind the position changes. -/
theorem Tracks.update_behind (h : Tracks n q events) (hi : n ≤ i) (f : Item α → Item α) :
    Tracks n (q.update i f) events := by
  refine ⟨(Queue.length_update q i f).symm ▸ h.within, fun j hj => ?_, h.index⟩
  rw [Queue.queued_update_of_ne q f (by omega), h.queued j hj]

/-! ## What is left -/

/-- What the pass knows at an index: the history of the items before it, and whether one of them had to wait. -/
structure Inv (i : Nat) (p : Pass α σ) : Prop where
  tracks : Tracks i p.queue p.events
  anyWorkLeft : p.anyWorkLeft = true ↔ ∃ j, .waits j ∈ p.events

theorem inv_start (q : Queue α) (context : σ) : Inv 0 (⟨false, q, context, []⟩ : Pass α σ) :=
  ⟨⟨Nat.zero_le _, fun _ h => absurd h (Nat.not_lt_zero _), fun _ h => absurd h List.not_mem_nil⟩,
    fun h => absurd h Bool.false_ne_true, fun ⟨_, h⟩ => absurd h List.not_mem_nil⟩

variable [DecidableEq α]

/-- What a call does to the items that the pass has come to is in the history. -/
theorem Tracks.call (h : Tracks (i + 1) q events) (c : Call α) :
    Tracks (i + 1) (Work.call i (q, events) c).1 (Work.call i (q, events) c).2 := by
  rw [Work.call]
  cases c with
  | submitWithDelay task delay =>
    rw [Queue.perform, Queue.submitWithDelay, Call.events]
    cases hitem : q.itemForTask task with
    | none =>
      dsimp only
      rw [Option.filter_none, Option.toList_none, List.map_nil, List.append_nil]
      split
      · -- the new item is behind the position
        refine ⟨?_, fun j hj => ?_, h.index⟩
        · rw [List.length_append]
          exact Nat.le_add_right_of_le h.within
        · rw [← h.queued j hj, Queue.queued, Queue.queued, List.getElem?_append_left (Nat.lt_of_lt_of_le hj h.within)]
      · exact h
    | some k =>
      dsimp only
      by_cases hk : k ≤ i
      · rw [Option.filter_some_pos (by simpa using hk), Option.toList_some, List.map_singleton]
        split
        · rename_i hqueued
          exact h.again (e := .submits k) (Nat.lt_succ_of_le hk) hqueued
        · exact h.update (e := .submits k) (Nat.lt_succ_of_le hk) fun _ => rfl
      · rw [Option.filter_some_neg (by simpa using hk), Option.toList_none, List.map_nil, List.append_nil]
        split
        · exact h
        · exact h.update_behind (by omega) _
  | cancelTask task =>
    rw [Queue.perform, Queue.cancelTask, Call.events]
    cases hitem : q.itemForTask task with
    | none =>
      dsimp only
      rw [Option.filter_none, Option.toList_none, List.map_nil, List.append_nil]
      exact h
    | some k =>
      dsimp only
      by_cases hk : k ≤ i
      · rw [Option.filter_some_pos (by simpa using hk), Option.toList_some, List.map_singleton]
        exact h.update (e := .cancels k) (Nat.lt_succ_of_le hk) fun _ => rfl
      · rw [Option.filter_some_neg (by simpa using hk), Option.toList_none, List.map_nil, List.append_nil]
        exact h.update_behind (by omega) _

theorem waits_call {s : Queue α × List Event} {c : Call α} :
    .waits j ∈ (Work.call i s c).2 ↔ .waits j ∈ s.2 := by
  rw [Work.call, List.mem_append]
  refine ⟨fun h => h.resolve_right ?_, .inl⟩
  cases c <;> simp [Call.events]

/-- By induction on the calls. -/
theorem Tracks.calls (h : Tracks (i + 1) q events) (cs : List (Call α)) :
    Tracks (i + 1) (cs.foldl (Work.call i) (q, events)).1 (cs.foldl (Work.call i) (q, events)).2 ∧
      ∀ j, .waits j ∈ (cs.foldl (Work.call i) (q, events)).2 ↔ .waits j ∈ events := by
  induction cs generalizing q events with
  | nil => exact ⟨h, fun _ => Iff.rfl⟩
  | cons c cs ih =>
    obtain ⟨htracks, hwaits⟩ := ih (h.call c)
    exact ⟨htracks, fun j => (hwaits j).trans waits_call⟩

theorem Inv.step {p : Pass α σ} (h : Inv i p) (tasks : Tasks α σ) (elapsed : ℚ) (hi : i < p.queue.items.length) :
    Inv (i + 1) (Work.step tasks elapsed i p p.queue.items[i]) := by
  have hitem : p.queue.queued i = p.queue.items[i].isQueued := by simp [Queue.queued, hi]
  rw [Work.step]
  split
  · rename_i hnot
    exact ⟨h.tracks.pass hi (hitem.trans (by simpa using hnot)), h.anyWorkLeft⟩
  · dsimp only
    have hdelay := h.tracks.update_behind (Nat.le_refl i)
      (fun item => { item with delay := p.queue.items[i].delay - elapsed })
    split
    · -- the task runs
      have htaken := hdelay.update_behind (Nat.le_refl i) fun item => { item with isQueued := false }
      have hlength : i < (p.queue.update i fun item =>
          { item with delay := p.queue.items[i].delay - elapsed }).items.length := by
        rwa [Queue.length_update]
      obtain ⟨htracks, hwaits⟩ := (htaken.pass (by rwa [Queue.length_update])
        (by rw [Queue.queued_update _ _ hlength, if_pos rfl])).calls
        (tasks p.queue.items[i].task p.context _).1
      exact ⟨htracks, h.anyWorkLeft.trans (exists_congr fun j => (hwaits j).symm)⟩
    · -- the item waits
      rename_i hqueued _
      refine ⟨hdelay.wait (by rwa [Queue.length_update]) ?_, fun _ => ⟨i, List.mem_append_right _ List.mem_cons_self⟩,
        fun _ => rfl⟩
      rw [Queue.queued_update _ _ hi, if_pos rfl]
      simpa using hqueued

/-- By induction on the items that are left; the table does not shrink. -/
theorem Inv.processFrom {p : Pass α σ} (h : Inv i p) (tasks : Tasks α σ) (elapsed : ℚ) :
    Inv (Work.processFrom tasks elapsed i p).queue.items.length (Work.processFrom tasks elapsed i p) := by
  fun_induction Work.processFrom tasks elapsed i p with
  | case1 i p hi ih => exact ih (h.step tasks elapsed hi)
  | case2 i p hi =>
    have hlength : i = p.queue.items.length := Nat.le_antisymm h.tracks.within (Nat.le_of_not_lt hi)
    rwa [hlength] at h

/-- Task 0 is to run again after a while. -/
def again : Tasks Nat Unit := fun task _ _ => ([.submitWithDelay task 5], ())

end Work
end Firefly
