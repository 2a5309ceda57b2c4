import Mathlib.Data.List.Count
import Mathlib.Data.List.Range

/-!
# Firefly.Rtos.Scheduler

The tasks of `fd_rtos.c`, and how `fd_rtos_schedule` finds the one to run. The scan adds its counter to the index of
the task that it has found so far, so that it skips tasks once it has found one. It never finds the sleep task while
a task with a priority above zero could run (`select_eq_zero`); it finds the highest priority when no task has a
higher one than a task that was added before it (`select_highest`).
-/

namespace Firefly
namespace Rtos

/-- Where a task is: in its own code, in `fd_rtos_delay` before the callback is scheduled, before the yield at the end
of a call, or asleep with the interrupts disabled. -/
inductive Context where
  | run
  | delay
  | yield
  | sleep
  deriving DecidableEq

/-- A task, with the context that its stack holds while another task runs. -/
structure Task where
  priority : Nat
  runnable : Bool
  context : Context

/-- What an entry of `tasks` holds before a task is added. -/
def Task.unused : Task where
  priority := 0
  runnable := false
  context := .run

def task (tasks : List Task) (i : Nat) : Task := tasks.getD i .unused

/-- The task of a pass of the scan. -/
def candidate (count index i : Nat) : Nat := if index + i ≥ count then index + i - count else index + i

def pass (tasks : List Task) (index i : Nat) : Nat :=
  let next := candidate tasks.length index i
  if (task tasks next).runnable ∧ (task tasks next).priority > (task tasks index).priority then next else index

/-- The scan of `fd_rtos_schedule`. -/
def select (tasks : List Task) : Nat := (List.range' 1 (tasks.length - 1)).foldl (pass tasks) 0

/-- The tasks begin with the sleep task. -/
structure Sleeps (tasks : List Task) : Prop where
  pos : 0 < tasks.length
  runnable : (task tasks 0).runnable = true
  priority : (task tasks 0).priority = 0

/-- No task has a higher priority than one that was added before it. -/
def Ordered (tasks : List Task) : Prop :=
  ∀ i j, 0 < i → i < j → j < tasks.length → (task tasks j).priority ≤ (task tasks i).priority

/-- What the scan has found after the passes up to `m`. -/
structure Scanned (tasks : List Task) (m index : Nat) : Prop where
  lt : index < tasks.length
  runnable : (task tasks index).runnable = true
  none : index = 0 → ∀ i, 0 < i → i ≤ m → (task tasks i).runnable = true → (task tasks i).priority = 0
  found : index ≠ 0 → 0 < (task tasks index).priority
  first : Ordered tasks → index ≠ 0 →
    ∀ i, 0 < i → i < index → (task tasks i).runnable = true → (task tasks i).priority = 0

variable {tasks : List Task} {m index : Nat}

theorem candidate_lt {count : Nat} (hindex : index < count) (hm : m < count) : candidate count index m < count := by
  unfold candidate
  split <;> omega

theorem candidate_zero {count : Nat} (hm : m < count) : candidate count 0 m = m := by
  rw [candidate, Nat.zero_add, if_neg (Nat.not_le.2 hm)]

/-- Once a task is found, a scan in order finds no other. -/
theorem Scanned.stays (h : Scanned tasks m index) (hzero : (task tasks 0).priority = 0) (hordered : Ordered tasks)
    (hindex : index ≠ 0) {j : Nat} (hj : j < tasks.length) (hrun : (task tasks j).runnable = true) :
    (task tasks j).priority ≤ (task tasks index).priority := by
  have hpos := h.found hindex
  rcases Nat.eq_zero_or_pos j with rfl | hjpos
  · rw [hzero]
    exact Nat.zero_le _
  · rcases Nat.lt_trichotomy j index with hlt | rfl | hgt
    · rw [h.first hordered hindex j hjpos hlt hrun]
      exact Nat.zero_le _
    · exact Nat.le_refl _
    · exact hordered index j (Nat.pos_of_ne_zero hindex) hgt hj

theorem Scanned.pass (h : Scanned tasks m index) (hsleeps : Sleeps tasks) (hm : m + 1 < tasks.length) :
    Scanned tasks (m + 1) (pass tasks index (m + 1)) := by
  have hlt := candidate_lt h.lt hm
  simp only [Rtos.pass]
  split
  · rename_i hfound
    obtain ⟨hrun, hgt⟩ := hfound
    have hpos : 0 < (task tasks (candidate tasks.length index (m + 1))).priority :=
      Nat.lt_of_le_of_lt (Nat.zero_le _) hgt
    have hne : candidate tasks.length index (m + 1) ≠ 0 := by
      intro h0
      rw [h0, hsleeps.priority] at hpos
      exact Nat.lt_irrefl 0 hpos
    refine ⟨hlt, hrun, fun h0 => absurd h0 hne, fun _ => hpos, ?_⟩
    intro hordered _ i hi hilt hirun
    by_cases hindex : index = 0
    · rw [hindex, candidate_zero hm] at hilt
      exact h.none hindex i hi (Nat.le_of_lt_succ hilt) hirun
    · exact absurd hgt (Nat.not_lt.2 (h.stays hsleeps.priority hordered hindex hlt hrun))
  · rename_i hnot
    refine ⟨h.lt, h.runnable, ?_, h.found, h.first⟩
    intro hindex i hi hle hirun
    rcases Nat.lt_or_ge m i with hgt | hle'
    · obtain rfl : i = m + 1 := by omega
      rw [hindex, candidate_zero hm, hsleeps.priority] at hnot
      exact Nat.eq_zero_of_not_pos fun hpos => hnot ⟨hirun, hpos⟩
    · exact h.none hindex i hi hle' hirun

theorem scanned_range (hsleeps : Sleeps tasks) (hm : m < tasks.length) :
    Scanned tasks m ((List.range' 1 m).foldl (pass tasks) 0) := by
  induction m with
  | zero =>
    refine ⟨hsleeps.pos, hsleeps.runnable, ?_, fun h => absurd rfl h, fun _ h => absurd rfl h⟩
    intro _ i hi hle
    omega
  | succ m ih =>
    have hprev := ih (Nat.lt_of_succ_lt hm)
    rw [List.range'_1_concat, List.foldl_append, Nat.add_comm 1 m]
    exact hprev.pass hsleeps hm

theorem scanned_select (hsleeps : Sleeps tasks) : Scanned tasks (tasks.length - 1) (select tasks) :=
  scanned_range hsleeps (Nat.sub_lt hsleeps.pos Nat.one_pos)

/-- The sleep task runs only when nothing else can that has a priority above its own. -/
theorem select_eq_zero (hsleeps : Sleeps tasks) : select tasks = 0 ↔
    ∀ i, 0 < i → i < tasks.length → (task tasks i).runnable = true → (task tasks i).priority = 0 := by
  have hscan := scanned_select hsleeps
  constructor
  · intro h0 i hi hlt hrun
    exact hscan.none h0 i hi (Nat.le_sub_one_of_lt hlt) hrun
  · intro hall
    by_contra hne
    have hzero := hall _ (Nat.pos_of_ne_zero hne) hscan.lt hscan.runnable
    exact Nat.lt_irrefl 0 (hzero ▸ hscan.found hne)

theorem select_highest (hsleeps : Sleeps tasks) (hordered : Ordered tasks) {i : Nat} (hi : i < tasks.length)
    (hrun : (task tasks i).runnable = true) : (task tasks i).priority ≤ (task tasks (select tasks)).priority := by
  have hscan := scanned_select hsleeps
  by_cases h0 : select tasks = 0
  · rcases Nat.eq_zero_or_pos i with rfl | hpos
    · rw [h0]
    · rw [(select_eq_zero hsleeps).1 h0 i hpos hi hrun]
      exact Nat.zero_le _
  · exact hscan.stays hsleeps.priority hordered h0 hi hrun

/-- Without the order a task of a lower priority is found: the scan of three tasks does not come to the last one. -/
example : select [⟨0, true, .run⟩, ⟨1, true, .run⟩, ⟨2, true, .run⟩] = 1 := rfl

end Rtos
end Firefly
