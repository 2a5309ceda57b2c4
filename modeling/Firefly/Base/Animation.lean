import Mathlib.Logic.Function.Basic
import Firefly.Lib.Events

/-!
# Firefly.Base.Animation

`fd_animation.c`: players that step through sequences, with a work item that ticks them all. A callback may start,
stop and cancel the sequence of any player, its own too. `step` is one such call, or the work item up to the next
callback, so that what a callback does comes between two events of the work item. A callback that is not set counts as
one that does nothing. The arithmetic on the elapsed time is a parameter.
-/

namespace Firefly
namespace Animation

/-- The operations on `elapsed` and `duration`: `tick` adds the time of a tick. -/
structure Arithmetic (F : Type) where
  zero : F
  tick : F → F
  less : F → F → Bool
  ratio : F → F → F

/-- The steps of a sequence have a duration each. -/
structure Sequence (F : Type) where
  durations : List F
  repeating : Bool
  pos : 0 < durations.length

/-- A call of a callback, with the sequence and the step that it is from. -/
inductive Call (F : Type) where
  | start (q i : Nat)
  | waypoint (q i : Nat) (t : F)
  | stop (q i : Nat)
  | finalize (q : Nat)

structure Player (F : Type) where
  sequence : Option Nat
  step : Nat
  elapsed : F
  stop : Bool
  cancel : Bool
  next : Option Nat
  calls : List (Call F)

/-- Where the work item is: at the tick of a player, or in it after `stop` or `finalize` was called. -/
inductive Pc where
  | idle
  | tick (p : Nat)
  | stopped (p q : Nat)
  | finalized (p q : Nat)
  deriving DecidableEq

end Animation

structure Animation (F : Type) where
  players : Nat → Animation.Player F
  active : Bool
  pc : Animation.Pc

namespace Animation

variable {F : Type} (a : Arithmetic F) (sequences : Nat → Sequence F) (count : Nat)

def initializeWith : Animation F where
  players := fun _ =>
    { sequence := none, step := 0, elapsed := a.zero, stop := false, cancel := false, next := none, calls := [] }
  active := false
  pc := .idle

def length (q : Nat) : Nat := (sequences q).durations.length

namespace Player

/-- What `fd_animation_start` does with a player. -/
def start (player : Player F) (q : Nat) : Player F :=
  match player.sequence with
  | some _ => { player with stop := true, next := some q }
  | none =>
    { player with
      sequence := some q
      step := 0
      elapsed := a.zero
      stop := false
      cancel := false
      calls := player.calls ++ [.start q 0] }

def requestStop (player : Player F) : Player F := { player with stop := true }

def requestCancel (player : Player F) : Player F := { player with next := none, stop := true, cancel := true }

end Player

def set (s : Animation F) (p : Nat) (player : Player F) (pc : Pc) : Animation F :=
  { s with players := Function.update s.players p player, pc := pc }

/-- `fd_animation_player_tick`, until it calls `waypoint` or `stop`. -/
def tick (s : Animation F) (p : Nat) : Animation F :=
  let player := s.players p
  match player.sequence with
  | none => { s with pc := .tick (p + 1) }
  | some q =>
    let elapsed := a.tick player.elapsed
    let duration := (sequences q).durations.getD player.step a.zero
    if a.less elapsed duration = true ∧ player.cancel = false then
      s.set p
        { player with
          elapsed := elapsed
          calls := player.calls ++ [.waypoint q player.step (a.ratio elapsed duration)] } (.tick (p + 1))
    else s.set p { player with elapsed := elapsed, calls := player.calls ++ [.stop q player.step] } (.stopped p q)

/-- After the call of `stop`, until `finalize` or the next `start` is called. -/
def advance (s : Animation F) (p q : Nat) : Animation F :=
  let player := s.players p
  let step := player.step + 1
  if step ≥ length sequences q then
    if (sequences (player.sequence.getD q)).repeating = false ∨ player.stop = true then
      s.set p
        { player with
          sequence := none
          step := 0
          elapsed := a.zero
          stop := false
          cancel := false
          calls := player.calls ++ [.finalize q] } (.finalized p q)
    else
      s.set p { player with step := 0, elapsed := a.zero, calls := player.calls ++ [.start q 0] } (.tick (p + 1))
  else
    s.set p { player with step := step, elapsed := a.zero, calls := player.calls ++ [.start q step] } (.tick (p + 1))

/-- After the call of `finalize`. -/
def chain (s : Animation F) (p : Nat) : Animation F :=
  let player := s.players p
  match player.next with
  | none => { s with pc := .tick (p + 1) }
  | some q =>
    s.set p { player with sequence := some q, next := none, calls := player.calls ++ [.start q player.step] }
      (.tick (p + 1))

/-- The end of `fd_animation_work`. -/
def finish (s : Animation F) : Animation F :=
  let anyActive := (List.range count).any fun p => (s.players p).sequence.isSome
  { s with active := if anyActive then s.active else false, pc := .idle }

inductive Event where
  | start (p q : Nat)
  | stop (p : Nat)
  | cancel (p : Nat)
  | work
  | resume

def step (s : Animation F) : Event → Option (Animation F)
  | .start p q =>
    if p < count then some { s.set p ((s.players p).start a q) s.pc with active := true } else none
  | .stop p => if p < count then some (s.set p (s.players p).requestStop s.pc) else none
  | .cancel p => if p < count then some (s.set p (s.players p).requestCancel s.pc) else none
  | .work => if s.pc = .idle then some { s with pc := .tick 0 } else none
  | .resume =>
    match s.pc with
    | .idle => none
    | .tick p => some (if p < count then s.tick a sequences p else s.finish count)
    | .stopped p q => some (s.advance a sequences p q)
    | .finalized p _ => some (s.chain p)

/-- What an event does, and when it can happen. -/
inductive Moves (s : Animation F) : Event → Animation F → Prop where
  | start {p : Nat} (q : Nat) (hp : p < count) :
      Moves s (.start p q) { s.set p ((s.players p).start a q) s.pc with active := true }
  | stop (p : Nat) : Moves s (.stop p) (s.set p (s.players p).requestStop s.pc)
  | cancel (p : Nat) : Moves s (.cancel p) (s.set p (s.players p).requestCancel s.pc)
  | work (hpc : s.pc = .idle) : Moves s .work { s with pc := .tick 0 }
  | tick {p : Nat} (hpc : s.pc = .tick p) : Moves s .resume (s.tick a sequences p)
  | finish {p : Nat} (hpc : s.pc = .tick p) : Moves s .resume (s.finish count)
  | advance {p q : Nat} (hpc : s.pc = .stopped p q) : Moves s .resume (s.advance a sequences p q)
  | chain {p q : Nat} (hpc : s.pc = .finalized p q) : Moves s .resume (s.chain p)

variable {a sequences count} {s s' : Animation F} {p p' : Nat}

theorem moves_of_step {e : Event} (hstep : step a sequences count s e = some s') : Moves a sequences count s e s' := by
  cases e with
  | start p q =>
    obtain ⟨hp, ⟨⟩⟩ := Option.ite_none_right_eq_some.1 hstep
    exact .start q hp
  | stop p =>
    obtain ⟨-, ⟨⟩⟩ := Option.ite_none_right_eq_some.1 hstep
    exact .stop p
  | cancel p =>
    obtain ⟨-, ⟨⟩⟩ := Option.ite_none_right_eq_some.1 hstep
    exact .cancel p
  | work =>
    obtain ⟨hpc, ⟨⟩⟩ := Option.ite_none_right_eq_some.1 hstep
    exact .work hpc
  | resume =>
    rw [step] at hstep
    split at hstep
    · cases hstep
    · rename_i p hpc
      cases hstep
      split
      · exact .tick hpc
      · exact .finish hpc
    · rename_i p q hpc
      cases hstep
      exact .advance hpc
    · rename_i p q hpc
      cases hstep
      exact .chain hpc

theorem length_pos (q : Nat) : 0 < length sequences q := (sequences q).pos

@[simp] theorem set_self (player : Player F) (pc : Pc) : (s.set p player pc).players p = player := by
  simp [set]

theorem set_of_ne (hp : p ≠ p') (player : Player F) (pc : Pc) : (s.set p' player pc).players p = s.players p := by
  simp [set, hp]

@[simp] theorem pc_set (player : Player F) (pc : Pc) : (s.set p player pc).pc = pc := rfl

/-! ## Examples -/

namespace Sample

/-- Times in ticks. -/
def arithmetic : Arithmetic Nat where
  zero := 0
  tick := (· + 1)
  less := Nat.blt
  ratio := fun t _ => t

def once (_ : Nat) : Sequence Nat where
  durations := [1]
  repeating := false
  pos := Nat.one_pos

end Sample

end Animation
end Firefly
