import Mathlib.Logic.Relation

/-!
# Firefly.Lib.Events

Machines that take events, some of which cannot happen in some states. What holds at first, and is kept by every event
that can happen, holds in every state that is reached (`Reaches.invariant`).
-/

namespace Events

open Relation

variable {σ ε : Type} {step : σ → ε → Option σ} {s s' : σ}

def Step (step : σ → ε → Option σ) (s s' : σ) : Prop := ∃ e, step s e = some s'

def Reaches (step : σ → ε → Option σ) : σ → σ → Prop := ReflTransGen (Step step)

/-- The state after some events, if each can happen. -/
def run (step : σ → ε → Option σ) : σ → List ε → Option σ
  | s, [] => some s
  | s, e :: events => (step s e).bind fun s => run step s events

theorem Step.reaches (h : Step step s s') : Reaches step s s' := ReflTransGen.single h

theorem Reaches.refl (s : σ) : Reaches step s s := ReflTransGen.refl

theorem Reaches.trans {s'' : σ} (h : Reaches step s s') (h' : Reaches step s' s'') : Reaches step s s'' :=
  ReflTransGen.trans h h'

theorem Reaches.invariant {P : σ → Prop} (h : Reaches step s s') (hs : P s)
    (hstep : ∀ s s', P s → Step step s s' → P s') : P s' := by
  induction h with
  | refl => exact hs
  | tail _ hlast ih => exact hstep _ _ ih hlast

theorem reaches_of_run {events : List ε} (h : run step s events = some s') : Reaches step s s' := by
  induction events generalizing s with
  | nil =>
    cases h
    exact ReflTransGen.refl
  | cons e events ih =>
    obtain ⟨s₁, hfirst, hrest⟩ := Option.bind_eq_some_iff.mp h
    exact ReflTransGen.head ⟨e, hfirst⟩ (ih hrest)

theorem run_append (s : σ) (xs ys : List ε) : run step s (xs ++ ys) = (run step s xs).bind (run step · ys) := by
  induction xs generalizing s with
  | nil => rfl
  | cons e xs ih =>
    rw [List.cons_append, run, run, Option.bind_assoc]
    exact Option.bind_congr fun s₁ _ => ih s₁

theorem run_concat (s : σ) (events : List ε) (e : ε) :
    run step s (events ++ [e]) = (run step s events).bind (step · e) := by
  rw [run_append]
  exact Option.bind_congr fun s₁ _ => by simp [run]

/-- Where a run stops, a longer one stops too. -/
theorem run_append_eq_none {xs : List ε} (h : run step s xs = none) (ys : List ε) : run step s (xs ++ ys) = none := by
  rw [run_append, h]
  rfl

end Events
