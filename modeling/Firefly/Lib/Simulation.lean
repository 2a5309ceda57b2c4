import Mathlib.Data.List.Basic

/-!
# Firefly.Lib.Simulation

Machines that answer commands. `outputs` are the answers of a machine to a list of commands, and
`Allows` says that a specification, which may leave a choice, has a run with given answers. A relation
between the states that every command keeps carries over to the whole run.
-/

namespace Simulation

variable {σ τ ι ο : Type}

/-- What the machine answers. -/
def outputs (step : σ → ι → ο × σ) : σ → List ι → List ο
  | _, [] => []
  | s, c :: cs => (step s c).1 :: outputs step (step s c).2 cs

/-- Each command meets the condition in the state it comes in. -/
def Along (step : σ → ι → ο × σ) (P : σ → ι → Prop) : σ → List ι → Prop
  | _, [] => True
  | s, c :: cs => P s c ∧ Along step P (step s c).2 cs

inductive Allows (Spec : τ → ι → ο → τ → Prop) : τ → List ι → List ο → Prop where
  | nil (t : τ) : Allows Spec t [] []
  | cons {t t' : τ} {c : ι} {o : ο} {cs : List ι} {os : List ο} (h : Spec t c o t')
      (hrest : Allows Spec t' cs os) : Allows Spec t (c :: cs) (o :: os)

theorem allows_outputs {step : σ → ι → ο × σ} {Spec : τ → ι → ο → τ → Prop} {R : σ → τ → Prop}
    {P : σ → ι → Prop}
    (hstep : ∀ s t c, R s t → P s c → ∃ t', Spec t c (step s c).1 t' ∧ R (step s c).2 t')
    {s : σ} {t : τ} {cs : List ι} (hR : R s t) (hP : Along step P s cs) :
    Allows Spec t cs (outputs step s cs) := by
  induction cs generalizing s t with
  | nil => exact .nil t
  | cons c cs ih =>
    obtain ⟨hc, hrest⟩ := hP
    obtain ⟨t', hspec, hR'⟩ := hstep s t c hR hc
    exact .cons hspec (ih hR' hrest)

theorem outputs_eq {step : σ → ι → ο × σ} {step' : τ → ι → ο × τ} {R : σ → τ → Prop}
    (hstep : ∀ s t c, R s t → (step s c).1 = (step' t c).1 ∧ R (step s c).2 (step' t c).2)
    {s : σ} {t : τ} (hR : R s t) (cs : List ι) : outputs step s cs = outputs step' t cs := by
  induction cs generalizing s t with
  | nil => rfl
  | cons c cs ih =>
    obtain ⟨hout, hR'⟩ := hstep s t c hR
    rw [outputs, outputs, hout, ih hR']

end Simulation
