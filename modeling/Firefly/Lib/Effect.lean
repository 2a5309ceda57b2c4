import Mathlib.Init

/-!
# Firefly.Lib.Effect

Programs with a state and an error, and their triples: from a state with `P` a program that returns
`a` ends in a state with `Q a`, and one that throws `e` in a state with `R e`. One rule for each way to
put a program together.
-/

abbrev Effect (σ ε α : Type) := ExceptT ε (StateM σ) α

namespace Effect

variable {σ ε ε' α β : Type}

/-- The outcome of a program, and the state that it leaves. -/
def exec (m : Effect σ ε α) (s : σ) : Except ε α × σ := m s

/-- A program that only changes the state. -/
def update (f : σ → σ) : Effect σ ε Unit := fun s => (.ok (), f s)

/-- A program that only reads the state. -/
def read (f : σ → α) : Effect σ ε α := fun s => (.ok (f s), s)

/-- The outcome of a program as a value. -/
def attempt (m : Effect σ ε α) : Effect σ ε' (Except ε α) := fun s => (.ok (exec m s).1, (exec m s).2)

/-- A value or an error as the program that ends so. -/
def ofExcept (x : Except ε α) : Effect σ ε α := fun s => (x, s)

@[simp] theorem exec_pure (a : α) (s : σ) : exec (pure a : Effect σ ε α) s = (.ok a, s) := rfl

@[simp] theorem exec_throw (e : ε) (s : σ) : exec (throw e : Effect σ ε α) s = (.error e, s) := rfl

@[simp] theorem exec_update (f : σ → σ) (s : σ) : exec (update f : Effect σ ε Unit) s = (.ok (), f s) :=
  rfl

@[simp] theorem exec_read (f : σ → α) (s : σ) : exec (read f : Effect σ ε α) s = (.ok (f s), s) := rfl

@[simp] theorem exec_attempt (m : Effect σ ε α) (s : σ) :
    exec (attempt m : Effect σ ε' (Except ε α)) s = (.ok (exec m s).1, (exec m s).2) := rfl

theorem exec_bind (m : Effect σ ε α) (f : α → Effect σ ε β) (s : σ) :
    exec (m >>= f) s = match exec m s with
      | (.ok a, s') => exec (f a) s'
      | (.error e, s') => (.error e, s') := by
  show exec (ExceptT.bind m f) s = _
  simp only [exec, ExceptT.bind, ExceptT.mk, bind, StateT.bind]
  rcases m s with ⟨a | e, s'⟩ <;> rfl

def Triple (P : σ → Prop) (m : Effect σ ε α) (Q : α → σ → Prop) (R : ε → σ → Prop) : Prop :=
  ∀ s, P s → match exec m s with
    | (.ok a, s') => Q a s'
    | (.error e, s') => R e s'

variable {P P' : σ → Prop} {Q Q' : α → σ → Prop} {R : ε → σ → Prop} {m : Effect σ ε α}

theorem Triple.pure {a : α} (h : ∀ s, P s → Q a s) : Triple P (pure a : Effect σ ε α) Q R := h

theorem Triple.throw {e : ε} (h : ∀ s, P s → R e s) : Triple P (throw e : Effect σ ε α) Q R := h

theorem Triple.update {f : σ → σ} {Q : Unit → σ → Prop} (h : ∀ s, P s → Q () (f s)) :
    Triple P (update f : Effect σ ε Unit) Q R := h

theorem Triple.read {f : σ → α} (h : ∀ s, P s → Q (f s) s) :
    Triple P (read f : Effect σ ε α) Q R := h

theorem Triple.ofExcept {x : Except ε α} {S : σ → Prop} :
    Triple S (ofExcept x : Effect σ ε α) (fun _ => S) fun _ => S := by
  intro s hs
  cases x <;> exact hs

theorem Triple.bind {f : α → Effect σ ε β} {Q' : β → σ → Prop} (hm : Triple P m Q R)
    (hf : ∀ a, Triple (Q a) (f a) Q' R) : Triple P (m >>= f) Q' R := by
  intro s hs
  have h := hm s hs
  rw [exec_bind]
  rcases hex : exec m s with ⟨e | a, s'⟩
  · simpa only [hex] using h
  · simp only [hex] at h
    exact hf a s' h

theorem Triple.bind_read {g : σ → α} {f : α → Effect σ ε β} {Q' : β → σ → Prop}
    (hf : ∀ a, Triple P (f a) Q' R) : Triple P (Effect.read g >>= f) Q' R :=
  Triple.bind (Q := fun _ => P) (Triple.read fun _ h => h) hf

theorem Triple.weaken (hm : Triple P m Q R) (hP : ∀ s, P' s → P s) (hQ : ∀ a s, Q a s → Q' a s) :
    Triple P' m Q' R := by
  intro s hs
  have h := hm s (hP s hs)
  rcases hex : exec m s with ⟨e | a, s'⟩
  · simpa only [hex] using h
  · simp only [hex] at h
    exact hQ a s' h

/-- What holds before, as a fact in front of the triple. -/
theorem Triple.assume {φ : Prop} (h : φ → Triple P m Q R) : Triple (fun s => φ ∧ P s) m Q R :=
  fun s hs => h hs.1 s hs.2

theorem Triple.exists {ι : Type} {P : ι → σ → Prop} (h : ∀ i, Triple (P i) m Q R) :
    Triple (fun s => ∃ i, P i s) m Q R :=
  fun s ⟨i, hs⟩ => h i s hs

theorem Triple.attempt {R' : ε' → σ → Prop} {S : σ → Prop} (hm : Triple P m (fun _ => S) fun _ => S) :
    Triple P (attempt m : Effect σ ε' (Except ε α)) (fun _ => S) R' := by
  intro s hs
  have h := hm s hs
  rw [exec_attempt]
  rcases hex : exec m s with ⟨e | a, s'⟩ <;> simpa only [hex] using h

/-- The state that a program leaves, whichever way it ends. -/
theorem Triple.final {S : σ → Prop} (hm : Triple P m (fun _ => S) fun _ => S) {s : σ} (hs : P s) :
    S (exec m s).2 := by
  have h := hm s hs
  rcases hex : exec m s with ⟨e | a, s'⟩ <;> simpa only [hex] using h

/-- From a state with `P` the program returns, and ends in a state with `Q`. -/
abbrev Total (P : σ → Prop) (m : Effect σ ε α) (Q : α → σ → Prop) : Prop := Triple P m Q fun _ _ => False

theorem Total.exec (hm : Total P m Q) {s : σ} (hs : P s) :
    ∃ a s', exec m s = (.ok a, s') ∧ Q a s' := by
  have h := hm s hs
  rcases hex : Effect.exec m s with ⟨e | a, s'⟩
  · rw [hex] at h
    exact h.elim
  · rw [hex] at h
    exact ⟨a, s', rfl, h⟩

theorem Total.of_exec (h : ∀ s, P s → ∃ a s', Effect.exec m s = (.ok a, s') ∧ Q a s') : Total P m Q := by
  intro s hs
  obtain ⟨a, s', hex, hq⟩ := h s hs
  rw [hex]
  exact hq

theorem Total.of_each (h : ∀ s, P s → Total (· = s) m Q) : Total P m Q := fun s hs => h s hs s rfl

/-- A program that returns, tried: its value is what there is afterwards. -/
theorem Total.attempt_ofExcept (hm : Total P m Q) {f : Except ε α → Effect σ ε Unit} {Q' : α → σ → Prop}
    (hf : ∀ a, Total (Q a) (f (.ok a)) fun _ => Q' a) :
    Total P (do
      let x ← Effect.attempt m
      f x
      Effect.ofExcept x) Q' := by
  refine Total.of_exec fun s hs => ?_
  obtain ⟨a, s₁, hex, hq⟩ := hm.exec hs
  obtain ⟨_, s₂, hex', hq'⟩ := (hf a).exec hq
  refine ⟨a, s₂, ?_, hq'⟩
  rw [exec_bind, exec_attempt, hex]
  dsimp only
  rw [exec_bind, hex']
  rfl

end Effect
