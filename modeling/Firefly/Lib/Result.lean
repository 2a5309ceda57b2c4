import Mathlib.Algebra.Group.Nat.Defs

/-!
# Firefly.Lib.Result

Rules for programs in `Except`: step forward through a call that succeeds (`ok_bind`), and take a
program that succeeded apart (`bind_eq_ok`). The forward rules are propositional, so that a proof
records them and nothing behind the call is evaluated when it is checked.
-/

namespace Result

variable {ε ε' α β : Type}

instance instDecidableEqExcept [DecidableEq ε] [DecidableEq α] : DecidableEq (Except ε α)
  | .ok a, .ok b => decidable_of_iff (a = b) ⟨congrArg Except.ok, Except.ok.inj⟩
  | .error d, .error e => decidable_of_iff (d = e) ⟨congrArg Except.error, Except.error.inj⟩
  | .ok _, .error _ => isFalse (by intro h; cases h)
  | .error _, .ok _ => isFalse (by intro h; cases h)

theorem ok_bind (a : α) (f : α → Except ε β) : (Except.ok a >>= f) = f a := by
  cases h : f a <;> exact h

theorem pure_eq (a : α) : (pure a : Except ε α) = .ok a := rfl

theorem bind_of_ok {x : Except ε α} {a : α} (h : x = .ok a) (f : α → Except ε β) :
    (x >>= f) = f a := by
  rw [h, ok_bind]

theorem bind_eq_ok {x : Except ε α} {f : α → Except ε β} {b : β} (h : (x >>= f) = .ok b) :
    ∃ a, x = .ok a ∧ f a = .ok b := by
  cases x with
  | error e => cases h
  | ok a => exact ⟨a, rfl, h⟩

/-- Errors together with what is known where they are raised. -/
def raise (g : ε → ε') : Except ε α → Except ε' α
  | .ok a => .ok a
  | .error e => .error (g e)

@[simp] theorem raise_ok (g : ε → ε') (a : α) : raise g (.ok a) = .ok a := rfl

@[simp] theorem raise_error (g : ε → ε') (e : ε) : raise g (.error e : Except ε α) = .error (g e) := rfl

theorem raise_eq_ok {g : ε → ε'} {x : Except ε α} {a : α} (h : raise g x = .ok a) : x = .ok a := by
  cases x with
  | error e => cases h
  | ok b =>
    cases h
    rfl

variable {γ δ : Type}

/-- The same outcome seen through a map of the errors and one of the values. -/
def image (g : ε → ε') (f : α → β) : Except ε α → Except ε' β
  | .ok a => .ok (f a)
  | .error e => .error (g e)

@[simp] theorem image_ok (g : ε → ε') (f : α → β) (a : α) :
    image g f (.ok a : Except ε α) = .ok (f a) := rfl

@[simp] theorem image_error (g : ε → ε') (f : α → β) (e : ε) :
    image g f (.error e : Except ε α) = .error (g e) := rfl

theorem image_bind {g : ε → ε'} {f : α → β} {f' : γ → δ} {x : Except ε α} {y : Except ε' β}
    {k : α → Except ε γ} {l : β → Except ε' δ} (hx : image g f x = y)
    (hk : ∀ a, image g f' (k a) = l (f a)) : image g f' (x >>= k) = y >>= l := by
  subst hx
  cases x with
  | error e => rfl
  | ok a => exact hk a

theorem image_raise {ε'' : Type} (g : ε' → ε'') (g' : ε → ε') (x : Except ε α) :
    image g id (raise g' x) = raise (fun e => g (g' e)) x := by
  cases x <;> rfl

theorem raise_image (g : ε → ε') (f : α → β) (x : Except ε α) :
    image id f (raise g x) = raise g (image id f x) := by
  cases x <;> rfl

theorem image_self (x : Except ε α) : image id id x = x := by
  cases x <;> rfl

/-- Both succeed with related values, or fail with the same error. -/
def Related (R : α → β → Prop) : Except ε α → Except ε β → Prop
  | .ok a, .ok b => R a b
  | .error e, .error e' => e = e'
  | _, _ => False

variable {R : α → β → Prop} {S : γ → δ → Prop}

theorem related_self (x : Except ε α) : Related Eq x x := by
  cases x <;> rfl

theorem Related.eq {x y : Except ε α} (h : Related Eq x y) : x = y := by
  cases x with
  | error e =>
    cases y with
    | error e' => exact congrArg Except.error h
    | ok b => exact h.elim
  | ok a =>
    cases y with
    | error e => exact h.elim
    | ok b => exact congrArg Except.ok h

theorem Related.mono {R' : α → β → Prop} {x : Except ε α} {y : Except ε β} (h : Related R x y)
    (himp : ∀ a b, R a b → R' a b) : Related R' x y := by
  cases x with
  | error e =>
    cases y with
    | error e' => exact h
    | ok b => exact h.elim
  | ok a =>
    cases y with
    | error e => exact h.elim
    | ok b => exact himp a b h

theorem Related.bind {x : Except ε α} {y : Except ε β} {k : α → Except ε γ} {l : β → Except ε δ}
    (h : Related R x y) (hk : ∀ a b, R a b → Related S (k a) (l b)) : Related S (x >>= k) (y >>= l) := by
  cases x with
  | error e =>
    cases y with
    | error e' => exact h
    | ok b => exact h.elim
  | ok a =>
    cases y with
    | error e => exact h.elim
    | ok b => exact hk a b h

/-- The same call on both sides. -/
theorem related_bind_self {x : Except ε α} {k : α → Except ε γ} {l : α → Except ε δ}
    (hk : ∀ a, x = .ok a → Related S (k a) (l a)) : Related S (x >>= k) (x >>= l) := by
  cases x with
  | error e => rfl
  | ok a => exact hk a rfl

theorem Related.raise {x : Except ε α} {y : Except ε β} (h : Related R x y) (g : ε → ε') :
    Related R (raise g x) (raise g y) := by
  cases x with
  | error e =>
    cases y with
    | error e' => exact congrArg g h
    | ok b => exact h.elim
  | ok a =>
    cases y with
    | error e => exact h.elim
    | ok b => exact h

end Result
