import Mathlib.Data.List.Basic

/-!
# Firefly.Lib.Words

Words that grow at their end, and words of two signals: `true` that opens and `false` that closes.

* `snoc_eq_append_cons`: where an element stands in a word with one more element.
* `Alternates`: the signals take turns, where the first argument tells whether something is open.
* `Matched`: every closing signal comes right after an opening one. An opening signal may be
  repeated.
-/

namespace Words

theorem snoc_eq_append_cons {α : Type} {p l₁ l₂ : List α} {x y : α} (h : p ++ [x] = l₁ ++ y :: l₂) :
    (l₁ = p ∧ y = x ∧ l₂ = []) ∨ ∃ l, l₂ = l ++ [x] ∧ p = l₁ ++ y :: l := by
  cases List.eq_nil_or_concat l₂ with
  | inl hnil =>
    subst hnil
    have hlast := List.append_inj' h rfl
    injection hlast.2 with hx
    exact Or.inl ⟨hlast.1.symm, hx.symm, rfl⟩
  | inr hsnoc =>
    obtain ⟨l, z, rfl⟩ := hsnoc
    rw [List.concat_eq_append, ← List.cons_append, ← List.append_assoc] at h
    have hlast := List.append_inj' h rfl
    injection hlast.2 with hx
    subst hx
    exact Or.inr ⟨l, List.concat_eq_append, hlast.1⟩

def Alternates : Bool → List Bool → Prop
  | _, [] => True
  | isOpen, b :: bs => b = !isOpen ∧ Alternates b bs

def Matched (bs : List Bool) : Prop :=
  ∀ l₁ l₂, bs = l₁ ++ false :: l₂ → l₁.getLast? = some true

theorem alternates_append {bs cs : List Bool} {isOpen : Bool} :
    Alternates isOpen (bs ++ cs) ↔ Alternates isOpen bs ∧ Alternates (bs.getLast?.getD isOpen) cs := by
  induction bs generalizing isOpen with
  | nil => simp [Alternates]
  | cons b bs ih =>
    rw [List.cons_append, Alternates, Alternates, ih, and_assoc, List.getLast?_cons, Option.getD_some]

/-- What a word that goes on with one more signal says about this signal. -/
theorem Alternates.of_snoc {bs cs : List Bool} {b : Bool} (h : Alternates false (bs ++ b :: cs)) :
    b = !bs.getLast?.getD false := by
  have htail := (alternates_append.mp h).2
  exact htail.1

theorem matched_nil : Matched [] := by
  intro l₁ l₂ h
  cases l₁ <;> cases h

theorem Matched.snoc {bs : List Bool} {b : Bool} (h : Matched bs)
    (hb : b = false → bs.getLast? = some true) : Matched (bs ++ [b]) := by
  intro l₁ l₂ heq
  cases snoc_eq_append_cons heq with
  | inl hlast =>
    obtain ⟨rfl, hx, -⟩ := hlast
    exact hb hx.symm
  | inr hinner =>
    obtain ⟨l, -, rfl⟩ := hinner
    exact h l₁ l rfl

end Words
