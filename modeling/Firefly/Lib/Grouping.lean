import Mathlib.Init

/-!
# Firefly.Lib.Grouping

The ways to put values together with one operation: a `Grouping` is the tree of its applications. What
holds of every member, and is kept by the operation, holds of the result; what is related to one member,
and stays related when another value is put to it from either side, is related to the result. Folds of
a list are the groupings to the left.
-/

inductive Grouping (α : Type) where
  | leaf (a : α)
  | node (l r : Grouping α)

namespace Grouping

variable {α γ : Type} {op : α → α → α} {P : α → Prop}

def members : Grouping α → List α
  | leaf a => [a]
  | node l r => l.members ++ r.members

/-- The value of the tree. -/
def fold (op : α → α → α) : Grouping α → α
  | leaf a => a
  | node l r => op (l.fold op) (r.fold op)

theorem fold_closed (hop : ∀ a b, P a → P b → P (op a b)) (t : Grouping α) (h : ∀ a ∈ t.members, P a) :
    P (t.fold op) := by
  induction t with
  | leaf a => exact h a (by simp [members])
  | node l r ihl ihr =>
    have hl : P (l.fold op) := ihl fun a ha => h a (by simp [members, ha])
    have hr : P (r.fold op) := ihr fun a ha => h a (by simp [members, ha])
    exact hop _ _ hl hr

theorem fold_of_member {R : γ → α → Prop} {c : γ} (hop : ∀ a b, P a → P b → P (op a b))
    (hleft : ∀ a b, P a → P b → R c a → R c (op a b))
    (hright : ∀ a b, P a → P b → R c b → R c (op a b)) (t : Grouping α) (h : ∀ a ∈ t.members, P a)
    {a : α} (ha : a ∈ t.members) (hc : R c a) : R c (t.fold op) := by
  induction t with
  | leaf b =>
    obtain rfl : a = b := by simpa [members] using ha
    exact hc
  | node l r ihl ihr =>
    have hmem : ∀ x ∈ l.members, P x := fun x hx => h x (by simp [members, hx])
    have hmem' : ∀ x ∈ r.members, P x := fun x hx => h x (by simp [members, hx])
    have hl : P (l.fold op) := fold_closed hop l hmem
    have hr : P (r.fold op) := fold_closed hop r hmem'
    rcases List.mem_append.mp ha with ha | ha
    · exact hleft _ _ hl hr (ihl hmem ha)
    · exact hright _ _ hl hr (ihr hmem' ha)

/-- The grouping of a fold of the list from the left. -/
def toLeft : Grouping α → List α → Grouping α
  | t, [] => t
  | t, a :: l => toLeft (node t (leaf a)) l

theorem fold_toLeft (t : Grouping α) (l : List α) : (t.toLeft l).fold op = l.foldl op (t.fold op) := by
  induction l generalizing t with
  | nil => rfl
  | cons a l ih => rw [toLeft, ih, List.foldl_cons, fold, fold]

theorem members_toLeft (t : Grouping α) (l : List α) : (t.toLeft l).members = t.members ++ l := by
  induction l generalizing t with
  | nil => rw [toLeft, List.append_nil]
  | cons a l ih => rw [toLeft, ih, members, members, List.append_assoc, List.singleton_append]

end Grouping
