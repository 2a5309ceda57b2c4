import Mathlib.Data.List.Basic

/-!
# Firefly.Lib.Slots

A table of a fixed number of slots, each free or with an entry. An entry is put into the first free
slot (`allocate`), and looked up by a predicate as the first that satisfies it (`get`). Entries differ in
their key as long as none is put beside one of its key (`unique_allocate_iff`).
-/

namespace Slots

variable {α κ : Type}

def allocate (t : List (Option α)) (a : α) : Option (List (Option α) × Nat) :=
  (t.findIdx? Option.isNone).map fun i => (t.set i (some a), i)

def get (p : α → Bool) (t : List (Option α)) : Option Nat := t.findIdx? fun slot => slot.any p

def free (t : List (Option α)) (i : Nat) : List (Option α) := t.set i none

/-- Slot `i` has the entry `a`. -/
def At (t : List (Option α)) (i : Nat) (a : α) : Prop := t[i]? = some (some a)

/-- No two entries have one key. -/
def Unique (key : α → κ) (t : List (Option α)) : Prop :=
  ∀ i j a b, At t i a → At t j b → key a = key b → i = j

variable {t t' : List (Option α)} {i j : Nat} {a b : α}

theorem At.inj (ha : At t i a) (hb : At t i b) : a = b := by
  rw [At, ha] at hb
  injection hb with hb
  injection hb

theorem at_replicate (n : Nat) : ¬ At (List.replicate n none) i a := by
  intro h
  have hmem := List.mem_of_getElem? h
  rw [List.mem_replicate] at hmem
  cases hmem.2

@[simp] theorem length_free (t : List (Option α)) (i : Nat) : (free t i).length = t.length := List.length_set

theorem at_free : At (free t i) j a ↔ j ≠ i ∧ At t j a := by
  rw [At, free]
  by_cases h : i = j
  · subst h
    rw [List.getElem?_set]
    constructor
    · intro hat
      split at hat
      · split at hat
        · cases hat
        · cases hat
      · rename_i hne
        exact absurd rfl hne
    · intro hat
      exact absurd rfl hat.1
  · rw [List.getElem?_set_ne h]
    exact ⟨fun hat => ⟨Ne.symm h, hat⟩, And.right⟩

/-- The slot that an entry is put into was free. -/
theorem allocate_free (h : allocate t a = some (t', i)) : t[i]? = some none := by
  cases hfind : t.findIdx? Option.isNone with
  | none => simp [allocate, hfind] at h
  | some k =>
    simp only [allocate, hfind, Option.map_some, Option.some.injEq, Prod.mk.injEq] at h
    obtain ⟨-, rfl⟩ := h
    obtain ⟨hk, hnone, -⟩ := List.findIdx?_eq_some_iff_getElem.mp hfind
    rw [List.getElem?_eq_getElem hk, Option.isNone_iff_eq_none.mp hnone]

theorem allocate_eq (h : allocate t a = some (t', i)) : t' = t.set i (some a) := by
  cases hfind : t.findIdx? Option.isNone with
  | none => simp [allocate, hfind] at h
  | some k =>
    simp only [allocate, hfind, Option.map_some, Option.some.injEq, Prod.mk.injEq] at h
    obtain ⟨rfl, rfl⟩ := h
    rfl

theorem allocate_eq_none_iff : allocate t a = none ↔ ∀ i : Nat, t[i]? ≠ some none := by
  rw [allocate, Option.map_eq_none_iff, List.findIdx?_eq_none_iff]
  constructor
  · intro h i hi
    cases h none (List.mem_of_getElem? hi)
  · intro h x hx
    cases x with
    | none =>
      obtain ⟨i, hi⟩ := List.mem_iff_getElem?.mp hx
      exact absurd hi (h i)
    | some x => rfl

theorem at_allocate (h : allocate t a = some (t', i)) : At t' j b ↔ (j = i ∧ b = a) ∨ At t j b := by
  have hfree := allocate_free h
  rw [allocate_eq h, At, At, List.getElem?_set]
  by_cases hij : i = j
  · subst hij
    have hlt : i < t.length := (List.getElem?_eq_some_iff.mp hfree).1
    rw [if_pos rfl, if_pos hlt, hfree]
    constructor
    · intro hat
      injection hat with hat
      injection hat with hat
      exact Or.inl ⟨rfl, hat.symm⟩
    · intro hat
      cases hat with
      | inl hnew => rw [hnew.2]
      | inr hold => cases hold
  · rw [if_neg hij]
    constructor
    · exact Or.inr
    · intro hat
      cases hat with
      | inl hnew => exact absurd hnew.1.symm hij
      | inr hold => exact hold

theorem get_eq_none_iff {p : α → Bool} : get p t = none ↔ ∀ i a, At t i a → p a = false := by
  rw [get, List.findIdx?_eq_none_iff]
  constructor
  · intro h i a hat
    exact h (some a) (List.mem_of_getElem? hat)
  · intro h x hx
    cases x with
    | none => rfl
    | some a =>
      obtain ⟨i, hi⟩ := List.mem_iff_getElem?.mp hx
      exact h i a hi

theorem get_eq_some {p : α → Bool} (h : get p t = some i) : ∃ a, At t i a ∧ p a = true := by
  obtain ⟨hi, hp, -⟩ := List.findIdx?_eq_some_iff_getElem.mp h
  rw [Option.any_eq_true] at hp
  obtain ⟨a, ha, hpa⟩ := hp
  exact ⟨a, by rw [At, List.getElem?_eq_getElem hi, ha], hpa⟩

theorem get_eq_of_first {p : α → Bool} (hat : At t i a) (ha : p a = true)
    (hfirst : ∀ j < i, ∀ b, At t j b → p b = false) : get p t = some i := by
  obtain ⟨hi, hslot⟩ := List.getElem?_eq_some_iff.mp hat
  rw [get, List.findIdx?_eq_some_iff_getElem]
  refine ⟨hi, by rw [hslot, Option.any_some, ha], ?_⟩
  intro j hj
  cases hother : t[j] with
  | none => exact Bool.false_ne_true
  | some b =>
    rw [Option.any_some, hfirst j hj b (List.getElem?_eq_some_iff.mpr ⟨Nat.lt_trans hj hi, hother⟩)]
    exact Bool.false_ne_true

theorem unique_replicate (key : α → κ) (n : Nat) : Unique key (List.replicate n none) := by
  intro i j a b ha
  exact absurd ha (at_replicate n)

theorem Unique.free {key : α → κ} (h : Unique key t) (i : Nat) : Unique key (free t i) := by
  intro j k a b ha hb
  exact h j k a b (at_free.mp ha).2 (at_free.mp hb).2

theorem unique_allocate_iff {key : α → κ} (h : allocate t a = some (t', i)) (hunique : Unique key t) :
    Unique key t' ↔ ∀ j b, At t j b → key b ≠ key a := by
  have hfree := allocate_free h
  constructor
  · intro hunique' j b hb hkey
    have hij := hunique' j i b a ((at_allocate h).mpr (Or.inr hb)) ((at_allocate h).mpr (Or.inl ⟨rfl, rfl⟩)) hkey
    rw [At, hij, hfree] at hb
    cases hb
  · intro hkey j k b c hb hc heq
    rw [at_allocate h] at hb hc
    cases hb with
    | inl hb =>
      cases hc with
      | inl hc => rw [hb.1, hc.1]
      | inr hc => exact absurd (heq.symm.trans (congrArg key hb.2)) (hkey k c hc)
    | inr hb =>
      cases hc with
      | inl hc => exact absurd (heq.trans (congrArg key hc.2)) (hkey j b hb)
      | inr hc => exact hunique j k b c hb hc heq

end Slots
