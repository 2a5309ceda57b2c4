import Mathlib.Data.List.Basic

/-!
# Firefly.Lib.Journal

Log-structured maps. A page is a list of records, newest first; a record binds a key to a value
or, as a tombstone, removes it. A journal is a list of pages, newest first.

Two readings of a journal: `onPage pages.flatten`, the map the whole log denotes (the newest
record of a key decides), and `lookup`, the search that asks one page after the other and goes
on to older pages after a tombstone.
-/

namespace Journal

structure Record (K V : Type) where
  key : K
  value : V
  removed : Bool
  deriving DecidableEq

variable {K V : Type} [DecidableEq K]

def Record.bound (r : Record K V) : Option V := if r.removed then none else some r.value

/-- What a page, newest record first, says about a key. -/
def onPage (rs : List (Record K V)) (k : K) : Option V :=
  (rs.find? fun r => r.key = k).bind Record.bound

/-- The newest page with a binding for the key decides. -/
def lookup (pages : List (List (Record K V))) (k : K) : Option V :=
  pages.findSome? fun rs => onPage rs k

/-- The oldest record of a page that binds the key. -/
def oldestBound (rs : List (Record K V)) (k : K) : Option (Record K V) :=
  rs.reverse.find? fun r => r.key = k && !r.removed

@[simp] theorem onPage_nil (k : K) : onPage ([] : List (Record K V)) k = none := rfl

theorem onPage_cons (r : Record K V) (rs : List (Record K V)) (k : K) :
    onPage (r :: rs) k = if r.key = k then r.bound else onPage rs k := by
  by_cases h : r.key = k <;> simp [onPage, h]

theorem onPage_eq_none_of_forall {rs : List (Record K V)} {k : K}
    (h : ∀ r ∈ rs, r.key = k → r.removed = true) : onPage rs k = none := by
  induction rs with
  | nil => rfl
  | cons r rs ih =>
    rw [onPage_cons]
    by_cases hk : r.key = k
    · rw [if_pos hk, Record.bound, if_pos (h r (by simp) hk)]
    · rw [if_neg hk]; exact ih fun t ht => h t (by simp [ht])

/-- A page that binds a key has a record that does. -/
theorem exists_of_onPage {rs : List (Record K V)} {k : K} {v : V} (h : onPage rs k = some v) :
    ∃ r ∈ rs, r.key = k ∧ r.removed = false ∧ r.value = v := by
  induction rs with
  | nil => simp at h
  | cons r rs ih =>
    rw [onPage_cons] at h
    by_cases hk : r.key = k
    · rw [if_pos hk, Record.bound] at h
      split at h
      · cases h
      · rename_i hr; cases h
        exact ⟨r, by simp, hk, by simpa using hr, rfl⟩
    · rw [if_neg hk] at h
      obtain ⟨t, ht, hrest⟩ := ih h
      exact ⟨t, by simp [ht], hrest⟩

@[simp] theorem lookup_nil (k : K) : lookup ([] : List (List (Record K V))) k = none := rfl

@[simp] theorem lookup_cons (rs : List (Record K V)) (pages : List (List (Record K V))) (k : K) :
    lookup (rs :: pages) k = (onPage rs k).or (lookup pages k) := by
  simp only [lookup, List.findSome?_cons]
  cases onPage rs k <;> rfl

theorem lookup_append (ps qs : List (List (Record K V))) (k : K) :
    lookup (ps ++ qs) k = (lookup ps k).or (lookup qs k) := by
  induction ps with
  | nil => simp
  | cons rs ps ih => simp [ih, Option.or_assoc]

theorem lookup_eq_none {pages : List (List (Record K V))} {k : K} :
    lookup pages k = none ↔ ∀ rs ∈ pages, onPage rs k = none := by
  simp [lookup]

/-- Bindings alone, without tombstones, keep a bound key bound. -/
theorem lookup_ne_none_of_mem {pages : List (List (Record K V))} {rs : List (Record K V)} {k : K}
    (hrs : rs ∈ pages) (h : onPage rs k ≠ none) : lookup pages k ≠ none := fun hn =>
  h (lookup_eq_none.mp hn rs hrs)

/-- With `r` the newest record of the key, the search ends at its page unless `r` is a tombstone. -/
theorem lookup_eq_bound_iff {ps qs : List (List (Record K V))} {rs : List (Record K V)} {k : K}
    {r : Record K V} (hps : ∀ ts ∈ ps, onPage ts k = none)
    (hr : rs.find? (fun r => r.key = k) = some r) :
    lookup (ps ++ rs :: qs) k = r.bound ↔ (r.removed = true → lookup qs k = none) := by
  have hpage : onPage rs k = r.bound := by rw [onPage, hr, Option.bind_some]
  rw [lookup_append, lookup_eq_none.mpr hps, Option.none_or, lookup_cons, hpage]
  cases hremoved : r.removed with
  | false => simp [Record.bound, hremoved]
  | true => simp [Record.bound, hremoved]

end Journal
