import Mathlib.Algebra.Group.Int.Defs
import Mathlib.Algebra.Group.Nat.Defs
import Mathlib.Data.Int.ConditionallyCompleteOrder
import Mathlib.Data.Set.Prod
import Mathlib.Order.ConditionallyCompleteLattice.Basic
import Mathlib.Order.Interval.Set.LinearOrder
import Firefly.Lib.Grouping

/-!
# Firefly.Graphics.Area

`fd_graphics_area_t` and its algebra. The coordinates are integers: the sums of the C code do not
overflow. An area stands for the set of its `points`, the product of two half open intervals.

* `points_intersection`, `areaIntersects_eq_true`: the intersection is that of the points.
* `areaUnion_least`: the union is the least area that contains both.
* `area_algebra`: with the folds of the union, in any order and grouping.
-/

namespace Firefly
namespace Graphics

structure Area where
  x : Int
  y : Int
  width : Int
  height : Int
deriving DecidableEq, Repr

def areaEmpty : Area := ⟨0, 0, 0, 0⟩

def areaIsEmpty (a : Area) : Bool := a.width == 0 || a.height == 0

def areaContainsPoint (area : Area) (x y : Int) : Bool :=
  area.x ≤ x && x < area.x + area.width && area.y ≤ y && y < area.y + area.height

def areaContains (a b : Area) : Bool :=
  b.x ≥ a.x && b.y ≥ a.y && b.x + b.width ≤ a.x + a.width && b.y + b.height ≤ a.y + a.height

def areaIntersection (a b : Area) : Area :=
  let x := max a.x b.x
  let x2 := min (a.x + a.width) (b.x + b.width)
  let y := max a.y b.y
  let y2 := min (a.y + a.height) (b.y + b.height)
  if x2 ≥ x ∧ y2 ≥ y then ⟨x, y, x2 - x, y2 - y⟩ else areaEmpty

def areaIntersects (a b : Area) : Bool := !areaIsEmpty (areaIntersection a b)

def areaUnion (a b : Area) : Area :=
  if areaIsEmpty a then b
  else if areaIsEmpty b then a
  else
    let minX := min a.x b.x
    let maxX := max (a.x + a.width) (b.x + b.width)
    let minY := min a.y b.y
    let maxY := max (a.y + a.height) (b.y + b.height)
    ⟨minX, minY, maxX - minX, maxY - minY⟩

/-- `fd_canvas_change_t` -/
structure Change where
  area : Area
  isOpaque : Bool
deriving DecidableEq, Repr

/-- What `fd_canvas_add_change` and `fd_canvas_update` do to the change of the canvas. -/
def Change.add (change : Change) (area : Area) (isOpaque : Bool) : Change :=
  ⟨areaUnion change.area area, change.isOpaque && isOpaque⟩

/-- The points of an area. -/
def points (a : Area) : Set (Int × Int) :=
  Set.Ico a.x (a.x + a.width) ×ˢ Set.Ico a.y (a.y + a.height)

/-- No size is negative. -/
structure Area.Sized (a : Area) : Prop where
  width : 0 ≤ a.width
  height : 0 ≤ a.height

/-- Both sizes are positive. -/
structure Area.Proper (a : Area) : Prop where
  width : 0 < a.width
  height : 0 < a.height

def Area.translate (a : Area) (x y : Int) : Area := { a with x := a.x + x, y := a.y + y }

variable {a b c : Area} {x y : Int}

theorem mem_points {p : Int × Int} :
    p ∈ points a ↔ (a.x ≤ p.1 ∧ p.1 < a.x + a.width) ∧ a.y ≤ p.2 ∧ p.2 < a.y + a.height := by
  simp [points]

theorem areaContainsPoint_eq_true : areaContainsPoint a x y = true ↔ (x, y) ∈ points a := by
  simp [areaContainsPoint, mem_points, and_assoc]

theorem areaContains_eq_true :
    areaContains a b = true ↔
      (a.x ≤ b.x ∧ a.y ≤ b.y) ∧ b.x + b.width ≤ a.x + a.width ∧ b.y + b.height ≤ a.y + a.height := by
  simp [areaContains, and_assoc]

theorem areaIsEmpty_eq_true : areaIsEmpty a = true ↔ a.width = 0 ∨ a.height = 0 := by
  simp [areaIsEmpty]

theorem points_of_isEmpty (h : areaIsEmpty a = true) : points a = ∅ := by
  ext p
  have hsize := areaIsEmpty_eq_true.mp h
  simp only [mem_points, Set.mem_empty_iff_false, iff_false]
  omega

/-- An area with sizes that are not negative has no points exactly when it is empty. -/
theorem Area.Sized.points_nonempty (ha : a.Sized) : (points a).Nonempty ↔ areaIsEmpty a = false := by
  constructor
  · intro hp
    by_contra h
    rw [points_of_isEmpty (by simpa using h)] at hp
    exact Set.not_nonempty_empty hp
  · intro h
    have hsize : ¬ (a.width = 0 ∨ a.height = 0) := by simpa [areaIsEmpty] using h
    have hw := ha.width
    have hh := ha.height
    exact ⟨(a.x, a.y), mem_points.mpr (by dsimp only; omega)⟩

theorem points_subset_of_contains (h : areaContains a b = true) : points b ⊆ points a := by
  intro p hp
  have hedge := areaContains_eq_true.mp h
  have hb := mem_points.mp hp
  exact mem_points.mpr (by omega)

theorem areaIntersection_sized (a b : Area) : (areaIntersection a b).Sized := by
  unfold areaIntersection
  dsimp only
  split
  · rename_i h
    exact ⟨by dsimp only; omega, by dsimp only; omega⟩
  · exact ⟨Int.le_refl 0, Int.le_refl 0⟩

theorem points_intersection (a b : Area) : points (areaIntersection a b) = points a ∩ points b := by
  unfold areaIntersection
  dsimp only
  split
  · rename_i h
    have hx : ∀ x x2 : Int, x + (x2 - x) = x2 := fun x x2 => by omega
    rw [points, points, points, Set.prod_inter_prod, Set.Ico_inter_Ico, Set.Ico_inter_Ico, hx, hx]
  · rename_i h
    ext p
    simp only [Set.mem_inter_iff, mem_points, areaEmpty]
    omega

theorem areaIntersects_eq_true :
    areaIntersects a b = true ↔ ∃ x y, areaContainsPoint a x y = true ∧ areaContainsPoint b x y = true := by
  have hsized := areaIntersection_sized a b
  calc areaIntersects a b = true ↔ areaIsEmpty (areaIntersection a b) = false := by simp [areaIntersects]
    _ ↔ (points (areaIntersection a b)).Nonempty := hsized.points_nonempty.symm
    _ ↔ ∃ x y, areaContainsPoint a x y = true ∧ areaContainsPoint b x y = true := by
        rw [points_intersection]
        simp [Set.Nonempty, areaContainsPoint_eq_true]

theorem areaUnion_of_isEmpty_left (h : areaIsEmpty a = true) : areaUnion a b = b := by
  simp [areaUnion, h]

theorem areaUnion_of_isEmpty_right (ha : areaIsEmpty a = false) (h : areaIsEmpty b = true) :
    areaUnion a b = a := by
  simp [areaUnion, ha, h]

theorem areaUnion_of_nonempty (ha : areaIsEmpty a = false) (hb : areaIsEmpty b = false) :
    areaUnion a b =
      ⟨min a.x b.x, min a.y b.y, max (a.x + a.width) (b.x + b.width) - min a.x b.x,
        max (a.y + a.height) (b.y + b.height) - min a.y b.y⟩ := by
  simp [areaUnion, ha, hb]

theorem areaUnion_sized (ha : a.Sized) (hb : b.Sized) : (areaUnion a b).Sized := by
  have hwa := ha.width
  have hha := ha.height
  unfold areaUnion
  dsimp only
  split
  · exact hb
  split
  · exact ha
  · exact ⟨by dsimp only; omega, by dsimp only; omega⟩

theorem areaContains_union_left (ha : areaIsEmpty a = false) : areaContains (areaUnion a b) a = true := by
  cases hb : areaIsEmpty b with
  | true => simp [areaUnion_of_isEmpty_right ha hb, areaContains]
  | false =>
    rw [areaUnion_of_nonempty ha hb, areaContains_eq_true]
    dsimp only
    omega

theorem areaContains_union_right (hb : areaIsEmpty b = false) : areaContains (areaUnion a b) b = true := by
  cases ha : areaIsEmpty a with
  | true => simp [areaUnion_of_isEmpty_left ha, areaContains]
  | false =>
    rw [areaUnion_of_nonempty ha hb, areaContains_eq_true]
    dsimp only
    omega

theorem areaUnion_least (ha : areaContains c a = true) (hb : areaContains c b = true) :
    areaContains c (areaUnion a b) = true := by
  unfold areaUnion
  dsimp only
  split
  · exact hb
  split
  · exact ha
  · rw [areaContains_eq_true] at ha hb ⊢
    dsimp only
    omega

theorem points_union_left (a b : Area) : points a ⊆ points (areaUnion a b) := by
  cases ha : areaIsEmpty a with
  | true => simp [points_of_isEmpty ha]
  | false => exact points_subset_of_contains (areaContains_union_left ha)

theorem points_union_right (a b : Area) : points b ⊆ points (areaUnion a b) := by
  cases hb : areaIsEmpty b with
  | true => simp [points_of_isEmpty hb]
  | false => exact points_subset_of_contains (areaContains_union_right hb)

/-- A fold of the union in any grouping covers what it is made of. -/
theorem points_subset_fold (t : Grouping Area) (h : a ∈ t.members) : points a ⊆ points (t.fold areaUnion) := by
  intro p hp
  refine @Grouping.fold_of_member _ _ areaUnion (fun _ => True) (fun p a => p ∈ points a) p
    (fun _ _ _ _ => trivial) ?_ ?_ t (fun _ _ => trivial) _ h hp
  · exact fun a b _ _ hp => points_union_left a b hp
  · exact fun a b _ _ hp => points_union_right a b hp

theorem fold_sized (t : Grouping Area) (h : ∀ a ∈ t.members, a.Sized) : (t.fold areaUnion).Sized :=
  Grouping.fold_closed (fun _ _ => areaUnion_sized) t h

/-- The canvas puts the changes together from the left, onto the change that it has. -/
theorem area_foldl_add (change : Change) (l : List (Area × Bool)) :
    (l.foldl (fun change a => change.add a.1 a.2) change).area =
      ((Grouping.leaf change.area).toLeft (l.map Prod.fst)).fold areaUnion := by
  rw [Grouping.fold_toLeft, Grouping.fold]
  induction l generalizing change with
  | nil => rfl
  | cons a l ih => rw [List.foldl_cons, ih, List.map_cons, List.foldl_cons, Change.add]

theorem Area.Proper.isEmpty (h : a.Proper) : areaIsEmpty a = false := by
  have hw := h.width
  have hh := h.height
  simp [areaIsEmpty]
  omega

theorem areaContains_trans (h : areaContains a b = true) (h' : areaContains b c = true) :
    areaContains a c = true := by
  rw [areaContains_eq_true] at h h' ⊢
  omega

theorem areaUnion_proper (ha : a.Proper) (hb : b.Proper) : (areaUnion a b).Proper := by
  have hwa := ha.width
  have hha := ha.height
  rw [areaUnion_of_nonempty ha.isEmpty hb.isEmpty]
  exact ⟨by dsimp only; omega, by dsimp only; omega⟩

/-- The fold from the empty area is a grouping of the areas of the list alone. -/
theorem foldl_areaUnion_cons (a : Area) (l : List Area) :
    (a :: l).foldl areaUnion areaEmpty = ((Grouping.leaf a).toLeft l).fold areaUnion := by
  rw [Grouping.fold_toLeft, List.foldl_cons, areaUnion_of_isEmpty_left rfl, Grouping.fold]

theorem areaContains_foldl {l : List Area} (h : ∀ a ∈ l, a.Proper) (ha : a ∈ l) :
    areaContains (l.foldl areaUnion areaEmpty) a = true := by
  cases l with
  | nil => cases ha
  | cons b l =>
    have hmem : ((Grouping.leaf b).toLeft l).members = b :: l := Grouping.members_toLeft _ _
    rw [foldl_areaUnion_cons]
    rw [← hmem] at h ha
    refine Grouping.fold_of_member (P := Area.Proper) (R := fun c a => areaContains a c = true)
      (fun _ _ => areaUnion_proper) ?_ ?_ _ h ha (by simp [areaContains])
    · exact fun a b ha _ hc => areaContains_trans (areaContains_union_left ha.isEmpty) hc
    · exact fun a b _ hb hc => areaContains_trans (areaContains_union_right hb.isEmpty) hc

theorem foldl_areaUnion_least {l : List Area} (hne : l ≠ []) (h : ∀ a ∈ l, areaContains c a = true) :
    areaContains c (l.foldl areaUnion areaEmpty) = true := by
  cases l with
  | nil => exact absurd rfl hne
  | cons b l =>
    have hmem : ((Grouping.leaf b).toLeft l).members = b :: l := Grouping.members_toLeft _ _
    rw [foldl_areaUnion_cons]
    rw [← hmem] at h
    exact Grouping.fold_closed (P := fun a => areaContains c a = true) (fun _ _ => areaUnion_least) _ h

theorem points_subset_foldl {l : List Area} (ha : a ∈ l) : points a ⊆ points (l.foldl areaUnion areaEmpty) := by
  have hfold : ((Grouping.leaf areaEmpty).toLeft l).fold areaUnion = _ := Grouping.fold_toLeft _ l
  rw [Grouping.fold] at hfold
  rw [← hfold]
  exact points_subset_fold _ (by rw [Grouping.members_toLeft]; exact List.mem_append_right _ ha)

theorem mem_points_translate {p : Int × Int} :
    p ∈ points (a.translate x y) ↔ (p.1 - x, p.2 - y) ∈ points a := by
  rw [mem_points, mem_points]
  simp only [Area.translate]
  omega

theorem points_translate_mono (h : points a ⊆ points b) :
    points (a.translate x y) ⊆ points (b.translate x y) := by
  intro p hp
  rw [mem_points_translate] at hp ⊢
  exact h hp

theorem areaContains_translate :
    areaContains (a.translate x y) (b.translate x y) = true ↔ areaContains a b = true := by
  rw [areaContains_eq_true, areaContains_eq_true]
  simp only [Area.translate]
  omega

/-- An area contains a moved area when the area that is moved back contains it. -/
theorem areaContains_translate_right :
    areaContains c (a.translate x y) = true ↔ areaContains (c.translate (-x) (-y)) a = true := by
  rw [areaContains_eq_true, areaContains_eq_true]
  simp only [Area.translate]
  omega

theorem area_algebra (a b : Area) (ha : a.Sized) (hb : b.Sized) :
    (∀ x y, areaContainsPoint (areaIntersection a b) x y = true ↔
      areaContainsPoint a x y = true ∧ areaContainsPoint b x y = true) ∧
    (areaIntersects a b = true ↔
      ∃ x y, areaContainsPoint a x y = true ∧ areaContainsPoint b x y = true) ∧
    (areaIsEmpty a = false → areaIsEmpty b = false →
      areaContains (areaUnion a b) a = true ∧ areaContains (areaUnion a b) b = true ∧
      ∀ c, areaContains c a = true → areaContains c b = true → areaContains c (areaUnion a b) = true) ∧
    (areaIsEmpty a = true → areaUnion a b = b) ∧
    (areaIsEmpty a = false → areaIsEmpty b = true → areaUnion a b = a) ∧
    (areaIntersection a b).Sized ∧ (areaUnion a b).Sized ∧
    (∀ (changes : List Area) (t : Grouping Area), t.members.Perm changes → (∀ c ∈ changes, c.Sized) →
      (t.fold areaUnion).Sized ∧
      ∀ c ∈ changes, ∀ x y, areaContainsPoint c x y = true →
        areaContainsPoint (t.fold areaUnion) x y = true) ∧
    ∀ (change : Change) (l : List (Area × Bool)) (x y : Int),
      (areaContainsPoint change.area x y = true ∨ ∃ c ∈ l, areaContainsPoint c.1 x y = true) →
      areaContainsPoint (l.foldl (fun change c => change.add c.1 c.2) change).area x y = true := by
  refine ⟨?_, areaIntersects_eq_true, ?_, areaUnion_of_isEmpty_left, areaUnion_of_isEmpty_right,
    areaIntersection_sized a b, areaUnion_sized ha hb, ?_, ?_⟩
  · intro x y
    simp only [areaContainsPoint_eq_true, points_intersection, Set.mem_inter_iff]
  · intro hna hnb
    exact ⟨areaContains_union_left hna, areaContains_union_right hnb, fun c => areaUnion_least⟩
  · intro changes t hperm hsized
    refine ⟨fold_sized t fun c hc => hsized c (hperm.mem_iff.mp hc), ?_⟩
    intro c hc x y hp
    rw [areaContainsPoint_eq_true] at hp ⊢
    exact points_subset_fold t (hperm.mem_iff.mpr hc) hp
  · intro change l x y hp
    simp only [areaContainsPoint_eq_true] at hp ⊢
    rw [area_foldl_add]
    -- the change that the canvas has is one more member of the grouping
    rcases hp with hp | ⟨c, hc, hp⟩
    · exact points_subset_fold _ (by simp [Grouping.members_toLeft, Grouping.members]) hp
    · refine points_subset_fold (a := c.1) _ ?_ hp
      rw [Grouping.members_toLeft]
      exact List.mem_append_right _ (List.mem_map_of_mem hc)

/-- Two areas apart. -/
theorem area_algebra_apart :
    areaUnion ⟨0, 0, 2, 1⟩ ⟨5, 3, 1, 1⟩ = ⟨0, 0, 6, 4⟩ ∧
    areaIntersects ⟨0, 0, 2, 1⟩ ⟨5, 3, 1, 1⟩ = false ∧
    (areaUnion ⟨0, 0, 2, 1⟩ ⟨5, 3, 1, 1⟩).Sized :=
  ⟨rfl, rfl,
    (area_algebra ⟨0, 0, 2, 1⟩ ⟨5, 3, 1, 1⟩ ⟨by simp, by simp⟩ ⟨by simp, by simp⟩).2.2.2.2.2.2.1⟩

end Graphics
end Firefly
