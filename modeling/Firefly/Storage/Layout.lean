import Firefly.Storage.Recovery

/-!
# Firefly.Storage.Layout

The layout of the flash in every state that a run can reach, in terms of what the code reads
from it: the two regions of each page, the slices of its records, the end marker, the erased page
ahead of the current one and the block of pages in use.
-/

namespace Firefly
namespace KeyValueStore

namespace Store

/-- Where the data region of a page ends: behind the data of the last record. -/
def pageDataEnd (s : Store) (page : Nat) : Nat :=
  let count := s.getMetadataCount page
  let metadata := s.getMetadata page (count - 1)
  if count = 0 then 0 else metadata.key.offset + getWriteSize (metadata.key.size + metadata.value.size)

def PageErased (s : Store) (page : Nat) : Prop :=
  ∀ x < pageSize, s.flash (getPageAddress page + x) = 0xff

/-- The layout of one page. -/
structure PageLayout (s : Store) (page : Nat) : Prop where
  regions : s.pageDataEnd page + s.getMetadataCount page * metadataSize ≤ pageSize
  slices : ∀ i < s.getMetadataCount page,
    (s.getMetadata page i).key.offset + (s.getMetadata page i).key.size ≤
        (s.getMetadata page i).value.offset ∧
      (s.getMetadata page i).value.offset + (s.getMetadata page i).value.size ≤ s.pageDataEnd page
  increasing : ∀ i j, i < j → j < s.getMetadataCount page →
    (s.getMetadata page i).value.offset + (s.getMetadata page i).value.size ≤
      (s.getMetadata page j).key.offset
  endMarker : (s.getMetadataCount page + 1) * metadataSize ≤ pageSize ∧
    ∀ x < metadataSize, s.flash (metadataAddress page (s.getMetadataCount page) + x) = 0xff

/-- The layout of the flash: pages, erased page ahead, and the block of the `m` pages in use that
ends at the current page. -/
structure Layout (s : Store) : Prop where
  pages : ∀ page < s.pageCount, s.PageLayout page
  current_lt : s.current.page < s.pageCount
  next : s.PageErased ((s.current.page + 1) % s.pageCount)
  block : ∃ m, ∀ j < s.pageCount,
    ¬ s.PageErased ((s.current.page + s.pageCount - j) % s.pageCount) ↔ j < m
  freeBytes : s.currentFreeBytes.2 = s
  writeOnce : Nor.WriteOnce s.flashLog

end Store

variable {k : Nat} {s : Store} {L : Pages} {p : Nat} {rs : List Rec}

theorem dataEnd_le_append (as rs : List Rec) : dataEnd rs ≤ dataEnd (as ++ rs) := by
  induction as with
  | nil => exact Nat.le_refl _
  | cons a as ih => rw [List.cons_append, dataEnd_cons]; omega

theorem pageDataEnd_eq (h : PageHolds s.flash p rs) : s.pageDataEnd p = dataEnd rs := by
  rw [Store.pageDataEnd, Store.getMetadataCount_eq h]
  cases rs with
  | nil => rfl
  | cons r rs =>
    have hmeta := Store.getMetadata_eq h (show r :: rs = [] ++ r :: rs from rfl)
    simp only [List.length_cons, Nat.add_one_sub_one, hmeta]
    rw [if_neg (Nat.succ_ne_zero _), dataEnd_cons, Nat.add_comm]
    rfl

theorem pageErased_iff (h : PageHolds s.flash p rs) : s.PageErased p ↔ rs = [] := by
  constructor
  · intro he
    rcases List.eq_nil_or_concat rs with rfl | ⟨as, r, hrs⟩
    · rfl
    · have hflags := Store.getMetadata_end (pageHolds_nil he)
      rw [List.length_nil] at hflags
      have hmeta := Store.getMetadata_eq h (show rs = as ++ r :: [] by simpa using hrs)
      rw [List.length_nil] at hmeta
      rw [hmeta] at hflags
      exact absurd hflags (metadataOf_flags_ne _ r)
  · rintro rfl x hx
    exact h.erased x (Nat.zero_le _) (by simpa using hx)

theorem pageLayout (h : PageHolds s.flash p rs) : s.PageLayout p := by
  have hroom := h.room
  simp only [used, pageSize_eq, metadataSize_eq] at hroom
  have hcount := Store.getMetadataCount_eq h
  have hend := pageDataEnd_eq h
  constructor
  · rw [hcount, hend, pageSize_eq, metadataSize_eq]
    omega
  · intro i hi
    rw [hcount] at hi
    obtain ⟨as, r, ts, hrs, rfl⟩ := exists_record hi
    have hle := dataEnd_le_append as (r :: ts)
    have hsize := le_dataSize r
    rw [dataEnd_cons] at hle
    rw [Store.getMetadata_eq h hrs, hend, hrs]
    simp only [metadataOf]
    omega
  · intro i j hij hj
    rw [hcount] at hj
    obtain ⟨as, r, ts, hrs, rfl⟩ := exists_record hj
    obtain ⟨as', r', ts', hts, rfl⟩ := exists_record hij
    have hrs' : rs = (as ++ r :: as') ++ r' :: ts' := by rw [hrs, hts]; simp
    have hle := dataEnd_le_append as' (r' :: ts')
    have hsize := le_dataSize r'
    rw [← hts, dataEnd_cons] at hle
    rw [Store.getMetadata_eq h hrs, Store.getMetadata_eq h hrs']
    simp only [metadataOf]
    omega
  · rw [hcount]
    simp only [pageSize_eq, metadataSize_eq]
    refine ⟨by omega, fun x hx => ?_⟩
    have herased := h.erased (4096 - (rs.length + 1) * 12 + x) (by omega)
      (by simp only [pageSize_eq, metadataSize_eq]; omega)
    simpa only [Store.metadataAddress, Store.getPageAddress, pageSize_eq, metadataSize_eq,
      Nat.add_assoc] using herased

theorem layout_of_tidy (h : Represents k s L) (ht : L.Tidy) : s.Layout := by
  obtain ⟨m, hr⟩ := ht.ringed
  have herased : ∀ p < L.pageCount, s.PageErased p ↔ L.page p = [] := fun p hp =>
    pageErased_iff (h.holds p hp)
  have hback : ∀ j < L.pageCount,
      (L.current + L.pageCount - j) % L.pageCount = Ring.back L.pageCount L.current j := by
    intro j hj
    have := h.current_lt
    rw [Ring.mod_of_lt_two (by omega)]
    unfold Ring.back
    split <;> split <;> omega
  constructor
  · intro p hp
    exact pageLayout (h.holds p (h.pageCount ▸ hp))
  · rw [h.page, h.pageCount]; exact h.current_lt
  · rw [h.next, herased _ h.wellFormed.next_lt]
    exact hr.page_next
  · rw [h.page, h.pageCount]
    by_cases hc : L.page L.current = []
    · obtain ⟨-, hempty⟩ := ht.start hc
      refine ⟨0, fun j hj => ?_⟩
      rw [hback j hj, herased _ (Ring.back_lt h.current_lt hj)]
      simp [hempty _ (Ring.back_lt h.current_lt hj)]
    · refine ⟨m, fun j hj => ?_⟩
      rw [hback j hj, herased _ (Ring.back_lt h.current_lt hj)]
      by_cases hj0 : j = 0
      · subst hj0
        rw [Ring.back_zero]
        exact ⟨fun _ => hr.pos, fun _ => hc⟩
      · exact hr.older j (by omega) hj
  · rw [currentFreeBytes_eq h]
  · exact h.writeOnce

/-- In every state of a run whose records fit their pages the flash is laid out, and the only
assertions that failed are those of the calls that returned false. -/
theorem layout_run (s₀ : Store) (hn : 2 ≤ s₀.pageCount) {calls : List (Op × Bool)}
    (h : Run (fun s op _ => op.Fits s) s₀.erased calls s) :
    s.Layout ∧ s.assertCount = failures calls := by
  obtain ⟨L, hrep, ht, -⟩ := run_tidy (fun _ _ _ hfit => .inr hfit) hn h
  exact ⟨layout_of_tidy hrep ht, hrep.asserts⟩

theorem layout_run_sample : ∃ s, Run (fun s op _ => op.Fits s) (Store.blank 2).erased
    [(.set sampleKey (sampleMessage 3 7), true)] s ∧ s.Layout ∧ s.assertCount = 0 := by
  obtain ⟨s, hr⟩ := sample_returns
  have hfits : (Op.set sampleKey (sampleMessage 3 7)).Fits (Store.blank 2).erased := by
    rw [fits_iff (erased_represents (Store.blank 2) (Nat.le_refl 2))]
    exact fun _ => by decide
  have hrun := (Run.nil (P := fun s op _ => op.Fits s)).snoc hr hfits
  exact ⟨s, hrun, layout_run (Store.blank 2) (Nat.le_refl 2) hrun⟩

end KeyValueStore
end Firefly
