import Firefly.Storage.Writing

/-!
# Firefly.Storage.Representation

When a store holds given pages. `Stored k s L`: every page of the flash of `s` is laid out as the
page of `L`, what lies between data and metadata was not programmed since its erase, no byte was
programmed twice, and `k` assertions failed so far. `Represents k s L` adds the cursor in RAM.

The primitive steps keep the relation (`represents_push`, `stored_clear`, `represents_advance`),
the search finds what the pages bind (`lookupValue_eq`), and the start-up scan rebuilds a cursor
from the flash alone (`represents_updateCurrent`).
-/

namespace Firefly
namespace KeyValueStore

open Journal

structure Stored (k : Nat) (s : Store) (L : Pages) : Prop where
  pageCount : s.pageCount = L.pageCount
  two_le : 2 ≤ L.pageCount
  holds : ∀ p < L.pageCount, PageHolds s.flash p (L.page p)
  fresh : ∀ p < L.pageCount, ∀ x, dataEnd (L.page p) ≤ x →
    x + (L.page p).length * metadataSize < pageSize → p * pageSize + x ∉ Nor.dirty s.flashLog
  writeOnce : Nor.WriteOnce s.flashLog
  asserts : s.assertCount = k

structure Represents (k : Nat) (s : Store) (L : Pages) : Prop extends Stored k s L where
  isFull : s.isFull = L.isFull
  current_lt : L.current < L.pageCount
  page : s.current.page = L.current
  dataByteCount : s.current.dataByteCount = dataEnd (L.page L.current)
  metadataCount : s.current.metadataCount = (L.page L.current).length

variable {k : Nat} {s s' : Store} {L L' : Pages}

theorem Represents.wellFormed (h : Represents k s L) : L.WellFormed := ⟨h.two_le, h.current_lt⟩

theorem Represents.next (h : Represents k s L) : (s.current.page + 1) % s.pageCount = L.next := by
  rw [h.page, h.pageCount]; rfl

/-- What is stored is a matter of the flash, its log, the page count and the assertions, not of
the cursor. -/
theorem Stored.congr (h : Stored k s L) (hn : s'.pageCount = s.pageCount) (hf : s'.flash = s.flash)
    (hl : s'.flashLog = s.flashLog) (ha : s'.assertCount = s.assertCount)
    (hn' : L'.pageCount = L.pageCount) (hp' : L'.page = L.page) : Stored k s' L' where
  pageCount := by rw [hn, hn', h.pageCount]
  two_le := hn' ▸ h.two_le
  holds := by rw [hn', hp', hf]; exact h.holds
  fresh := by rw [hn', hp', hl]; exact h.fresh
  writeOnce := hl ▸ h.writeOnce
  asserts := ha ▸ h.asserts

namespace Stored

theorem isPageEmpty (h : Stored k s L) {p : Nat} (hp : p < L.pageCount) :
    s.isPageEmpty p = ((L.page p).isEmpty, s) := Store.isPageEmpty_eq (h.holds p hp)

/-- Erasing a page. -/
theorem clear (h : Stored k s L) {p : Nat} (hp : p < L.pageCount) :
    Stored k (s.nvmErase p) (L.clear p) where
  pageCount := h.pageCount
  two_le := h.two_le
  holds := by
    intro q hq
    by_cases hqp : q = p
    · subst hqp
      rw [Pages.clear_page_self]
      refine pageHolds_nil fun x hx => ?_
      exact Nor.erase_inside (by omega) (by omega)
    · rw [Pages.clear_page_of_ne L hqp]
      refine (h.holds q hq).congr fun x hx => ?_
      simp only [pageSize_eq] at hx
      refine Nor.erase_outside ?_
      simp only [pageSize_eq]
      omega
  fresh := by
    intro q hq x hx hx'
    simp only [Store.nvmErase, Nor.mem_dirty_erase]
    rintro ⟨hmem, hout⟩
    by_cases hqp : q = p
    · subst hqp
      simp only [pageSize_eq, metadataSize_eq] at hx' hout
      omega
    · rw [Pages.clear_page_of_ne L hqp] at hx hx'
      exact h.fresh q hq x hx hx' hmem
  writeOnce := Nor.writeOnce_snoc_erase h.writeOnce
  asserts := h.asserts

end Stored

/-! ## Writing -/

/-- The bytes of the new record are erased before it is written. -/
theorem erased_of_room {f : Nor.Image} {p : Nat} {rs : List Rec} (h : PageHolds f p rs) {a n : Nat}
    (ha : p * pageSize + dataEnd rs ≤ a)
    (hn : a + n + rs.length * metadataSize ≤ (p + 1) * pageSize) :
    ∀ x, a ≤ x → x < a + n → f x = 0xff := by
  intro x hx hx'
  simp only [pageSize_eq, metadataSize_eq] at ha hn
  have := h.erased (x - p * 4096) (by omega) (by simp only [pageSize_eq, metadataSize_eq]; omega)
  rwa [pageSize_eq, show p * 4096 + (x - p * 4096) = x by omega] at this

theorem recordAt_program {f : Nor.Image} {p : Nat} {rs : List Rec} (h : PageHolds f p rs) {r : Rec}
    {pad : List UInt8} (hlen : (r.key ++ r.value ++ pad).length = dataSize r)
    (hroom : used rs + dataSize r + metadataSize + metadataSize ≤ pageSize) :
    RecordAt (Nor.program
        (Nor.program f (p * pageSize + dataEnd rs) (r.key ++ r.value ++ pad))
        (p * pageSize + pageSize - (rs.length + 1) * metadataSize)
        (metadataOf (dataEnd rs) r).toBytes)
      p rs.length (dataEnd rs) r := by
  simp only [used, pageSize_eq, metadataSize_eq] at hroom
  have hsize := le_dataSize r
  let f₁ := Nor.program f (p * pageSize + dataEnd rs) (r.key ++ r.value ++ pad)
  have haddr : Store.metadataAddress p rs.length =
      p * pageSize + pageSize - (rs.length + 1) * metadataSize := by
    simp only [Store.metadataAddress, Store.getPageAddress, pageSize_eq, metadataSize_eq]
    omega
  have hdata : Nor.read f₁ (p * pageSize + dataEnd rs)
      (r.key.length + (r.value.length + pad.length)) = r.key ++ (r.value ++ pad) := by
    have := Nor.read_program_self f (p * pageSize + dataEnd rs) (r.key ++ r.value ++ pad)
      (erased_of_room h (Nat.le_refl _) (by rw [hlen]; simp only [pageSize_eq, metadataSize_eq]; omega))
    simpa [f₁] using this
  rw [Nor.read_add] at hdata
  obtain ⟨hkey, hrest⟩ := List.append_inj hdata (Nor.length_read _ _ _)
  rw [Nor.read_add] at hrest
  obtain ⟨hvalue, -⟩ := List.append_inj hrest (Nor.length_read _ _ _)
  refine ⟨?_, ?_, ?_⟩
  · rw [haddr]
    have hread := Nor.read_program_self f₁ (p * pageSize + pageSize - (rs.length + 1) * metadataSize)
      (metadataOf (dataEnd rs) r).toBytes (fun x hx hx' => by
        rw [Metadata.length_toBytes] at hx'
        simp only [pageSize_eq, metadataSize_eq] at hx hx'
        have hx'' : f x = 0xff := by
          refine erased_of_room h (a := p * 4096 + 4096 - (rs.length + 1) * 12) (n := 12) ?_ ?_ x hx hx'
          · simp only [pageSize_eq]; omega
          · simp only [pageSize_eq, metadataSize_eq]; omega
        rw [← hx'']
        refine Nor.program_outside ?_
        rw [hlen]
        simp only [pageSize_eq]
        omega)
    rw [Metadata.length_toBytes] at hread
    rw [metadataSize_eq] at hread ⊢
    rw [hread]
    apply Metadata.ofBytes_toBytes
    · simp only [metadataOf, flagsRemoved]; split <;> decide
    all_goals simp only [metadataOf]; omega
  · rw [Nor.read_program_outside, hkey]
    simp only [pageSize_eq, metadataSize_eq]
    omega
  · rw [Nor.read_program_outside, ← Nat.add_assoc, hvalue]
    simp only [pageSize_eq, metadataSize_eq]
    omega

/-- Writing a record that fits pushes it on the current page. -/
theorem represents_push (h : Represents k s L) {r : Rec} (hw : Store.Wrote s r s')
    (hroom : used (L.page L.current) + dataSize r + metadataSize + metadataSize ≤ pageSize)
    (hkey : ∀ b ∈ r.key, b ≠ 0) : Represents k s' (L.push r) := by
  obtain ⟨pad, cs, state, offset, hlen, hseq, -, hs⟩ := hw
  rw [h.page, h.dataByteCount, h.metadataCount] at hs
  rw [h.page, h.dataByteCount] at hseq
  have hroom' := hroom
  simp only [used, pageSize_eq, metadataSize_eq] at hroom'
  have hcur := h.holds L.current h.current_lt
  subst hs
  refine ⟨⟨h.pageCount, h.two_le, ?_, ?_, ?_, h.asserts⟩, h.isFull, h.current_lt, rfl, ?_, ?_⟩
  · intro p hp
    by_cases hpc : p = L.current
    · subst hpc
      rw [Pages.push_page_current]
      refine ⟨⟨recordAt_program hcur hlen hroom, hcur.records.congr (by omega) ?_⟩, ?_, ?_, ?_⟩
      · intro x hx hx'
        simp only [pageSize_eq, metadataSize_eq] at hx hx' ⊢
        rw [Nor.program_outside, Nor.program_outside]
        · rw [hlen]; omega
        · rw [Metadata.length_toBytes]; omega
      · rw [used_cons]; omega
      · intro x hx hx'
        simp only [dataEnd_cons, List.length_cons, pageSize_eq, metadataSize_eq] at hx hx' ⊢
        rw [Nor.program_outside, Nor.program_outside]
        · exact hcur.erased x (by omega) (by simp only [pageSize_eq, metadataSize_eq]; omega)
        · rw [hlen]; omega
        · rw [Metadata.length_toBytes]; omega
      · intro t ht
        rcases List.mem_cons.mp ht with rfl | ht
        · exact hkey
        · exact hcur.keys t ht
    · rw [Pages.push_page_of_ne L r hpc]
      refine (h.holds p hp).congr fun x hx => ?_
      simp only [pageSize_eq, metadataSize_eq] at hx ⊢
      rw [Nor.program_outside, Nor.program_outside]
      · rw [hlen]; omega
      · rw [Metadata.length_toBytes]; omega
  · intro p hp x hx hx'
    simp only [pageSize_eq, metadataSize_eq] at hseq hx' ⊢
    rw [Nor.mem_dirty_program, hseq.mem_dirty, Metadata.length_toBytes, hlen]
    rintro ((hm | hm) | hm)
    · by_cases hpc : p = L.current
      · subst hpc
        rw [Pages.push_page_current] at hx hx'
        simp only [dataEnd_cons, List.length_cons] at hx hx'
        exact h.fresh L.current hp x (by omega)
          (by simp only [pageSize_eq, metadataSize_eq]; omega) hm
      · rw [Pages.push_page_of_ne L r hpc] at hx hx'
        exact h.fresh p hp x hx hx' hm
    all_goals
      by_cases hpc : p = L.current
      · subst hpc
        rw [Pages.push_page_current] at hx hx'
        simp only [dataEnd_cons, List.length_cons] at hx hx'
        omega
      · omega
  · have hfree : ∀ y, L.current * 4096 + dataEnd (L.page L.current) ≤ y →
        y + (L.page L.current).length * 12 < L.current * 4096 + 4096 →
        y ∉ Nor.dirty s.flashLog := by
      intro y hy hy'
      have := h.fresh L.current h.current_lt (y - L.current * 4096) (by omega)
        (by simp only [pageSize_eq, metadataSize_eq]; omega)
      rwa [pageSize_eq, show L.current * 4096 + (y - L.current * 4096) = y by omega] at this
    simp only [pageSize_eq, metadataSize_eq] at hseq ⊢
    refine Nor.writeOnce_snoc_program (hseq.writeOnce h.writeOnce ?_) ?_
    · intro x hx hx'
      rw [hlen] at hx'
      exact hfree x hx (by omega)
    · intro x hx hx'
      rw [Metadata.length_toBytes] at hx'
      rw [hseq.mem_dirty, hlen]
      rintro (hm | hm)
      · exact hfree x (by omega) (by omega) hm
      · omega
  · rw [Pages.push_current, Pages.push_page_current, dataEnd_cons]
    exact Nat.add_comm _ _
  · rw [Pages.push_current, Pages.push_page_current]
    rfl

theorem advanceCurrentPage_eq (h : Represents k s L) (he : L.page L.next = []) :
    s.advanceCurrentPage = { s with current := ⟨L.next, 0, 0⟩ } := by
  have hempty := h.isPageEmpty h.wellFormed.next_lt
  rw [he] at hempty
  simp only [Store.advanceCurrentPage, h.next, hempty, List.isEmpty_nil, Store.assert, if_true]

theorem represents_advance (h : Represents k s L) (he : L.page L.next = []) :
    Represents k s.advanceCurrentPage L.advance := by
  rw [advanceCurrentPage_eq h he]
  refine ⟨h.toStored.congr rfl rfl rfl rfl rfl rfl, h.isFull, h.wellFormed.next_lt, rfl, ?_, ?_⟩
  all_goals simp [he]

/-! ## Lookups -/

theorem lookupFrom_eq (h : Represents k s L) {a : Pointer} {key : List UInt8}
    (ha : PointsTo a key) (fuel j : Nat) (hj : j + (fuel + 1) = L.pageCount) :
    s.lookupFrom a key.length (fuel + 1) (Ring.back L.pageCount L.current j) =
      ((List.range' j (fuel + 1)).map (Ring.back L.pageCount L.current)).findSome?
        fun p => Store.valueAt p key (L.page p) := by
  have hpage : ∀ i < L.pageCount, s.lookupOnPage (Ring.back L.pageCount L.current i) a key.length =
      Store.valueAt (Ring.back L.pageCount L.current i) key
        (L.page (Ring.back L.pageCount L.current i)) := fun i hi =>
    Store.lookupOnPage_eq (h.holds _ (Ring.back_lt h.current_lt hi)) ha
  induction fuel generalizing j with
  | zero =>
    have hlast : j = L.pageCount - 1 := by omega
    subst hlast
    rw [Store.lookupFrom, hpage _ (by omega), h.pageCount, h.page,
      Ring.pred_back_last h.current_lt]
    simp only [Nat.zero_add, List.range'_one, List.map_cons, List.map_nil, List.findSome?_cons,
      List.findSome?_nil, ne_eq, not_true, if_false]
    cases Store.valueAt (Ring.back L.pageCount L.current (L.pageCount - 1)) key
      (L.page (Ring.back L.pageCount L.current (L.pageCount - 1))) <;> rfl
  | succ fuel ih =>
    rw [Store.lookupFrom, hpage j (by omega), h.pageCount, h.page,
      ← Ring.back_succ (by omega : j + 1 < L.pageCount),
      if_pos (Ring.back_succ_ne (by omega : j + 1 < L.pageCount)), ih (j + 1) (by omega),
      List.range'_succ (s := j), List.map_cons, List.findSome?_cons]
    cases Store.valueAt (Ring.back L.pageCount L.current j) key
      (L.page (Ring.back L.pageCount L.current j)) <;> rfl

/-- The search finds what the pages bind. -/
theorem lookup_read (h : Represents k s L) {a : Pointer} {key : List UInt8} (ha : PointsTo a key) :
    (s.lookup a key.length).map (fun (address, size) => Nor.read s.flash address size) =
      L.lookup key := by
  obtain ⟨n, hn⟩ : ∃ n, L.pageCount = n + 1 := ⟨L.pageCount - 1, by have := h.two_le; omega⟩
  have hfrom := lookupFrom_eq h ha n 0 (by omega)
  rw [Ring.back_zero] at hfrom
  rw [Store.lookup, h.pageCount, h.page, hn, hfrom, Pages.lookup, Pages.journal, Journal.lookup,
    Ring.order, ← hn, List.range_eq_range']
  have hmem : ∀ p ∈ (List.range' 0 L.pageCount).map (Ring.back L.pageCount L.current),
      p < L.pageCount := by
    intro p hp
    obtain ⟨j, hj, rfl⟩ := List.mem_map.mp hp
    exact Ring.back_lt h.current_lt (by simpa using hj)
  revert hmem
  induction (List.range' 0 L.pageCount).map (Ring.back L.pageCount L.current) with
  | nil => intro _; rfl
  | cons p ps ih =>
    intro hmem
    have hp := Store.valueAt_read (h.holds p (hmem p (by simp))) key
    rw [List.map_cons, List.findSome?_cons, List.findSome?_cons, ← hp,
      ← ih fun q hq => hmem q (by simp [hq])]
    cases Store.valueAt p key (L.page p) <;> rfl

theorem lookup_isSome (h : Represents k s L) {a : Pointer} {key : List UInt8} (ha : PointsTo a key) :
    (s.lookup a key.length).isSome = (L.lookup key).isSome := by
  rw [← lookup_read h ha, Option.isSome_map]

theorem lookupValue_eq (h : Represents k s L) (key : CString) :
    s.lookupValue key = L.lookup key.bytes := lookup_read h key.pointsTo

/-! ## Start-up -/

namespace Pages

/-- The page the start-up scan takes for the current one; `none` if no page is empty. -/
def currentPage (L : Pages) : Option Nat :=
  match (List.range L.pageCount).find? fun p => (L.page p).isEmpty = false with
  | none => some 0
  | some first =>
    (((List.range' 1 (L.pageCount - 1)).map fun i => (first + i) % L.pageCount).find?
      fun p => (L.page p).isEmpty = true).map fun e => (e + L.pageCount - 1) % L.pageCount

end Pages

theorem findPage_eq (h : Stored k s L) (want : Bool) (ps : List Nat)
    (hps : ∀ p ∈ ps, p < L.pageCount) :
    s.findPage want ps = (ps.find? fun p => (L.page p).isEmpty = want, s) := by
  induction ps with
  | nil => rfl
  | cons p ps ih =>
    rw [Store.findPage, h.isPageEmpty (hps p (by simp)), List.find?_cons]
    dsimp only
    by_cases he : (L.page p).isEmpty = want
    · rw [if_pos he]; simp [he]
    · rw [if_neg he, ih fun q hq => hps q (by simp [hq])]; simp [he]

theorem getCurrentPage_eq (h : Stored k s L) :
    s.getCurrentPage = ((L.currentPage.isSome, L.currentPage.getD 0), { s with isFull := false }) := by
  have h' : Stored k { s with isFull := false } L := h.congr rfl rfl rfl rfl rfl rfl
  have hpos : 0 < L.pageCount := by have := h.two_le; omega
  simp only [Store.getCurrentPage, Pages.currentPage]
  rw [findPage_eq h' false _ fun p hp => h.pageCount ▸ List.mem_range.mp hp]
  cases hf : (List.range s.pageCount).find? fun p => (L.page p).isEmpty = false with
  | none => rw [← h.pageCount, hf]; rfl
  | some first =>
    dsimp only
    rw [findPage_eq h' true _ fun p hp => by
      obtain ⟨i, -, rfl⟩ := List.mem_map.mp hp
      exact h.pageCount ▸ Nat.mod_lt _ (h.pageCount ▸ hpos), ← h.pageCount, hf]
    dsimp only
    cases ((List.range' 1 (s.pageCount - 1)).map fun i => (first + i) % s.pageCount).find?
      fun p => (L.page p).isEmpty = true <;> rfl

/-- Start-up rebuilds the cursor behind the last record of the page it finds. -/
theorem represents_updateCurrent (h : Stored k s L) {p : Nat} (hcur : L.currentPage = some p)
    (hp : p < L.pageCount) :
    Represents k s.updateCurrent { L with current := p, isFull := false } := by
  have hget := getCurrentPage_eq h
  rw [hcur] at hget
  have hholds := h.holds p hp
  have hs : s.updateCurrent = { s with
      isFull := false
      current := ⟨p, dataEnd (L.page p), (L.page p).length⟩ } := by
    simp only [Store.updateCurrent, hget, Option.isSome_some, Option.getD_some, Bool.not_true,
      Bool.false_eq_true, if_false]
    rw [Store.getMetadataCount_eq (s := { s with isFull := false, current := ⟨p, 0, 0⟩ }) hholds]
    cases hrs : L.page p with
    | nil => rfl
    | cons r rs =>
      rw [hrs] at hholds
      have hmeta := Store.getMetadata_eq
        (s := { s with isFull := false, current := ⟨p, 0, (r :: rs).length⟩ }) hholds
        (show r :: rs = [] ++ r :: rs from rfl)
      simp only [List.length_cons, Nat.add_one_sub_one] at hmeta ⊢
      rw [if_neg (Nat.succ_ne_zero _), hmeta]
      simp only [metadataOf, dataEnd_cons, dataSize, Nat.add_comm]
  rw [hs]
  exact ⟨h.congr rfl rfl rfl rfl rfl rfl, rfl, hp, rfl, rfl, rfl⟩

/-- Without an empty page start-up gives the store up as full. -/
theorem updateCurrent_isFull (h : Stored k s L) (hcur : L.currentPage = none) :
    s.updateCurrent.isFull = true := by
  have hget := getCurrentPage_eq h
  rw [hcur] at hget
  simp only [Store.updateCurrent, hget, Option.isSome_none, Bool.not_false, if_true]

end KeyValueStore
end Firefly
