import Firefly.Storage.FiniteMap

/-!
# Firefly.Storage.Collection

What one collection does to lookups, in every state of a run from which `allocate` starts one. A
key keeps what lookups find exactly when the record of it that the collection copies, the first on
the page that is not a removal, holds the same bytes (`lookup_garbageCollect_iff`).
-/

namespace Firefly
namespace KeyValueStore

open Journal

variable {k : Nat} {s s' t : Store} {L : Pages}

/-! ## The states from which a collection starts -/

theorem Run.mono {P Q : Store → Op → Bool → Prop} {s₀ : Store} {calls : List (Op × Bool)}
    (h : Run P s₀ calls s) (hPQ : ∀ s op result, P s op result → Q s op result) : Run Q s₀ calls s := by
  induction h with
  | nil => exact .nil
  | snoc _ hr hP ih => exact ih.snoc hr (hPQ _ _ _ hP)

/-- A run with calls of any result. -/
theorem run_represents {P : Store → Op → Bool → Prop} {s₀ : Store} (hn : 2 ≤ s₀.pageCount)
    {calls : List (Op × Bool)} (h : Run P s₀.erased calls s) :
    ∃ k L, Represents k s L ∧ L.page L.next = [] := by
  induction h with
  | nil => exact ⟨0, _, erased_represents s₀ hn, rfl⟩
  | @snoc calls s s' op result h hr _ ih =>
    obtain ⟨k, L, hrep, he⟩ := ih
    obtain ⟨fuel, hexec⟩ := hr
    have hrel := exec_simulates fuel op hrep he
    rw [hexec] at hrel
    generalize L.exec fuel op = b at hrel
    cases hrel with
    | some hsim =>
      obtain ⟨-, hrep', he'⟩ := hsim
      exact ⟨_, _, hrep', he'⟩

namespace Pages

/-- The current page is fresh, and the next one is in use. -/
structure Collecting (L : Pages) : Prop extends L.WellFormed where
  fresh : L.page L.current = []
  occupied : L.page L.next ≠ []

theorem collecting_of_mem {size fuel c : Nat} {L t : Pages} (hw : L.WellFormed)
    (he : L.page L.next = []) (ht : t ∈ L.collections size fuel c) : t.Collecting := by
  induction fuel generalizing L c with
  | zero => cases ht
  | succ fuel ih =>
    rw [collections] at ht
    by_cases hfree : size ≤ pageSize - used (L.page L.current)
    · rw [if_pos hfree] at ht
      cases ht
    · rw [if_neg hfree] at ht
      by_cases hnext : L.advance.page L.advance.next = []
      · rw [if_pos hnext] at ht
        exact ih hw.advance hnext ht
      · rw [if_neg hnext] at ht
        have hfirst : L.advance.Collecting := ⟨hw.advance, he, hnext⟩
        by_cases hcount : c + 1 > L.pageCount
        · rw [if_pos hcount] at ht
          rwa [List.mem_singleton.mp ht]
        · rw [if_neg hcount] at ht
          cases List.mem_cons.mp ht with
          | inl hhere => rwa [hhere]
          | inr hlater =>
            refine ih (collect_wellFormed hw.advance he) ?_ hlater
            rw [collect_next hw.advance he]
            exact collect_page_next _

theorem collecting_of_mem_opCollections {fuel : Nat} {op : Op} {t : Pages} (hw : L.WellFormed)
    (he : L.page L.next = []) (ht : t ∈ L.opCollections fuel op) : t.Collecting := by
  cases op with
  | set key object =>
    rw [opCollections] at ht
    split at ht
    · cases ht
    · exact collecting_of_mem hw he ht
  | remove key =>
    rw [opCollections] at ht
    split at ht
    · cases ht
    · exact collecting_of_mem hw he ht
  | erase => cases ht

theorem collectsCurrent_iff {keys : Set (List UInt8)} (h : L.Collecting) :
    L.CollectsCurrent keys ↔ ∀ k ∈ keys, L.collect.lookup k = L.lookup k := by
  constructor
  · intro hc k hk
    exact hc.lookup h.toWellFormed h.fresh hk
  · intro hkeep k hk r hr v hv
    have hcollect := hkeep k hk
    have hbound : L.lookup k ≠ none := by
      rw [Option.mem_def.mp hv]
      exact Option.some_ne_none v
    rw [lookup_collect h.toWellFormed h.fresh, if_neg hbound, Option.mem_def.mp hr,
      Option.mem_def.mp hv] at hcollect
    exact (Option.some.inj hcollect).symm

end Pages

/-! ## The records of the page -/

/-- What is true of the pages is true of the flash. -/
theorem CollectsCurrent.store {keys : Set (List UInt8)} (h : Represents k s L)
    (hc : L.CollectsCurrent keys) : s.CollectsCurrent keys := by
  have hnext := h.holds L.next h.wellFormed.next_lt
  have hpage : (s.current.page + 1) % s.pageCount = L.next := h.next
  simp only [Store.CollectsCurrent, hpage]
  intro i hi hbound hfirst hkey data hdata
  rw [Store.getMetadataCount_eq hnext] at hi
  obtain ⟨as, r, ts, hrs, rfl⟩ := exists_record hi
  rw [recordRemoved_iff hnext hrs] at hbound
  rw [recordKey_eq hnext hrs] at hkey hfirst
  have hremoved : r.removed = false := by simpa using hbound
  have hoff : ∀ t ∈ ts, ¬ (t.key = r.key ∧ t.removed = false) := by
    rintro t ht ⟨htkey, htbound⟩
    obtain ⟨bs, us, hts⟩ := List.append_of_mem ht
    have hrs' : L.page L.next = (as ++ r :: bs) ++ t :: us := by rw [hrs, hts]; simp
    refine hfirst us.length (by rw [hts]; simp; omega) ?_ ?_
    · rw [recordRemoved_iff hnext hrs', htbound]
      simp
    · rw [recordKey_eq hnext hrs', htkey]
  have hfind : ts.reverse.find? (fun t => t.key = r.key && !t.removed) = none := by
    rw [List.find?_eq_none]
    intro t ht
    simpa using hoff t (List.mem_reverse.mp ht)
  have holdest : oldestBound (L.page L.next) r.key = some r := by
    rw [oldestBound, hrs, List.reverse_append, List.reverse_cons, List.append_assoc, List.find?_append,
      hfind]
    simp [hremoved]
  have hkeys : ∀ b ∈ r.key, b ≠ 0 := hnext.keys r (by simp [hrs])
  have hat := Holds.recordAt (hrs ▸ hnext.records)
  have hread := lookup_read h (hat.pointsTo hkeys)
  rw [Store.getMetadata_eq hnext hrs] at hdata
  have hvalue : L.lookup r.key = some (Nor.read s.flash data.1 data.2) := by
    rw [← hread]
    exact Option.map_eq_some_iff.mpr ⟨data, hdata, rfl⟩
  rw [recordValue_eq hnext hrs]
  exact hc r.key hkey r holdest _ hvalue

/-- A key with a terminator inside is on no page. -/
theorem lookup_eq_none_of_zero (h : Represents k s L) {key : List UInt8} (hkey : 0 ∈ key) :
    L.lookup key = none := by
  rw [Pages.lookup, lookup_eq_none]
  intro rs hrs
  obtain ⟨p, hp, rfl⟩ := List.mem_map.mp hrs
  have hlt : p < L.pageCount := by
    obtain ⟨j, hj, rfl⟩ := List.mem_map.mp hp
    exact Ring.back_lt h.current_lt (List.mem_range.mp hj)
  apply onPage_eq_none_of_forall
  intro r hr hrkey
  subst hrkey
  exact absurd rfl ((h.holds p hlt).keys r hr 0 hkey)

/-! ## A collection -/

theorem lookupValue_garbageCollect_iff (h : Represents k s L) (hc : L.Collecting) :
    (∀ key : CString, s.garbageCollect.lookupValue key = s.lookupValue key) ↔
      s.CollectsCurrent Set.univ := by
  obtain ⟨hcollect, -⟩ := garbageCollect_simulates h hc.fresh hc.occupied
  have hpages : (∀ key : CString, s.garbageCollect.lookupValue key = s.lookupValue key) ↔
      ∀ key ∈ Set.univ, L.collect.lookup key = L.lookup key := by
    constructor
    · intro hkeep key _
      by_cases hzero : 0 ∈ key
      · rw [lookup_eq_none_of_zero hcollect hzero, lookup_eq_none_of_zero h hzero]
      · have hstring := hkeep ⟨key, fun b hb h0 => hzero (h0 ▸ hb)⟩
        rwa [lookupValue_eq hcollect, lookupValue_eq h] at hstring
    · intro hkeep key
      rw [lookupValue_eq hcollect, lookupValue_eq h, hkeep key.bytes (Set.mem_univ _)]
  rw [hpages, ← Pages.collectsCurrent_iff hc]
  exact ⟨CollectsCurrent.store h, CollectsCurrent.pages h⟩

/-- In every run, whatever its calls return: a call's collection that starts in `t` keeps what every
lookup finds exactly when it finds the value in force of every bound key. -/
theorem lookup_garbageCollect_iff (s₀ : Store) (hn : 2 ≤ s₀.pageCount) {calls : List (Op × Bool)}
    (h : Run (fun _ _ _ => True) s₀.erased calls s) (op : Op) (fuel : Nat)
    (ht : t ∈ s.opCollections fuel op) :
    (∀ key : CString, t.garbageCollect.lookupValue key = t.lookupValue key) ↔
      t.CollectsCurrent Set.univ := by
  obtain ⟨k, L, hrep, he⟩ := run_represents hn h
  obtain ⟨j, hj⟩ := List.mem_iff_getElem?.mp ht
  have hall := opCollections_simulates fuel op hrep he
  have hlen := hall.length_eq
  have hjs : j < (s.opCollections fuel op).length := (List.getElem?_eq_some_iff.mp hj).1
  have hjl : j < (L.opCollections fuel op).length := hlen ▸ hjs
  have hpair := (List.forall₂_iff_get.mp hall).2 j hjs hjl
  have htj : (s.opCollections fuel op).get ⟨j, hjs⟩ = t := (List.getElem?_eq_some_iff.mp hj).2
  rw [htj] at hpair
  exact lookupValue_garbageCollect_iff hpair
    (Pages.collecting_of_mem_opCollections hrep.wellFormed he (List.get_mem _ _))

/-! ## Samples -/

/-- The collection that the pages make after some calls is one that the store makes. -/
theorem exists_collecting {ops : List Op} {op : Op} {fuel : Nat} {u : Pages}
    (h : ((⟨2, 0, false, fun _ => []⟩ : Pages).execAll fuel ops) = some L) (he : L.page L.next = [])
    (hu : u ∈ L.opCollections fuel op) :
    ∃ s t, Run (fun _ _ result => result = true) (Store.blank 2).erased (ops.map (·, true)) s ∧
      t ∈ s.opCollections fuel op ∧ (∃ k, Represents k t u) ∧ u.Collecting := by
  obtain ⟨s, hrun, hrep⟩ := exists_run (erased_represents (Store.blank 2) (Nat.le_refl 2)) rfl .nil h
  obtain ⟨j, hj⟩ := List.mem_iff_getElem?.mp hu
  obtain ⟨t, ht, htu⟩ := exists_collection hrep he hj
  exact ⟨s, t, hrun, List.mem_of_getElem? ht, ⟨_, htu⟩,
    Pages.collecting_of_mem_opCollections hrep.wellFormed he hu⟩

/-- Two values of one key on the only page in use, and then a second key for which there is no room:
the collection brings the first value back. -/
theorem lookup_not_kept : ∃ s t, Run (fun _ _ result => result = true) (Store.blank 2).erased
    [(.set sampleKey (sampleMessage 2000 1), true), (.set sampleKey (sampleMessage 2000 2), true)] s ∧
    t ∈ s.opCollections 2 (.set ⟨[0x6a], by simp⟩ (sampleMessage 2000 3)) ∧
    t.lookupValue sampleKey = some (sampleMessage 2000 2).encoding ∧
    t.garbageCollect.lookupValue sampleKey = some (sampleMessage 2000 1).encoding ∧
    (sampleMessage 2000 1).encoding ≠ (sampleMessage 2000 2).encoding := by
  let ops : List Op := [.set sampleKey (sampleMessage 2000 1), .set sampleKey (sampleMessage 2000 2)]
  let op : Op := .set ⟨[0x6a], by simp⟩ (sampleMessage 2000 3)
  let describe (L : Pages) := (L.page L.next, (L.opCollections 2 op).map fun u =>
    (u.lookup sampleKey.bytes, u.collect.lookup sampleKey.bytes))
  have hpages : ((⟨2, 0, false, fun _ => []⟩ : Pages).execAll 2 ops).map describe = some ([],
      [(some (sampleMessage 2000 2).encoding, some (sampleMessage 2000 1).encoding)]) := by
    decide +kernel
  obtain ⟨L, hL, hdescribe⟩ := Option.map_eq_some_iff.mp hpages
  obtain ⟨he, hlookups⟩ := Prod.mk.inj hdescribe
  obtain ⟨u, hu, hlookup⟩ := List.map_eq_singleton_iff.mp hlookups
  obtain ⟨hbefore, hafter⟩ := Prod.mk.inj hlookup
  have hmem : u ∈ L.opCollections 2 op := by rw [hu]; exact List.mem_singleton_self u
  obtain ⟨s, t, hrun, ht, ⟨k, htu⟩, hc⟩ := exists_collecting hL he hmem
  obtain ⟨hcollect, -⟩ := garbageCollect_simulates htu hc.fresh hc.occupied
  refine ⟨s, t, hrun, ht, ?_, ?_, by decide +kernel⟩
  · rw [lookupValue_eq htu, hbefore]
  · rw [lookupValue_eq hcollect, hafter]

/-- With one value for a key and a removed one on the page, the collection keeps every lookup. -/
theorem lookup_kept_sample : ∃ s t, Run (fun _ _ _ => True) (Store.blank 2).erased
    [(.set sampleKey (sampleMessage 2000 1), true), (.set ⟨[0x6c], by simp⟩ (sampleMessage 1000 2), true),
      (.remove ⟨[0x6c], by simp⟩, true)] s ∧
    t ∈ s.opCollections 2 (.set ⟨[0x6a], by simp⟩ (sampleMessage 2000 3)) ∧
    ∀ key : CString, t.garbageCollect.lookupValue key = t.lookupValue key := by
  let ops : List Op := [.set sampleKey (sampleMessage 2000 1),
    .set ⟨[0x6c], by simp⟩ (sampleMessage 1000 2), .remove ⟨[0x6c], by simp⟩]
  let op : Op := .set ⟨[0x6a], by simp⟩ (sampleMessage 2000 3)
  let describe (L : Pages) := (L.page L.next, (L.opCollections 2 op).map fun u =>
    decide (∀ r ∈ u.page u.next, ∀ v ∈ u.lookup r.key, v = r.value))
  have hpages : ((⟨2, 0, false, fun _ => []⟩ : Pages).execAll 2 ops).map describe =
      some ([], [true]) := by decide +kernel
  obtain ⟨L, hL, hdescribe⟩ := Option.map_eq_some_iff.mp hpages
  obtain ⟨he, hnewest⟩ := Prod.mk.inj hdescribe
  obtain ⟨u, hu, hu'⟩ := List.map_eq_singleton_iff.mp hnewest
  have hmem : u ∈ L.opCollections 2 op := by rw [hu]; exact List.mem_singleton_self u
  obtain ⟨s, t, hrun, ht, ⟨k, htu⟩, hc⟩ := exists_collecting hL he hmem
  have hcurrent : u.CollectsCurrent Set.univ := by
    intro key _ r hr v hv
    obtain ⟨hkey, -⟩ : r.key = key ∧ r.removed = false := by simpa using List.find?_some hr
    have hon : r ∈ u.page u.next := by simpa using List.mem_of_find?_eq_some hr
    exact of_decide_eq_true hu' r hon v (hkey ▸ hv)
  have hrun' : Run (fun _ _ _ => True) (Store.blank 2).erased (ops.map (·, true)) s :=
    hrun.mono fun _ _ _ _ => trivial
  exact ⟨s, t, hrun', ht, (lookup_garbageCollect_iff (Store.blank 2) (Nat.le_refl 2) hrun' op 2 ht).mpr
    (CollectsCurrent.store htu hcurrent)⟩

end KeyValueStore
end Firefly
