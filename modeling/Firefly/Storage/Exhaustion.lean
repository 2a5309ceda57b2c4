import Mathlib.Data.Finset.Card
import Firefly.Storage.Reached

/-!
# Firefly.Storage.Exhaustion

The loop of `allocate` when there is no room. It counts collections, not the pages that it advances over,
and a collection copies nothing unless some key is found. So a request that no page can meet ends if and
only if some key is found (`Pages.ends_iff`): then a page with records comes round again and again until
the count passes the number of pages. With no such key the pages run empty and the loop goes round for
ever.

A request that fails has collected every page. Lookups come out as they were if every page would be
copied with the values in force (`CopiesCurrent`).
-/

namespace Firefly
namespace KeyValueStore

open Journal

namespace Pages

variable {L L' : Pages} {size c n : Nat} {k : List UInt8}

/-! ## Termination -/

/-- The loop comes to an end. -/
def Ends (size c : Nat) (L : Pages) : Prop := ∃ fuel r, allocateLoop size fuel c L = some r

theorem Ends.room (h : size ≤ pageSize - used (L.page L.current)) : Ends size c L :=
  ⟨1, (true, L), by rw [allocateLoop, if_pos h]⟩

theorem Ends.advance (hfull : ¬ size ≤ pageSize - used (L.page L.current))
    (he : L.advance.page L.advance.next = []) (h : Ends size c L.advance) : Ends size c L := by
  obtain ⟨fuel, r, hr⟩ := h
  refine ⟨fuel + 1, r, ?_⟩
  simp only [allocateLoop]
  rw [if_neg hfull, if_pos he, hr]

theorem Ends.collect (hfull : ¬ size ≤ pageSize - used (L.page L.current))
    (hne : L.advance.page L.advance.next ≠ [])
    (h : c + 1 ≤ L.pageCount → Ends size (c + 1) L.advance.collect) : Ends size c L := by
  by_cases hc : c + 1 > L.advance.collect.pageCount
  · refine ⟨1, (false, { L.advance.collect with isFull := true }), ?_⟩
    simp only [allocateLoop]
    rw [if_neg hfull, if_neg hne, if_pos hc]
  · have hle : c + 1 ≤ L.pageCount := by
      rw [collect_pageCount, advance_pageCount] at hc
      omega
    obtain ⟨fuel, r, hr⟩ := h hle
    refine ⟨fuel + 1, r, ?_⟩
    simp only [allocateLoop]
    rw [if_neg hfull, if_neg hne, if_neg hc, hr]

/-- The states between two collections of the loop. -/
structure Between (n : Nat) (L : Pages) : Prop extends L.WellFormed where
  page_next : L.page L.next = []
  pageCount : L.pageCount = n

theorem Between.advance (h : Between n L) (he : L.advance.page L.advance.next = []) :
    Between n L.advance := ⟨h.toWellFormed.advance, he, h.pageCount⟩

theorem Between.collect (h : Between n L) : Between n L.advance.collect where
  toWellFormed := collect_wellFormed h.toWellFormed.advance h.page_next
  page_next := by
    rw [collect_next h.toWellFormed.advance h.page_next]
    exact collect_page_next _
  pageCount := by rw [collect_pageCount, advance_pageCount, h.pageCount]

theorem Between.lookup_ne_none (h : Between n L) (hk : L.lookup k ≠ none) :
    L.advance.collect.lookup k ≠ none := by
  rw [lookup_collect h.toWellFormed.advance h.page_next,
    lookup_advance h.toWellFormed h.page_next, if_neg hk]
  intro hnone
  exact hk (Option.or_eq_none_iff.mp hnone).2

/-- A request that an empty page can meet: by induction on the collections that are left. -/
theorem ends_of_le (hsize : size ≤ pageSize) {d : Nat} (h : Between n L) (hd : n - c < d) :
    Ends size c L := by
  induction d generalizing c L with
  | zero => omega
  | succ d ih =>
    by_cases hfull : size ≤ pageSize - used (L.page L.current)
    · exact .room hfull
    · by_cases he : L.advance.page L.advance.next = []
      · have hempty : size ≤ pageSize - used (L.advance.page L.advance.current) := by
          rw [advance_page, advance_current, h.page_next]
          exact hsize
        exact .advance hfull he (.room hempty)
      · refine .collect hfull he fun hc => ih h.collect ?_
        rw [h.pageCount] at hc
        omega

/-- A page with records, `j` pages back, comes round to be collected: by induction on the pages that the
loop has to advance over until then. -/
theorem ends_of_page
    (hrest : ∀ t, Between n t → t.lookup k ≠ none → c + 1 ≤ n → Ends size (c + 1) t)
    {e j : Nat} (h : Between n L) (hk : L.lookup k ≠ none) (hj : j < n)
    (hpage : L.page (Ring.back n L.current j) ≠ []) (hd : n - 1 - j ≤ e) : Ends size c L := by
  induction e generalizing L j with
  | zero =>
    -- the last page back is the next one
    have hlast := Ring.back_last (h.pageCount ▸ h.current_lt : L.current < n)
    have hnext := h.page_next
    rw [next, h.pageCount, ← hlast, show n - 1 = j by omega] at hnext
    exact absurd hnext hpage
  | succ e ih =>
    by_cases hfull : size ≤ pageSize - used (L.page L.current)
    · exact .room hfull
    · by_cases he : L.advance.page L.advance.next = []
      · by_cases hlast : j = n - 1
        · exact ih h hk hj hpage (by omega)
        · have hcur : L.current < n := h.pageCount ▸ h.current_lt
          have hback := Ring.back_next hcur (show j + 1 < n by omega)
          have hpage' : L.advance.page (Ring.back n L.advance.current (j + 1)) ≠ [] := by
            rw [advance_current, next, h.pageCount, hback]
            exact hpage
          have hk' : L.advance.lookup k ≠ none := by
            rw [lookup_advance h.toWellFormed h.page_next]
            exact hk
          exact .advance hfull he (ih (h.advance he) hk' (by omega) hpage' (by omega))
      · exact .collect hfull he fun hc =>
          hrest _ h.collect (h.lookup_ne_none hk) (h.pageCount ▸ hc)

/-- A key that is found stays found, so the collections do not stop before they are counted out. -/
theorem ends_of_lookup {d : Nat} (h : Between n L) (hk : L.lookup k ≠ none) (hd : n - c < d) :
    Ends size c L := by
  induction d generalizing c L with
  | zero => omega
  | succ d ih =>
    have hmem : ∃ rs ∈ L.journal, onPage rs k ≠ none := by
      by_contra hnone
      apply hk
      rw [lookup, lookup_eq_none]
      intro rs hrs
      by_contra hpage
      exact hnone ⟨rs, hrs, hpage⟩
    obtain ⟨rs, hrs, hon⟩ := hmem
    obtain ⟨p, hp, rfl⟩ := List.mem_map.mp hrs
    have hp := (Ring.mem_order h.current_lt).mp hp
    obtain ⟨j, hj, hback⟩ := Ring.exists_back h.current_lt hp
    rw [h.pageCount] at hj hback
    have hpage : L.page (Ring.back n L.current j) ≠ [] := by
      intro hempty
      rw [hback] at hempty
      rw [hempty, onPage_nil] at hon
      exact hon rfl
    exact ends_of_page (fun t ht hkt hc => ih ht hkt (by omega)) h hk hj hpage (Nat.le_refl _)

/-! ## Going round for ever -/

/-- Without a key that is found a collection copies nothing: the page is cleared. -/
theorem collect_page_of_none (h : Between n L) (hnone : ∀ k, L.lookup k = none) (p : Nat) :
    L.advance.collect.page p = if p = L.advance.next then [] else L.page p := by
  have hw := h.toWellFormed.advance
  have hc := copied_copyRecords hw h.page_next
  by_cases hp : p = L.advance.next
  · rw [if_pos hp, hp, collect_page_next]
  · rw [if_neg hp, collect, clear_page_of_ne _ hp]
    by_cases hcur : p = L.advance.current
    · rw [hcur, advance_current, h.page_next]
      by_contra hne
      obtain ⟨r, rs, hrs⟩ := List.exists_cons_of_ne_nil hne
      have hr : r ∈ L.advance.copyRecords.page L.advance.current := by
        rw [advance_current, hrs]
        exact List.mem_cons_self
      apply onPage_ne_none hc.bindings hr
      rw [hc.onPage, lookup_advance h.toWellFormed h.page_next, if_pos (hnone r.key)]
    · rw [hc.page p hcur, advance_page]

/-- The pages with records. -/
def occupied (L : Pages) : Finset Nat := (Finset.range L.pageCount).filter fun p => L.page p ≠ []

theorem occupied_collect (h : Between n L) (hnone : ∀ k, L.lookup k = none)
    (hne : L.advance.page L.advance.next ≠ []) :
    L.advance.collect.occupied.card < L.occupied.card := by
  apply Finset.card_lt_card
  refine ⟨?_, ?_⟩
  · intro p hp
    simp only [occupied, Finset.mem_filter, collect_pageCount, advance_pageCount,
      collect_page_of_none h hnone] at hp ⊢
    refine ⟨hp.1, ?_⟩
    by_cases heq : p = L.advance.next
    · rw [if_pos heq] at hp
      exact absurd rfl hp.2
    · rw [if_neg heq] at hp
      exact hp.2
  · intro hsub
    have hmem : L.advance.next ∈ L.occupied :=
      Finset.mem_filter.mpr ⟨Finset.mem_range.mpr h.toWellFormed.advance.next_lt, hne⟩
    have hcleared := hsub hmem
    simp only [occupied, Finset.mem_filter, collect_page_of_none h hnone, if_true] at hcleared
    exact hcleared.2 rfl

theorem allocateLoop_eq_none (hsize : pageSize < size) (h : Between n L) (hnone : ∀ k, L.lookup k = none)
    (hc : c + L.occupied.card < n) (fuel : Nat) : allocateLoop size fuel c L = none := by
  induction fuel generalizing c L with
  | zero => rfl
  | succ fuel ih =>
    have hfull : ¬ size ≤ pageSize - used (L.page L.current) := by omega
    have hnone' : ∀ k, L.advance.lookup k = none := fun k => by
      rw [lookup_advance h.toWellFormed h.page_next, hnone]
    simp only [allocateLoop]
    rw [if_neg hfull]
    by_cases he : L.advance.page L.advance.next = []
    · rw [if_pos he]
      exact ih (h.advance he) hnone' hc
    · have hless := occupied_collect h hnone he
      have hcount : ¬ c + 1 > L.advance.collect.pageCount := by
        rw [h.collect.pageCount]
        omega
      rw [if_neg he, if_neg hcount]
      refine ih h.collect ?_ (by omega)
      intro k
      rw [lookup_collect h.toWellFormed.advance h.page_next, if_pos (hnone' k)]

/-- The page after the current one has no records. -/
theorem occupied_lt (h : Between n L) : L.occupied.card < n := by
  have hsub : L.occupied ⊆ (Finset.range n).erase L.next := by
    intro p hp
    obtain ⟨hlt, hne⟩ := Finset.mem_filter.mp hp
    refine Finset.mem_erase.mpr ⟨?_, h.pageCount ▸ hlt⟩
    rintro rfl
    exact hne h.page_next
  have hle := Finset.card_le_card hsub
  have hmem : L.next ∈ Finset.range n := Finset.mem_range.mpr (h.pageCount ▸ h.next_lt)
  have hpos := Finset.card_pos.mpr ⟨_, hmem⟩
  rw [Finset.card_erase_of_mem hmem, Finset.card_range] at hle
  rw [Finset.card_range] at hpos
  omega

theorem ends_iff (h : Between n L) : Ends size 0 L ↔ size ≤ pageSize ∨ ∃ k, L.lookup k ≠ none := by
  constructor
  · rintro ⟨fuel, r, hr⟩
    by_contra hnot
    obtain ⟨hsize, hkeys⟩ := not_or.mp hnot
    have hnone : ∀ k, L.lookup k = none := by
      intro k
      by_contra hk
      exact hkeys ⟨k, hk⟩
    have hlt := occupied_lt h
    rw [allocateLoop_eq_none (by omega) h hnone (by omega)] at hr
    cases hr
  · rintro (hsize | ⟨k, hk⟩)
    · exact ends_of_le hsize h (Nat.lt_succ_self _)
    · exact ends_of_lookup h hk (Nat.lt_succ_self _)

/-! ## What a failed request leaves -/

/-- Every page would be copied with the values in force. -/
def CopiesCurrent (L : Pages) : Prop :=
  ∀ p < L.pageCount, ∀ k, ∀ r ∈ oldestBound (L.page p) k, ∀ v ∈ L.lookup k, v = r.value

/-- No two records of a page have one key. -/
def Single (rs : List Rec) : Prop := ∀ r ∈ rs, onPage rs r.key = some r.value

theorem Single.collectRecord (h : Single (L.page L.current)) (r : Rec) :
    Single ((L.collectRecord r).page L.current) := by
  unfold Pages.collectRecord
  by_cases hr : r.removed = true
  · rwa [if_pos hr]
  · by_cases hon : (onPage (L.page L.current) r.key).isSome = true
    · rwa [if_neg hr, if_pos hon]
    · by_cases hl : (L.lookup r.key).isNone = true
      · rwa [if_neg hr, if_neg hon, if_pos hl]
      · rw [if_neg hr, if_neg hon, if_neg hl, push_page_current]
        intro t ht
        rw [onPage_cons]
        cases List.mem_cons.mp ht with
        | inl heq => rw [heq, if_pos rfl, Record.bound, if_neg hr]
        | inr hmem =>
          have hkey : r.key ≠ t.key := by
            intro heq
            rw [heq, h t hmem] at hon
            exact hon rfl
          rw [if_neg hkey, h t hmem]

theorem single_copyRecords (he : L.page L.current = []) : Single (L.copyRecords.page L.current) := by
  have hfold : ∀ (ts : List Rec) (t : Pages), t.current = L.current → Single (t.page L.current) →
      Single ((ts.foldl Pages.collectRecord t).page L.current) := by
    intro ts
    induction ts with
    | nil => exact fun t _ h => h
    | cons r ts ih =>
      intro t hcur h
      rw [List.foldl_cons]
      apply ih _ ((collectRecord_current t r).trans hcur)
      rw [← hcur] at h ⊢
      exact h.collectRecord r
  refine hfold _ L rfl ?_
  rw [he]
  intro r hr
  cases hr

theorem CopiesCurrent.lookup_collect (h : Between n L) (hc : L.CopiesCurrent) (k : List UInt8) :
    L.advance.collect.lookup k = L.lookup k := by
  have hcurrent : L.advance.CollectsCurrent Set.univ := by
    intro k _ r hr v hv
    rw [lookup_advance h.toWellFormed h.page_next] at hv
    exact hc L.advance.next h.toWellFormed.advance.next_lt k r hr v hv
  rw [hcurrent.lookup h.toWellFormed.advance h.page_next (Set.mem_univ k),
    lookup_advance h.toWellFormed h.page_next]

/-- The copies are the values in force too. -/
theorem CopiesCurrent.collect (h : Between n L) (hc : L.CopiesCurrent) :
    L.advance.collect.CopiesCurrent := by
  have hw := h.toWellFormed.advance
  have hcopied := copied_copyRecords hw h.page_next
  intro p hp k r hr v hv
  rw [hc.lookup_collect h] at hv
  rw [collect_pageCount, advance_pageCount] at hp
  by_cases hnext : p = L.advance.next
  · rw [hnext, collect_page_next] at hr
    cases hr
  · by_cases hcur : p = L.advance.current
    · rw [hcur, collect_page_current hw] at hr
      obtain ⟨hmem, hkey⟩ : r ∈ L.advance.copyRecords.page L.advance.current ∧ r.key = k := by
        have hfind := List.find?_some hr
        have hmem := List.mem_of_find?_eq_some hr
        rw [List.mem_reverse] at hmem
        simp only [Bool.and_eq_true, decide_eq_true_eq] at hfind
        exact ⟨hmem, hfind.1⟩
      have hon := single_copyRecords h.page_next r hmem
      rw [hkey, hcopied.onPage, lookup_advance h.toWellFormed h.page_next] at hon
      by_cases hdead : L.lookup k = none
      · rw [hdead] at hv
        cases hv
      · rw [if_neg hdead, Option.map_eq_some_iff] at hon
        obtain ⟨t, ht, hvalue⟩ := hon
        rw [← hvalue]
        exact hc L.advance.next hw.next_lt k t ht v hv
    · rw [collect_page hw h.page_next hcur hnext, advance_page] at hr
      exact hc p hp k r hr v hv

theorem CopiesCurrent.allocate {fuel : Nat} {result : Bool} (h : Between n L)
    (hc : L.isFull = true ∨ L.CopiesCurrent) (hr : L.allocate fuel size = some (result, L'))
    (k : List UInt8) : L'.lookup k = L.lookup k := by
  unfold Pages.allocate at hr
  by_cases hfull : L.isFull = true
  · rw [if_pos hfull] at hr
    obtain ⟨-, rfl⟩ := Prod.mk.inj (Option.some.inj hr)
    rfl
  · rw [if_neg hfull] at hr
    let I : Nat → Pages → Prop := fun _ t => Between n t ∧ t.CopiesCurrent ∧ t.lookup k = L.lookup k
    have hadvance : ∀ c t, I c t → ¬ size ≤ pageSize - used (t.page t.current) →
        t.advance.page t.advance.next = [] → I c t.advance := by
      rintro c t ⟨ht, hct, hl⟩ - he
      have hsame := lookup_advance ht.toWellFormed ht.page_next
      refine ⟨ht.advance he, ?_, by rw [hsame, hl]⟩
      intro p hp k r hr v hv
      rw [hsame] at hv
      exact hct p hp k r hr v hv
    have hcollect : ∀ c t, I c t → ¬ size ≤ pageSize - used (t.page t.current) →
        t.advance.page t.advance.next ≠ [] → True → I (c + 1) t.advance.collect := by
      rintro c t ⟨ht, hct, hl⟩ - - -
      exact ⟨ht.collect, hct.collect ht, by rw [hct.lookup_collect ht, hl]⟩
    cases allocateLoop_induct hadvance hcollect hr (fun _ _ => trivial)
        ⟨h, hc.resolve_left hfull, rfl⟩ with
    | inl hroom =>
      obtain ⟨-, -, c, hI⟩ := hroom
      exact hI.2.2
    | inr hgiven =>
      obtain ⟨-, c, t, -, hI, rfl⟩ := hgiven
      exact hI.2.2

end Pages

/-! ## The store -/

/-- The pages of the store would all be copied with the values in force. -/
def Store.CopiesCurrent (s : Store) : Prop := ∀ page < s.pageCount, s.CopiesPage Set.univ page

variable {s s' : Store} {k : Nat} {L : Pages} {size : Nat}

theorem allocate_simulates (fuel : Nat) (h : Represents k s L) (he : L.page L.next = []) :
    Option.Rel (fun x y => x.1 = y.1 ∧ ∃ k', Represents k' x.2 y.2) (s.allocate fuel size)
      (L.allocate fuel size) := by
  rw [Store.allocate, Pages.allocate, h.isFull]
  by_cases hfull : L.isFull = true
  · rw [if_pos hfull, if_pos hfull]
    exact .some ⟨rfl, k, h⟩
  · rw [if_neg hfull, if_neg hfull]
    exact rel_mono (fun _ _ hsim => ⟨hsim.1.result, _, hsim.1.represents⟩)
      (allocateLoop_simulates size fuel 0 h he)

theorem exists_isSet_iff (h : Represents k s L) :
    (∃ key, s.isSet key = true) ↔ ∃ key, L.lookup key ≠ none := by
  constructor
  · rintro ⟨key, hset⟩
    rw [isSet_eq, lookupValue_eq h, Option.isSome_iff_ne_none] at hset
    exact ⟨key.bytes, hset⟩
  · rintro ⟨key, hkey⟩
    obtain ⟨v, hv⟩ := Option.ne_none_iff_exists'.mp hkey
    obtain ⟨rs, hrs, hon⟩ := List.exists_of_findSome?_eq_some hv
    obtain ⟨p, hp, rfl⟩ := List.mem_map.mp hrs
    obtain ⟨r, hr, rfl, -, -⟩ := exists_of_onPage hon
    have hp := (Ring.mem_order h.current_lt).mp hp
    refine ⟨⟨r.key, (h.holds p hp).keys r hr⟩, ?_⟩
    rw [isSet_eq, lookupValue_eq h, Option.isSome_iff_ne_none]
    exact hkey

theorem ends_iff (h : Represents k s L) (he : L.page L.next = []) :
    (∃ fuel r, s.allocate fuel size = some r) ↔
      s.isFull = true ∨ size ≤ pageSize ∨ ∃ key, s.isSet key = true := by
  have hbetween : Pages.Between L.pageCount L := ⟨h.wellFormed, he, rfl⟩
  rw [exists_isSet_iff h, h.isFull]
  by_cases hfull : L.isFull = true
  · refine iff_of_true ⟨0, (false, s), ?_⟩ (Or.inl hfull)
    rw [Store.allocate, h.isFull, if_pos hfull]
  · rw [or_iff_right hfull, ← Pages.ends_iff hbetween]
    have hiff : ∀ fuel, (∃ r, s.allocate fuel size = some r) ↔
        ∃ r, L.allocateLoop size fuel 0 = some r := by
      intro fuel
      have hrel := @allocate_simulates _ _ _ size fuel h he
      rw [Pages.allocate, if_neg hfull] at hrel
      generalize s.allocate fuel size = a at hrel
      generalize L.allocateLoop size fuel 0 = b at hrel
      cases hrel with
      | some _ => simp
      | none => simp
    exact exists_congr hiff

/-- The loop of `allocate` ends if and only if the store is full already, a page can meet the request, or
some key is found. If besides the pages would be copied with the values in force, a call that returns
false leaves every lookup as it was. -/
theorem allocate_ends_iff (h : Reached s) (size : Nat) :
    ((∃ fuel r, s.allocate fuel size = some r) ↔
        s.isFull = true ∨ size ≤ pageSize ∨ ∃ key, s.isSet key = true) ∧
      (s.isFull = true ∨ s.CopiesCurrent → ∀ fuel s', s.allocate fuel size = some (false, s') →
        ∀ key, s'.lookupValue key = s.lookupValue key) := by
  obtain ⟨k, L, hrep, he⟩ := h.represents
  refine ⟨ends_iff hrep he, fun hc fuel s' hr key => ?_⟩
  have hrel := @allocate_simulates _ _ _ size fuel hrep he
  rw [hr] at hrel
  generalize hL : L.allocate fuel size = b at hrel
  cases hrel with
  | some hsim =>
    obtain ⟨-, k', hrep'⟩ := hsim
    have hcopies : L.isFull = true ∨ L.CopiesCurrent := by
      rw [hrep.isFull] at hc
      refine hc.imp_right fun hcurrent p hp k => ?_
      exact CopiesPage.pages hrep hp (hcurrent p (hrep.pageCount ▸ hp)) k (Set.mem_univ k)
    rw [lookupValue_eq hrep', lookupValue_eq hrep]
    exact Pages.CopiesCurrent.allocate ⟨hrep.wellFormed, he, rfl⟩ hcopies hL key.bytes

theorem allocate_ends_sample :
    (∃ fuel r, (Store.blank 2).erased.allocate fuel 4096 = some r) ∧
      ∀ fuel s', (Store.blank 2).erased.allocate fuel 4096 = some (false, s') →
        ∀ key, s'.lookupValue key = (Store.blank 2).erased.lookupValue key := by
  have hreached : Reached (Store.blank 2).erased := .erased (Store.blank 2) (Nat.le_refl 2)
  have hrep := erased_represents (Store.blank 2) (Nat.le_refl 2)
  have hcopies : (Store.blank 2).erased.CopiesCurrent := by
    intro page hpage i hi
    rw [Store.getMetadataCount_eq (hrep.holds page (hrep.pageCount ▸ hpage))] at hi
    simp at hi
  obtain ⟨hends, hkeeps⟩ := allocate_ends_iff hreached 4096
  exact ⟨hends.mpr (Or.inr (Or.inl (Nat.le_refl _))), hkeeps (Or.inr hcopies)⟩

/-- An erased store advances from one empty page to the next for a request of more than a page. -/
theorem not_allocate_ends :
    Reached (Store.blank 2).erased ∧ ∀ fuel, (Store.blank 2).erased.allocate fuel 4097 = none := by
  have hrep := erased_represents (Store.blank 2) (Nat.le_refl 2)
  refine ⟨.erased (Store.blank 2) (Nat.le_refl 2), fun fuel => ?_⟩
  cases hr : (Store.blank 2).erased.allocate fuel 4097 with
  | none => rfl
  | some r =>
    have hends := (ends_iff hrep rfl).mp ⟨fuel, r, hr⟩
    rw [hrep.isFull, exists_isSet_iff hrep] at hends
    rcases hends with hfull | hsize | ⟨key, hkey⟩
    · cases hfull
    · simp at hsize
    · exact absurd rfl hkey

end KeyValueStore
end Firefly
