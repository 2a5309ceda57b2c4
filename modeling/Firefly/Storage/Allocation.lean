import Firefly.Storage.Pages

/-!
# Firefly.Storage.Allocation

The loop of `allocate` on pages. `allocateLoop_induct` is its rule: what advancing to an empty
page and what collecting a page preserve holds of the pages the loop leaves, whether it finds
room or gives up.

The shape of the ring is carried by it. `Ringed L m`: behind the current page stand `m - 1` pages
with records, then only empty ones. `Tidy` is what holds between operations: the pages with
records end at the current one.
-/

namespace Firefly
namespace KeyValueStore

open Journal

namespace Pages

/-- The pages of each state in which the loop of `allocate` starts a collection. -/
def collections (size : Nat) : Nat → Nat → Pages → List Pages
  | 0, _, _ => []
  | fuel + 1, collectionCount, L =>
    if size ≤ pageSize - used (L.page L.current) then []
    else if L.advance.page L.advance.next = [] then
      collections size fuel collectionCount L.advance
    else if collectionCount + 1 > L.pageCount then [L.advance]
    else L.advance :: collections size fuel (collectionCount + 1) L.advance.collect

@[simp] theorem collect_pageCount (L : Pages) : L.collect.pageCount = L.pageCount := by
  have hfold : ∀ (ts : List Rec) (L : Pages), (ts.foldl collectRecord L).pageCount = L.pageCount := by
    intro ts
    induction ts with
    | nil => intro L; rfl
    | cons r ts ih => intro L; rw [List.foldl_cons, ih, collectRecord_pageCount]
  exact hfold _ L

/-- The rule for the loop of `allocate`, with an invariant that may count the collections and a
property `P` of the states they start in. -/
theorem allocateLoop_induct {size : Nat} {I : Nat → Pages → Prop} {P : Pages → Prop}
    (hadvance : ∀ c L, I c L → ¬ size ≤ pageSize - used (L.page L.current) →
      L.advance.page L.advance.next = [] → I c L.advance)
    (hcollect : ∀ c L, I c L → ¬ size ≤ pageSize - used (L.page L.current) →
      L.advance.page L.advance.next ≠ [] → P L.advance → I (c + 1) L.advance.collect)
    {fuel c : Nat} {L L' : Pages} {result : Bool}
    (h : allocateLoop size fuel c L = some (result, L'))
    (hP : ∀ t ∈ collections size fuel c L, P t) (hI : I c L) :
    (result = true ∧ size ≤ pageSize - used (L'.page L'.current) ∧ ∃ c', I c' L') ∨
      (result = false ∧ ∃ c' L'', L''.pageCount < c' ∧ I c' L'' ∧ L' = { L'' with isFull := true }) := by
  induction fuel generalizing c L with
  | zero => simp [allocateLoop] at h
  | succ fuel ih =>
    simp only [allocateLoop] at h
    simp only [collections] at hP
    split at h
    · rename_i hfree
      obtain ⟨rfl, rfl⟩ : true = result ∧ L = L' := by simpa using h
      exact .inl ⟨rfl, hfree, c, hI⟩
    · rename_i hfull
      rw [if_neg hfull] at hP
      split at h
      · rename_i he
        rw [if_pos he] at hP
        exact ih h hP (hadvance c L hI hfull he)
      · rename_i hne
        rw [if_neg hne] at hP
        split at h
        · rename_i hcount
          rw [collect_pageCount, advance_pageCount] at hcount
          rw [if_pos hcount] at hP
          obtain ⟨rfl, rfl⟩ : false = result ∧ { L.advance.collect with isFull := true } = L' := by
            simpa using h
          refine .inr ⟨rfl, c + 1, L.advance.collect, ?_, ?_, rfl⟩
          · rw [collect_pageCount, advance_pageCount]; exact hcount
          · exact hcollect c L hI hfull hne (hP _ (by simp))
        · rename_i hcount
          rw [collect_pageCount, advance_pageCount] at hcount
          rw [if_neg hcount] at hP
          exact ih h (fun t ht => hP t (by simp [ht]))
            (hcollect c L hI hfull hne (hP _ (by simp)))

/-- Copying leaves the page count, the current page and every other page alone. -/
theorem collect_page {L : Pages} (hw : L.WellFormed) (he : L.page L.current = []) {p : Nat}
    (hc : p ≠ L.current) (hn : p ≠ L.next) : L.collect.page p = L.page p := by
  rw [collect, clear_page_of_ne _ hn, (copied_copyRecords hw he).page p hc]

theorem collect_current {L : Pages} (hw : L.WellFormed) (he : L.page L.current = []) :
    L.collect.current = L.current := (copied_copyRecords hw he).current

theorem collect_next {L : Pages} (hw : L.WellFormed) (he : L.page L.current = []) :
    L.collect.next = L.next := (copied_copyRecords hw he).next

theorem collect_page_next (L : Pages) : L.collect.page L.next = [] := clear_page_self _ _

theorem collect_page_current {L : Pages} (hw : L.WellFormed) :
    L.collect.page L.current = L.copyRecords.page L.current :=
  clear_page_of_ne _ hw.next_ne.symm

theorem collect_wellFormed {L : Pages} (hw : L.WellFormed) (he : L.page L.current = []) :
    L.collect.WellFormed := ((copied_copyRecords hw he).wellFormed hw).clear L.next

/-! ## The shape of the ring -/

/-- Counted back from the current page, pages 1 to `m - 1` hold records and the rest is empty. -/
structure Ringed (L : Pages) (m : Nat) : Prop extends L.WellFormed where
  pos : 0 < m
  lt : m < L.pageCount
  older : ∀ j, 0 < j → j < L.pageCount → (L.page (Ring.back L.pageCount L.current j) ≠ [] ↔ j < m)

/-- The shape between operations: the pages with records end at the current page. -/
structure Tidy (L : Pages) : Prop where
  ringed : ∃ m, L.Ringed m
  start : L.page L.current = [] → L.current = 0 ∧ ∀ p < L.pageCount, L.page p = []

namespace Ringed

variable {L : Pages} {m : Nat}

theorem page_next (h : L.Ringed m) : L.page L.next = [] := by
  have hn := h.two_le
  have hm := h.lt
  rw [next, ← Ring.back_last h.current_lt]
  by_contra hne
  have := (h.older (L.pageCount - 1) (by omega) (by omega)).mp hne
  omega

theorem advance_older (h : L.Ringed m) (hc : L.page L.current ≠ []) (j : Nat) (hj : 0 < j)
    (hjn : j < L.pageCount) :
    L.page (Ring.back L.pageCount L.next j) ≠ [] ↔ j < m + 1 := by
  obtain ⟨i, rfl⟩ : ∃ i, j = i + 1 := ⟨j - 1, by omega⟩
  rw [next, Ring.back_next h.current_lt hjn]
  by_cases hi : i = 0
  · subst hi
    have hpos := h.pos
    simp only [Ring.back_zero, Nat.zero_add]
    exact ⟨fun _ => by omega, fun _ => hc⟩
  · rw [h.older i (by omega) (by omega)]
    omega

/-- Advancing from a page with records when the page after the next is empty. -/
theorem advance (h : L.Ringed m) (hc : L.page L.current ≠ [])
    (he : L.advance.page L.advance.next = []) : L.advance.Ringed (m + 1) := by
  have hn := h.two_le
  have hlt : m + 1 < L.pageCount := by
    have hlast : L.advance.next = Ring.back L.pageCount L.next (L.pageCount - 1) :=
      (Ring.back_last h.next_lt).symm
    rw [hlast, advance_page] at he
    have := h.advance_older hc (L.pageCount - 1) (by omega) (by omega)
    have hm := h.lt
    by_contra hge
    exact this.mpr (by omega) he
  exact ⟨h.toWellFormed.advance, by omega, hlt, h.advance_older hc⟩

/-- Advancing and collecting when the page after the next holds records: all pages but the one
just cleared and perhaps the current one do. -/
theorem advance_collect (h : L.Ringed m) (hc : L.page L.current ≠ [])
    (hne : L.advance.page L.advance.next ≠ []) :
    L.advance.collect.Ringed (L.pageCount - 1) := by
  have hn := h.two_le
  have hw := h.toWellFormed.advance
  have he : L.advance.page L.advance.current = [] := h.page_next
  have hlast : Ring.back L.pageCount L.next (L.pageCount - 1) = L.advance.next :=
    Ring.back_last h.next_lt
  have hm : m + 1 = L.pageCount := by
    have := (h.advance_older hc (L.pageCount - 1) (by omega) (by omega)).mp
      (by rw [hlast]; exact hne)
    have := h.lt
    omega
  refine ⟨collect_wellFormed hw he, by omega, ?_, ?_⟩
  · rw [collect_pageCount, advance_pageCount]; omega
  · intro j hj hjn
    rw [collect_pageCount, advance_pageCount] at hjn ⊢
    rw [collect_current hw he, advance_current]
    by_cases hjl : j = L.pageCount - 1
    · subst hjl
      rw [hlast, collect_page_next]
      simp
    · have hne_current : Ring.back L.pageCount L.next j ≠ L.advance.current := by
        obtain ⟨i, rfl⟩ : ∃ i, j = i + 1 := ⟨j - 1, by omega⟩
        exact Ring.back_succ_ne hjn
      have hne_next : Ring.back L.pageCount L.next j ≠ L.advance.next := by
        rw [← hlast]
        exact fun heq => hjl (Ring.back_inj hjn (by omega) heq)
      rw [collect_page hw he hne_current hne_next, advance_page, h.advance_older hc j hj hjn]
      omega

theorem push (h : L.Ringed m) (r : Rec) : (L.push r).Ringed m := by
  refine ⟨h.toWellFormed.push r, h.pos, h.lt, fun j hj hjn => ?_⟩
  have hne : Ring.back L.pageCount L.current j ≠ L.current := by
    obtain ⟨i, rfl⟩ : ∃ i, j = i + 1 := ⟨j - 1, by omega⟩
    exact Ring.back_succ_ne hjn
  rw [push_pageCount, push_current, push_page_of_ne L r hne]
  exact h.older j hj hjn

end Ringed

theorem not_nil_of_full {L : Pages} {size : Nat} (hsize : size ≤ pageSize)
    (hfull : ¬ size ≤ pageSize - used (L.page L.current)) : L.page L.current ≠ [] := by
  intro he
  rw [he] at hfull
  exact hfull hsize

theorem tidy_erase {L : Pages} (hn : 2 ≤ L.pageCount) : L.erase.Tidy where
  ringed := ⟨1, ⟨hn, by show 0 < L.pageCount; omega⟩, Nat.one_pos, hn, fun j hj _ => by
    simp only [erase, ne_eq, not_true, false_iff]; omega⟩
  start := fun _ => ⟨rfl, fun _ _ => rfl⟩

theorem Tidy.page_next {L : Pages} (h : L.Tidy) : L.page L.next = [] :=
  let ⟨_, hr⟩ := h.ringed; hr.page_next

theorem Tidy.wellFormed {L : Pages} (h : L.Tidy) : L.WellFormed :=
  let ⟨_, hr⟩ := h.ringed; hr.toWellFormed

/-- A record is left on the current page. -/
theorem Ringed.tidy {L : Pages} {m : Nat} (h : L.Ringed m) (hc : L.page L.current ≠ []) : L.Tidy :=
  ⟨⟨m, h⟩, fun he => absurd he hc⟩

/-! ## Giving up -/

/-- The newest `c` pages (all but the oldest at most) hold bindings only. -/
def Copies (c : Nat) (L : Pages) : Prop :=
  ∀ j < c, j + 1 < L.pageCount → ∀ r ∈ L.page (Ring.back L.pageCount L.current j), r.removed = false

theorem onPage_ne_none {rs : List Rec} (hrs : ∀ r ∈ rs, r.removed = false) {r : Rec} (hr : r ∈ rs) :
    onPage rs r.key ≠ none := by
  induction rs with
  | nil => simp at hr
  | cons t ts ih =>
    rw [onPage_cons]
    by_cases hk : t.key = r.key
    · rw [if_pos hk, Record.bound, if_neg (by simp [hrs t (by simp)])]
      simp
    · rw [if_neg hk]
      rcases List.mem_cons.mp hr with rfl | hr
      · exact absurd rfl hk
      · exact ih (fun t ht => hrs t (by simp [ht])) hr

/-- A page of bindings is not collected without a copy. -/
theorem copyRecords_ne_nil {L : Pages} (hw : L.WellFormed) (he : L.page L.current = [])
    (hne : L.page L.next ≠ []) (hb : ∀ r ∈ L.page L.next, r.removed = false) :
    L.copyRecords.page L.current ≠ [] := by
  obtain ⟨r, rs, hrs⟩ := List.exists_cons_of_ne_nil hne
  have hr : r ∈ L.page L.next := by simp [hrs]
  have hon := onPage_ne_none hb hr
  have hlive : L.lookup r.key ≠ none := by
    refine lookup_ne_none_of_mem (List.mem_map.mpr ⟨L.next, ?_, rfl⟩) hon
    exact (Ring.mem_order hw.current_lt).mpr hw.next_lt
  intro hnil
  have hc := (copied_copyRecords hw he).onPage r.key
  rw [hnil, onPage_nil, if_neg hlive] at hc
  have hfind := List.find?_eq_none.mp (Option.map_eq_none_iff.mp hc.symm) r (by simpa using hr)
  simp [hb r hr] at hfind

theorem Copies.collect {c : Nat} {L : Pages} (h : Copies c L) (hw : L.WellFormed)
    (he : L.page L.next = []) : Copies (c + 1) L.advance.collect := by
  have hwa := hw.advance
  intro j hj hjn r hr
  rw [collect_pageCount, advance_pageCount, collect_current hwa he] at hr
  rw [collect_pageCount, advance_pageCount] at hjn
  by_cases hj0 : j = 0
  · subst hj0
    rw [Ring.back_zero, collect_page_current hwa] at hr
    exact (copied_copyRecords hwa he).bindings r hr
  · obtain ⟨i, rfl⟩ : ∃ i, j = i + 1 := ⟨j - 1, by omega⟩
    have hne_current : Ring.back L.pageCount L.next (i + 1) ≠ L.advance.current :=
      Ring.back_succ_ne (by omega)
    have hne_next : Ring.back L.pageCount L.next (i + 1) ≠ L.advance.next := by
      have hlast : Ring.back L.pageCount L.next (L.pageCount - 1) = L.advance.next :=
        Ring.back_last hw.next_lt
      rw [← hlast]
      intro heq
      have := Ring.back_inj (by omega) (by omega) heq
      omega
    rw [advance_current, collect_page hwa he hne_current hne_next, advance_page, next,
      Ring.back_next hw.current_lt (by omega)] at hr
    exact h i (by omega) (by omega) r hr

/-- What the loop of `allocate` keeps while it looks for room for a record that fits a page. -/
structure Searching (n c : Nat) (L : Pages) : Prop where
  pageCount : L.pageCount = n
  ringed : ∃ m, L.Ringed m ∧ (0 < c → m + 1 = n)
  copies : Copies c L
  last : n < c → L.page L.current ≠ []

namespace Searching

variable {n c size : Nat} {L : Pages}

theorem start {m : Nat} (h : L.Ringed m) : Searching L.pageCount 0 L :=
  ⟨rfl, ⟨m, h, by omega⟩, fun _ hj => by omega, by omega⟩

theorem advance (h : Searching n c L) (hsize : size ≤ pageSize)
    (hfull : ¬ size ≤ pageSize - used (L.page L.current))
    (he : L.advance.page L.advance.next = []) : Searching n c L.advance := by
  obtain ⟨m, hr, hm⟩ := h.ringed
  have hr' := hr.advance (not_nil_of_full hsize hfull) he
  -- after a collection every other page holds records, so the page after the next is not empty
  have hc : c = 0 := by
    have := hr'.lt
    rw [advance_pageCount, h.pageCount] at this
    by_contra hc
    have := hm (by omega)
    omega
  subst hc
  exact ⟨h.pageCount, ⟨m + 1, hr', by omega⟩, fun _ hj => by omega, by omega⟩

theorem collect (h : Searching n c L) (hsize : size ≤ pageSize)
    (hfull : ¬ size ≤ pageSize - used (L.page L.current))
    (hne : L.advance.page L.advance.next ≠ []) : Searching n (c + 1) L.advance.collect := by
  obtain ⟨m, hr, -⟩ := h.ringed
  have hw := hr.toWellFormed.advance
  have he : L.advance.page L.advance.current = [] := hr.page_next
  have hn := hr.two_le
  have hpc := h.pageCount
  refine ⟨?_, ⟨_, hr.advance_collect (not_nil_of_full hsize hfull) hne, fun _ => by omega⟩,
    h.copies.collect hr.toWellFormed hr.page_next, fun hlast => ?_⟩
  · rw [collect_pageCount, advance_pageCount, h.pageCount]
  · rw [collect_current hw he, collect_page_current hw]
    refine copyRecords_ne_nil hw he hne fun r hmem => ?_
    have hpage : L.advance.next = Ring.back L.pageCount L.current (L.pageCount - 2) := by
      have hback := Ring.back_next (j := L.pageCount - 2) hr.current_lt (by omega)
      have hlast : Ring.back L.pageCount L.next (L.pageCount - 1) = L.advance.next :=
        Ring.back_last hr.next_lt
      rw [← hback, ← hlast, next]
      congr 1
      omega
    rw [hpage] at hmem
    exact h.copies (L.pageCount - 2) (by omega) (by omega) r hmem

end Searching

/-- The loop leaves the ring in shape, whether it finds room or not. -/
theorem allocateLoop_searching {size fuel : Nat} {L L' : Pages} {result : Bool} {m : Nat}
    (hsize : size ≤ pageSize) (hr : L.Ringed m)
    (h : allocateLoop size fuel 0 L = some (result, L')) :
    L'.pageCount = L.pageCount ∧ (∃ m', L'.Ringed m') ∧
      (result = true → size ≤ pageSize - used (L'.page L'.current)) ∧
      (result = false → L'.page L'.current ≠ []) := by
  rcases allocateLoop_induct (I := Searching L.pageCount) (P := fun _ => True)
      (fun _ _ hI hfull he => hI.advance hsize hfull he)
      (fun _ _ hI hfull hne _ => hI.collect hsize hfull hne) h (fun _ _ => trivial)
      (Searching.start hr) with
    ⟨rfl, hfree, c, hs⟩ | ⟨rfl, c, L'', hc, hs, rfl⟩
  · obtain ⟨m', hr', -⟩ := hs.ringed
    exact ⟨hs.pageCount, ⟨m', hr'⟩, fun _ => hfree, by simp⟩
  · obtain ⟨m', hr', -⟩ := hs.ringed
    refine ⟨hs.pageCount, ⟨m', ⟨hr'.two_le, hr'.current_lt⟩, hr'.pos, hr'.lt, hr'.older⟩, by simp,
      fun _ => hs.last ?_⟩
    rw [hs.pageCount] at hc
    exact hc

/-! ## Operations -/

/-- The record fits an otherwise empty page, if the operation adds one. -/
def Fits (L : Pages) : Op → Prop
  | .set key object => (L.lookup key.bytes).getD [] ≠ object.encoding →
      Store.requiredSize key.strlen object.encoding.length ≤ pageSize
  | .remove key => L.lookup key.bytes ≠ none → Store.requiredSize key.strlen 0 ≤ pageSize
  | .erase => True

theorem Tidy.add {L L' : Pages} (ht : L.Tidy) {fuel : Nat} {key : List UInt8}
    {value : Option (List UInt8)} {result : Bool}
    (hsize : Store.requiredSize key.length (value.getD []).length ≤ pageSize)
    (h : L.add fuel key value = some (result, L')) : L'.Tidy ∧ L'.pageCount = L.pageCount := by
  obtain ⟨m, hr⟩ := ht.ringed
  simp only [Pages.add, allocate] at h
  split at h
  · simp at h
  · rename_i L'' ha
    obtain ⟨rfl, rfl⟩ : false = result ∧ L'' = L' := by simpa using h
    split at ha
    · obtain rfl : L = L'' := by simpa using ha
      exact ⟨ht, rfl⟩
    · obtain ⟨hn, ⟨m', hr'⟩, -, hc⟩ := allocateLoop_searching hsize hr ha
      exact ⟨hr'.tidy (hc rfl), hn⟩
  · rename_i L'' ha
    obtain ⟨rfl, rfl⟩ : true = result ∧ L''.push (newRecord key value) = L' := by simpa using h
    split at ha
    · simp at ha
    · obtain ⟨hn, ⟨m', hr'⟩, -, -⟩ := allocateLoop_searching hsize hr ha
      exact ⟨(hr'.push _).tidy (by rw [push_current, push_page_current]; simp), hn⟩

/-- Operations keep the ring in shape. -/
theorem Tidy.exec {L L' : Pages} (ht : L.Tidy) {op : Op} {fuel : Nat} {result : Bool}
    (hfit : L.Fits op) (h : L.exec fuel op = some (result, L')) :
    L'.Tidy ∧ L'.pageCount = L.pageCount := by
  cases op with
  | set key object =>
    simp only [Pages.exec, Pages.set] at h
    split at h
    · obtain ⟨rfl, rfl⟩ : true = result ∧ L = L' := by simpa using h
      exact ⟨ht, rfl⟩
    · rename_i hne
      have hsize : Store.requiredSize key.bytes.length ((some object.encoding).getD []).length ≤ pageSize :=
        hfit hne
      exact ht.add hsize h
  | remove key =>
    simp only [Pages.exec, Pages.remove] at h
    split at h
    · obtain ⟨rfl, rfl⟩ : true = result ∧ L = L' := by simpa using h
      exact ⟨ht, rfl⟩
    · rename_i hne
      have hsize : Store.requiredSize key.bytes.length ((none : Option (List UInt8)).getD []).length ≤
          pageSize := hfit fun hn => hne (by rw [hn]; rfl)
      exact ht.add hsize h
  | erase =>
    obtain ⟨rfl, rfl⟩ : true = result ∧ L.erase = L' := by simpa [Pages.exec] using h
    exact ⟨tidy_erase ht.wellFormed.two_le, rfl⟩

end Pages

end KeyValueStore
end Firefly
