import Firefly.Storage.Recovery

/-!
# Firefly.Storage.FiniteMap

The store as a finite map: `denote` says what a sequence of calls means, and lookups give it as
long as three things do not happen (`Op.Sound`, `lookup_run`):

* a collection copies a record that is not the newest of its key. `garbageCollect` checks that
  the key is bound, not to what, and takes the oldest binding on the page;
* a removal leaves a binding on another page. A tombstone ends the search on its own page only;
* an empty message is set under a key that is not bound. `isSetTo` does not tell the two apart,
  so `set` does nothing.

Each of them makes lookups differ from the map; `stale_after_collection` runs into the first.
-/

namespace Firefly
namespace KeyValueStore

open Journal

/-! ## The map -/

abbrev Map := List UInt8 → Option (List UInt8)

def Op.apply (m : Map) : Op → Map
  | set key object => Function.update m key.bytes (some object.encoding)
  | remove key => Function.update m key.bytes none
  | erase => fun _ => none

/-- What the calls mean, from the empty map on. -/
def denote (ops : List Op) : Map := ops.foldl Op.apply fun _ => none

/-! ## Collections -/

namespace Store

def recordKey (s : Store) (page i : Nat) : List UInt8 :=
  let metadata := s.getMetadata page i
  Nor.read s.flash (getPageAddress page + metadata.key.offset) metadata.key.size

def recordValue (s : Store) (page i : Nat) : List UInt8 :=
  let metadata := s.getMetadata page i
  Nor.read s.flash (getPageAddress page + metadata.value.offset) metadata.value.size

def recordRemoved (s : Store) (page i : Nat) : Prop :=
  (s.getMetadata page i).flags &&& flagsRemoved ≠ 0

/-- The first record of a key of `keys` on the page that is not a removal, which is the one that a
collection copies, holds the bytes that `lookup` finds, if it finds any. -/
def CopiesPage (keys : Set (List UInt8)) (s : Store) (page : Nat) : Prop :=
  ∀ i < s.getMetadataCount page, ¬ s.recordRemoved page i →
    (∀ j < i, ¬ s.recordRemoved page j → s.recordKey page j ≠ s.recordKey page i) →
    s.recordKey page i ∈ keys →
    let metadata := s.getMetadata page i
    let key : Pointer := fun j => s.flash (getPageAddress page + metadata.key.offset + j)
    ∀ data ∈ s.lookup key metadata.key.size, Nor.read s.flash data.1 data.2 = s.recordValue page i

/-- The collection that starts in `s` finds the value in force of every bound key of `keys`: the
first record of the key on the page that is not a removal, which is the one it copies, holds the
bytes that `lookup` finds. -/
def CollectsCurrent (keys : Set (List UInt8)) (s : Store) : Prop :=
  let page := (s.current.page + 1) % s.pageCount
  ∀ i < s.getMetadataCount page, ¬ s.recordRemoved page i →
    (∀ j < i, ¬ s.recordRemoved page j → s.recordKey page j ≠ s.recordKey page i) →
    s.recordKey page i ∈ keys →
    let metadata := s.getMetadata page i
    let key : Pointer := fun j => s.flash (getPageAddress page + metadata.key.offset + j)
    ∀ data ∈ s.lookup key metadata.key.size, Nor.read s.flash data.1 data.2 = s.recordValue page i

end Store

namespace Pages

def CollectsCurrent (keys : Set (List UInt8)) (L : Pages) : Prop :=
  ∀ k ∈ keys, ∀ r ∈ oldestBound (L.page L.next) k, ∀ v ∈ L.lookup k, v = r.value

theorem CollectsCurrent.lookup {keys : Set (List UInt8)} {L : Pages} (h : L.CollectsCurrent keys)
    (hw : L.WellFormed) (he : L.page L.current = []) {k : List UInt8} (hk : k ∈ keys) :
    L.collect.lookup k = L.lookup k := by
  rw [lookup_collect hw he]
  cases hl : L.lookup k with
  | none => simp
  | some v =>
    cases ho : oldestBound (L.page L.next) k with
    | none => simp
    | some r => simp [h k hk r ho v hl]

/-- Making room keeps the lookups of the keys whose collections copy the value in force. -/
theorem lookup_allocate {keys : Set (List UInt8)} {L L' : Pages} {fuel size : Nat} {result : Bool}
    (hw : L.WellFormed) (he : L.page L.next = []) (h : L.allocate fuel size = some (result, L'))
    (hP : L.isFull = false → ∀ t ∈ L.collections size fuel 0, t.CollectsCurrent keys) :
    L'.WellFormed ∧ ∀ k ∈ keys, L'.lookup k = L.lookup k := by
  unfold allocate at h
  split at h
  · obtain ⟨-, rfl⟩ : false = result ∧ L = L' := by simpa using h
    exact ⟨hw, fun _ _ => rfl⟩
  · rename_i hfull
    let I : Nat → Pages → Prop := fun _ t =>
      t.WellFormed ∧ t.page t.next = [] ∧ ∀ k ∈ keys, t.lookup k = L.lookup k
    have hadvance : ∀ c t, I c t → ¬ size ≤ pageSize - used (t.page t.current) →
        t.advance.page t.advance.next = [] → I c t.advance := by
      rintro c t ⟨hw, he, hl⟩ - he'
      exact ⟨hw.advance, he', fun k hk => by rw [lookup_advance hw he, hl k hk]⟩
    have hcollect : ∀ c t, I c t → ¬ size ≤ pageSize - used (t.page t.current) →
        t.advance.page t.advance.next ≠ [] → t.advance.CollectsCurrent keys →
        I (c + 1) t.advance.collect := by
      rintro c t ⟨hw, he, hl⟩ - - hc
      refine ⟨collect_wellFormed hw.advance he, ?_, fun k hk => ?_⟩
      · rw [collect_next hw.advance he]; exact collect_page_next _
      · rw [hc.lookup hw.advance he hk, lookup_advance hw he, hl k hk]
    rcases allocateLoop_induct hadvance hcollect h (hP (by simpa using hfull))
      ⟨hw, he, fun _ _ => rfl⟩ with ⟨-, -, c, hI⟩ | ⟨-, c, t, -, hI, rfl⟩
    · exact ⟨hI.1, hI.2.2⟩
    · exact ⟨⟨hI.1.two_le, hI.1.current_lt⟩, hI.2.2⟩

theorem wellFormed_allocate {L L' : Pages} {fuel size : Nat} {result : Bool} (hw : L.WellFormed)
    (he : L.page L.next = []) (h : L.allocate fuel size = some (result, L')) : L'.WellFormed := by
  have hP : L.isFull = false → ∀ t ∈ L.collections size fuel 0, t.CollectsCurrent ∅ :=
    fun _ _ _ _ hk => absurd hk (Set.notMem_empty _)
  exact (lookup_allocate hw he h hP).1

end Pages

variable {k : Nat} {s s' : Store} {L L' : Pages} {p : Nat} {rs : List Rec}

theorem recordKey_eq (h : PageHolds s.flash p rs) {as ts : List Rec} {r : Rec}
    (hrs : rs = as ++ r :: ts) : s.recordKey p ts.length = r.key := by
  rw [Store.recordKey, Store.getMetadata_eq h hrs]
  exact (Holds.recordAt (hrs ▸ h.records)).key

theorem recordValue_eq (h : PageHolds s.flash p rs) {as ts : List Rec} {r : Rec}
    (hrs : rs = as ++ r :: ts) : s.recordValue p ts.length = r.value := by
  rw [Store.recordValue, Store.getMetadata_eq h hrs]
  exact (Holds.recordAt (hrs ▸ h.records)).value

theorem recordRemoved_iff (h : PageHolds s.flash p rs) {as ts : List Rec} {r : Rec}
    (hrs : rs = as ++ r :: ts) : s.recordRemoved p ts.length ↔ r.removed = true := by
  rw [Store.recordRemoved, Store.getMetadata_eq h hrs, metadataOf_removed]

theorem CopiesPage.pages {keys : Set (List UInt8)} (h : Represents k s L) {page : Nat}
    (hp : page < L.pageCount) (hc : s.CopiesPage keys page) :
    ∀ k ∈ keys, ∀ r ∈ oldestBound (L.page page) k, ∀ v ∈ L.lookup k, v = r.value := by
  intro key hkey r hr v hv
  have hpage := h.holds page hp
  rw [Option.mem_def, oldestBound, List.find?_eq_some_iff_append] at hr
  obtain ⟨hmatch, pre, post, hsplit, hfirst⟩ := hr
  obtain ⟨hk, hbound⟩ : r.key = key ∧ r.removed = false := by simpa using hmatch
  subst hk
  have hrs : L.page page = post.reverse ++ r :: pre.reverse := by
    have := congrArg List.reverse hsplit
    simpa using this
  have hkeys := hpage.keys r (by simp [hrs])
  have hat := Holds.recordAt (hrs ▸ hpage.records)
  have hread := lookup_read h (hat.pointsTo hkeys)
  have hstep := hc pre.reverse.length
    (by rw [Store.getMetadataCount_eq hpage, hrs]; simp; omega)
    (by rw [recordRemoved_iff hpage hrs, hbound]; simp)
    (by
      intro j hj hjr
      obtain ⟨as, t, ts, hts, rfl⟩ := exists_record hj
      have hrs' : L.page page = (post.reverse ++ r :: as) ++ t :: ts := by rw [hrs, hts]; simp
      rw [recordRemoved_iff hpage hrs'] at hjr
      rw [recordKey_eq hpage hrs', recordKey_eq hpage hrs]
      have ht : t ∈ pre := by
        rw [← List.mem_reverse, hts]; simp
      intro heq
      have := hfirst t ht
      simp [heq, hjr] at this)
    (by rw [recordKey_eq hpage hrs]; exact hkey)
  rw [recordValue_eq hpage hrs, Store.getMetadata_eq hpage hrs] at hstep
  rw [Option.mem_def, ← hread] at hv
  obtain ⟨data, hdata, hval⟩ := Option.map_eq_some_iff.mp hv
  rw [← hstep data hdata]
  exact hval.symm

theorem CollectsCurrent.pages {keys : Set (List UInt8)} (h : Represents k s L)
    (hc : s.CollectsCurrent keys) : L.CollectsCurrent keys := by
  have hnext : (s.current.page + 1) % s.pageCount = L.next := h.next
  rw [Store.CollectsCurrent, hnext] at hc
  exact CopiesPage.pages h h.wellFormed.next_lt hc

/-! ## Runs -/

/-- The call `op` in state `s` goes into none of the three branches that lose the map. -/
def Op.Sound (s : Store) : Op → Prop
  | set key object =>
    (object.encoding = [] → s.isSetTo key object → s.isSet key) ∧
      ∀ fuel, ∀ t ∈ s.opCollections fuel (.set key object), t.CollectsCurrent {k | k ≠ key.bytes}
  | remove key =>
    (∀ fuel, ∀ t ∈ s.opCollections fuel (.remove key), t.CollectsCurrent {k | k ≠ key.bytes}) ∧
      (s.isSet key → ∀ fuel t, s.allocateKeyValue fuel key.strlen 0 = some (true, t) →
        ∀ page < t.pageCount, page ≠ t.current.page →
          t.lookupOnPage page key.pointer key.strlen = none)
  | erase => True

/-- Each collection of the pages is one of the store. -/
theorem exists_collection {op : Op} {fuel j : Nat} {t : Pages} (h : Represents k s L)
    (he : L.page L.next = []) (ht : (L.opCollections fuel op)[j]? = some t) :
    ∃ sm, (s.opCollections fuel op)[j]? = some sm ∧ Represents k sm t := by
  have hall := opCollections_simulates fuel op h he
  generalize s.opCollections fuel op = ss at hall ⊢
  generalize L.opCollections fuel op = ts at hall ht
  induction hall generalizing j with
  | nil => simp at ht
  | @cons sm u ss ts hm hall ih =>
    cases j with
    | zero =>
      obtain rfl : u = t := by simpa using ht
      exact ⟨sm, rfl, hm⟩
    | succ j => exact ih ht

theorem forall_collections {op : Op} {keys : Set (List UInt8)} (h : Represents k s L)
    (he : L.page L.next = []) (hc : ∀ fuel, ∀ t ∈ s.opCollections fuel op, t.CollectsCurrent keys)
    (fuel : Nat) : ∀ t ∈ L.opCollections fuel op, t.CollectsCurrent keys := by
  intro t ht
  obtain ⟨j, hj⟩ := List.mem_iff_getElem?.mp ht
  obtain ⟨sm, hsm, hrep⟩ := exists_collection h he hj
  exact CollectsCurrent.pages hrep (hc fuel sm (List.mem_of_getElem? hsm))

namespace Pages

theorem allocate_of_add {fuel : Nat} {key : List UInt8} {value : Option (List UInt8)}
    (h : L.add fuel key value = some (true, L')) :
    ∃ La, L.allocate fuel (Store.requiredSize key.length (value.getD []).length) = some (true, La) ∧
      L' = La.push (newRecord key value) := by
  unfold Pages.add at h
  split at h
  · simp at h
  · simp at h
  · rename_i La ha
    obtain rfl : La.push (newRecord key value) = L' := by simpa using h
    exact ⟨La, ha, rfl⟩

/-- A key that `set` returned true for is bound to the message, unless the message is empty and the
key was not bound. -/
theorem lookup_set_self {fuel : Nat} {key value : List UInt8} (hw : L.WellFormed)
    (he : L.page L.next = []) (h : L.set fuel key value = some (true, L'))
    (hempty : value = [] → L.lookup key ≠ none) : L'.lookup key = some value := by
  rw [Pages.set] at h
  by_cases heq : (L.lookup key).getD [] = value
  · rw [if_pos heq] at h
    obtain rfl : L = L' := by simpa using h
    cases hl : L.lookup key with
    | none =>
      rw [hl] at heq
      exact absurd hl (hempty heq.symm)
    | some v =>
      rw [hl] at heq
      rw [← heq]
      rfl
  · rw [if_neg heq] at h
    obtain ⟨La, ha, rfl⟩ := allocate_of_add h
    have hwa := wellFormed_allocate hw he ha
    rw [lookup_push hwa, newRecord_key, if_pos rfl]
    simp [newRecord, Record.bound]

/-- A call leaves the lookups of other keys alone when its collections do. -/
theorem lookup_add_of_ne {fuel : Nat} {key k : List UInt8} {value : Option (List UInt8)} {result : Bool}
    (hw : L.WellFormed) (he : L.page L.next = []) (h : L.add fuel key value = some (result, L'))
    (hc : L.isFull = false →
      ∀ t ∈ L.collections (Store.requiredSize key.length (value.getD []).length) fuel 0,
        t.CollectsCurrent {k | k ≠ key})
    (hk : k ≠ key) : L'.lookup k = L.lookup k := by
  unfold Pages.add at h
  split at h
  · simp at h
  · rename_i La ha
    obtain ⟨-, rfl⟩ : false = result ∧ La = L' := by simpa using h
    exact (lookup_allocate hw he ha hc).2 k hk
  · rename_i La ha
    obtain ⟨-, rfl⟩ : true = result ∧ La.push (newRecord key value) = L' := by simpa using h
    obtain ⟨hwa, hkeep⟩ := lookup_allocate hw he ha hc
    rw [lookup_push hwa, newRecord_key, if_neg (Ne.symm hk), hkeep k hk]

theorem lookup_set_of_ne {fuel : Nat} {key : CString} {object : Message} {result : Bool}
    {k : List UInt8} (hw : L.WellFormed) (he : L.page L.next = [])
    (h : L.set fuel key.bytes object.encoding = some (result, L'))
    (hc : ∀ t ∈ L.opCollections fuel (.set key object), t.CollectsCurrent {k | k ≠ key.bytes})
    (hk : k ≠ key.bytes) : L'.lookup k = L.lookup k := by
  rw [Pages.set] at h
  by_cases heq : (L.lookup key.bytes).getD [] = object.encoding
  · rw [if_pos heq] at h
    obtain ⟨-, rfl⟩ : true = result ∧ L = L' := by simpa using h
    rfl
  · rw [if_neg heq] at h
    exact lookup_add_of_ne hw he h
      (fun hfull => by simpa [opCollections, heq, hfull, CString.strlen] using hc) hk

theorem lookup_remove_of_ne {fuel : Nat} {key : CString} {result : Bool} {k : List UInt8}
    (hw : L.WellFormed) (he : L.page L.next = []) (h : L.remove fuel key.bytes = some (result, L'))
    (hc : ∀ t ∈ L.opCollections fuel (.remove key), t.CollectsCurrent {k | k ≠ key.bytes})
    (hk : k ≠ key.bytes) : L'.lookup k = L.lookup k := by
  rw [Pages.remove] at h
  by_cases hnone : L.lookup key.bytes = none
  · rw [if_pos (by simp [hnone])] at h
    obtain ⟨-, rfl⟩ : true = result ∧ L = L' := by simpa using h
    rfl
  · rw [if_neg (by simpa using hnone)] at h
    exact lookup_add_of_ne hw he h
      (fun hfull => by simpa [opCollections, hnone, hfull, CString.strlen] using hc) hk

/-- `set` binds its key and leaves the other keys alone. -/
theorem lookup_set {fuel : Nat} {key : CString} {object : Message} (hw : L.WellFormed)
    (he : L.page L.next = []) (h : L.set fuel key.bytes object.encoding = some (true, L'))
    (hempty : object.encoding = [] → L.lookup key.bytes ≠ none)
    (hc : ∀ t ∈ L.opCollections fuel (.set key object), t.CollectsCurrent {k | k ≠ key.bytes}) :
    L'.lookup = (Op.set key object).apply L.lookup := by
  funext k
  by_cases hk : k = key.bytes
  · subst hk
    rw [lookup_set_self hw he h hempty]
    simp [Op.apply]
  · rw [lookup_set_of_ne hw he h hc hk]
    simp [Op.apply, Function.update_of_ne hk]

/-- `remove` unbinds its key if no page but the current one binds it when the tombstone is written,
and leaves the other keys alone. -/
theorem lookup_remove {fuel : Nat} {key : CString} (hw : L.WellFormed) (he : L.page L.next = [])
    (h : L.remove fuel key.bytes = some (true, L'))
    (hc : ∀ t ∈ L.opCollections fuel (.remove key), t.CollectsCurrent {k | k ≠ key.bytes})
    (hlast : L.lookup key.bytes ≠ none → ∀ La,
      L.allocate fuel (Store.requiredSize key.strlen 0) = some (true, La) →
        ∀ p < La.pageCount, p ≠ La.current → onPage (La.page p) key.bytes = none) :
    L'.lookup = (Op.remove key).apply L.lookup := by
  funext k
  by_cases hk : k = key.bytes
  · subst hk
    rw [Pages.remove] at h
    by_cases hnone : L.lookup key.bytes = none
    · rw [if_pos (by simp [hnone])] at h
      obtain rfl : L = L' := by simpa using h
      simp [Op.apply, hnone]
    · rw [if_neg (by simpa using hnone)] at h
      obtain ⟨La, ha, rfl⟩ := allocate_of_add h
      have hwa := wellFormed_allocate hw he ha
      have holder : Journal.lookup La.older key.bytes = none := by
        rw [lookup_eq_none]
        intro rs hrs
        obtain ⟨p, hp, hpc, rfl⟩ := (mem_older hwa.current_lt).mp hrs
        exact hlast hnone La ha p hp hpc
      rw [lookup_push hwa, newRecord_key, if_pos rfl, holder]
      simp [newRecord, Record.bound, Op.apply]
  · rw [lookup_remove_of_ne hw he h hc hk]
    simp [Op.apply, Function.update_of_ne hk]

end Pages

/-- One sound call does to the lookups what it does to the map. -/
theorem lookup_step (h : Represents k s L) (ht : L.Tidy) {op : Op} (hr : op.Returns s true s')
    (hsound : op.Sound s) :
    ∃ L', Represents k s' L' ∧ L'.Tidy ∧ L'.lookup = op.apply L.lookup := by
  obtain ⟨L', hrep, ht', -, fuel, hexec⟩ := returns_tidy h ht hr (.inl rfl)
  have hset : ∀ key : CString, s.isSet key = (L.lookup key.bytes).isSome := fun key =>
    lookup_isSome h key.pointsTo
  refine ⟨L', hrep, ht', ?_⟩
  cases op with
  | set key object =>
    obtain ⟨hempty, hc⟩ := hsound
    refine Pages.lookup_set ht.wellFormed ht.page_next hexec (fun henc hnone => ?_)
      (forall_collections h ht.page_next hc fuel)
    have hset_to : s.isSetTo key object = true := by
      rw [isSetTo_eq h, hnone, henc]; rfl
    have := hempty henc hset_to
    rw [hset, hnone] at this
    cases this
  | remove key =>
    obtain ⟨hc, hlast⟩ := hsound
    refine Pages.lookup_remove ht.wellFormed ht.page_next hexec
      (forall_collections h ht.page_next hc fuel) fun hbound La hLa p hp hpc => ?_
    have hrel := allocateKeyValue_simulates fuel key.strlen 0 h ht.page_next
    rw [hLa] at hrel
    generalize ha : s.allocateKeyValue fuel key.strlen 0 = a at hrel
    cases hrel with
    | @some x _ hsim =>
      obtain ⟨result, t⟩ := x
      obtain ⟨⟨rfl, hrep, -, -⟩, -⟩ := hsim
      have hpage := hlast (by rw [hset]; exact Option.isSome_iff_ne_none.mpr hbound) fuel t ha p
        (by rw [hrep.pageCount]; exact hp) (by rw [hrep.page]; exact hpc)
      rw [CString.strlen, Store.lookupOnPage_eq (hrep.holds p hp) key.pointsTo] at hpage
      have := Store.valueAt_isSome p key.bytes (La.page p)
      rw [hpage] at this
      simpa using this.symm
  | erase =>
    obtain ⟨-, rfl⟩ : true = true ∧ L.erase = L' := by simpa [Pages.exec] using hexec
    funext k
    rw [Pages.lookup, lookup_eq_none.mpr]
    · rfl
    · intro rs hrs
      obtain ⟨p, -, rfl⟩ := List.mem_map.mp hrs
      rfl

/-- Lookups give the map that successful, sound calls denote. -/
theorem lookup_run (s₀ : Store) (hn : 2 ≤ s₀.pageCount) {calls : List (Op × Bool)}
    (h : Run (fun s op result => result = true ∧ op.Sound s) s₀.erased calls s) (key : CString) :
    s.lookupValue key = denote (calls.map Prod.fst) key.bytes := by
  have hrun : ∃ L, Represents 0 s L ∧ L.Tidy ∧ L.lookup = denote (calls.map Prod.fst) := by
    induction h with
    | nil =>
      refine ⟨⟨s₀.pageCount, 0, false, fun _ => []⟩, erased_represents s₀ hn,
        Pages.tidy_erase (L := ⟨s₀.pageCount, 0, false, fun _ => []⟩) hn, ?_⟩
      funext k
      rw [Pages.lookup, lookup_eq_none.mpr]
      · rfl
      · intro rs hrs
        obtain ⟨p, -, rfl⟩ := List.mem_map.mp hrs
        rfl
    | snoc h hr hstep ih =>
      obtain ⟨rfl, hsound⟩ := hstep
      obtain ⟨L, hrep, ht, hl⟩ := ih
      obtain ⟨L', hrep', ht', hl'⟩ := lookup_step hrep ht hr hsound
      refine ⟨L', hrep', ht', ?_⟩
      rw [hl', hl]
      simp [denote, List.foldl_append]
  obtain ⟨L, hrep, -, hl⟩ := hrun
  rw [lookupValue_eq hrep, hl]

theorem sample_collections (fuel : Nat) : (Store.blank 2).erased.opCollections fuel
    (.set sampleKey (sampleMessage 3 7)) = [] := by
  have hall := opCollections_simulates fuel (.set sampleKey (sampleMessage 3 7))
    (erased_represents (Store.blank 2) (Nat.le_refl 2)) rfl
  have hnil : (⟨2, 0, false, fun _ => []⟩ : Pages).opCollections fuel
      (.set sampleKey (sampleMessage 3 7)) = [] := by cases fuel <;> rfl
  rw [show (Store.blank 2).pageCount = 2 from rfl, hnil] at hall
  generalize (Store.blank 2).erased.opCollections fuel _ = ts at hall ⊢
  cases hall
  rfl

theorem lookup_run_sample : ∃ s, Run (fun s op result => result = true ∧ op.Sound s)
    (Store.blank 2).erased [(.set sampleKey (sampleMessage 3 7), true)] s ∧
      s.lookupValue sampleKey = some [7, 7, 7] := by
  obtain ⟨s, hr⟩ := sample_returns
  have hsound : (Op.set sampleKey (sampleMessage 3 7)).Sound (Store.blank 2).erased := by
    refine ⟨fun h => absurd h (by decide), fun fuel t ht => ?_⟩
    rw [sample_collections fuel] at ht
    cases ht
  have hrun := (Run.nil (P := fun s op result => result = true ∧ op.Sound s)).snoc hr ⟨rfl, hsound⟩
  exact ⟨s, hrun, lookup_run (Store.blank 2) (Nat.le_refl 2) hrun sampleKey⟩

/-- A key with two values on one page, and then a second key that makes room by collecting the
page: the first key has its old value back. -/
theorem stale_after_collection : ∃ s, Run (fun _ _ result => result = true) (Store.blank 2).erased
    [(.set sampleKey (sampleMessage 2000 1), true), (.set sampleKey (sampleMessage 2000 2), true),
      (.set ⟨[0x6a], by simp⟩ (sampleMessage 2000 3), true)] s ∧
    s.lookupValue sampleKey = some (sampleMessage 2000 1).encoding ∧
    denote [.set sampleKey (sampleMessage 2000 1), .set sampleKey (sampleMessage 2000 2),
      .set ⟨[0x6a], by simp⟩ (sampleMessage 2000 3)] sampleKey.bytes =
        some (sampleMessage 2000 2).encoding ∧
    (sampleMessage 2000 1).encoding ≠ (sampleMessage 2000 2).encoding := by
  let ops : List Op := [.set sampleKey (sampleMessage 2000 1), .set sampleKey (sampleMessage 2000 2),
    .set ⟨[0x6a], by simp⟩ (sampleMessage 2000 3)]
  have hpages : ((⟨2, 0, false, fun _ => []⟩ : Pages).execAll 2 ops).map
      (fun L => L.lookup sampleKey.bytes) = some (some (sampleMessage 2000 1).encoding) := by
    decide +kernel
  obtain ⟨L, hL, hl⟩ := Option.map_eq_some_iff.mp hpages
  obtain ⟨s, hrun, hrep⟩ := exists_run (erased_represents (Store.blank 2) (Nat.le_refl 2)) rfl .nil hL
  refine ⟨s, hrun, ?_, by decide +kernel, by decide +kernel⟩
  rw [lookupValue_eq hrep, hl]

end KeyValueStore
end Firefly
