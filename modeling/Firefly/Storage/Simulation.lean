import Mathlib.Data.List.Induction
import Firefly.Storage.Allocation
import Firefly.Storage.Representation

/-!
# Firefly.Storage.Simulation

The byte-level store simulates the pages: a call of `set`, `remove` or `erase` on a store that
represents pages returns what the page operation returns, and leaves a store that represents the
pages it leaves (`exec_simulates`). The only assertion that can fail is that of a call that
returns false.

The simulation also accounts for the commands sent to the flash (`Issued`): after each page erase
the flash holds the pages that a collection leaves (`Checkpoints`).
-/

namespace Firefly
namespace KeyValueStore

open Journal

/-- The commands `cs` are what happened to the flash between `s` and `s'`. -/
structure Issued (cs : List Nor.Command) (s s' : Store) : Prop where
  log : s'.flashLog = s.flashLog ++ cs
  flash : s'.flash = Nor.replay s.flash cs
  aligned : ∀ c ∈ cs, c.Aligned minumumWriteSize

namespace Issued

variable {cs ds : List Nor.Command} {s s' s'' : Store}

theorem refl (hl : s'.flashLog = s.flashLog) (hf : s'.flash = s.flash) : Issued [] s s' :=
  ⟨by rw [hl, List.append_nil], hf, by simp⟩

theorem trans (h : Issued cs s s') (h' : Issued ds s' s'') : Issued (cs ++ ds) s s'' where
  log := by rw [h'.log, h.log, List.append_assoc]
  flash := by rw [h'.flash, h.flash, Nor.replay_append]
  aligned := fun c hc => by
    rcases List.mem_append.mp hc with hc | hc
    · exact h.aligned c hc
    · exact h'.aligned c hc

theorem nvmErase (s : Store) (p : Nat) : Issued [.erase (p * pageSize) pageSize] s (s.nvmErase p) where
  log := rfl
  flash := rfl
  aligned := fun c hc => by
    rw [List.mem_singleton.mp hc]
    exact ⟨1024, rfl⟩

end Issued

/-- A record is written by programming alone. -/
theorem Store.Wrote.issued {s s' : Store} {r : Rec} (h : Store.Wrote s r s') :
    ∃ cs, Issued cs s s' ∧ ∀ c ∈ cs, c.isErase = false := by
  obtain ⟨pad, cs, state, offset, -, hseq, hal, rfl⟩ := h
  refine ⟨_, ⟨List.append_assoc _ _ _, ?_, ?_⟩, ?_⟩
  · rw [Nor.replay_append, hseq.replay]; rfl
  · intro c hc
    rcases List.mem_append.mp hc with hc | hc
    · exact hal c hc
    · rw [List.mem_singleton.mp hc]
      simp only [Nor.Command.Aligned, Metadata.length_toBytes, minumumWriteSize_eq]
      decide
  · intro c hc
    rcases List.mem_append.mp hc with hc | hc
    · exact hseq.isErase c hc
    · rw [List.mem_singleton.mp hc]; rfl

variable {k : Nat} {s s' : Store} {L L' : Pages}

/-! ## Collection -/

theorem lookup_isNone (h : Represents k s L) {a : Pointer} {key : List UInt8} (ha : PointsTo a key) :
    (s.lookup a key.length).isNone = (L.lookup key).isNone := by
  rw [← Option.not_isSome, ← Option.not_isSome, lookup_isSome h ha]

/-- The key of a record on a page, as `collectRecord` points to it. -/
theorem RecordAt.pointsTo {f : Nor.Image} {p i offset : Nat} {r : Rec} (h : RecordAt f p i offset r)
    (hkey : ∀ b ∈ r.key, b ≠ 0) : PointsTo (fun j => f (p * pageSize + offset + j)) r.key where
  get := fun j hj => by
    have := Nor.getElem?_read f (p * pageSize + offset) r.key.length j
    rw [h.key, if_pos hj, List.getElem?_eq_getElem hj] at this
    exact (Option.some.inj this).symm
  nonzero := hkey

theorem used_le_append (as rs : List Rec) : used rs ≤ used (as ++ rs) := by
  induction as with
  | nil => exact Nat.le_refl _
  | cons a as ih => rw [List.cons_append, used_cons]; omega

/-- One record of the collected page. The copies need no more room than the records they are
taken from. -/
theorem collectRecord_simulates (h : Represents k s L) {as ts : List Rec} {r : Rec}
    (hrs : L.page L.next = as ++ r :: ts) (hroom : used (L.page L.current) ≤ used ts) :
    Represents k (s.collectRecord L.next ts.length) (L.collectRecord r) ∧
      used ((L.collectRecord r).page L.current) ≤ used (r :: ts) ∧
      ∃ cs, Issued cs s (s.collectRecord L.next ts.length) ∧ ∀ c ∈ cs, c.isErase = false := by
  have hnext := h.holds L.next h.wellFormed.next_lt
  have hat := Holds.recordAt (hrs ▸ hnext.records)
  have hkey : ∀ b ∈ r.key, b ≠ 0 := hnext.keys r (by simp [hrs])
  have hpt := hat.pointsTo hkey
  have hstay : used (L.page L.current) ≤ used (r :: ts) := by rw [used_cons]; omega
  have hskip : ∃ cs, Issued cs s s ∧ ∀ c ∈ cs, c.isErase = false :=
    ⟨[], .refl rfl rfl, by simp⟩
  have hon : (s.lookupOnPage s.current.page (fun j => s.flash (L.next * pageSize + dataEnd ts + j))
      r.key.length).isSome = (onPage (L.page L.current) r.key).isSome := by
    rw [h.page, Store.lookupOnPage_eq (h.holds L.current h.current_lt) hpt, Store.valueAt_isSome]
  have hlive := lookup_isNone h hpt
  simp only [Store.collectRecord, Pages.collectRecord, Store.getMetadata_eq hnext hrs,
    Store.getPageAddress, metadataOf_removed]
  by_cases hr : r.removed = true
  · rw [if_pos hr, if_pos hr]
    exact ⟨h, hstay, hskip⟩
  · rw [if_neg hr, if_neg hr]
    simp only [metadataOf, hon, hlive]
    split
    · exact ⟨h, hstay, hskip⟩
    · split
      · exact ⟨h, hstay, hskip⟩
      · have hr' : (⟨r.key, r.value, false⟩ : Rec) = r := by
          cases r; simpa using hr
        have hw := Store.write_wrote s r.key r.value
        rw [hr'] at hw
        rw [hat.key, hat.value]
        refine ⟨represents_push h hw ?_ hkey, ?_, hw.issued⟩
        · have hsuffix := used_le_append as (r :: ts)
          have hfits := hnext.room
          rw [hrs] at hfits
          rw [used_cons] at hsuffix
          omega
        · rw [Pages.push_page_current, used_cons, used_cons]
          omega

theorem collectRecord_next (L : Pages) (r : Rec) : (L.collectRecord r).next = L.next := by
  unfold Pages.collectRecord; split <;> [rfl; (split <;> [rfl; (split <;> rfl)])]

theorem collectRecord_current (L : Pages) (r : Rec) : (L.collectRecord r).current = L.current := by
  unfold Pages.collectRecord; split <;> [rfl; (split <;> [rfl; (split <;> rfl)])]

theorem collectRecord_page_next (hw : L.WellFormed) (r : Rec) :
    (L.collectRecord r).page L.next = L.page L.next := by
  unfold Pages.collectRecord
  split
  · rfl
  · split
    · rfl
    · split
      · rfl
      · exact Pages.push_page_of_ne L r hw.next_ne

/-- The records `ts` at the bottom of the collected page, by induction from the oldest on. -/
theorem copyRecords_simulates (h : Represents k s L) (he : L.page L.current = []) {as ts : List Rec}
    (hrs : L.page L.next = as ++ ts) :
    let s' := (List.range ts.length).foldl (Store.collectRecord L.next) s
    let L' := ts.reverse.foldl Pages.collectRecord L
    Represents k s' L' ∧ used (L'.page L.current) ≤ used ts ∧ L'.current = L.current ∧
      L'.next = L.next ∧ L'.page L.next = L.page L.next ∧
      ∃ cs, Issued cs s s' ∧ ∀ c ∈ cs, c.isErase = false := by
  induction ts generalizing as with
  | nil => exact ⟨h, by rw [List.reverse_nil, List.foldl_nil, he], rfl, rfl, rfl, [], .refl rfl rfl, by simp⟩
  | cons r ts ih =>
    obtain ⟨h', hused, hcur, hnext, hpage, cs, hcs, hprog⟩ := 
      ih (show L.page L.next = (as ++ [r]) ++ ts by simp [hrs])
    simp only [List.length_cons, List.range_succ, List.foldl_append, List.reverse_cons,
      List.foldl_cons, List.foldl_nil]
    generalize (List.range ts.length).foldl (Store.collectRecord L.next) s = s' at *
    generalize ts.reverse.foldl Pages.collectRecord L = L' at *
    rw [← hcur] at hused
    have hrs' : L'.page L'.next = as ++ r :: ts := by rw [hnext, hpage, hrs]
    obtain ⟨h'', hused', cs', hcs', hprog'⟩ := collectRecord_simulates h' hrs' hused
    rw [hnext] at h'' hcs'
    rw [hcur] at hused'
    refine ⟨h'', hused', ?_, ?_, ?_, cs ++ cs', hcs.trans hcs', ?_⟩
    · rw [collectRecord_current, hcur]
    · rw [collectRecord_next, hnext]
    · rw [← hnext, collectRecord_page_next h'.wellFormed, hnext, hpage]
    · intro c hc
      rcases List.mem_append.mp hc with hc | hc
      · exact hprog c hc
      · exact hprog' c hc

/-- A collection programs the copies and then erases the collected page. -/
theorem garbageCollect_simulates (h : Represents k s L) (he : L.page L.current = [])
    (hne : L.page L.next ≠ []) :
    Represents k s.garbageCollect L.collect ∧
      ∃ cs, (∀ c ∈ cs, c.isErase = false) ∧
        Issued (cs ++ [.erase (L.next * pageSize) pageSize]) s s.garbageCollect := by
  have hempty := h.isPageEmpty h.wellFormed.next_lt
  have hne' : (L.page L.next).isEmpty = false := by simpa using hne
  obtain ⟨h', -, hcur, hnext, -, cs, hcs, hprog⟩ :=
    copyRecords_simulates h he (show L.page L.next = [] ++ L.page L.next from rfl)
  have hgc : s.garbageCollect =
      let s' := ((List.range (L.page L.next).length).foldl (Store.collectRecord L.next) s).nvmErase
        L.next
      { s' with garbageCollectionCount := s'.garbageCollectionCount + 1 } := by
    simp only [Store.garbageCollect, h.next, hempty, hne', Bool.not_false, Store.assert, if_true,
      Store.getMetadataCount_eq (h.holds L.next h.wellFormed.next_lt)]
  rw [hgc]
  have hclear := h'.toStored.clear (p := L.next) (by
    have := h'.wellFormed.next_lt
    rwa [hnext] at this)
  have hne_current : L.copyRecords.current ≠ L.next := by
    show (List.foldl _ _ _ : Pages).current ≠ _
    rw [hcur]
    exact h.wellFormed.next_ne.symm
  refine ⟨⟨hclear.congr rfl rfl rfl rfl rfl rfl, h'.isFull, h'.current_lt, h'.page, ?_, ?_⟩, cs, hprog,
    hcs.trans (Issued.trans (.nvmErase _ _) (.refl rfl rfl))⟩
  · rw [Pages.collect, Pages.clear_current, Pages.clear_page_of_ne _ hne_current]
    exact h'.dataByteCount
  · rw [Pages.collect, Pages.clear_current, Pages.clear_page_of_ne _ hne_current]
    exact h'.metadataCount

/-! ## Allocation -/

theorem currentFreeBytes_eq (h : Represents k s L) :
    s.currentFreeBytes = (pageSize - used (L.page L.current), s) := by
  have hroom := (h.holds L.current h.current_lt).room
  have hused : s.current.dataByteCount + s.current.metadataCount * metadataSize =
      used (L.page L.current) := by rw [h.dataByteCount, h.metadataCount]; rfl
  have hle : used (L.page L.current) ≤ pageSize := by omega
  have hfree : (pageSize + 2 ^ 32 - used (L.page L.current) % 2 ^ 32) % 2 ^ 32 =
      pageSize - used (L.page L.current) := by
    simp only [pageSize_eq] at hle ⊢
    omega
  simp only [Store.currentFreeBytes, hused, hfree, Store.assert, hle, decide_true, if_true]

/-- At each page erase among the commands, the flash holds what the collection with that number
leaves; `ts` are the pages the collections start from. -/
def Checkpoints (k : Nat) (s : Store) (cs : List Nor.Command) (ts : List Pages) : Prop :=
  ∀ pre a n post, cs = pre ++ .erase a n :: post →
    ∃ sm t, ts[Nor.erases pre]? = some t ∧ Represents k sm t.collect ∧
      sm.flash = Nor.replay s.flash (pre ++ [.erase a n])

theorem Checkpoints.of_programs {cs : List Nor.Command} (hcs : ∀ c ∈ cs, c.isErase = false)
    (ts : List Pages) : Checkpoints k s cs ts := by
  rintro pre a n post rfl
  exact absurd (hcs (.erase a n) (by simp)) (by simp [Nor.Command.isErase])

theorem Checkpoints.append {cs ds : List Nor.Command} {ts : List Pages} (h : Checkpoints k s cs ts)
    (hds : ∀ c ∈ ds, c.isErase = false) : Checkpoints k s (cs ++ ds) ts := by
  intro pre a n post he
  rcases List.append_eq_append_iff.mp he with ⟨qs, rfl, hq⟩ | ⟨qs, rfl, hq⟩
  · exact absurd (hds (.erase a n) (by simp [hq])) (by simp [Nor.Command.isErase])
  · cases qs with
    | nil => exact absurd (hds (.erase a n) (by simp [← show _ = ds from hq])) (by simp [Nor.Command.isErase])
    | cons q qs =>
      obtain ⟨rfl, -⟩ : .erase a n = q ∧ post = qs ++ ds := by simpa using hq
      exact h pre a n qs rfl

/-- A collection, and then what the rest of the call does. -/
theorem Checkpoints.collect {cs ds : List Nor.Command} {ts : List Pages} {a n : Nat}
    (hcs : ∀ c ∈ cs, c.isErase = false) (hissued : Issued (cs ++ [.erase a n]) s s')
    (h : Represents k s' L.collect) (hds : Checkpoints k s' ds ts) :
    Checkpoints k s (cs ++ [.erase a n] ++ ds) (L :: ts) := by
  intro pre b m post he
  rw [List.append_assoc, List.singleton_append] at he
  rcases Nor.split_erase hcs he with ⟨rfl, heq, rfl⟩ | ⟨pre', rfl, hrest⟩
  · refine ⟨s', L, ?_, h, ?_⟩
    · rw [Nor.erases_of_programs hcs]; rfl
    · rw [← heq, hissued.flash]
  · obtain ⟨sm, t, ht, hsm, hflash⟩ := hds pre' b m post hrest
    refine ⟨sm, t, ?_, hsm, ?_⟩
    · rw [Nor.erases_append, Nor.erases_of_programs hcs, Nor.erases_cons_erase, Nat.zero_add,
        List.getElem?_cons_succ, ht]
    · rw [hflash, hissued.flash, ← Nor.replay_append]
      simp

/-- The byte-level call and the page-level call agree: same result, and the pages are represented
again. `asserts` gives the assertions that have failed then, by the result. -/
structure Simulates (k : Nat) (asserts : Bool → Nat) (s : Store) (ts : List Pages)
    (x : Bool × Store) (y : Bool × Pages) : Prop where
  result : x.1 = y.1
  represents : Represents (asserts x.1) x.2 y.2
  next : y.2.page y.2.next = []
  commands : ∃ cs, Issued cs s x.2 ∧ Checkpoints k s cs ts

theorem Checkpoints.congr {cs : List Nor.Command} {ts : List Pages} (h : Checkpoints k s' cs ts)
    (hf : s'.flash = s.flash) : Checkpoints k s cs ts := by
  intro pre a n post he
  obtain ⟨sm, t, ht, hsm, hflash⟩ := h pre a n post he
  exact ⟨sm, t, ht, hsm, by rw [hflash, hf]⟩

theorem rel_mono {A B : Type} {R R' : A → B → Prop} (hR : ∀ x y, R x y → R' x y) {a : Option A}
    {b : Option B} (h : Option.Rel R a b) : Option.Rel R' a b := by
  cases h with
  | some h => exact .some (hR _ _ h)
  | none => exact .none

theorem allocateLoop_simulates (size fuel c : Nat) (h : Represents k s L) (he : L.page L.next = []) :
    Option.Rel (fun x y => Simulates k (fun _ => k) s (Pages.collections size fuel c L) x y ∧
        (x.1 = true → x.2.dataWriteOffset = x.2.current.dataByteCount))
      (s.allocateLoop size fuel c) (L.allocateLoop size fuel c) := by
  induction fuel generalizing s L c with
  | zero => exact .none
  | succ fuel ih =>
    simp only [Store.allocateLoop, Pages.allocateLoop, Pages.collections, currentFreeBytes_eq h]
    by_cases hfree : size ≤ pageSize - used (L.page L.current)
    · simp only [if_pos hfree]
      refine .some ⟨⟨rfl, ⟨h.toStored.congr rfl rfl rfl rfl rfl rfl, h.isFull, h.current_lt, h.page,
        h.dataByteCount, h.metadataCount⟩, he, [], .refl rfl rfl, .of_programs (by simp) _⟩,
        fun _ => rfl⟩
    · simp only [if_neg hfree]
      have ha := represents_advance h he
      have hflash : s.advanceCurrentPage.flash = s.flash := by rw [advanceCurrentPage_eq h he]
      have hlog : s.advanceCurrentPage.flashLog = s.flashLog := by rw [advanceCurrentPage_eq h he]
      rw [ha.next, ha.isPageEmpty ha.wellFormed.next_lt]
      generalize s.advanceCurrentPage = sa at *
      by_cases hnext : L.advance.page L.advance.next = []
      · simp only [hnext, List.isEmpty_nil, if_true]
        refine rel_mono ?_ (ih c ha hnext)
        rintro x y ⟨⟨hres, hrep, hn, cs, hcs, hcheck⟩, hoff⟩
        exact ⟨⟨hres, hrep, hn, cs, (Issued.refl hlog hflash).trans hcs, hcheck.congr hflash⟩, hoff⟩
      · have hne : (L.advance.page L.advance.next).isEmpty = false := by simpa using hnext
        obtain ⟨hgc, cs, hprog, hcs⟩ := garbageCollect_simulates ha he hnext
        simp only [hne, if_neg hnext, Bool.false_eq_true, if_false]
        generalize sa.garbageCollect = sg at *
        have hnext' : L.advance.collect.page L.advance.collect.next = [] := by
          rw [Pages.collect_next ha.wellFormed he]
          exact Pages.collect_page_next _
        have hcount_store : sg.pageCount = L.pageCount := hgc.pageCount.trans (Pages.collect_pageCount _)
        have hcount_pages : L.advance.collect.pageCount = L.pageCount := Pages.collect_pageCount _
        by_cases hcount : c + 1 > L.pageCount
        · rw [if_pos (show c + 1 > sg.pageCount by rw [hcount_store]; exact hcount),
            if_pos (show c + 1 > L.advance.collect.pageCount by rw [hcount_pages]; exact hcount),
            if_pos hcount]
          refine .some ⟨⟨rfl, ⟨hgc.toStored.congr rfl rfl rfl rfl rfl rfl, rfl, hgc.current_lt,
            hgc.page, hgc.dataByteCount, hgc.metadataCount⟩, hnext', _,
            ((Issued.refl hlog hflash).trans hcs).trans (.refl rfl rfl), ?_⟩, by simp⟩
          have hrest : Checkpoints k sg [] [] := .of_programs (by simp) []
          simpa using (hrest.collect hprog hcs hgc).congr hflash
        · rw [if_neg (show ¬ c + 1 > sg.pageCount by rw [hcount_store]; exact hcount),
            if_neg (show ¬ c + 1 > L.advance.collect.pageCount by rw [hcount_pages]; exact hcount),
            if_neg hcount]
          refine rel_mono ?_ (ih (c + 1) hgc hnext')
          rintro x y ⟨⟨hres, hrep, hn, ds, hds, hcheck⟩, hoff⟩
          exact ⟨⟨hres, hrep, hn, _, (Issued.refl hlog hflash).trans (hcs.trans hds),
            (Checkpoints.collect hprog hcs hgc hcheck).congr hflash⟩, hoff⟩

/-- The collections of both levels start from matching states. -/
theorem collections_simulates (size fuel c : Nat) (h : Represents k s L) (he : L.page L.next = []) :
    List.Forall₂ (Represents k) (s.collections size fuel c) (L.collections size fuel c) := by
  induction fuel generalizing s L c with
  | zero => exact .nil
  | succ fuel ih =>
    simp only [Store.collections, Pages.collections, currentFreeBytes_eq h]
    by_cases hfree : size ≤ pageSize - used (L.page L.current)
    · simp only [if_pos hfree]
      exact .nil
    · simp only [if_neg hfree]
      have ha := represents_advance h he
      rw [ha.next, ha.isPageEmpty ha.wellFormed.next_lt]
      generalize s.advanceCurrentPage = sa at *
      by_cases hnext : L.advance.page L.advance.next = []
      · simp only [hnext, List.isEmpty_nil, if_true]
        exact ih c ha hnext
      · have hne : (L.advance.page L.advance.next).isEmpty = false := by simpa using hnext
        obtain ⟨hgc, -⟩ := garbageCollect_simulates ha he hnext
        have hcount : sa.garbageCollect.pageCount = L.pageCount :=
          hgc.pageCount.trans (Pages.collect_pageCount _)
        simp only [hne, if_neg hnext, Bool.false_eq_true, if_false, hcount]
        split
        · exact .cons ha .nil
        · refine .cons ha (ih (c + 1) hgc ?_)
          rw [Pages.collect_next ha.wellFormed he]
          exact Pages.collect_page_next _

/-! ## Operations -/

namespace Pages

/-- The pages from which the collections of a call start. -/
def opCollections (fuel : Nat) (L : Pages) : Op → List Pages
  | .set key object =>
    if (L.lookup key.bytes).getD [] = object.encoding ∨ L.isFull then []
    else L.collections (Store.requiredSize key.strlen object.encoding.length) fuel 0
  | .remove key =>
    if L.lookup key.bytes = none ∨ L.isFull then []
    else L.collections (Store.requiredSize key.strlen 0) fuel 0
  | .erase => []

end Pages

namespace Store

def opCollections (fuel : Nat) (s : Store) : Op → List Store
  | .set key object =>
    if s.isSetTo key object ∨ s.isFull then []
    else s.collections (requiredSize key.strlen object.encoding.length) fuel 0
  | .remove key =>
    if !s.isSet key ∨ s.isFull then []
    else s.collections (requiredSize key.strlen 0) fuel 0
  | .erase => []

end Store

/-- What a call with this result adds to the failed assertions: `allocateKeyValue` asserts it. -/
def assertsAfter (k : Nat) (result : Bool) : Nat := if result then k else k + 1

theorem Represents.assertFailed (h : Represents k s L) :
    Represents (k + 1) { s with assertCount := s.assertCount + 1 } L :=
  ⟨⟨h.pageCount, h.two_le, h.holds, h.fresh, h.writeOnce, congrArg (· + 1) h.asserts⟩, h.isFull,
    h.current_lt, h.page, h.dataByteCount, h.metadataCount⟩

theorem allocateKeyValue_simulates (fuel keySize valueSize : Nat) (h : Represents k s L)
    (he : L.page L.next = []) :
    Option.Rel (fun x y => Simulates k (assertsAfter k) s
        (if L.isFull then [] else L.collections (Store.requiredSize keySize valueSize) fuel 0) x y ∧
        (x.1 = true → x.2.dataWriteOffset = x.2.current.dataByteCount))
      (s.allocateKeyValue fuel keySize valueSize)
      (L.allocate fuel (Store.requiredSize keySize valueSize)) := by
  simp only [Store.allocateKeyValue, Store.allocate, Pages.allocate, h.isFull]
  by_cases hfull : L.isFull = true
  · simp only [if_pos hfull]
    exact .some ⟨⟨rfl, h.assertFailed, he, [], .refl rfl rfl, .of_programs (by simp) _⟩, by simp⟩
  · simp only [if_neg hfull]
    have hrel := allocateLoop_simulates (Store.requiredSize keySize valueSize) fuel 0 h he
    revert hrel
    generalize s.allocateLoop (Store.requiredSize keySize valueSize) fuel 0 = a
    generalize L.allocateLoop (Store.requiredSize keySize valueSize) fuel 0 = b
    intro hrel
    cases hrel with
    | none => exact .none
    | @some x y hsim =>
      obtain ⟨⟨hres, hrep, hn, cs, hcs, hcheck⟩, hoff⟩ := hsim
      obtain ⟨result, s'⟩ := x
      cases result with
      | true => exact .some ⟨⟨hres, hrep, hn, cs, hcs, hcheck⟩, hoff⟩
      | false =>
        exact .some ⟨⟨hres, hrep.assertFailed, hn, cs, ⟨hcs.log, hcs.flash, hcs.aligned⟩, hcheck⟩,
          by simp⟩

theorem Pages.allocate_room {fuel size : Nat} (h : L.allocate fuel size = some (true, L')) :
    size ≤ pageSize - used (L'.page L'.current) := by
  unfold Pages.allocate at h
  split at h
  · simp at h
  · rcases Pages.allocateLoop_induct (I := fun _ _ => True) (P := fun _ => True)
      (fun _ _ _ _ _ => trivial) (fun _ _ _ _ _ _ => trivial) h (fun _ _ => trivial) trivial with
      ⟨-, hroom, -⟩ | ⟨hfalse, -⟩
    · exact hroom
    · cases hfalse

theorem add_simulates (fuel : Nat) (key : CString) (object : Option Message) (h : Represents k s L)
    (he : L.page L.next = []) :
    Option.Rel (Simulates k (assertsAfter k) s (if L.isFull then [] else
        L.collections (Store.requiredSize key.strlen (object.elim [] Message.encoding).length) fuel 0))
      (s.add fuel key object) (L.add fuel key.bytes (object.map Message.encoding)) := by
  have hvalue : (object.map Message.encoding).getD [] = object.elim [] Message.encoding := by
    cases object <;> rfl
  have hrel := allocateKeyValue_simulates fuel key.strlen (object.elim [] Message.encoding).length h he
  have hroom : ∀ L', L.allocate fuel (Store.requiredSize key.strlen
      (object.elim [] Message.encoding).length) = some (true, L') →
      Store.requiredSize key.strlen (object.elim [] Message.encoding).length ≤
        pageSize - used (L'.page L'.current) := fun L' => Pages.allocate_room
  simp only [Store.add, Pages.add, hvalue, CString.strlen] at hrel hroom ⊢
  revert hrel hroom
  generalize s.allocateKeyValue fuel key.bytes.length (object.elim [] Message.encoding).length = a
  generalize L.allocate fuel (Store.requiredSize key.bytes.length
    (object.elim [] Message.encoding).length) = b
  intro hrel hroom
  cases hrel with
  | none => exact .none
  | @some x y hsim =>
    obtain ⟨⟨hres, hrep, hn, cs, hcs, hcheck⟩, hoff⟩ := hsim
    obtain ⟨result, s'⟩ := x
    obtain ⟨result', L'⟩ := y
    obtain rfl : result = result' := hres
    cases result with
    | false => exact .some ⟨rfl, hrep, hn, cs, hcs, hcheck⟩
    | true =>
      have hw := Store.addRecord_wrote s' (hoff rfl) key object
      obtain ⟨ds, hds, hprog⟩ := hw.issued
      have hsize : dataSize (Pages.newRecord key.bytes (object.map Message.encoding)) =
          Store.getWriteSize (key.bytes.length + (object.elim [] Message.encoding).length) := by
        simp only [dataSize, Pages.newRecord, hvalue]
      refine .some ⟨rfl, represents_push hrep hw ?_ key.nonzero, ?_, cs ++ ds, hcs.trans hds,
        hcheck.append hprog⟩
      · have := hroom L' rfl
        simp only [Store.requiredSize, pageSize_eq, metadataSize_eq] at this
        simp only [hsize, pageSize_eq, metadataSize_eq]
        omega
      · rw [Pages.push_next, Pages.push_page_of_ne _ _ hrep.wellFormed.next_ne]
        exact hn

theorem equalStreamPut_foldl (value : Pointer) (size : Nat) (bs : List UInt8) :
    ∀ count isEqual, count + bs.length ≤ size →
      bs.foldl Store.equalStreamPut ⟨value, size, count, isEqual⟩ =
        ⟨value, size, count + bs.length,
          isEqual && decide (bs = (List.range' count bs.length).map value)⟩ := by
  induction bs with
  | nil => intro count isEqual _; simp
  | cons b bs ih =>
    intro count isEqual hle
    rw [List.length_cons] at hle
    rw [List.foldl_cons, Store.equalStreamPut, if_pos (show count < size by omega),
      ih (count + 1) _ (by omega), List.length_cons, List.range'_succ, List.map_cons]
    by_cases hb : b = value count
    · simp [hb, Nat.add_assoc, Nat.add_comm 1]
    · simp [hb, Nat.add_assoc, Nat.add_comm 1]

/-- `isSetTo` compares the bytes that `lookup` finds, none if it fails, with the encoding, whatever the
chunks are that it comes in. -/
theorem isSetTo_eq_lookupValue (s : Store) (key : CString) (object : Message) :
    s.isSetTo key object = decide ((s.lookupValue key).getD [] = object.encoding) := by
  have hread : Nor.read s.flash ((s.lookup key.pointer key.strlen).getD (0, 0)).1
      ((s.lookup key.pointer key.strlen).getD (0, 0)).2 = (s.lookupValue key).getD [] := by
    rw [Store.lookupValue]
    cases s.lookup key.pointer key.strlen <;> rfl
  have hflat : ∀ (cs : List (List UInt8)) (state : Store.EqualStreamState),
      cs.foldl Store.equalStreamCallback state = cs.flatten.foldl Store.equalStreamPut state := by
    intro cs
    induction cs with
    | nil => intro _; rfl
    | cons c cs ih =>
      intro state
      rw [List.foldl_cons, List.flatten_cons, List.foldl_append, ih, Store.equalStreamCallback]
  rw [← hread]
  simp only [Store.isSetTo, hflat]
  generalize ((s.lookup key.pointer key.strlen).getD (0, 0)).1 = a
  generalize ((s.lookup key.pointer key.strlen).getD (0, 0)).2 = n
  change ((object.encoding.foldl Store.equalStreamPut _).isEqual && object.encoding.length == n) = _
  by_cases hlen : object.encoding.length = n
  · subst hlen
    rw [equalStreamPut_foldl _ _ _ 0 true (by omega)]
    simp [Nor.read, List.range_eq_range', eq_comm]
  · have hne : Nor.read s.flash a n ≠ object.encoding := fun heq =>
      hlen (by rw [← heq, Nor.length_read])
    simp [hlen, hne]

theorem isSetTo_eq (h : Represents k s L) (key : CString) (object : Message) :
    s.isSetTo key object = decide ((L.lookup key.bytes).getD [] = object.encoding) := by
  rw [isSetTo_eq_lookupValue, lookupValue_eq h]

theorem set_simulates (fuel : Nat) (key : CString) (object : Message) (h : Represents k s L)
    (he : L.page L.next = []) :
    Option.Rel (Simulates k (assertsAfter k) s (L.opCollections fuel (.set key object)))
      (s.set fuel key object) (L.set fuel key.bytes object.encoding) := by
  simp only [Store.set, Pages.set, isSetTo_eq h, decide_eq_true_eq, Pages.opCollections]
  by_cases heq : (L.lookup key.bytes).getD [] = object.encoding
  · rw [if_pos heq, if_pos heq]
    exact .some ⟨rfl, h, he, [], .refl rfl rfl, .of_programs (by simp) _⟩
  · rw [if_neg heq, if_neg heq]
    simpa [heq] using add_simulates fuel key (some object) h he

theorem remove_simulates (fuel : Nat) (key : CString) (h : Represents k s L)
    (he : L.page L.next = []) :
    Option.Rel (Simulates k (assertsAfter k) s (L.opCollections fuel (.remove key)))
      (s.remove fuel key) (L.remove fuel key.bytes) := by
  have hset : s.isSet key = (L.lookup key.bytes).isSome := lookup_isSome h key.pointsTo
  simp only [Store.remove, Pages.remove, hset, Option.not_isSome, Pages.opCollections]
  by_cases hnone : L.lookup key.bytes = none
  · simp only [hnone, Option.isNone_none, if_true, true_or]
    exact .some ⟨rfl, h, he, [], .refl rfl rfl, .of_programs (by simp) _⟩
  · have hsome : (L.lookup key.bytes).isNone = false := by
      rwa [Option.isNone_eq_false_iff, Option.isSome_iff_ne_none]
    simp only [hsome, hnone, Bool.false_eq_true, if_false, false_or]
    exact add_simulates fuel key none h he

/-! ## Erasing everything -/

theorem foldl_nvmErase (s : Store) (ps : List Nat) :
    let s' := ps.foldl Store.nvmErase s
    s'.pageCount = s.pageCount ∧ s'.assertCount = s.assertCount ∧
      (Nor.WriteOnce s.flashLog → Nor.WriteOnce s'.flashLog) ∧
      ∀ p ∈ ps, ∀ x < pageSize, s'.flash (p * pageSize + x) = 0xff ∧
        p * pageSize + x ∉ Nor.dirty s'.flashLog := by
  induction ps using List.reverseRecOn with
  | nil => exact ⟨rfl, rfl, id, by simp⟩
  | append_singleton ps p ih =>
    obtain ⟨hn, ha, hw, hps⟩ := ih
    rw [List.foldl_append, List.foldl_cons, List.foldl_nil]
    refine ⟨hn, ha, fun h => Nor.writeOnce_snoc_erase (hw h), ?_⟩
    intro q hq x hx
    simp only [Store.nvmErase, Nor.mem_dirty_erase]
    by_cases hin : p * pageSize ≤ q * pageSize + x ∧ q * pageSize + x < p * pageSize + pageSize
    · exact ⟨Nor.erase_inside hin.1 hin.2, fun h => h.2 hin⟩
    · have hqp : q ≠ p := by rintro rfl; exact hin ⟨by omega, by omega⟩
      have hq' : q ∈ ps := by
        rcases List.mem_append.mp hq with hq | hq
        · exact hq
        · exact absurd (List.mem_singleton.mp hq) hqp
      rw [Nor.erase_outside (by omega)]
      exact ⟨(hps q hq' x hx).1, fun h => (hps q hq' x hx).2 h.1⟩

/-- Erasing makes an empty store out of any. -/
theorem erase_represents (hn : 2 ≤ s.pageCount) (hw : Nor.WriteOnce s.flashLog) :
    Represents s.assertCount s.erase ⟨s.pageCount, 0, false, fun _ => []⟩ := by
  obtain ⟨hcount, ha, hw', hps⟩ := foldl_nvmErase s (List.range s.pageCount)
  have hstored : Stored s.assertCount ((List.range s.pageCount).foldl Store.nvmErase s)
      ⟨s.pageCount, 0, false, fun _ => []⟩ := by
    refine ⟨hcount, hn, ?_, ?_, hw' hw, ha⟩
    · exact fun p hp => pageHolds_nil fun x hx => (hps p (List.mem_range.mpr hp) x hx).1
    · intro p hp x _ hx
      rw [List.length_nil, Nat.zero_mul, Nat.add_zero] at hx
      exact (hps p (List.mem_range.mpr hp) x hx).2
  refine represents_updateCurrent hstored ?_ (show 0 < s.pageCount by omega)
  have hnone : (List.range s.pageCount).find? (fun _ => false) = none := by simp
  simp [Pages.currentPage, hnone]

/-- The simulation. -/
theorem exec_simulates (fuel : Nat) (op : Op) (h : Represents k s L) (he : L.page L.next = []) :
    Option.Rel (fun x y => x.1 = y.1 ∧ Represents (assertsAfter k x.1) x.2 y.2 ∧
      y.2.page y.2.next = []) (op.exec fuel s) (L.exec fuel op) := by
  cases op with
  | set key object =>
    exact rel_mono (fun _ _ hsim => ⟨hsim.result, hsim.represents, hsim.next⟩)
      (set_simulates fuel key object h he)
  | remove key =>
    exact rel_mono (fun _ _ hsim => ⟨hsim.result, hsim.represents, hsim.next⟩)
      (remove_simulates fuel key h he)
  | erase =>
    have hr := erase_represents (h.pageCount ▸ h.two_le) h.writeOnce
    rw [h.asserts, h.pageCount] at hr
    exact .some ⟨rfl, hr, rfl⟩

/-- What the pages do, a store that represents them does. -/
theorem returns_of_exec {fuel : Nat} {op : Op} {result : Bool} (h : Represents k s L)
    (he : L.page L.next = []) (hexec : L.exec fuel op = some (result, L')) :
    ∃ s', op.Returns s result s' ∧ Represents (assertsAfter k result) s' L' ∧
      L'.page L'.next = [] := by
  have hrel := exec_simulates fuel op h he
  rw [hexec] at hrel
  generalize ha : op.exec fuel s = a at hrel
  cases hrel with
  | @some x _ hsim =>
    obtain ⟨result', s'⟩ := x
    obtain ⟨rfl, hrep, hn⟩ := hsim
    exact ⟨s', ⟨fuel, ha⟩, hrep, hn⟩

theorem opCollections_simulates (fuel : Nat) (op : Op) (h : Represents k s L)
    (he : L.page L.next = []) :
    List.Forall₂ (Represents k) (s.opCollections fuel op) (L.opCollections fuel op) := by
  cases op with
  | set key object =>
    simp only [Store.opCollections, Pages.opCollections, isSetTo_eq h, decide_eq_true_eq, h.isFull]
    split
    · exact .nil
    · exact collections_simulates _ fuel 0 h he
  | remove key =>
    have hset : s.isSet key = (L.lookup key.bytes).isSome := lookup_isSome h key.pointsTo
    simp only [Store.opCollections, Pages.opCollections, hset, Option.not_isSome,
      Option.isNone_iff_eq_none, h.isFull]
    split
    · exact .nil
    · exact collections_simulates _ fuel 0 h he
  | erase => exact .nil

end KeyValueStore
end Firefly
