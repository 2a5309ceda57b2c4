import Firefly.Storage.FiniteMap

/-!
# Firefly.Storage.Newest

`fd_key_value_store_lookup` over any content of the flash whose pages in use form one block that
ends at the current page. The records are those that `fd_key_value_store_get_metadata_count` counts,
in page order from the oldest page in use on. The search gives what the newest record of the key
says, except that it goes past a tombstone to the pages before it (`lookup_newest_iff`).
-/

namespace Firefly
namespace KeyValueStore

open Journal

namespace Store

variable (s : Store)

/-- The page `j` steps before the current one. -/
def pageBack (j : Nat) : Nat := Ring.back s.pageCount s.current.page j

/-- The `m` pages in use are the current one and those before it. -/
structure Contiguous (m : Nat) : Prop where
  current_lt : s.current.page < s.pageCount
  le : m ≤ s.pageCount
  occupied : ∀ j < s.pageCount, (s.getMetadata (s.pageBack j) 0).flags ≠ flagsErased ↔ j < m

/-- The records of the `m` pages in use, from the oldest on: how many steps the page is before the
current one, and the index on the page. -/
def records (m : Nat) : List (Nat × Nat) :=
  (List.range m).reverse.flatMap fun j =>
    (List.range (s.getMetadataCount (s.pageBack j))).map fun i => (j, i)

def newest (m : Nat) (key : CString) : Option (Nat × Nat) :=
  (s.records m).reverse.find? fun (j, i) => s.recordKey (s.pageBack j) i = key.bytes

/-- Where the value of a record is, and its size. -/
def recordSlice (page i : Nat) : Nat × Nat :=
  let metadata := s.getMetadata page i
  (getPageAddress page + metadata.value.offset, metadata.value.size)

/-- What the newest record of the key says. -/
def newestValue (m : Nat) (key : CString) : Option (Nat × Nat) :=
  match s.newest m key with
  | none => none
  | some (j, i) =>
    if (s.getMetadata (s.pageBack j) i).flags &&& flagsRemoved ≠ 0 then none
    else some (s.recordSlice (s.pageBack j) i)

/-! ## The pages as records -/

def record (page i : Nat) : Record (List UInt8) (Nat × Nat) where
  key := s.recordKey page i
  value := s.recordSlice page i
  removed := (s.getMetadata page i).flags &&& flagsRemoved ≠ 0

/-- The records of a page, newest first. -/
def pageRecords (page : Nat) : List (Record (List UInt8) (Nat × Nat)) :=
  (List.range (s.getMetadataCount page)).reverse.map (s.record page)

variable {s}

theorem scan_eq (page : Nat) (key : CString) (n : Nat) :
    s.scan page key.pointer key.strlen n =
      onPage ((List.range n).reverse.map (s.record page)) key.bytes := by
  induction n with
  | zero => rfl
  | succ n ih =>
    have hread : Nor.read s.flash (getPageAddress page + (s.getMetadata page n).key.offset)
        (s.recordKey page n).length = s.recordKey page n := by
      rw [recordKey, Nor.length_read]
    have hmatch := keyMatch_iff key.pointsTo hread
    have hlength : (s.recordKey page n).length = (s.getMetadata page n).key.size := by
      rw [recordKey, Nor.length_read]
    rw [hlength, ← CString.strlen] at hmatch
    rw [List.range_succ, List.reverse_append, List.reverse_singleton, List.singleton_append,
      List.map_cons, onPage_cons, ← ih]
    by_cases hkey : s.recordKey page n = key.bytes
    · rw [if_pos (show (s.record page n).key = key.bytes from hkey), scan, if_pos (hmatch.mpr hkey)]
      by_cases hremoved : (s.getMetadata page n).flags &&& flagsRemoved ≠ 0
      · simp [hremoved, Record.bound, record]
      · simp [hremoved, Record.bound, record, recordSlice]
    · rw [if_neg (show ¬ (s.record page n).key = key.bytes from hkey)]
      exact if_neg (mt hmatch.mp hkey)

theorem lookupOnPage_eq_onPage (page : Nat) (key : CString) :
    s.lookupOnPage page key.pointer key.strlen = onPage (s.pageRecords page) key.bytes :=
  scan_eq page key (s.getMetadataCount page)

/-- The search from the page `j` steps back, with `fuel + 1` pages to go. -/
theorem lookupFrom_eq_lookup (key : CString) {fuel j : Nat}
    (hj : j + (fuel + 1) = s.pageCount) :
    s.lookupFrom key.pointer key.strlen (fuel + 1) (s.pageBack j) =
      Journal.lookup ((List.range' j (fuel + 1)).map fun j => s.pageRecords (s.pageBack j)) key.bytes := by
  induction fuel generalizing j with
  | zero =>
    rw [lookupFrom, lookupOnPage_eq_onPage, List.range'_one, List.map_singleton, Journal.lookup_cons,
      Journal.lookup_nil, Option.or_none]
    cases onPage (s.pageRecords (s.pageBack j)) key.bytes with
    | some data => rfl
    | none => exact ite_self none
  | succ fuel ih =>
    have hnext : (if s.pageBack j > 0 then s.pageBack j - 1 else s.pageCount - 1) = s.pageBack (j + 1) :=
      (Ring.back_succ (by omega)).symm
    have hne : s.pageBack (j + 1) ≠ s.current.page := Ring.back_succ_ne (by omega)
    have hrest := ih (j := j + 1) (by omega)
    rw [lookupFrom, lookupOnPage_eq_onPage]
    simp only [hnext, if_pos hne, hrest]
    rw [List.range'_succ (s := j), List.map_cons, Journal.lookup_cons]
    cases onPage (s.pageRecords (s.pageBack j)) key.bytes <;> rfl

theorem pageRecords_of_erased {page : Nat} (h : (s.getMetadata page 0).flags = flagsErased) :
    s.pageRecords page = [] := by
  have hcount : s.getMetadataCount page = 0 := by
    have hfind : (List.range (pageSize / metadataSize)).find?
        (fun i => (s.getMetadata page i).flags == flagsErased) = some 0 := by
      rw [List.find?_range_eq_some]
      refine ⟨by simp [h], by decide, ?_⟩
      intro i hi
      cases hi
    rw [getMetadataCount, hfind, Option.getD_some]
  rw [pageRecords, hcount]
  rfl

/-- The pages in use are all that the search finds something on. -/
theorem Contiguous.lookup_eq {m : Nat} (h : s.Contiguous m) (key : CString) :
    s.lookup key.pointer key.strlen =
      Journal.lookup ((List.range m).map fun j => s.pageRecords (s.pageBack j)) key.bytes := by
  have hlt := h.current_lt
  have hle := h.le
  obtain ⟨n, hn⟩ : ∃ n, s.pageCount = n + 1 := ⟨s.pageCount - 1, by omega⟩
  obtain ⟨d, hd⟩ := Nat.exists_eq_add_of_le hle
  have hfrom : s.lookupFrom key.pointer key.strlen (n + 1) (s.pageBack 0) =
      Journal.lookup ((List.range' 0 (n + 1)).map fun j => s.pageRecords (s.pageBack j)) key.bytes :=
    lookupFrom_eq_lookup key (by omega)
  have hstart : s.pageBack 0 = s.current.page := Ring.back_zero _ _
  have hunused : Journal.lookup ((List.range' m d).map fun j => s.pageRecords (s.pageBack j))
      key.bytes = none := by
    rw [lookup_eq_none]
    intro rs hrs
    obtain ⟨j, hj, rfl⟩ := List.mem_map.mp hrs
    obtain ⟨hmj, hjd⟩ : m ≤ j ∧ j < m + d := by simpa [List.mem_range'_1] using hj
    have herased := not_not.mp (mt (h.occupied j (by omega)).mp (by omega))
    rw [pageRecords_of_erased herased, onPage_nil]
  rw [hstart, ← hn, hd, ← List.range'_append_1, List.map_append, lookup_append, Nat.zero_add, hunused,
    Option.or_none, ← List.range_eq_range'] at hfrom
  rw [Store.lookup, ← hfrom, hd]

/-! ## The newest record -/

/-- The newest page with a record of the key has the newest one. -/
theorem newest_eq (m : Nat) (key : CString) : s.newest m key = (List.range m).findSome? fun j =>
    ((List.range (s.getMetadataCount (s.pageBack j))).reverse.find? fun i =>
      s.recordKey (s.pageBack j) i = key.bytes).map fun i => (j, i) := by
  rw [newest, records, List.reverse_flatMap, List.reverse_reverse, List.find?_flatMap]
  congr 1
  funext j
  rw [Function.comp_apply, ← List.map_reverse, List.find?_map]
  rfl

theorem find?_pageRecords (page : Nat) (key : CString) :
    (s.pageRecords page).find? (fun r => r.key = key.bytes) =
      ((List.range (s.getMetadataCount page)).reverse.find? fun i =>
        s.recordKey page i = key.bytes).map (s.record page) := by
  rw [pageRecords, List.find?_map]
  rfl

theorem onPage_of_newest_none {page : Nat} {key : CString}
    (h : (List.range (s.getMetadataCount page)).reverse.find?
      (fun i => s.recordKey page i = key.bytes) = none) :
    onPage (s.pageRecords page) key.bytes = none := by
  rw [onPage, find?_pageRecords, h, Option.map_none, Option.bind_none]

/-- The slots behind one of them are those with a higher number. -/
theorem mem_range_after {m j x : Nat} {before after : List Nat}
    (h : List.range m = before ++ j :: after) : x ∈ after ↔ j < x ∧ x < m := by
  have hsorted := List.pairwise_lt_range (n := m)
  rw [h, List.pairwise_append, List.pairwise_cons] at hsorted
  obtain ⟨-, ⟨hafter, -⟩, hbefore⟩ := hsorted
  have hmem : x ∈ List.range m ↔ x ∈ before ∨ x = j ∨ x ∈ after := by
    rw [h, List.mem_append, List.mem_cons]
  rw [List.mem_range] at hmem
  constructor
  · intro hx
    exact ⟨hafter x hx, hmem.mpr (Or.inr (Or.inr hx))⟩
  · rintro ⟨hj, hm⟩
    rcases hmem.mp hm with hx | rfl | hx
    · exact absurd (hbefore x hx j List.mem_cons_self) (Nat.lt_asymm hj)
    · exact absurd hj (Nat.lt_irrefl x)
    · exact hx

/-- The search gives what the newest record of a key says exactly when that is not a tombstone with
a page before it that still binds the key. -/
theorem lookup_newest_iff (m : Nat) (h : s.Contiguous m) (key : CString) :
    s.lookup key.pointer key.strlen = s.newestValue m key ↔
      ∀ j i, s.newest m key = some (j, i) → s.recordRemoved (s.pageBack j) i →
        ∀ older, j < older → older < m →
          s.lookupOnPage (s.pageBack older) key.pointer key.strlen = none := by
  rw [h.lookup_eq key, newestValue]
  cases hnewest : s.newest m key with
  | none =>
    rw [newest_eq, List.findSome?_eq_none_iff] at hnewest
    have hnone : Journal.lookup ((List.range m).map fun j => s.pageRecords (s.pageBack j)) key.bytes =
        none := by
      rw [lookup_eq_none]
      intro rs hrs
      obtain ⟨j, hj, rfl⟩ := List.mem_map.mp hrs
      exact onPage_of_newest_none (Option.map_eq_none_iff.mp (hnewest j hj))
    simp [hnone]
  | some found =>
    obtain ⟨j, i⟩ := found
    rw [newest_eq, List.findSome?_eq_some_iff] at hnewest
    obtain ⟨before, j', after, hrange, hfound, hbefore⟩ := hnewest
    obtain ⟨i', hfind, hpair⟩ := Option.map_eq_some_iff.mp hfound
    obtain ⟨rfl, rfl⟩ := Prod.mk.inj hpair
    have hps : ∀ ts ∈ before.map fun j => s.pageRecords (s.pageBack j), onPage ts key.bytes = none := by
      intro ts hts
      obtain ⟨x, hx, rfl⟩ := List.mem_map.mp hts
      exact onPage_of_newest_none (Option.map_eq_none_iff.mp (hbefore x hx))
    have hr : (s.pageRecords (s.pageBack j')).find? (fun r => r.key = key.bytes) =
        some (s.record (s.pageBack j') i') := by
      rw [find?_pageRecords, hfind, Option.map_some]
    have holder : Journal.lookup (after.map fun j => s.pageRecords (s.pageBack j)) key.bytes = none ↔
        ∀ older, j' < older → older < m →
          s.lookupOnPage (s.pageBack older) key.pointer key.strlen = none := by
      simp only [lookupOnPage_eq_onPage, lookup_eq_none, List.forall_mem_map, mem_range_after hrange,
        and_imp]
    have hvalue : (if (s.getMetadata (s.pageBack j') i').flags &&& flagsRemoved ≠ 0 then none
        else some (s.recordSlice (s.pageBack j') i')) = (s.record (s.pageBack j') i').bound := by
      simp only [Record.bound, record, decide_eq_true_eq]
    have hiff : Journal.lookup (before.map (fun j => s.pageRecords (s.pageBack j)) ++
        s.pageRecords (s.pageBack j') :: after.map fun j => s.pageRecords (s.pageBack j)) key.bytes =
          (s.record (s.pageBack j') i').bound ↔ _ := lookup_eq_bound_iff hps hr
    simp only [hvalue]
    rw [hrange, List.map_append, List.map_cons, hiff, holder, record, decide_eq_true_eq]
    constructor
    · intro hnone j i hji hremoved
      cases hji
      exact hnone hremoved
    · intro hnone hremoved
      exact hnone j' i' rfl hremoved

end Store

/-! ## Samples -/

/-- Three pages, of which the first binds the sample key to one byte, and the second has a record of
it with the given flags and no value. -/
def twoRecords (flags : Nat) : Store :=
  let first := Nor.program (Nor.program (fun _ => 0xff) 0 [0x6b, 7]) 4084
    (Metadata.toBytes ⟨0, ⟨0, 1⟩, ⟨1, 1⟩⟩)
  let second := Nor.program (Nor.program first 4096 [0x6b]) 8180
    (Metadata.toBytes ⟨flags, ⟨0, 1⟩, ⟨1, 0⟩⟩)
  { Store.blank 3 with current := ⟨1, 4, 1⟩, flash := second }

theorem contiguous_twoRecords : (twoRecords 0).Contiguous 2 ∧ (twoRecords flagsRemoved).Contiguous 2 := by
  constructor
  · exact ⟨by decide, by decide, by decide +kernel⟩
  · exact ⟨by decide, by decide, by decide +kernel⟩

/-- A newer record without the flag is found, with its empty value. -/
theorem lookup_newest_sample :
    (twoRecords 0).lookup sampleKey.pointer sampleKey.strlen = (twoRecords 0).newestValue 2 sampleKey ∧
      (twoRecords 0).newestValue 2 sampleKey = some (4097, 0) := by
  have hnewest : (twoRecords 0).newest 2 sampleKey = some (0, 0) := by decide +kernel
  have hkept : ¬ (twoRecords 0).recordRemoved ((twoRecords 0).pageBack 0) 0 := by
    rw [Store.recordRemoved]
    decide +kernel
  refine ⟨(Store.lookup_newest_iff 2 contiguous_twoRecords.1 sampleKey).mpr ?_, by decide +kernel⟩
  intro j i hji hremoved
  rw [hnewest] at hji
  cases hji
  exact absurd hremoved hkept

/-- A tombstone does not hide the binding on the page before it. -/
theorem lookup_not_newest : ∃ (s : Store) (m : Nat), s.Contiguous m ∧
    s.newestValue m sampleKey = none ∧ s.lookup sampleKey.pointer sampleKey.strlen = some (1, 1) :=
  ⟨twoRecords flagsRemoved, 2, contiguous_twoRecords.2, by decide +kernel, by decide +kernel⟩

end KeyValueStore
end Firefly
