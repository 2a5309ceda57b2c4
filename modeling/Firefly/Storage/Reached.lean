import Firefly.Storage.FiniteMap

/-!
# Firefly.Storage.Reached

The stores that an erased one gets to by calls and by starting up again, whatever the calls return. They
all represent pages with an empty page behind the current one (`Reached.represents`), also after calls
that found no room and left holes between the pages with records.

In them `isSetTo` compares what `lookup` finds with the encoding, in any chunks, but takes a key that is
not found for one with an empty value: `set` then returns true and stores nothing (`isSetTo_set_iff`).
-/

namespace Firefly
namespace KeyValueStore

open Journal

inductive Reached : Store → Prop where
  | erased (s₀ : Store) (hn : 2 ≤ s₀.pageCount) : Reached s₀.erased
  | start {s ram : Store} (h : Reached s) (hram : ram.pageCount = s.pageCount) :
      Reached (ram.start s.flash)
  | call {s s' : Store} {op : Op} {result : Bool} (h : Reached s) (hr : op.Returns s result s') :
      Reached s'

namespace Pages

variable {L : Pages}

/-- Start-up finds a page that is followed by an empty one. -/
theorem exists_currentPage_of_next (hw : L.WellFormed) (he : L.page L.next = []) :
    ∃ p < L.pageCount, L.currentPage = some p ∧ L.page ((p + 1) % L.pageCount) = [] := by
  have hn := hw.two_le
  cases hf : (List.range L.pageCount).find? fun p => (L.page p).isEmpty = false with
  | none =>
    have hempty := List.find?_eq_none.mp hf
    refine ⟨0, by omega, by simp only [currentPage, hf], ?_⟩
    have hone := hempty ((0 + 1) % L.pageCount) (List.mem_range.mpr (Nat.mod_lt _ (by omega)))
    simpa using hone
  | some first =>
    have hne : L.page first ≠ [] := by simpa using List.find?_some hf
    have hfirst := List.mem_range.mp (List.mem_of_find?_eq_some hf)
    obtain ⟨j, hj, hback⟩ := Ring.exists_back hw.next_lt hfirst
    have hreach : (first + j) % L.pageCount = L.next := by
      rw [← hback, Ring.back_add hw.next_lt hj (Nat.le_refl j), Nat.sub_self, Ring.back_zero]
    have hj0 : j ≠ 0 := by
      intro h0
      rw [h0, Ring.back_zero] at hback
      exact hne (hback ▸ he)
    have hmem : L.next ∈ (List.range' 1 (L.pageCount - 1)).map fun i => (first + i) % L.pageCount :=
      List.mem_map.mpr ⟨j, List.mem_range'_1.mpr (by omega), hreach⟩
    cases hempty : ((List.range' 1 (L.pageCount - 1)).map fun i => (first + i) % L.pageCount).find?
        fun p => (L.page p).isEmpty = true with
    | none =>
      have hnot := List.find?_eq_none.mp hempty L.next hmem
      simp [he] at hnot
    | some e =>
      have hpage : L.page e = [] := by simpa using List.find?_some hempty
      obtain ⟨i, -, rfl⟩ := List.mem_map.mp (List.mem_of_find?_eq_some hempty)
      have hlt : (first + i) % L.pageCount < L.pageCount := Nat.mod_lt _ (by omega)
      refine ⟨((first + i) % L.pageCount + L.pageCount - 1) % L.pageCount, Nat.mod_lt _ (by omega),
        ?_, ?_⟩
      · simp only [currentPage, hf, hempty, Option.map_some]
      · have hsucc : (first + i) % L.pageCount + L.pageCount - 1 + 1 =
            (first + i) % L.pageCount + L.pageCount := by omega
        rw [Nat.mod_add_mod, hsucc, Nat.add_mod_right, Nat.mod_mod]
        exact hpage

end Pages

theorem Reached.represents {s : Store} (h : Reached s) :
    ∃ k L, Represents k s L ∧ L.page L.next = [] := by
  induction h with
  | erased s₀ hn => exact ⟨0, _, erased_represents s₀ hn, rfl⟩
  | start _ hram ih =>
    obtain ⟨k, L, hrep, he⟩ := ih
    obtain ⟨p, hp, hcur, hnext⟩ := Pages.exists_currentPage_of_next hrep.wellFormed he
    exact ⟨0, _, start_represents hrep.toStored hram hcur hp, hnext⟩
  | @call s s' op result _ hr ih =>
    obtain ⟨k, L, hrep, he⟩ := ih
    obtain ⟨fuel, hexec⟩ := hr
    have hrel := exec_simulates fuel op hrep he
    rw [hexec] at hrel
    generalize L.exec fuel op = b at hrel
    cases hrel with
    | some hsim => exact ⟨_, _, hsim.2.1, hsim.2.2⟩

/-! ## Setting a key -/

variable {s s' : Store} {L L' : Pages}

theorem isSet_eq (s : Store) (key : CString) : s.isSet key = (s.lookupValue key).isSome := by
  rw [Store.isSet, Store.lookupValue, Option.isSome_map]

/-- The key that `set` has stored is found. -/
theorem Reached.isSet_of_set (h : Reached s) {key : CString} {object : Message}
    (hr : (Op.set key object).Returns s true s') (hne : s.isSet key = true ∨ object.encoding ≠ []) :
    s'.isSet key = true := by
  obtain ⟨k, L, hrep, he⟩ := h.represents
  obtain ⟨fuel, hexec⟩ := hr
  have hrel := exec_simulates fuel (.set key object) hrep he
  rw [hexec] at hrel
  generalize hL : L.exec fuel (.set key object) = b at hrel
  cases hrel with
  | some hsim =>
    rename_i y
    obtain ⟨result, L'⟩ := y
    obtain ⟨rfl, hrep', -⟩ := hsim
    have hbound : object.encoding = [] → L.lookup key.bytes ≠ none := by
      intro hempty hnone
      rw [isSet_eq, lookupValue_eq hrep, hnone] at hne
      exact hne.elim (fun hset => by simp at hset) fun h => h hempty
    rw [isSet_eq, lookupValue_eq hrep', Pages.lookup_set_self hrep.wellFormed he hL hbound]
    rfl

/-- What `set` relies on is so if and only if the key is found or the encoding has bytes. -/
theorem isSetTo_set_iff (h : Reached s) (key : CString) (object : Message) :
    ((s.isSetTo key object = true ↔ s.lookupValue key = some object.encoding) ∧
        ∀ s', (Op.set key object).Returns s true s' → s'.isSet key = true) ↔
      s.isSet key = true ∨ object.encoding ≠ [] := by
  rw [isSetTo_eq_lookupValue, decide_eq_true_eq]
  constructor
  · rintro ⟨hequal, -⟩
    by_contra hnot
    obtain ⟨hset, hempty⟩ := not_or.mp hnot
    have hnone : s.lookupValue key = none := by
      rw [isSet_eq] at hset
      simpa using hset
    rw [hnone, not_not.mp hempty] at hequal
    exact absurd (hequal.mp rfl) (by simp)
  · intro hne
    refine ⟨?_, fun s' hr => h.isSet_of_set hr hne⟩
    rw [isSet_eq] at hne
    cases hl : s.lookupValue key with
    | some v => simp
    | none =>
      rw [hl] at hne
      have hbytes : object.encoding ≠ [] := hne.elim (fun hset => by simp at hset) id
      simp [Ne.symm hbytes]

theorem isSetTo_set_sample :
    ((Store.blank 2).erased.isSetTo sampleKey (sampleMessage 3 7) = true ↔
        (Store.blank 2).erased.lookupValue sampleKey = some (sampleMessage 3 7).encoding) ∧
      ∀ s', (Op.set sampleKey (sampleMessage 3 7)).Returns (Store.blank 2).erased true s' →
        s'.isSet sampleKey = true :=
  (isSetTo_set_iff (.erased (Store.blank 2) (by simp [Store.blank])) sampleKey (sampleMessage 3 7)).mpr
    (Or.inr (by simp [sampleMessage, Message.encoding]))

/-- A message without a byte, as of an object with all its fields at their defaults. -/
def emptyMessage : Message := ⟨[]⟩

/-- On an erased store the empty message counts as set, and setting it leaves the key unset. -/
theorem not_isSetTo_set :
    Reached (Store.blank 2).erased ∧ (Store.blank 2).erased.isSetTo sampleKey emptyMessage = true ∧
      (Store.blank 2).erased.lookupValue sampleKey = none ∧
      (Op.set sampleKey emptyMessage).Returns (Store.blank 2).erased true (Store.blank 2).erased ∧
      (Store.blank 2).erased.isSet sampleKey = false := by
  have hrep := erased_represents (Store.blank 2) (Nat.le_refl 2)
  have hnone : (Store.blank 2).erased.lookupValue sampleKey = none := by
    rw [lookupValue_eq hrep]
    rfl
  have hequal : (Store.blank 2).erased.isSetTo sampleKey emptyMessage = true := by
    rw [isSetTo_eq_lookupValue, hnone]
    rfl
  refine ⟨.erased _ (Nat.le_refl 2), hequal, hnone, ⟨0, ?_⟩, ?_⟩
  · rw [Op.exec, Store.set, if_pos hequal]
  · rw [isSet_eq, hnone]
    rfl

end KeyValueStore
end Firefly
