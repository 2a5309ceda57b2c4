import Firefly.Storage.Pages

/-!
# Firefly.Storage.PageImage

What a page of flash holds. `PageHolds f p rs`: in the image `f`, page `p` is laid out as the
records `rs`, newest first, their data packed from the start of the page and their metadata from
its end, with room for the end marker and nothing programmed in between.

On such a page the readers of `fd_key_value_store.c` compute what the records say
(`getMetadataCount_eq`, `lookupOnPage_eq`, `isPageEmpty_eq`).
-/

namespace Firefly
namespace KeyValueStore

open Journal Bytes

namespace Store

theorem getWriteSize_eq (n : Nat) : getWriteSize n = (n + 3) / 4 * 4 := by
  simp only [getWriteSize, minumumWriteSize_eq]
  omega

theorem le_getWriteSize (n : Nat) : n ≤ getWriteSize n := by
  rw [getWriteSize_eq]; omega

end Store

/-- The metadata of a record whose data starts at `offset`. -/
def metadataOf (offset : Nat) (r : Rec) : Metadata where
  flags := if r.removed then flagsRemoved else 0
  key := ⟨offset, r.key.length⟩
  value := ⟨offset + r.key.length, r.value.length⟩

theorem metadataOf_flags_ne (offset : Nat) (r : Rec) :
    (metadataOf offset r).flags ≠ flagsErased := by
  simp only [metadataOf, flagsRemoved, flagsErased]
  split <;> decide

theorem metadataOf_removed (offset : Nat) (r : Rec) :
    (metadataOf offset r).flags &&& flagsRemoved ≠ 0 ↔ r.removed = true := by
  simp only [metadataOf, flagsRemoved]
  cases r.removed <;> decide

@[simp] theorem Metadata.length_toBytes (m : Metadata) : m.toBytes.length = 12 := by
  simp [Metadata.toBytes]

/-- Fields that fit their types survive a round trip. -/
theorem Metadata.ofBytes_toBytes {m : Metadata} (hf : m.flags < 2 ^ 32) (hko : m.key.offset < 2 ^ 16)
    (hks : m.key.size < 2 ^ 16) (hvo : m.value.offset < 2 ^ 16) (hvs : m.value.size < 2 ^ 16) :
    Metadata.ofBytes m.toBytes = m := by
  have h4 : ∀ n, n < 2 ^ 32 → leNat (leBytes 4 n) = n := fun n h =>
    leNat_leBytes_of_lt (by simpa using h)
  have h2 : ∀ n, n < 2 ^ 16 → leNat (leBytes 2 n) = n := fun n h =>
    leNat_leBytes_of_lt (by simpa using h)
  simp only [Metadata.ofBytes, Metadata.toBytes, List.append_assoc]
  congr 1
  · rw [List.take_left' (length_leBytes 4 _), h4 _ hf]
  · congr 1
    · rw [List.drop_left' (length_leBytes 4 _), List.take_left' (length_leBytes 2 _), h2 _ hko]
    · rw [← List.append_assoc, List.drop_left' (by simp), List.take_left' (length_leBytes 2 _),
        h2 _ hks]
  · congr 1
    · rw [← List.append_assoc, ← List.append_assoc, List.drop_left' (by simp),
        List.take_left' (length_leBytes 2 _), h2 _ hvo]
    · rw [← List.append_assoc, ← List.append_assoc, ← List.append_assoc,
        List.drop_left' (by simp), List.take_of_length_le (by simp), h2 _ hvs]

/-- Record `i` of page `p` is `r`, its data at `offset`. -/
structure RecordAt (f : Nor.Image) (p i offset : Nat) (r : Rec) : Prop where
  metadata : Metadata.ofBytes (Nor.read f (Store.metadataAddress p i) metadataSize) =
    metadataOf offset r
  key : Nor.read f (p * pageSize + offset) r.key.length = r.key
  value : Nor.read f (p * pageSize + (offset + r.key.length)) r.value.length = r.value

/-- The records of a page one on top of the other. -/
def Holds (f : Nor.Image) (p : Nat) : List Rec → Prop
  | [] => True
  | r :: rs => RecordAt f p rs.length (dataEnd rs) r ∧ Holds f p rs

structure PageHolds (f : Nor.Image) (p : Nat) (rs : List Rec) : Prop where
  records : Holds f p rs
  room : used rs + metadataSize ≤ pageSize
  erased : ∀ x, dataEnd rs ≤ x → x + rs.length * metadataSize < pageSize →
    f (p * pageSize + x) = 0xff
  keys : ∀ r ∈ rs, ∀ b ∈ r.key, b ≠ 0

@[simp] theorem dataEnd_nil : dataEnd [] = 0 := rfl

@[simp] theorem dataEnd_cons (r : Rec) (rs : List Rec) :
    dataEnd (r :: rs) = dataSize r + dataEnd rs := rfl

theorem used_cons (r : Rec) (rs : List Rec) :
    used (r :: rs) = dataSize r + metadataSize + used rs := by
  simp only [used, dataEnd_cons, List.length_cons, metadataSize_eq]
  omega

theorem le_dataSize (r : Rec) : r.key.length + r.value.length ≤ dataSize r := Store.le_getWriteSize _

/-- Record `i`, counted from the oldest. -/
theorem exists_record {rs : List Rec} {i : Nat} (hi : i < rs.length) :
    ∃ as r ts, rs = as ++ r :: ts ∧ ts.length = i := by
  refine ⟨rs.take (rs.length - 1 - i), rs[rs.length - 1 - i], rs.drop (rs.length - i), ?_, ?_⟩
  · have : rs.length - i = rs.length - 1 - i + 1 := by omega
    rw [this, List.getElem_cons_drop, List.take_append_drop]
  · simp; omega

/-- A record below others on a page. -/
theorem Holds.recordAt {f : Nor.Image} {p : Nat} {rs ts : List Rec} {r : Rec}
    (h : Holds f p (rs ++ r :: ts)) : RecordAt f p ts.length (dataEnd ts) r := by
  induction rs with
  | nil => exact h.1
  | cons _ rs ih => exact ih h.2

/-- Records only depend on the bytes in use. -/
theorem Holds.congr {f f' : Nor.Image} {p : Nat} {rs : List Rec} (h : Holds f p rs)
    (hr : used rs ≤ pageSize)
    (hf : ∀ x, x < pageSize → x < dataEnd rs ∨ pageSize ≤ x + rs.length * metadataSize →
      f' (p * pageSize + x) = f (p * pageSize + x)) : Holds f' p rs := by
  induction rs with
  | nil => trivial
  | cons r rs ih =>
    simp only [pageSize_eq, metadataSize_eq, dataEnd_cons, List.length_cons] at hf
    simp only [used, dataEnd_cons, List.length_cons, pageSize_eq, metadataSize_eq] at hr
    have hd := le_dataSize r
    obtain ⟨⟨hm, hk, hv⟩, hrs⟩ := h
    have hcopy : ∀ a n, p * 4096 ≤ a → a + n ≤ (p + 1) * 4096 →
        (a + n ≤ p * 4096 + (dataSize r + dataEnd rs) ∨
          (p + 1) * 4096 ≤ a + (rs.length + 1) * 12) →
        Nor.read f' a n = Nor.read f a n := by
      intro a n h₁ h₂ h₃
      apply Nor.read_congr
      intro x hx hx'
      have := hf (x - p * 4096) (by omega) (by omega)
      rwa [show p * 4096 + (x - p * 4096) = x by omega] at this
    refine ⟨⟨?_, ?_, ?_⟩, ih hrs ?_ ?_⟩
    · rw [hcopy]
      · exact hm
      · simp only [Store.metadataAddress, Store.getPageAddress, pageSize_eq]; omega
      · simp only [Store.metadataAddress, Store.getPageAddress, pageSize_eq, metadataSize_eq]; omega
      · right
        simp only [Store.metadataAddress, Store.getPageAddress, pageSize_eq, metadataSize_eq]; omega
    · rw [hcopy _ _ (by simp) (by simp only [pageSize_eq]; omega) (by simp only [pageSize_eq]; omega)]
      exact hk
    · rw [hcopy _ _ (by simp) (by simp only [pageSize_eq]; omega) (by simp only [pageSize_eq]; omega)]
      exact hv
    · simp only [used, pageSize_eq, metadataSize_eq]; omega
    · intro x hx hx'
      simp only [pageSize_eq, metadataSize_eq] at hx hx' ⊢
      exact hf x hx (by omega)

theorem PageHolds.congr {f f' : Nor.Image} {p : Nat} {rs : List Rec} (h : PageHolds f p rs)
    (hf : ∀ x, x < pageSize → f' (p * pageSize + x) = f (p * pageSize + x)) :
    PageHolds f' p rs where
  records := h.records.congr (Nat.le_of_add_right_le h.room) fun x hx _ => hf x hx
  room := h.room
  erased := fun x hx hx' => by rw [hf x (by omega), h.erased x hx hx']
  keys := h.keys

/-- An erased page holds no records. -/
theorem pageHolds_nil {f : Nor.Image} {p : Nat}
    (h : ∀ x, x < pageSize → f (p * pageSize + x) = 0xff) : PageHolds f p [] where
  records := trivial
  room := by decide
  erased := fun x _ hx => h x (by simpa using hx)
  keys := by simp

/-! ## Reading the records -/

/-- The pointer `a` points to the bytes `k`, none of which is the terminator. -/
structure PointsTo (a : Pointer) (k : List UInt8) : Prop where
  get : ∀ i (h : i < k.length), a i = k[i]
  nonzero : ∀ b ∈ k, b ≠ 0

theorem CString.pointsTo (k : CString) : PointsTo k.pointer k.bytes where
  get := fun i h => by simp [CString.pointer, h]
  nonzero := k.nonzero

namespace Store

variable {s : Store} {p : Nat} {rs : List Rec}

theorem getMetadata_eq (h : PageHolds s.flash p rs) {as ts : List Rec} {r : Rec}
    (hrs : rs = as ++ r :: ts) : s.getMetadata p ts.length = metadataOf (dataEnd ts) r :=
  (Holds.recordAt (hrs ▸ h.records)).metadata

/-- The slot after the last record was never written. -/
theorem getMetadata_end (h : PageHolds s.flash p rs) :
    (s.getMetadata p rs.length).flags = flagsErased := by
  have hroom := h.room
  simp only [used, pageSize_eq, metadataSize_eq] at hroom
  have hread : (Nor.read s.flash (metadataAddress p rs.length) metadataSize).take 4 =
      [0xff, 0xff, 0xff, 0xff] := by
    apply List.ext_getElem?
    intro i
    rw [List.getElem?_take, Nor.getElem?_read]
    by_cases hi : i < 4
    · have herased := h.erased (4096 - (rs.length + 1) * 12 + i) (by omega)
        (by simp only [pageSize_eq, metadataSize_eq]; omega)
      have hle : i < metadataSize := by simp only [metadataSize_eq]; omega
      simp only [pageSize_eq] at herased
      rw [if_pos hi, if_pos hle]
      simp only [metadataAddress, getPageAddress, pageSize_eq, metadataSize_eq, Nat.add_assoc, herased]
      match i, hi with
      | 0, _ | 1, _ | 2, _ | 3, _ => rfl
    · rw [if_neg hi, List.getElem?_eq_none (by simp; omega)]
  simp only [getMetadata, Metadata.ofBytes, hread]
  decide

theorem getMetadataCount_eq (h : PageHolds s.flash p rs) : s.getMetadataCount p = rs.length := by
  have hroom := h.room
  simp only [used, pageSize_eq, metadataSize_eq] at hroom
  have hfind : (List.range (pageSize / metadataSize)).find?
      (fun i => (s.getMetadata p i).flags == flagsErased) = some rs.length := by
    rw [List.find?_range_eq_some]
    refine ⟨by rw [getMetadata_end h]; rfl, by simp only [pageSize_eq, metadataSize_eq, List.mem_range]; omega, ?_⟩
    intro i hi
    obtain ⟨as, r, ts, hrs, hts⟩ := exists_record hi
    rw [← hts, getMetadata_eq h hrs]
    simpa using metadataOf_flags_ne (dataEnd ts) r
  simp only [getMetadataCount, hfind, Option.getD_some]

/-- The key comparison decides equality when the key has no terminator inside. -/
theorem strncmpEq_iff {a b : Pointer} {n : Nat} (ha : ∀ i < n, a i ≠ 0) :
    strncmpEq a b n = true ↔ ∀ i < n, a i = b i := by
  induction n generalizing a b with
  | zero => simp [strncmpEq]
  | succ n ih =>
    have h0 : a 0 ≠ 0 := ha 0 (by omega)
    simp only [strncmpEq, Bool.and_eq_true, beq_iff_eq, Bool.or_eq_true, h0, false_or]
    rw [ih fun i hi => ha (i + 1) (by omega)]
    constructor
    · rintro ⟨h, ht⟩ i hi
      cases i with
      | zero => exact h
      | succ i => exact ht i (by omega)
    · intro h
      exact ⟨h 0 (by omega), fun i hi => h (i + 1) (by omega)⟩

theorem keyMatch_iff {a : Pointer} {k key : List UInt8} (ha : PointsTo a k) {f : Nor.Image}
    {address : Nat} (hkey : Nor.read f address key.length = key) :
    (key.length = k.length ∧ strncmpEq a (fun j => f (address + j)) k.length = true) ↔ key = k := by
  rw [strncmpEq_iff fun i hi => by
    rw [ha.get i hi]; exact ha.nonzero _ (List.getElem_mem hi)]
  have hget : ∀ i (h : i < key.length), f (address + i) = key[i] := by
    intro i h
    have := Nor.getElem?_read f address key.length i
    rw [hkey, if_pos h, List.getElem?_eq_getElem h] at this
    exact (Option.some.inj this).symm
  constructor
  · rintro ⟨hlen, heq⟩
    apply List.ext_getElem hlen
    intro i h₁ h₂
    rw [← hget i h₁, ← heq i h₂, ha.get i h₂]
  · rintro rfl
    exact ⟨rfl, fun i hi => by rw [ha.get i hi, hget i hi]⟩

/-- Where the value of the deciding record is. -/
def valueAt (p : Nat) (k : List UInt8) : List Rec → Option (Nat × Nat)
  | [] => none
  | r :: rs =>
    if r.key = k then
      if r.removed then none
      else some (getPageAddress p + (dataEnd rs + r.key.length), r.value.length)
    else valueAt p k rs

theorem lookupOnPage_eq (h : PageHolds s.flash p rs) {a : Pointer} {k : List UInt8}
    (ha : PointsTo a k) : s.lookupOnPage p a k.length = valueAt p k rs := by
  have hscan : ∀ ts as, rs = as ++ ts → s.scan p a k.length ts.length = valueAt p k ts := by
    intro ts
    induction ts with
    | nil => intro as _; rfl
    | cons r ts ih =>
      intro as hrs
      have hat := Holds.recordAt (hrs ▸ h.records)
      have hkey := keyMatch_iff ha hat.key
      simp only [List.length_cons, scan, getMetadata_eq h hrs, valueAt, metadataOf_removed,
        ih (as ++ [r]) (by simp [hrs])]
      by_cases hk : r.key = k
      · rw [if_pos hk, if_pos]
        · rfl
        · exact hkey.mpr hk
      · rw [if_neg hk, if_neg]
        exact fun hm => hk (hkey.mp hm)
  rw [lookupOnPage, getMetadataCount_eq h]
  exact hscan rs [] rfl

/-- The bytes found are the value the page binds. -/
theorem valueAt_read (h : PageHolds s.flash p rs) (k : List UInt8) :
    (valueAt p k rs).map (fun (address, size) => Nor.read s.flash address size) = onPage rs k := by
  have hread : ∀ ts as, rs = as ++ ts →
      (valueAt p k ts).map (fun (address, size) => Nor.read s.flash address size) = onPage ts k := by
    intro ts
    induction ts with
    | nil => intro as _; rfl
    | cons r ts ih =>
      intro as hrs
      have hat := Holds.recordAt (hrs ▸ h.records)
      rw [valueAt, onPage_cons]
      by_cases hk : r.key = k
      · rw [if_pos hk, if_pos hk, Record.bound]
        cases hr : r.removed with
        | true => rfl
        | false => simpa [getPageAddress] using hat.value
      · rw [if_neg hk, if_neg hk]
        exact ih (as ++ [r]) (by simp [hrs])
  exact hread rs [] rfl

theorem valueAt_isSome (p : Nat) (k : List UInt8) (rs : List Rec) :
    (valueAt p k rs).isSome = (onPage rs k).isSome := by
  induction rs with
  | nil => rfl
  | cons r rs ih =>
    rw [valueAt, onPage_cons]
    by_cases hk : r.key = k
    · rw [if_pos hk, if_pos hk, Record.bound]
      cases r.removed <;> rfl
    · rw [if_neg hk, if_neg hk, ih]

/-- The emptiness check decides and its assertion holds. -/
theorem isPageEmpty_eq (h : PageHolds s.flash p rs) : s.isPageEmpty p = (rs.isEmpty, s) := by
  unfold isPageEmpty
  rcases List.eq_nil_or_concat rs with rfl | ⟨as, r, hrs⟩
  · have hall : ((List.range pageSize).all fun i => s.flash (getPageAddress p + i) == 0xff) = true := by
      rw [List.all_eq_true]
      intro i hi
      have := h.erased i (Nat.zero_le _) (by simpa using hi)
      simpa [getPageAddress] using this
    have hflags := getMetadata_end h
    rw [List.length_nil] at hflags
    simp only [hflags, ne_eq, not_true, if_false, hall, assert, if_true, List.isEmpty_nil]
  · have hflags := getMetadata_eq h (show rs = as ++ r :: [] by simpa using hrs)
    rw [List.length_nil] at hflags
    rw [hflags, if_pos (metadataOf_flags_ne _ r), hrs]
    simp

end Store

end KeyValueStore
end Firefly
