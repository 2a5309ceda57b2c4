import Firefly.Lib.Journal
import Firefly.Lib.Ring
import Firefly.Storage.KeyValueStore

/-!
# Firefly.Storage.Pages

The key / value store one level up: every page is the list of its records, newest first, and the
operations of `fd_key_value_store.c` work on records. `Representation` connects the levels. Here
is what the operations do to lookups: pushing a record (`lookup_push`), advancing to an empty
page (`lookup_advance`) and collecting the oldest page (`lookup_collect`).

A collection copies, for every key that is still bound, the *oldest* binding on the collected
page, whatever binding lookups return before it: `lookup_collect` states it as it is.
-/

namespace Firefly
namespace KeyValueStore

open Journal

abbrev Rec := Record (List UInt8) (List UInt8)

def dataSize (r : Rec) : Nat := Store.getWriteSize (r.key.length + r.value.length)

/-- Where the data region of a page ends. -/
def dataEnd (rs : List Rec) : Nat := (rs.map dataSize).sum

/-- The bytes of a page in use. -/
def used (rs : List Rec) : Nat := dataEnd rs + rs.length * metadataSize

structure Pages where
  pageCount : Nat
  current : Nat
  isFull : Bool
  page : Nat → List Rec

namespace Pages

def next (L : Pages) : Nat := (L.current + 1) % L.pageCount

/-- The pages from the current one backwards. -/
def journal (L : Pages) : List (List Rec) := (Ring.order L.pageCount L.current).map L.page

def lookup (L : Pages) (k : List UInt8) : Option (List UInt8) := Journal.lookup L.journal k

def push (L : Pages) (r : Rec) : Pages :=
  { L with page := Function.update L.page L.current (r :: L.page L.current) }

def clear (L : Pages) (p : Nat) : Pages := { L with page := Function.update L.page p [] }

def advance (L : Pages) : Pages := { L with current := L.next }

def collectRecord (L : Pages) (r : Rec) : Pages :=
  if r.removed then L
  else if (onPage (L.page L.current) r.key).isSome then L
  else if (L.lookup r.key).isNone then L
  else L.push r

/-- The collected page's records, oldest first, go to the current page. -/
def copyRecords (L : Pages) : Pages := (L.page L.next).reverse.foldl collectRecord L

def collect (L : Pages) : Pages := L.copyRecords.clear L.next

def allocateLoop (size : Nat) : Nat → Nat → Pages → Option (Bool × Pages)
  | 0, _, _ => none
  | fuel + 1, collectionCount, L =>
    if size ≤ pageSize - used (L.page L.current) then some (true, L)
    else
      let L := L.advance
      if L.page L.next = [] then allocateLoop size fuel collectionCount L
      else
        let L := L.collect
        if collectionCount + 1 > L.pageCount then some (false, { L with isFull := true })
        else allocateLoop size fuel (collectionCount + 1) L

def allocate (fuel : Nat) (L : Pages) (size : Nat) : Option (Bool × Pages) :=
  if L.isFull then some (false, L) else allocateLoop size fuel 0 L

/-- A record for `key`: a binding to the encoding of an object, or a tombstone. -/
def newRecord (key : List UInt8) (value : Option (List UInt8)) : Rec :=
  ⟨key, value.getD [], value.isNone⟩

def add (fuel : Nat) (L : Pages) (key : List UInt8) (value : Option (List UInt8)) :
    Option (Bool × Pages) :=
  match L.allocate fuel (Store.requiredSize key.length (value.getD []).length) with
  | none => none
  | some (false, L) => some (false, L)
  | some (true, L) => some (true, L.push (newRecord key value))

def set (fuel : Nat) (L : Pages) (key value : List UInt8) : Option (Bool × Pages) :=
  if (L.lookup key).getD [] = value then some (true, L) else L.add fuel key (some value)

def remove (fuel : Nat) (L : Pages) (key : List UInt8) : Option (Bool × Pages) :=
  if (L.lookup key).isNone then some (true, L) else L.add fuel key none

def erase (L : Pages) : Pages := ⟨L.pageCount, 0, false, fun _ => []⟩

def exec (fuel : Nat) (L : Pages) : Op → Option (Bool × Pages)
  | .set key object => L.set fuel key.bytes object.encoding
  | .remove key => L.remove fuel key.bytes
  | .erase => some (true, L.erase)

/-- There are two pages at least and the current one is among them. -/
structure WellFormed (L : Pages) : Prop where
  two_le : 2 ≤ L.pageCount
  current_lt : L.current < L.pageCount

@[simp] theorem newRecord_key (key : List UInt8) (value : Option (List UInt8)) :
    (newRecord key value).key = key := rfl

@[simp] theorem push_pageCount (L : Pages) (r : Rec) : (L.push r).pageCount = L.pageCount := rfl
@[simp] theorem push_current (L : Pages) (r : Rec) : (L.push r).current = L.current := rfl
@[simp] theorem push_isFull (L : Pages) (r : Rec) : (L.push r).isFull = L.isFull := rfl
@[simp] theorem push_next (L : Pages) (r : Rec) : (L.push r).next = L.next := rfl
@[simp] theorem clear_pageCount (L : Pages) (p : Nat) : (L.clear p).pageCount = L.pageCount := rfl
@[simp] theorem clear_current (L : Pages) (p : Nat) : (L.clear p).current = L.current := rfl
@[simp] theorem clear_isFull (L : Pages) (p : Nat) : (L.clear p).isFull = L.isFull := rfl
@[simp] theorem advance_pageCount (L : Pages) : L.advance.pageCount = L.pageCount := rfl
@[simp] theorem advance_current (L : Pages) : L.advance.current = L.next := rfl
@[simp] theorem advance_isFull (L : Pages) : L.advance.isFull = L.isFull := rfl
@[simp] theorem advance_page (L : Pages) : L.advance.page = L.page := rfl

@[simp] theorem push_page_current (L : Pages) (r : Rec) :
    (L.push r).page L.current = r :: L.page L.current := by simp [push]

theorem push_page_of_ne (L : Pages) (r : Rec) {p : Nat} (h : p ≠ L.current) :
    (L.push r).page p = L.page p := by simp [push, h]

@[simp] theorem clear_page_self (L : Pages) (p : Nat) : (L.clear p).page p = [] := by simp [clear]

theorem clear_page_of_ne (L : Pages) {p q : Nat} (h : q ≠ p) : (L.clear p).page q = L.page q := by
  simp [clear, h]

namespace WellFormed

variable {L : Pages}

theorem next_lt (h : L.WellFormed) : L.next < L.pageCount := Ring.next_lt h.current_lt

theorem next_ne (h : L.WellFormed) : L.next ≠ L.current := Ring.next_ne h.two_le h.current_lt

theorem push (h : L.WellFormed) (r : Rec) : (L.push r).WellFormed := ⟨h.1, h.2⟩

theorem clear (h : L.WellFormed) (p : Nat) : (L.clear p).WellFormed := ⟨h.1, h.2⟩

theorem advance (h : L.WellFormed) : L.advance.WellFormed := ⟨h.1, h.next_lt⟩

end WellFormed

/-! ## Lookups -/

/-- The pages other than the current one, newest first. -/
def older (L : Pages) : List (List Rec) :=
  (List.range (L.pageCount - 1)).map fun j => L.page (Ring.back L.pageCount L.current (j + 1))

theorem journal_eq_cons {L : Pages} (h : L.WellFormed) :
    L.journal = L.page L.current :: L.older := by
  simp [journal, older, Ring.order_eq_cons h.current_lt]

theorem older_congr {L L' : Pages} (hc : L.current < L.pageCount)
    (hn : L'.pageCount = L.pageCount) (hcur : L'.current = L.current)
    (hp : ∀ p, p < L.pageCount → p ≠ L.current → L'.page p = L.page p) : L'.older = L.older := by
  simp only [older, hn, hcur]
  apply List.map_congr_left
  intro j hj
  have hj' : j < L.pageCount - 1 := List.mem_range.mp hj
  exact hp _ (Ring.back_lt hc (by omega)) (Ring.back_succ_ne (by omega))

theorem mem_older {L : Pages} (hc : L.current < L.pageCount) {rs : List Rec} :
    rs ∈ L.older ↔ ∃ p < L.pageCount, p ≠ L.current ∧ L.page p = rs := by
  simp only [older, List.mem_map, List.mem_range]
  constructor
  · rintro ⟨j, hj, rfl⟩
    exact ⟨_, Ring.back_lt hc (by omega), Ring.back_succ_ne (by omega), rfl⟩
  · rintro ⟨p, hp, hne, rfl⟩
    obtain ⟨j, hj, rfl⟩ := Ring.exists_back hc hp
    obtain ⟨i, rfl⟩ : ∃ i, j = i + 1 := by
      refine ⟨j - 1, ?_⟩
      have : j ≠ 0 := by rintro rfl; exact hne (Ring.back_zero _ _)
      omega
    exact ⟨i, by omega, rfl⟩

theorem lookup_eq_or {L : Pages} (h : L.WellFormed) (k : List UInt8) :
    L.lookup k = (onPage (L.page L.current) k).or (Journal.lookup L.older k) := by
  rw [lookup, journal_eq_cons h, lookup_cons]

theorem older_push {L : Pages} (h : L.WellFormed) (r : Rec) : (L.push r).older = L.older :=
  older_congr h.current_lt rfl rfl fun _ _ hne => push_page_of_ne L r hne

theorem lookup_push {L : Pages} (h : L.WellFormed) (r : Rec) (k : List UInt8) :
    (L.push r).lookup k =
      if r.key = k then r.bound.or (Journal.lookup L.older k) else L.lookup k := by
  rw [lookup_eq_or (h.push r), older_push h, push_current, push_page_current, onPage_cons,
    lookup_eq_or h]
  split <;> rfl

/-- Pages, newest first, without the oldest. -/
theorem journal_eq_recent {L : Pages} (h : L.WellFormed) :
    L.journal = (Ring.recent L.pageCount L.current).map L.page ++ [L.page L.next] := by
  simp [journal, next, Ring.order_eq_recent h.current_lt]

theorem older_advance {L : Pages} (h : L.WellFormed) :
    L.advance.older = (Ring.recent L.pageCount L.current).map L.page := by
  have hj := journal_eq_cons h.advance
  simp only [journal, advance_pageCount, advance_current, advance_page, next,
    Ring.order_next h.current_lt, List.map_cons, List.cons.injEq, true_and] at hj
  exact hj.symm

/-- Advancing to an empty page changes no lookup. -/
theorem lookup_advance {L : Pages} (h : L.WellFormed) (he : L.page L.next = []) (k : List UInt8) :
    L.advance.lookup k = L.lookup k := by
  rw [lookup_eq_or h.advance, older_advance h, advance_current, advance_page, he, onPage_nil,
    lookup, journal_eq_recent h, lookup_append, he]
  simp

/-! ## Collection -/

/-- What the copying of `q`, the records of the collected page from the oldest on, has done to the
pages: only the current page grows, by the oldest binding of every bound key. -/
structure Copied (L : Pages) (q : List Rec) (L' : Pages) : Prop where
  pageCount : L'.pageCount = L.pageCount
  current : L'.current = L.current
  isFull : L'.isFull = L.isFull
  page : ∀ p, p ≠ L.current → L'.page p = L.page p
  bindings : ∀ r ∈ L'.page L.current, r.removed = false
  onPage : ∀ k, onPage (L'.page L.current) k =
    if L.lookup k = none then none
    else (q.find? fun r => r.key = k && !r.removed).map Record.value

namespace Copied

variable {L L' : Pages} {q : List Rec}

theorem wellFormed (h : Copied L q L') (hw : L.WellFormed) : L'.WellFormed :=
  ⟨h.pageCount ▸ hw.two_le, by rw [h.pageCount, h.current]; exact hw.current_lt⟩

theorem next (h : Copied L q L') : L'.next = L.next := by
  simp [Pages.next, h.current, h.pageCount]

theorem lookup (h : Copied L q L') (hw : L.WellFormed) (he : L.page L.current = [])
    (k : List UInt8) :
    L'.lookup k = (Journal.onPage (L'.page L.current) k).or (L.lookup k) := by
  rw [lookup_eq_or (h.wellFormed hw), lookup_eq_or hw, he, onPage_nil, Option.none_or, h.current,
    older_congr hw.current_lt h.pageCount h.current fun p _ hne => h.page p hne]

theorem start (L : Pages) (he : L.page L.current = []) : Copied L [] L where
  pageCount := rfl
  current := rfl
  isFull := rfl
  page := fun _ _ => rfl
  bindings := by simp [he]
  onPage := fun k => by simp [he]

/-- One more record of the collected page. -/
theorem step (h : Copied L q L') (hw : L.WellFormed) (he : L.page L.current = []) (r : Rec) :
    Copied L (q ++ [r]) (L'.collectRecord r) := by
  unfold collectRecord
  split
  · rename_i hr
    exact { h with onPage := fun k => by simp [h.onPage k, List.find?_append, hr] }
  · rename_i hr
    have hbound : r.removed = false := by simpa using hr
    have hsnoc : ∀ k, r.key ≠ k → (q ++ [r]).find? (fun r => r.key = k && !r.removed) =
        q.find? fun r => r.key = k && !r.removed := fun k hk => by simp [List.find?_append, hk]
    split
    · rename_i hon
      refine { h with onPage := fun k => ?_ }
      rw [h.onPage k]
      by_cases hk : r.key = k
      · subst hk
        rw [h.current, h.onPage r.key] at hon
        cases hf : q.find? fun t => t.key = r.key && !t.removed with
        | none => simp [hf] at hon
        | some t => simp [List.find?_append, hf]
      · rw [hsnoc k hk]
    · rename_i hoff
      have hoff' : Journal.onPage (L'.page L.current) r.key = none := by
        rw [h.current] at hoff; simpa using hoff
      have hlive : L'.lookup r.key = L.lookup r.key := by rw [h.lookup hw he, hoff', Option.none_or]
      split
      · rename_i hdead
        have hdead' : L.lookup r.key = none := by rw [← hlive]; simpa using hdead
        refine { h with onPage := fun k => ?_ }
        rw [h.onPage k]
        by_cases hk : r.key = k
        · subst hk; simp [hdead']
        · rw [hsnoc k hk]
      · rename_i hl
        have hl' : L.lookup r.key ≠ none := by
          rw [← hlive]; intro hn; rw [hn] at hl; simp at hl
        have hq : q.find? (fun t => t.key = r.key && !t.removed) = none := by
          have := h.onPage r.key
          rw [hoff', if_neg hl'] at this
          simpa using this.symm
        have hcur : (L'.push r).page L.current = r :: L'.page L.current := by
          rw [← h.current]; exact push_page_current L' r
        refine ⟨h.pageCount, h.current, h.isFull, ?_, ?_, ?_⟩
        · intro p hp
          rw [push_page_of_ne L' r (by rw [h.current]; exact hp)]
          exact h.page p hp
        · rw [hcur]
          simpa [hbound] using h.bindings
        · intro k
          rw [hcur, onPage_cons]
          by_cases hk : r.key = k
          · subst hk
            rw [if_pos rfl, if_neg hl', Record.bound, if_neg (by simp [hbound]), List.find?_append,
              hq]
            simp [hbound]
          · rw [if_neg hk, h.onPage k, hsnoc k hk]

end Copied

theorem copied_foldl {L : Pages} (hw : L.WellFormed) (he : L.page L.current = [])
    (q ts : List Rec) {L' : Pages} (h : Copied L q L') :
    Copied L (q ++ ts) (ts.foldl collectRecord L') := by
  induction ts generalizing q L' with
  | nil => simpa using h
  | cons r ts ih => simpa using ih (q ++ [r]) (h.step hw he r)

theorem copied_copyRecords {L : Pages} (hw : L.WellFormed) (he : L.page L.current = []) :
    Copied L (L.page L.next).reverse L.copyRecords := by
  have h := copied_foldl hw he [] (L.page L.next).reverse (Copied.start L he)
  rwa [List.nil_append] at h

@[simp] theorem collectRecord_pageCount (L : Pages) (r : Rec) :
    (L.collectRecord r).pageCount = L.pageCount := by
  unfold collectRecord; split <;> [rfl; (split <;> [rfl; (split <;> rfl)])]

/-- The effect of a collection on lookups: a bound key that the collected page binds gets the
oldest of that page's bindings; every other key keeps its value. -/
theorem lookup_collect {L : Pages} (hw : L.WellFormed) (he : L.page L.current = [])
    (k : List UInt8) :
    L.collect.lookup k =
      if L.lookup k = none then none
      else ((oldestBound (L.page L.next) k).map Record.value).or (L.lookup k) := by
  have hc := copied_copyRecords hw he
  have hwc : L.collect.WellFormed := (hc.wellFormed hw).clear L.next
  have hn : L.collect.pageCount = L.pageCount := hc.pageCount
  have hcur : L.collect.current = L.current := hc.current
  have hnext : L.collect.next = L.next := hc.next
  -- the pages that neither shrink nor grow
  let rest := (Ring.middle L.pageCount L.current).map L.page
  have hrest : (Ring.middle L.pageCount L.current).map L.collect.page = rest := by
    apply List.map_congr_left
    intro p hp
    obtain ⟨hpc, hpn⟩ := Ring.ne_of_mem_middle hw.current_lt hp
    rw [collect, clear_page_of_ne L.copyRecords (q := p) (p := L.next) hpn, hc.page p hpc]
  have hbefore : L.lookup k = (Journal.lookup rest k).or (onPage (L.page L.next) k) := by
    rw [lookup, journal_eq_recent hw, Ring.recent_eq_cons hw.two_le, List.map_cons, he]
    simp [lookup_append, rest]
  have hafter : L.collect.lookup k =
      (onPage (L.copyRecords.page L.current) k).or (Journal.lookup rest k) := by
    have hclear : L.collect.page L.next = [] := clear_page_self _ _
    have hcopied : L.collect.page L.current = L.copyRecords.page L.current :=
      clear_page_of_ne _ hw.next_ne.symm
    rw [lookup, journal_eq_recent hwc, hn, hcur, hnext, Ring.recent_eq_cons hw.two_le,
      List.map_cons, hrest, hclear, hcopied]
    simp [lookup_append]
  rw [hafter, hc.onPage k]
  by_cases hl : L.lookup k = none
  · rw [if_pos hl, if_pos hl, Option.none_or]
    rw [hbefore] at hl
    exact (Option.or_eq_none_iff.mp hl).1
  · rw [if_neg hl, if_neg hl]
    cases ho : oldestBound (L.page L.next) k with
    | some r =>
      rw [oldestBound] at ho
      simp [ho]
    | none =>
      -- the collected page does not bind the key, so a newer page does
      have hoff : onPage (L.page L.next) k = none := by
        apply onPage_eq_none_of_forall
        intro r hr hk
        have := List.find?_eq_none.mp ho r (by simpa using hr)
        simpa [hk] using this
      rw [oldestBound] at ho
      rw [ho, hbefore, hoff]
      simp

end Pages

end KeyValueStore
end Firefly
