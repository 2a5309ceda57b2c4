import Firefly.Storage.Startup

/-!
# Firefly.Storage.Recovery

Every run whose records fit their pages represents tidy pages (`run_tidy`), and so start-up on the
flash it leaves finds the cursor the run left in RAM (`start_current`).
-/

namespace Firefly
namespace KeyValueStore

variable {k : Nat} {s s' : Store} {L : Pages}

/-- A call that returns true had room for its record. -/
theorem Pages.fits_of_true {L' : Pages} {fuel : Nat} {op : Op}
    (h : L.exec fuel op = some (true, L')) : L.Fits op := by
  have hadd : ∀ key value, L.add fuel key value = some (true, L') →
      Store.requiredSize key.length (value.getD []).length ≤ pageSize := by
    intro key value hadd
    unfold Pages.add at hadd
    split at hadd
    · simp at hadd
    · simp at hadd
    · rename_i L'' ha
      have := Pages.allocate_room ha
      omega
  cases op with
  | set key object =>
    intro hne
    rw [Pages.exec, Pages.set, if_neg hne] at h
    exact hadd _ _ h
  | remove key =>
    intro hne
    rw [Pages.exec, Pages.remove, if_neg (by simpa using hne)] at h
    exact hadd _ _ h
  | erase => trivial

theorem fits_iff (h : Represents k s L) (op : Op) : op.Fits s ↔ L.Fits op := by
  have hsize : ∀ keySize valueSize, Store.requiredSize keySize valueSize =
      Store.getWriteSize (keySize + valueSize) + 24 := fun _ _ => rfl
  cases op with
  | set key object =>
    simp only [Op.Fits, Op.recordSize, Pages.Fits, isSetTo_eq h, decide_eq_true_eq, hsize]
    split <;> simp_all
  | remove key =>
    have hset : s.isSet key = (L.lookup key.bytes).isSome := lookup_isSome h key.pointsTo
    simp only [Op.Fits, Op.recordSize, Pages.Fits, hset, hsize, Option.not_isSome,
      Option.isNone_iff_eq_none]
    split <;> simp_all
  | erase => simp [Op.Fits, Op.recordSize, Pages.Fits]

theorem erased_represents (s₀ : Store) (hn : 2 ≤ s₀.pageCount) :
    Represents 0 s₀.erased ⟨s₀.pageCount, 0, false, fun _ => []⟩ :=
  erase_represents (s := { s₀ with flashLog := [], assertCount := 0 }) hn Nor.writeOnce_nil

/-- One step of a run. -/
theorem returns_tidy (h : Represents k s L) (ht : L.Tidy) {op : Op} {result : Bool}
    (hr : op.Returns s result s') (hfit : result = true ∨ op.Fits s) :
    ∃ L', Represents (assertsAfter k result) s' L' ∧ L'.Tidy ∧ L'.pageCount = L.pageCount ∧
      ∃ fuel, L.exec fuel op = some (result, L') := by
  obtain ⟨fuel, hexec⟩ := hr
  have hrel := exec_simulates fuel op h ht.page_next
  rw [hexec] at hrel
  generalize hL : L.exec fuel op = b at hrel
  cases hrel with
  | some hsim =>
    rename_i y
    obtain ⟨result', L'⟩ := y
    obtain ⟨rfl, hrep, -⟩ := hsim
    have hfit' : L.Fits op := by
      rcases hfit with rfl | hfit
      · exact Pages.fits_of_true hL
      · exact (fits_iff h op).mp hfit
    obtain ⟨ht', hcount⟩ := ht.exec hfit' hL
    exact ⟨L', hrep, ht', hcount, fuel, hL⟩

/-- The calls of a run that returned false. -/
def failures (calls : List (Op × Bool)) : Nat := calls.countP fun call => !call.2

theorem run_tidy {P : Store → Op → Bool → Prop}
    (hP : ∀ s op result, P s op result → result = true ∨ op.Fits s) {s₀ : Store}
    (hn : 2 ≤ s₀.pageCount) {calls : List (Op × Bool)} (h : Run P s₀.erased calls s) :
    ∃ L, Represents (failures calls) s L ∧ L.Tidy ∧ L.pageCount = s₀.pageCount := by
  induction h with
  | nil => exact ⟨⟨s₀.pageCount, 0, false, fun _ => []⟩, erased_represents s₀ hn,
      Pages.tidy_erase (L := ⟨s₀.pageCount, 0, false, fun _ => []⟩) hn, rfl⟩
  | @snoc calls s s' op result h hr hstep ih =>
    obtain ⟨L, hrep, ht, hcount⟩ := ih
    obtain ⟨L', hrep', ht', hcount', -⟩ := returns_tidy hrep ht hr (hP _ _ _ hstep)
    have hfail : failures (calls ++ [(op, result)]) = assertsAfter (failures calls) result := by
      rw [failures, List.countP_append, ← failures]
      cases result <;> rfl
    rw [hfail]
    exact ⟨L', hrep', ht', hcount'.trans hcount⟩

/-- The calls one after the other, as long as they return true. -/
def Pages.execAll (fuel : Nat) (L : Pages) (ops : List Op) : Option Pages :=
  ops.foldlM (fun L op => (L.exec fuel op).bind fun x => if x.1 then some x.2 else none) L

/-- Successful calls on the pages, made on a store that represents them. -/
theorem exists_run {ops : List Op} {fuel : Nat} {s₀ : Store} {L' : Pages} {calls : List (Op × Bool)}
    (h : Represents k s L) (he : L.page L.next = [])
    (hs : Run (fun _ _ result => result = true) s₀ calls s)
    (hrun : L.execAll fuel ops = some L') :
    ∃ s', Run (fun _ _ result => result = true) s₀ (calls ++ ops.map (·, true)) s' ∧
      Represents k s' L' := by
  induction ops generalizing s L calls with
  | nil =>
    obtain rfl : L = L' := by simpa [Pages.execAll] using hrun
    exact ⟨s, by simpa using hs, h⟩
  | cons op ops ih =>
    rw [Pages.execAll, List.foldlM_cons, Option.bind_eq_bind, Option.bind_eq_some_iff] at hrun
    obtain ⟨L₁, hstep, hrest⟩ := hrun
    obtain ⟨⟨result, L₂⟩, hexec, hif⟩ := Option.bind_eq_some_iff.mp hstep
    cases result with
    | false => simp at hif
    | true =>
      obtain rfl : L₂ = L₁ := by simpa using hif
      obtain ⟨s', hr, hrep, hn⟩ := returns_of_exec h he hexec
      obtain ⟨s'', hrun'', hrep''⟩ := ih hrep hn (hs.snoc hr rfl) hrest
      exact ⟨s'', by simpa using hrun'', hrep''⟩

/-- A key and messages to try things out. -/
def sampleKey : CString := ⟨[0x6b], by simp⟩

def sampleMessage (size : Nat) (b : UInt8) : Message := ⟨[List.replicate size b]⟩

theorem sample_returns : ∃ s', (Op.set sampleKey (sampleMessage 3 7)).Returns (Store.blank 2).erased true s' := by
  have h := erased_represents (Store.blank 2) (Nat.le_refl 2)
  have hexec : ((⟨2, 0, false, fun _ => []⟩ : Pages).exec 1 (.set sampleKey (sampleMessage 3 7))).map Prod.fst =
      some true := by decide
  obtain ⟨⟨result, L'⟩, hL, hres⟩ := Option.map_eq_some_iff.mp hexec
  obtain rfl : result = true := hres
  obtain ⟨s', hr, -⟩ := returns_of_exec h rfl hL
  exact ⟨s', hr⟩

/-! ## Start-up -/

theorem start_represents (h : Stored k s L) {ram : Store} (hram : ram.pageCount = s.pageCount) {p : Nat}
    (hcur : L.currentPage = some p) (hp : p < L.pageCount) :
    Represents 0 (ram.start s.flash) { L with current := p, isFull := false } := by
  refine represents_updateCurrent ?_ hcur hp
  exact ⟨hram.trans h.pageCount, h.two_le, h.holds, fun _ _ _ _ _ => Nor.not_mem_dirty_nil _,
    Nor.writeOnce_nil, rfl⟩

/-- Start-up recomputes the cursor of a store that has done nothing but successful calls. -/
theorem start_current (s₀ : Store) (hn : 2 ≤ s₀.pageCount) {calls : List (Op × Bool)}
    (h : Run (fun _ _ result => result = true) s₀.erased calls s) (ram : Store)
    (hram : ram.pageCount = s.pageCount) :
    (ram.start s.flash).current = s.current ∧ (ram.start s.flash).isFull = false := by
  obtain ⟨L, hrep, ht, -⟩ := run_tidy (fun _ _ _ hr => .inl hr) hn h
  have hstart := start_represents hrep.toStored hram (Pages.currentPage_tidy ht) hrep.current_lt
  refine ⟨?_, hstart.isFull⟩
  have hcur : ∀ c : Current, c = ⟨c.page, c.dataByteCount, c.metadataCount⟩ := fun _ => rfl
  rw [hcur s.current, hcur (ram.start s.flash).current, hrep.page, hrep.dataByteCount,
    hrep.metadataCount, hstart.page, hstart.dataByteCount, hstart.metadataCount]

theorem start_current_sample : ∃ s, Run (fun _ _ result => result = true) (Store.blank 2).erased
    [(.set sampleKey (sampleMessage 3 7), true)] s ∧
      ((Store.blank 2).start s.flash).current = s.current ∧
      ((Store.blank 2).start s.flash).isFull = false := by
  obtain ⟨s, hr⟩ := sample_returns
  have hrun := (Run.nil (P := fun _ _ result => result = true)).snoc hr rfl
  obtain ⟨L, hrep, -, hcount⟩ := run_tidy (fun _ _ _ h => .inl h) (Nat.le_refl 2) hrun
  exact ⟨s, hrun, start_current (Store.blank 2) (Nat.le_refl 2) hrun (Store.blank 2)
    (hrep.pageCount.trans hcount).symm⟩

end KeyValueStore
end Firefly
