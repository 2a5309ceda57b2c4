import Firefly.Storage.PageImage

/-!
# Firefly.Storage.Writing

Writing a record. The output stream collects bytes in a 16-byte buffer and programs them as the
buffer fills; the flush rounds the rest up to the write unit, with what the buffer held before as
padding (`flushed_flush`). `setCommit` then programs the metadata. `Wrote` is the effect of a
whole record, the same for `write` (garbage collection) and `addRecord` (`set`, `remove`).
-/

namespace Firefly
namespace KeyValueStore

open Journal

namespace Store

/-- Where the stream programs its next bytes. -/
def writeAddress (s : Store) : Nat := s.current.page * pageSize + s.dataWriteOffset

/-- After `bs` went into a stream opened on `s₀`: the bytes `w` are programmed, the rest is in the
buffer. -/
def Streamed (s₀ : Store) (bs : List UInt8) (s : Store) : Prop :=
  ∃ (w t : List UInt8) (cs : List Nor.Command) (buffer : Vector UInt8 16),
    bs = w ++ t ∧ 16 ∣ w.length ∧ t.length ≤ 16 ∧ buffer.toList.take t.length = t ∧
    Nor.Sequential s₀.writeAddress w cs ∧ (∀ c ∈ cs, c.Aligned 4) ∧
    s = { s₀ with
      dataWriteOffset := s₀.dataWriteOffset + w.length
      ostreamState := ⟨buffer, t.length⟩
      flash := Nor.program s₀.flash s₀.writeAddress w
      flashLog := s₀.flashLog ++ cs }

/-- After the flush: the bytes and their padding are programmed. -/
def Flushed (s₀ : Store) (bs : List UInt8) (s : Store) : Prop :=
  ∃ (pad : List UInt8) (cs : List Nor.Command) (state : OstreamState),
    (bs ++ pad).length = getWriteSize bs.length ∧
    Nor.Sequential s₀.writeAddress (bs ++ pad) cs ∧ (∀ c ∈ cs, c.Aligned 4) ∧
    s = { s₀ with
      dataWriteOffset := s₀.dataWriteOffset + (bs ++ pad).length
      ostreamState := state
      flash := Nor.program s₀.flash s₀.writeAddress (bs ++ pad)
      flashLog := s₀.flashLog ++ cs }

theorem streamed_open {s : Store} (h : s.ostreamState.count = 0) : Streamed s [] s := by
  refine ⟨[], [], [], s.ostreamState.buffer, rfl, by simp, by simp, by simp, .nil, by simp, ?_⟩
  have hstate : s.ostreamState = ⟨s.ostreamState.buffer, 0⟩ := by rw [← h]
  simp only [List.length_nil, Nat.add_zero, List.append_nil, Nor.program_nil, ← hstate]

theorem take_setIfInBounds (buffer : Vector UInt8 16) {n : Nat} (hn : n < 16) (b : UInt8) :
    (buffer.setIfInBounds n b).toList.take (n + 1) = buffer.toList.take n ++ [b] := by
  have hlen : buffer.toList.length = 16 := by simp
  rw [Vector.toList_setIfInBounds, List.take_add_one, List.take_set_of_le (Nat.le_refl n),
    List.getElem?_set_self (by omega)]
  rfl

/-- `ostreamWrite` on a full buffer. -/
theorem streamed_write {s₀ s : Store} {w t : List UInt8} {cs : List Nor.Command}
    {buffer : Vector UInt8 16} {n : Nat} (hn : n ≤ 16) (h4 : 4 ∣ n) (ht : buffer.toList.take n = t)
    (hseq : Nor.Sequential s₀.writeAddress w cs) (hal : ∀ c ∈ cs, c.Aligned 4)
    (hs : s = { s₀ with
      dataWriteOffset := s₀.dataWriteOffset + w.length
      ostreamState := ⟨buffer, n⟩
      flash := Nor.program s₀.flash s₀.writeAddress w
      flashLog := s₀.flashLog ++ cs }) :
    ∃ ds, Nor.Sequential s₀.writeAddress (w ++ t) ds ∧ (∀ c ∈ ds, c.Aligned 4) ∧
      s.ostreamWrite = { s₀ with
        dataWriteOffset := s₀.dataWriteOffset + (w ++ t).length
        ostreamState := ⟨buffer, 0⟩
        flash := Nor.program s₀.flash s₀.writeAddress (w ++ t)
        flashLog := s₀.flashLog ++ ds } := by
  have htlen : t.length = n := by rw [← ht]; simp; omega
  refine ⟨cs ++ [.program (s₀.writeAddress + w.length) t], hseq.snoc, ?_, ?_⟩
  · intro c hc
    rcases List.mem_append.mp hc with hc | hc
    · exact hal c hc
    · rw [List.mem_singleton.mp hc]
      show 4 ∣ t.length
      rw [htlen]; exact h4
  · subst hs
    have hassert : decide (n ≤ 16) = true := by simpa using hn
    simp only [ostreamWrite, assert, hassert, if_true, nvmWrite, ht]
    have haddr : s₀.current.page * pageSize + (s₀.dataWriteOffset + w.length) =
        s₀.writeAddress + w.length := by simp only [writeAddress, Nat.add_assoc]
    simp only [haddr, Nor.program_program, List.length_append, htlen, List.append_assoc,
      Nat.add_assoc]

theorem streamed_put {s₀ s : Store} {bs : List UInt8} (h : Streamed s₀ bs s) (b : UInt8) :
    Streamed s₀ (bs ++ [b]) (s.ostreamPut b) := by
  obtain ⟨w, t, cs, buffer, rfl, hw, hlen, ht, hseq, hal, hs⟩ := h
  by_cases hfull : t.length ≥ 16
  · have h16 : t.length = 16 := by omega
    rw [h16] at hs ht
    obtain ⟨ds, hds, hdal, hwrite⟩ := streamed_write (Nat.le_refl 16) (by decide) ht hseq hal hs
    refine ⟨w ++ t, [b], ds, buffer.setIfInBounds 0 b, rfl, ?_, by simp, ?_, hds, hdal, ?_⟩
    · rw [List.length_append, h16]; omega
    · simpa using take_setIfInBounds buffer (n := 0) (by omega) b
    · have hcount : s.ostreamState.count = 16 := by rw [hs]
      simp only [ostreamPut, hcount, ge_iff_le, Nat.le_refl, if_true, hwrite, List.length_singleton]
  · refine ⟨w, t ++ [b], cs, buffer.setIfInBounds t.length b, by simp, hw, by simp; omega, ?_, hseq,
      hal, ?_⟩
    · rw [List.length_append, List.length_singleton, take_setIfInBounds _ (by omega), ht]
    · have hcount : s.ostreamState.count = t.length := by rw [hs]
      simp only [ostreamPut, hcount, ge_iff_le, show ¬ 16 ≤ t.length by omega, if_false,
        List.length_append, List.length_singleton]
      rw [hs]

theorem streamed_callback {s₀ s : Store} {bs : List UInt8} (h : Streamed s₀ bs s)
    (data : List UInt8) : Streamed s₀ (bs ++ data) (s.ostreamCallback data) := by
  unfold ostreamCallback
  induction data generalizing bs s with
  | nil => simpa using h
  | cons b data ih => simpa using ih (streamed_put h b)

theorem streamed_pbEncode {s₀ s : Store} {bs : List UInt8} (h : Streamed s₀ bs s)
    (object : Message) : Streamed s₀ (bs ++ object.encoding) (s.pbEncode object) := by
  unfold pbEncode Message.encoding
  induction object.chunks generalizing bs s with
  | nil => simpa using h
  | cons c cs ih => simpa using ih (streamed_callback h c)

theorem flushed_flush {s₀ s : Store} {bs : List UInt8} (h : Streamed s₀ bs s) :
    Flushed s₀ bs s.ostreamFlush := by
  obtain ⟨w, t, cs, buffer, rfl, hw, hlen, ht, hseq, hal, hs⟩ := h
  have hcount : s.ostreamState.count = t.length := by rw [hs]
  by_cases h0 : t.length = 0
  · obtain rfl := List.length_eq_zero_iff.mp h0
    refine ⟨[], cs, ⟨buffer, 0⟩, ?_, by simpa using hseq, hal, ?_⟩
    · simp only [List.append_nil, getWriteSize_eq]; omega
    · rw [ostreamFlush, if_pos (by rw [hcount, h0]), hs]
      simp
  · let n := getWriteSize t.length
    have hn : n = (t.length + 3) / 4 * 4 := getWriteSize_eq _
    have hsplit : buffer.toList.take n = t ++ (buffer.toList.drop t.length).take (n - t.length) := by
      have hadd : buffer.toList.take (t.length + (n - t.length)) = buffer.toList.take t.length ++
          (buffer.toList.drop t.length).take (n - t.length) := List.take_add
      rwa [ht, show t.length + (n - t.length) = n by omega] at hadd
    have hs' : { s with ostreamState := { s.ostreamState with count := n } } = { s₀ with
        dataWriteOffset := s₀.dataWriteOffset + w.length
        ostreamState := ⟨buffer, n⟩
        flash := Nor.program s₀.flash s₀.writeAddress w
        flashLog := s₀.flashLog ++ cs } := by rw [hs]
    obtain ⟨ds, hds, hdal, hwrite⟩ := streamed_write (by omega) (by omega) hsplit hseq hal hs'
    refine ⟨(buffer.toList.drop t.length).take (n - t.length), ds, ⟨buffer, 0⟩, ?_,
      by simpa using hds, hdal, ?_⟩
    · have hbuf : buffer.toList.length = 16 := by simp
      simp only [List.length_append, List.length_take, List.length_drop, getWriteSize_eq]
      omega
    · have hne : ¬ s.ostreamState.count = 0 := by rw [hcount]; exact h0
      rw [ostreamFlush, if_neg hne]
      simpa [hcount, n] using hwrite

/-- The effect of writing the record `r` to the current page: data and padding after the page's
data, one more slot of metadata, and the cursor behind both. -/
def Wrote (s : Store) (r : Rec) (s' : Store) : Prop :=
  ∃ (pad : List UInt8) (cs : List Nor.Command) (state : OstreamState) (offset : Nat),
    let data := r.key ++ r.value ++ pad
    let dataAddress := s.current.page * pageSize + s.current.dataByteCount
    let metadataAddress := s.current.page * pageSize + pageSize -
      (s.current.metadataCount + 1) * metadataSize
    let metadata := (metadataOf s.current.dataByteCount r).toBytes
    data.length = dataSize r ∧ Nor.Sequential dataAddress data cs ∧ (∀ c ∈ cs, c.Aligned 4) ∧
    s' = { s with
      current := ⟨s.current.page, s.current.dataByteCount + dataSize r, s.current.metadataCount + 1⟩
      dataWriteOffset := offset
      ostreamState := state
      flash := Nor.program (Nor.program s.flash dataAddress data) metadataAddress metadata
      flashLog := s.flashLog ++ cs ++ [.program metadataAddress metadata] }

theorem wrote_of_flushed {s s₁ : Store} {key value : List UInt8} (removed : Bool)
    (hoff : s.dataWriteOffset = s.current.dataByteCount) (h : Flushed s (key ++ value) s₁) :
    Wrote s ⟨key, value, removed⟩ (s₁.setCommit key.length value.length
      (getWriteSize (key.length + value.length)) (if removed then flagsRemoved else 0)) := by
  obtain ⟨pad, cs, state, hlen, hseq, hal, rfl⟩ := h
  have haddr : s.writeAddress = s.current.page * pageSize + s.current.dataByteCount := by
    rw [writeAddress, hoff]
  rw [haddr] at hseq
  refine ⟨pad, cs, state, s.dataWriteOffset + (key ++ value ++ pad).length, ?_, hseq, hal, ?_⟩
  · simpa [dataSize] using hlen
  · rw [haddr]
    rfl

theorem write_wrote (s : Store) (key value : List UInt8) :
    Wrote s ⟨key, value, false⟩ (s.write key value 0) := by
  let s₀ : Store := { s with dataWriteOffset := s.current.dataByteCount }
  have hflush := flushed_flush (streamed_callback (streamed_callback
    (streamed_open (s := s₀.ostream) rfl) key) value)
  obtain ⟨pad, cs, state, offset, hlen, hseq, hal, hs⟩ :=
    wrote_of_flushed false rfl hflush
  exact ⟨pad, cs, state, offset, hlen, hseq, hal, hs⟩

theorem addRecord_wrote (s : Store) (hoff : s.dataWriteOffset = s.current.dataByteCount)
    (key : CString) (object : Option Message) :
    Wrote s (Pages.newRecord key.bytes (object.map Message.encoding)) (s.addRecord key object) := by
  have hkey := streamed_callback (streamed_open (s := s.ostream) rfl) key.bytes
  cases object with
  | none =>
    have hflush : Flushed s.ostream (key.bytes ++ [])
        (s.ostream.ostreamCallback key.bytes).ostreamFlush := by
      rw [List.append_nil]
      exact flushed_flush hkey
    obtain ⟨pad, cs, state, offset, hlen, hseq, hal, hs⟩ :=
      wrote_of_flushed true hoff hflush
    exact ⟨pad, cs, state, offset, hlen, hseq, hal, hs⟩
  | some object =>
    have hflush := flushed_flush (streamed_pbEncode hkey object)
    obtain ⟨pad, cs, state, offset, hlen, hseq, hal, hs⟩ :=
      wrote_of_flushed false hoff hflush
    exact ⟨pad, cs, state, offset, hlen, hseq, hal, hs⟩

end Store

end KeyValueStore
end Firefly
