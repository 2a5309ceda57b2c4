import Firefly.Base.Alike

/-!
# Firefly.Base.Receiver

The loops that receive frames: bytes are put in a message until a zero, when the message is handled if
there is anything in it. `receive` has the results of the messages that are handled. A byte that does
not fit leaves a flag in the message, and the loops go on: of a frame that is too long the first bytes
are handled (`length_receive`), so that such frames are dropped only if there is none
(`receive_dropOverlong_iff`).
-/

namespace Firefly

/-! ## Frames -/

/-- The frames that end in a stream, when the first has begun with `begun`. -/
def frames (begun : List UInt8) : List UInt8 → List (List UInt8)
  | [] => []
  | byte :: data => if byte = 0 then begun :: frames [] data else frames (begun ++ [byte]) data

/-- The stream without the frames that are longer than `size`. -/
def dropOverlong (size : Nat) (begun : List UInt8) : List UInt8 → List UInt8
  | [] => begun
  | byte :: data =>
    if byte = 0 then (if begun.length ≤ size then begun ++ [0] else []) ++ dropOverlong size [] data
    else dropOverlong size (begun ++ [byte]) data

theorem frames_append {bs : List UInt8} (h : 0 ∉ bs) (begun data : List UInt8) :
    frames begun (bs ++ data) = frames (begun ++ bs) data := by
  induction bs generalizing begun with
  | nil => rw [List.nil_append, List.append_nil]
  | cons b bs ih =>
    rw [List.mem_cons, not_or] at h
    rw [List.cons_append, frames, if_neg (Ne.symm h.1), ih h.2, List.append_assoc, List.singleton_append]

/-- The other frames are there, in their order. -/
theorem frames_dropOverlong (size : Nat) {begun : List UInt8} (h : 0 ∉ begun) (data : List UInt8) :
    frames [] (dropOverlong size begun data) = (frames begun data).filter fun f => f.length ≤ size := by
  induction data generalizing begun with
  | nil =>
    have hopen := frames_append h [] []
    rw [List.append_nil] at hopen
    rw [dropOverlong, hopen, frames, frames, List.filter_nil]
  | cons byte data ih =>
    rw [dropOverlong, frames]
    by_cases hbyte : byte = 0
    · rw [if_pos hbyte, if_pos hbyte, List.filter_cons, ← ih List.not_mem_nil]
      by_cases hfits : begun.length ≤ size
      · rw [if_pos hfits, if_pos (decide_eq_true hfits), List.append_assoc, frames_append h,
          List.nil_append, List.singleton_append, frames, if_pos rfl]
      · rw [if_neg hfits, if_neg (by simpa using hfits), List.nil_append]
    · rw [if_neg hbyte, if_neg hbyte]
      refine ih ?_
      rw [List.mem_append, List.mem_singleton, not_or]
      exact ⟨h, Ne.symm hbyte⟩

/-- Nothing is dropped if nothing is too long. -/
theorem dropOverlong_eq {size : Nat} {begun data : List UInt8}
    (h : ∀ f ∈ frames begun data, f.length ≤ size) : dropOverlong size begun data = begun ++ data := by
  induction data generalizing begun with
  | nil => rw [dropOverlong, List.append_nil]
  | cons byte data ih =>
    rw [frames] at h
    rw [dropOverlong]
    by_cases hbyte : byte = 0
    · rw [if_pos hbyte] at h ⊢
      rw [List.forall_mem_cons] at h
      rw [if_pos h.1, ih h.2, List.nil_append, List.append_assoc, List.singleton_append, hbyte]
    · rw [if_neg hbyte] at h ⊢
      rw [ih h, List.append_assoc, List.singleton_append]

/-! ## The loop -/

/-- The results of the messages. `handle` gives one, and the message for the next frame. -/
def receive {β : Type} (handle : Binary → β × Binary) (message : Binary) : List UInt8 → List β
  | [] => []
  | byte :: data =>
    if byte = 0 then
      if message.putIndex ≠ 0 then (handle message).1 :: receive handle (handle message).2 data
      else receive handle message data
    else receive handle (message.putUint8 byte) data

/-- What `put_index` is after `n` bytes have been put in an empty message with room for `size` bytes. With
the largest size every byte fits, and the index begins again. -/
def kept (size n : Nat) : Nat := if size + 1 = 2 ^ 32 then n % 2 ^ 32 else min n size

/-- A message with room for `room` bytes in which a frame has begun with `n` bytes. -/
structure Begun (room n : Nat) (m : Binary) : Prop where
  size : m.size = room
  putIndex : m.putIndex = kept room n

/-- An empty message without errors. -/
structure Clean (room : Nat) (m : Binary) : Prop where
  size : m.size = room
  putIndex : m.putIndex = 0
  getIndex : m.getIndex = 0
  errors : m.errors = 0

theorem kept_zero (size : Nat) : kept size 0 = 0 := by
  rw [kept]
  split
  · rfl
  · exact Nat.zero_min size

theorem clean_initializeWith (buffer : Memory) (size : UInt32) :
    Clean size.toNat (Binary.initializeWith buffer size) := ⟨rfl, rfl, rfl, rfl⟩

variable {β : Type} {handle : Binary → β × Binary} {size n : Nat} {m m' : Binary}

theorem clean_reset (h : m.size = size) : Clean size m.reset := ⟨h, rfl, rfl, rfl⟩

theorem Clean.begun (h : Clean size m) : Begun size 0 m := ⟨h.size, h.putIndex.trans (kept_zero size).symm⟩

theorem begun_initializeWith (buffer : Memory) (size : UInt32) :
    Begun size.toNat ([] : List UInt8).length (Binary.initializeWith buffer size) :=
  (clean_initializeWith buffer size).begun

theorem Clean.alike (h : Clean size m) (h' : Clean size m') : Alike m m' := by
  refine ⟨h'.size.trans h.size.symm, h'.putIndex.trans h.putIndex.symm, h'.getIndex.trans h.getIndex.symm,
    h'.errors.trans h.errors.symm, ?_⟩
  intro x hx
  rw [h.putIndex] at hx
  omega

theorem Begun.putUint8 (h : Begun size n m) (byte : UInt8) : Begun size (n + 1) (m.putUint8 byte) := by
  have hindex := h.putIndex
  have hsize := h.size
  have hlt := m.size_lt
  rw [Binary.putUint8, Binary.putBytes, List.length_singleton]
  by_cases hroom : m.PutCheck 1
  · rw [if_pos hroom]
    rw [Binary.PutCheck] at hroom
    refine ⟨hsize, ?_⟩
    simp only [Binary.append, List.length_singleton]
    rw [kept] at hindex ⊢
    split at hindex
    · rw [if_pos ‹_›]
      omega
    · rw [if_neg ‹_›]
      omega
  · rw [if_neg hroom]
    rw [Binary.PutCheck] at hroom
    refine ⟨hsize, ?_⟩
    simp only [Binary.overflow]
    rw [kept] at hindex ⊢
    split at hindex
    · omega
    · rw [if_neg ‹_›]
      omega

/-- Every frame of which a byte was kept is handled. -/
theorem length_receive (hnext : ∀ m, m.size = size → Clean size (handle m).2) {begun : List UInt8}
    (h : Begun size begun.length m) (data : List UInt8) :
    (receive handle m data).length =
      ((frames begun data).filter fun f => kept size f.length ≠ 0).length := by
  induction data generalizing m begun with
  | nil => rfl
  | cons byte data ih =>
    rw [receive, frames]
    by_cases hbyte : byte = 0
    · rw [if_pos hbyte, if_pos hbyte, List.filter_cons]
      have hindex := h.putIndex
      by_cases hkept : m.putIndex ≠ 0
      · have hrest := @ih _ [] (hnext m h.size).begun
        rw [if_pos hkept, if_pos (by rw [← hindex]; exact decide_eq_true hkept), List.length_cons, hrest,
          List.length_cons]
      · have hzero : m.putIndex = kept size ([] : List UInt8).length := by
          rw [List.length_nil, kept_zero]
          omega
        rw [if_neg hkept, if_neg (by rw [← hindex]; simpa using hkept)]
        exact ih ⟨h.size, hzero⟩
    · rw [if_neg hbyte, if_neg hbyte]
      refine ih ?_
      rw [List.length_append, List.length_singleton]
      exact h.putUint8 byte

theorem receive_append (handle : Binary → β × Binary) {bs : List UInt8} (h : 0 ∉ bs) (m : Binary)
    (data : List UInt8) : receive handle m (bs ++ data) = receive handle (bs.foldl Binary.putUint8 m) data := by
  induction bs generalizing m with
  | nil => rfl
  | cons b bs ih =>
    rw [List.mem_cons, not_or] at h
    rw [List.cons_append, receive, if_neg (Ne.symm h.1), ih h.2, List.foldl_cons]

theorem receive_alike (hsame : ∀ m m', Alike m m' → (handle m').1 = (handle m).1)
    (hnext : ∀ m, m.size = size → Clean size (handle m).2) (hsize : m.size = size) (h : Alike m m')
    (data : List UInt8) : receive handle m' data = receive handle m data := by
  induction data generalizing m m' with
  | nil => rfl
  | cons byte data ih =>
    rw [receive, receive, h.putIndex]
    split
    · split
      · have hclean' := hnext m' (h.size.trans hsize)
        rw [hsame m m' h, ih (hnext m hsize).size ((hnext m hsize).alike hclean')]
      · exact ih hsize h
    · refine ih ?_ (h.putBytes [byte])
      rw [Binary.putUint8, Binary.putBytes]
      split
      · exact hsize
      · exact hsize

/-- With the largest size there are no errors. -/
theorem foldl_putUint8 (hsize : size + 1 = 2 ^ 32) (h : Clean size m) (bs : List UInt8) :
    let m' := bs.foldl Binary.putUint8 m
    Begun size bs.length m' ∧ m'.getIndex = 0 ∧ m'.errors = 0 := by
  induction bs using List.reverseRecOn with
  | nil => exact ⟨h.begun, h.getIndex, h.errors⟩
  | append_singleton bs b ih =>
    obtain ⟨hbegun, hget, herrors⟩ := ih
    rw [List.foldl_append, List.foldl_cons, List.foldl_nil, List.length_append, List.length_singleton]
    refine ⟨hbegun.putUint8 b, ?_, ?_⟩
    · rw [Binary.putUint8, Binary.putBytes]
      split
      · exact hget
      · exact hget
    · have hroom : (bs.foldl Binary.putUint8 m).PutCheck [b].length := by
        rw [Binary.PutCheck, hbegun.size]
        omega
      rw [Binary.putUint8, Binary.putBytes, if_pos hroom]
      exact herrors

/-- A frame of which nothing is kept is as good as dropped. -/
theorem receive_dropOverlong (hsame : ∀ m m', Alike m m' → (handle m').1 = (handle m).1)
    (hnext : ∀ m, m.size = size → Clean size (handle m).2) (hsize : size + 1 = 2 ^ 32) (h : Clean size m)
    {begun data : List UInt8} (hbegun : 0 ∉ begun)
    (hframes : ∀ f ∈ frames begun data, f.length ≤ size ∨ kept size f.length = 0) :
    receive handle (begun.foldl Binary.putUint8 m) data =
      receive handle m (dropOverlong size begun data) := by
  induction data generalizing m begun with
  | nil =>
    have hopen := receive_append handle hbegun m []
    rw [List.append_nil] at hopen
    rw [dropOverlong, hopen]
  | cons byte data ih =>
    rw [frames] at hframes
    rw [dropOverlong, receive]
    by_cases hbyte : byte = 0
    · rw [if_pos hbyte] at hframes ⊢
      rw [List.forall_mem_cons] at hframes
      rw [if_pos hbyte]
      obtain ⟨hput, hget, herrors⟩ := foldl_putUint8 hsize h begun
      by_cases hfits : begun.length ≤ size
      · rw [if_pos hfits, List.append_assoc, receive_append handle hbegun, List.singleton_append, receive,
          if_pos rfl]
        split
        · rw [← ih (hnext _ hput.size) List.not_mem_nil hframes.2, List.foldl_nil]
        · have hindex : (begun.foldl Binary.putUint8 m).putIndex = 0 := by omega
          rw [← ih ⟨hput.size, hindex, hget, herrors⟩ List.not_mem_nil hframes.2, List.foldl_nil]
      · have hindex := hput.putIndex.trans (hframes.1.resolve_left hfits)
        have hclean : Clean size (begun.foldl Binary.putUint8 m) := ⟨hput.size, hindex, hget, herrors⟩
        rw [if_neg hfits, List.nil_append, if_neg (not_not.mpr hindex),
          receive_alike hsame hnext h.size (h.alike hclean),
          ← ih h List.not_mem_nil hframes.2, List.foldl_nil]
    · rw [if_neg hbyte] at hframes ⊢
      have hmore : (0 : UInt8) ∉ begun ++ [byte] := by
        rw [List.mem_append, List.mem_singleton, not_or]
        exact ⟨hbegun, Ne.symm hbyte⟩
      rw [if_neg hbyte, ← ih h hmore hframes, List.foldl_append, List.foldl_cons, List.foldl_nil]

/-- What is received is what would be received without the frames that are too long if and only if
nothing of any of them is kept. -/
theorem receive_dropOverlong_iff
    (hsame : size + 1 = 2 ^ 32 → ∀ m m', Alike m m' → (handle m').1 = (handle m).1)
    (hnext : ∀ m, m.size = size → Clean size (handle m).2) (h : Clean size m) (data : List UInt8) :
    receive handle m data = receive handle m (dropOverlong size [] data) ↔
      ∀ f ∈ frames [] data, f.length ≤ size ∨ kept size f.length = 0 := by
  have hstart : Begun size ([] : List UInt8).length m := h.begun
  have hall := length_receive hnext hstart data
  have hothers := length_receive hnext hstart (dropOverlong size [] data)
  rw [frames_dropOverlong size List.not_mem_nil] at hothers
  constructor
  · intro heq f hf
    by_contra hlong
    rw [not_or] at hlong
    rw [heq, hothers] at hall
    have hsub : (((frames [] data).filter fun f => f.length ≤ size).filter fun f =>
        kept size f.length ≠ 0).Sublist ((frames [] data).filter fun f => kept size f.length ≠ 0) :=
      (List.filter_sublist).filter _
    have hkept : f ∈ (frames [] data).filter fun f => kept size f.length ≠ 0 := by
      rw [List.mem_filter, decide_eq_true_eq]
      exact ⟨hf, hlong.2⟩
    rw [← hsub.eq_of_length hall, List.mem_filter, List.mem_filter, decide_eq_true_eq] at hkept
    exact hlong.1 hkept.1.2
  · intro hframes
    by_cases hsize : size + 1 = 2 ^ 32
    · exact receive_dropOverlong (hsame hsize) hnext hsize h List.not_mem_nil hframes
    · by_cases hzero : size = 0
      · have hnone : ∀ fs : List (List UInt8), (fs.filter fun f => kept size f.length ≠ 0) = [] := by
          intro fs
          rw [List.filter_eq_nil_iff]
          intro f _
          simp [kept, hzero]
        rw [hnone, List.length_nil] at hall hothers
        rw [List.eq_nil_of_length_eq_zero hall, List.eq_nil_of_length_eq_zero hothers]
      · have hshort : ∀ f ∈ frames [] data, f.length ≤ size := by
          intro f hf
          have hkept := hframes f hf
          rw [kept, if_neg hsize] at hkept
          omega
        rw [dropOverlong_eq hshort, List.nil_append]

end Firefly
