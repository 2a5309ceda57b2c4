import Mathlib.Data.List.Basic
import Mathlib.Data.UInt

/-!
# Firefly.Lib.Cobs

Consistent overhead byte stuffing: byte strings written without the zero byte, so that a zero can
delimit them.

A string is cut into runs of nonzero bytes, each written as a block: a code, one more than the length
of the run, and the run. `Encodes bs data` says that the blocks `bs` stand for `data`. It leaves open
whether the encoding of a string that ends with a full block ends there or with one more, empty block.

* `encode` makes an encoding, with the empty block (`encodes_encode`).
* `decode` reads every encoding (`Encodes.decode`), and takes whatever it is given as blocks.
* A string in which no run fills a block grows by one byte, and any other by more
  (`length_encode_eq_iff`).
-/

namespace Cobs

/-- The length of the run of a full block. -/
def fullLength : Nat := 254

def block (run : List UInt8) : List UInt8 := UInt8.ofNat (run.length + 1) :: run

/-- A full block stands for its run and any other for its run and a zero, but the last block of an
encoding for its run alone. -/
inductive Encodes : List UInt8 → List UInt8 → Prop where
  | last {run : List UInt8} (hrun : 0 ∉ run) (hlen : run.length ≤ fullLength) :
      Encodes (block run) run
  | short {run bs data : List UInt8} (hrun : 0 ∉ run) (hlen : run.length < fullLength)
      (h : Encodes bs data) : Encodes (block run ++ bs) (run ++ 0 :: data)
  | full {run bs data : List UInt8} (hrun : 0 ∉ run) (hlen : run.length = fullLength)
      (h : Encodes bs data) : Encodes (block run ++ bs) (run ++ data)

/-- The blocks of a string whose first run has begun with `run`. -/
def stuff (run : List UInt8) : List UInt8 → List UInt8
  | [] => block run
  | b :: bs =>
    if b = 0 then block run ++ stuff [] bs
    else if run.length + 1 = fullLength then block (run ++ [b]) ++ stuff [] bs
    else stuff (run ++ [b]) bs

def encode (data : List UInt8) : List UInt8 := stuff [] data

/-- The blocks that are closed, and the run of the open one, after one more byte. -/
def push (p : List UInt8 × List UInt8) (b : UInt8) : List UInt8 × List UInt8 :=
  if b = 0 then (p.1 ++ block p.2, [])
  else if p.2.length + 1 = fullLength then (p.1 ++ block (p.2 ++ [b]), [])
  else (p.1, p.2 ++ [b])

def parts (data : List UInt8) : List UInt8 × List UInt8 := data.foldl push ([], [])

/-- Somewhere in the string there are nonzero bytes for a full block. -/
def HasFullRun (data : List UInt8) : Prop := ∃ run, run <:+: data ∧ run.length = fullLength ∧ 0 ∉ run

/-- Decoding with `left` bytes to come of a block with this code. A zero in the place of a code ends
the string. -/
def unstuff (code : UInt8) : Nat → List UInt8 → List UInt8
  | _, [] => []
  | left + 1, b :: bs => b :: unstuff code left bs
  | 0, c :: bs =>
    (if code = 0xff then [] else [0]) ++ if c = 0 then [] else unstuff c (c.toNat - 1) bs

/-- Decoding begins as after a full block, which leaves no zero to write. -/
def decode (bs : List UInt8) : List UInt8 := unstuff 0xff 0 bs

/-! ## Blocks -/

theorem toNat_code {run : List UInt8} (h : run.length ≤ fullLength) :
    (UInt8.ofNat (run.length + 1)).toNat = run.length + 1 := by
  rw [UInt8.toNat_ofNat', Nat.mod_eq_of_lt]
  simp only [fullLength] at h
  omega

theorem code_ne_zero {run : List UInt8} (h : run.length ≤ fullLength) :
    UInt8.ofNat (run.length + 1) ≠ 0 := by
  intro he
  have htoNat := toNat_code h
  rw [he, UInt8.toNat_zero] at htoNat
  omega

theorem code_eq_max_iff {run : List UInt8} (h : run.length ≤ fullLength) :
    UInt8.ofNat (run.length + 1) = 0xff ↔ run.length = fullLength := by
  rw [← UInt8.toNat_inj, toNat_code h]
  simp only [fullLength]
  exact Nat.succ_inj

@[simp] theorem length_block (run : List UInt8) : (block run).length = run.length + 1 := rfl

theorem zero_notMem_block {run : List UInt8} (hrun : 0 ∉ run) (hlen : run.length ≤ fullLength) :
    0 ∉ block run := by
  intro h
  cases List.mem_cons.mp h with
  | inl hcode => exact code_ne_zero hlen hcode.symm
  | inr hmem => exact hrun hmem

/-- An encoding can be delimited with a zero. -/
theorem Encodes.zero_notMem {bs data : List UInt8} (h : Encodes bs data) : 0 ∉ bs := by
  induction h with
  | last hrun hlen => exact zero_notMem_block hrun hlen
  | short hrun hlen _ ih =>
    intro hmem
    cases List.mem_append.mp hmem with
    | inl hblock => exact zero_notMem_block hrun (Nat.le_of_lt hlen) hblock
    | inr hrest => exact ih hrest
  | full hrun hlen _ ih =>
    intro hmem
    cases List.mem_append.mp hmem with
    | inl hblock => exact zero_notMem_block hrun (Nat.le_of_eq hlen) hblock
    | inr hrest => exact ih hrest

theorem Encodes.ne_nil {bs data : List UInt8} (h : Encodes bs data) : bs ≠ [] := by
  intro hnil
  subst hnil
  cases h

/-- The string is shorter than its encoding. -/
theorem Encodes.length_lt {bs data : List UInt8} (h : Encodes bs data) : data.length < bs.length := by
  induction h with
  | last => simp
  | short _ _ _ ih =>
    simp only [List.length_append, List.length_cons, length_block]
    omega
  | full _ _ _ ih =>
    simp only [List.length_append, length_block]
    omega

/-! ## Decoding -/

/-- The rest of a block. -/
theorem unstuff_run (code : UInt8) (run bs : List UInt8) :
    unstuff code run.length (run ++ bs) = run ++ unstuff code 0 bs := by
  induction run with
  | nil => rfl
  | cons b run ih => rw [List.length_cons, List.cons_append, unstuff, ih, List.cons_append]

/-- A block, after one with the code `code`. -/
theorem unstuff_block {run : List UInt8} (hlen : run.length ≤ fullLength) (code : UInt8)
    (bs : List UInt8) :
    unstuff code 0 (block run ++ bs) =
      (if code = 0xff then [] else [0]) ++ (run ++ unstuff (UInt8.ofNat (run.length + 1)) 0 bs) := by
  rw [block, List.cons_append, unstuff, if_neg (code_ne_zero hlen), toNat_code hlen,
    Nat.add_sub_cancel, unstuff_run]

theorem Encodes.unstuff {bs data : List UInt8} (h : Encodes bs data) (code : UInt8) :
    unstuff code 0 bs = (if code = 0xff then [] else [0]) ++ data := by
  induction h generalizing code with
  | last _ hlen =>
    have hblock := unstuff_block hlen code []
    rwa [List.append_nil, Cobs.unstuff, List.append_nil] at hblock
  | short _ hlen _ ih =>
    have hcode := mt (code_eq_max_iff (Nat.le_of_lt hlen)).mp (Nat.ne_of_lt hlen)
    rw [unstuff_block (Nat.le_of_lt hlen), ih, if_neg hcode, List.singleton_append]
  | full _ hlen _ ih =>
    rw [unstuff_block (Nat.le_of_eq hlen), ih, if_pos ((code_eq_max_iff (Nat.le_of_eq hlen)).mpr hlen),
      List.nil_append]

theorem Encodes.decode {bs data : List UInt8} (h : Encodes bs data) : decode bs = data := by
  rw [Cobs.decode, h.unstuff, if_pos rfl, List.nil_append]

theorem length_unstuff_le (code : UInt8) (left : Nat) (bs : List UInt8) :
    (unstuff code left bs).length ≤ bs.length := by
  induction bs generalizing code left with
  | nil => rw [unstuff]
  | cons c bs ih =>
    cases left with
    | succ left =>
      rw [unstuff, List.length_cons, List.length_cons]
      exact Nat.succ_le_succ (ih code left)
    | zero =>
      have hzero : (if code = 0xff then [] else [(0 : UInt8)]).length ≤ 1 := by
        split <;> decide
      have hrest := ih c (c.toNat - 1)
      rw [unstuff, List.length_append, List.length_cons]
      by_cases hc : c = 0
      · rw [if_pos hc, List.length_nil]
        omega
      · rw [if_neg hc]
        omega

theorem length_decode_le (bs : List UInt8) : (decode bs).length ≤ bs.length :=
  length_unstuff_le 0xff 0 bs

/-! ## Encoding -/

theorem encodes_stuff {run : List UInt8} (hrun : 0 ∉ run) (hlen : run.length < fullLength)
    (data : List UInt8) : Encodes (stuff run data) (run ++ data) := by
  induction data generalizing run with
  | nil =>
    rw [stuff, List.append_nil]
    exact .last hrun (Nat.le_of_lt hlen)
  | cons b bs ih =>
    have hempty := ih (List.not_mem_nil) (show ([] : List UInt8).length < fullLength by decide)
    rw [stuff]
    by_cases hb : b = 0
    · rw [if_pos hb, hb]
      exact .short hrun hlen hempty
    · have hrun' : 0 ∉ run ++ [b] := by
        rw [List.mem_append, List.mem_singleton]
        rintro (h | h)
        · exact hrun h
        · exact hb h.symm
      have hlen' : (run ++ [b]).length = run.length + 1 := by simp
      have happend : run ++ b :: bs = run ++ [b] ++ bs := by simp
      rw [if_neg hb, happend]
      by_cases hfull : run.length + 1 = fullLength
      · rw [if_pos hfull]
        exact .full hrun' (hlen'.trans hfull) hempty
      · rw [if_neg hfull]
        exact ih hrun' (by omega)

theorem encodes_encode (data : List UInt8) : Encodes (encode data) data :=
  encodes_stuff List.not_mem_nil (by decide) data

theorem decode_encode (data : List UInt8) : decode (encode data) = data := (encodes_encode data).decode

theorem parts_snoc (data : List UInt8) (b : UInt8) : parts (data ++ [b]) = push (parts data) b := by
  rw [parts, List.foldl_append, List.foldl_cons, List.foldl_nil, parts]

theorem foldl_push (p : List UInt8 × List UInt8) (data : List UInt8) :
    (data.foldl push p).1 ++ block (data.foldl push p).2 = p.1 ++ stuff p.2 data := by
  induction data generalizing p with
  | nil => rw [List.foldl_nil, stuff]
  | cons b data ih =>
    rw [List.foldl_cons, ih, push, stuff]
    by_cases hb : b = 0
    · rw [if_pos hb, if_pos hb, List.append_assoc]
    · by_cases hfull : p.2.length + 1 = fullLength
      · rw [if_neg hb, if_pos hfull, if_neg hb, if_pos hfull, List.append_assoc]
      · rw [if_neg hb, if_neg hfull, if_neg hb, if_neg hfull]

/-- The last block is closed at the end of the string. -/
theorem encode_eq_parts (data : List UInt8) : encode data = (parts data).1 ++ block (parts data).2 :=
  (foldl_push ([], []) data).symm

/-- The open block is not full, and each byte so far has its place, with one more for each full block. -/
theorem length_parts (data : List UInt8) :
    (parts data).2.length < fullLength ∧
      ∃ k, (parts data).1.length + (parts data).2.length = data.length + k ∧
        fullLength * k + (parts data).2.length ≤ data.length := by
  induction data using List.reverseRecOn with
  | nil => exact ⟨by simp [parts, fullLength], 0, rfl, Nat.le_refl 0⟩
  | append_singleton data b ih =>
    obtain ⟨hrun, k, hk, hle⟩ := ih
    rw [parts_snoc, push, List.length_append, List.length_singleton]
    by_cases hb : b = 0
    · rw [if_pos hb]
      refine ⟨by simp [fullLength], k, ?_, ?_⟩
      · simp only [List.length_append, length_block, List.length_nil]
        omega
      · rw [List.length_nil]
        omega
    · by_cases hfull : (parts data).2.length + 1 = fullLength
      · rw [if_neg hb, if_pos hfull]
        refine ⟨by simp [fullLength], k + 1, ?_, ?_⟩
        · simp only [List.length_append, length_block, List.length_singleton, List.length_nil]
          omega
        · rw [Nat.mul_succ, List.length_nil]
          omega
      · rw [if_neg hb, if_neg hfull]
        simp only [List.length_append, List.length_singleton]
        exact ⟨by omega, k, by omega, by omega⟩

/-- A code for each block, and a block at most for `fullLength` bytes and one more. -/
theorem length_stuff {run : List UInt8} (hlen : run.length < fullLength) (data : List UInt8) :
    ∃ k, (stuff run data).length = run.length + data.length + 1 + k ∧
      fullLength * k ≤ run.length + data.length := by
  induction data generalizing run with
  | nil => exact ⟨0, by simp [stuff], by simp⟩
  | cons b bs ih =>
    obtain ⟨k, hk, hle⟩ := ih (show ([] : List UInt8).length < fullLength by decide)
    rw [stuff]
    by_cases hb : b = 0
    · refine ⟨k, ?_, ?_⟩
      · rw [if_pos hb, List.length_append, hk, length_block, List.length_cons, List.length_nil]
        omega
      · rw [List.length_cons]
        simp only [List.length_nil] at hle
        omega
    · rw [if_neg hb]
      by_cases hfull : run.length + 1 = fullLength
      · refine ⟨k + 1, ?_, ?_⟩
        · rw [if_pos hfull, List.length_append, hk, length_block, List.length_append,
            List.length_singleton, List.length_cons, List.length_nil]
          omega
        · rw [List.length_cons, Nat.mul_succ]
          simp only [List.length_nil] at hle
          omega
      · rw [if_neg hfull]
        obtain ⟨j, hj, hjle⟩ := ih (show (run ++ [b]).length < fullLength by simp; omega)
        simp only [List.length_append, List.length_singleton] at hj hjle
        refine ⟨j, ?_, ?_⟩
        · rw [hj, List.length_cons]
          omega
        · rw [List.length_cons]
          omega

/-- A string shorter than a full block grows by one byte. -/
theorem length_encode_of_lt {data : List UInt8} (h : data.length < fullLength) :
    (encode data).length = data.length + 1 := by
  obtain ⟨k, hk, hle⟩ := length_stuff (show ([] : List UInt8).length < fullLength by decide) data
  have hzero : k = 0 := by
    by_contra hne
    have hmul : fullLength * 1 ≤ fullLength * k := Nat.mul_le_mul_left _ (Nat.pos_of_ne_zero hne)
    simp only [List.length_nil] at hle
    omega
  rw [encode, hk, hzero, List.length_nil]
  omega

/-! ## Full runs -/

theorem HasFullRun.le_length {data : List UInt8} (h : HasFullRun data) : fullLength ≤ data.length := by
  obtain ⟨run, hinfix, hlen, -⟩ := h
  rw [← hlen]
  exact hinfix.length_le

theorem HasFullRun.append_right {data : List UInt8} (h : HasFullRun data) (rest : List UInt8) :
    HasFullRun (data ++ rest) := by
  obtain ⟨run, hinfix, hrun⟩ := h
  exact ⟨run, hinfix.trans (List.prefix_append data rest).isInfix, hrun⟩

/-- No run goes over a zero. -/
theorem hasFullRun_append_zero (as bs : List UInt8) :
    HasFullRun (as ++ 0 :: bs) ↔ HasFullRun as ∨ HasFullRun bs := by
  constructor
  · rintro ⟨run, ⟨s, t, hst⟩, hlen, hrun⟩
    have hzero (c l : List UInt8) (h : c ++ l = 0 :: bs) : c = [] ∨ ∃ c', c = 0 :: c' ∧ c' ++ l = bs := by
      cases c with
      | nil => exact Or.inl rfl
      | cons x c' =>
        obtain ⟨rfl, hc'⟩ := List.cons.inj h
        exact Or.inr ⟨c', rfl, hc'⟩
    -- either the run begins after the first string, or it ends in it
    rw [List.append_assoc, List.append_eq_append_iff] at hst
    rcases hst with ⟨a, rfl, ha⟩ | ⟨c, rfl, hc⟩
    · rw [List.append_eq_append_iff] at ha
      rcases ha with ⟨a', rfl, -⟩ | ⟨c, hc, hzt⟩
      · exact Or.inl ⟨run, ⟨s, a', by rw [List.append_assoc]⟩, hlen, hrun⟩
      · rcases hzero c t hzt.symm with rfl | ⟨c', rfl, -⟩
        · rw [List.append_nil] at hc
          exact Or.inl ⟨run, ⟨s, [], by rw [hc, List.append_nil]⟩, hlen, hrun⟩
        · exact absurd (by simp [hc]) hrun
    · rcases hzero c (run ++ t) hc.symm with rfl | ⟨c', -, hbs⟩
      · rcases hzero run t hc.symm with rfl | ⟨run', rfl, -⟩
        · cases hlen
        · exact absurd List.mem_cons_self hrun
      · exact Or.inr ⟨run, ⟨c', t, by rw [List.append_assoc, hbs]⟩, hlen, hrun⟩
  · rintro (h | ⟨run, hinfix, hrun⟩)
    · exact h.append_right (0 :: bs)
    · exact ⟨run, hinfix.trans ⟨as ++ [0], [], by simp⟩, hrun⟩

/-- A block is added for a full run, and only for one. -/
theorem length_stuff_eq_iff {run : List UInt8} (hrun : 0 ∉ run) (hlen : run.length < fullLength)
    (data : List UInt8) :
    (stuff run data).length = run.length + data.length + 1 ↔ ¬ HasFullRun (run ++ data) := by
  have hempty : ([] : List UInt8).length < fullLength := by simp [fullLength]
  induction data generalizing run with
  | nil =>
    rw [stuff, length_block, List.append_nil]
    refine iff_of_true rfl ?_
    intro hfull
    have hle := hfull.le_length
    omega
  | cons b bs ih =>
    have hnext := ih List.not_mem_nil hempty
    rw [List.nil_append, List.length_nil] at hnext
    rw [stuff]
    by_cases hb : b = 0
    · have hshort : ¬ HasFullRun run := fun h => absurd h.le_length (by omega)
      rw [if_pos hb, hb, hasFullRun_append_zero, or_iff_right hshort, List.length_append, length_block,
        List.length_cons]
      refine Iff.trans ?_ hnext
      omega
    · have hrun' : 0 ∉ run ++ [b] := by simp [hrun, Ne.symm hb]
      have happend : run ++ b :: bs = run ++ [b] ++ bs := by simp
      rw [if_neg hb, happend]
      by_cases hfull : run.length + 1 = fullLength
      · have hlast : (run ++ [b]).length = fullLength := by simpa using hfull
        have hlt := (encodes_encode bs).length_lt
        rw [encode] at hlt
        rw [if_pos hfull]
        refine iff_of_false ?_ (not_not.mpr ⟨run ++ [b], (List.prefix_append _ bs).isInfix, hlast, hrun'⟩)
        rw [List.length_append, length_block, List.length_cons, List.length_append, List.length_singleton]
        omega
      · have hlast : (run ++ [b]).length < fullLength := by
          rw [List.length_append, List.length_singleton]
          omega
        have hopen := ih hrun' hlast
        rw [List.length_append, List.length_singleton] at hopen
        rw [if_neg hfull, List.length_cons]
        refine Iff.trans ?_ hopen
        omega

theorem length_encode_eq_iff (data : List UInt8) :
    (encode data).length = data.length + 1 ↔ ¬ HasFullRun data := by
  have hiff := length_stuff_eq_iff List.not_mem_nil (by simp [fullLength]) data
  rwa [List.length_nil, Nat.zero_add, List.nil_append] at hiff

end Cobs
