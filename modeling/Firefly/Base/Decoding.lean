import Firefly.Base.Cobs

/-!
# Firefly.Base.Decoding

The loop of `fd_cobs_decode` as it is written, on any bytes. A `pass` reads the byte at `src` and writes
at `dst` at most, which stays behind (`Behind`), so that every byte is read as it was. The loop ends
within the string, and leaves what it would leave in a buffer of its own (`decode_safe`).
-/

namespace Firefly
namespace InPlace
namespace Decoder

/-- One pass of the loop with the bytes read from `source`, and whether it goes on. -/
def passFrom (source : Memory) (d : Decoder) : Bool × Decoder :=
  if d.blockLength ≠ 0 then
    (true,
      { d with
        data := d.data.write d.dst [source d.src]
        src := d.src + 1
        dst := d.dst + 1
        blockLength := d.blockLength - 1 })
  else
    let d := d.endBlock
    let code := source d.src
    (code ≠ 0, { d with src := d.src + 1, code := code, blockLength := if code = 0 then code else code - 1 })

/-- One pass of the loop in place. Where a block ends, its zero is written before the code is read. -/
def pass (d : Decoder) : Bool × Decoder :=
  if d.blockLength ≠ 0 then d.passFrom d.data else d.passFrom d.endBlock.data

/-- The address that a pass reads. -/
def readAddress (d : Decoder) : Nat := d.src

/-- The addresses that a pass writes. -/
def writeAddresses (d : Decoder) : List Nat := if d.blockLength ≠ 0 ∨ d.code ≠ 0xff then [d.dst] else []

/-- The loop from `d` ends with `d'`. -/
inductive Runs (pass : Decoder → Bool × Decoder) (length : Nat) : Decoder → Decoder → Prop where
  | done {d : Decoder} (h : ¬ d.src < length) : Runs pass length d d
  | stop {d d' : Decoder} (h : d.src < length) (hpass : pass d = (false, d')) : Runs pass length d d'
  | next {d d₁ d' : Decoder} (h : d.src < length) (hpass : pass d = (true, d₁))
      (hrest : Runs pass length d₁ d') : Runs pass length d d'

/-- In the loop from `d` there is a pass that begins with `d'`. -/
inductive Visits (pass : Decoder → Bool × Decoder) (length : Nat) : Decoder → Decoder → Prop where
  | here {d : Decoder} (h : d.src < length) : Visits pass length d d
  | next {d d₁ d' : Decoder} (h : d.src < length) (hpass : pass d = (true, d₁))
      (hrest : Visits pass length d₁ d') : Visits pass length d d'

/-- The decoder before its first pass, with the buffer that it writes to. -/
def start (data : Memory) : Decoder := { data := data, src := 0, dst := 0, code := 0xff, blockLength := 0 }

/-! ## One pass -/

/-- What is written next is behind what is read next, but for the first pass, which writes nothing. -/
def Behind (d : Decoder) : Prop :=
  d.dst < d.src ∨ d.src = 0 ∧ d.dst = 0 ∧ d.code = 0xff ∧ d.blockLength = 0

variable {d a : Decoder} {source : Memory} {length : Nat}

theorem behind_start (data : Memory) : (start data).Behind := Or.inr ⟨rfl, rfl, rfl, rfl⟩

theorem Behind.dst_le (h : d.Behind) : d.dst ≤ d.src := by
  cases h with
  | inl hlt => exact Nat.le_of_lt hlt
  | inr hfirst => rw [hfirst.1, hfirst.2.1]

theorem Behind.writes (h : d.Behind) : ∀ x ∈ d.writeAddresses, x < d.readAddress := by
  intro x hx
  rw [writeAddresses] at hx
  split at hx
  · rename_i hwrites
    rw [List.mem_singleton.mp hx, readAddress]
    cases h with
    | inl hlt => exact hlt
    | inr hfirst =>
      cases hwrites with
      | inl hblock => exact absurd hfirst.2.2.2 hblock
      | inr hcode => exact absurd hfirst.2.2.1 hcode
  · exact absurd hx List.not_mem_nil

theorem passFrom_outside {x : Nat} (h : x ∉ d.writeAddresses) : (d.passFrom source).2.data x = d.data x := by
  rw [writeAddresses] at h
  rw [passFrom]
  by_cases hblock : d.blockLength ≠ 0
  · rw [if_pos (Or.inl hblock), List.mem_singleton] at h
    rw [if_pos hblock]
    exact Memory.write_of_outside (by rw [List.length_singleton]; omega)
  · rw [if_neg hblock]
    by_cases hcode : d.code ≠ 0xff
    · rw [if_pos (Or.inr hcode), List.mem_singleton] at h
      simp only [endBlock, if_pos hcode]
      exact Memory.write_of_outside (by rw [List.length_singleton]; omega)
    · simp only [endBlock, if_neg hcode]

theorem endBlock_outside {x : Nat} (h : x ≠ d.dst) : d.endBlock.data x = d.data x := by
  rw [endBlock]
  split
  · exact Memory.write_of_outside (by rw [List.length_singleton]; omega)
  · rfl

theorem endBlock_src (d : Decoder) : d.endBlock.src = d.src := by
  rw [endBlock]
  split <;> rfl

/-- The byte that a pass reads is the one that was there before it. -/
theorem Behind.pass_eq (h : d.Behind) : d.pass = d.passFrom d.data := by
  rw [pass]
  by_cases hblock : d.blockLength ≠ 0
  · rw [if_pos hblock]
  · have hread : d.endBlock.data d.src = d.data d.src := by
      rcases h with hlt | ⟨-, -, hcode, -⟩
      · exact endBlock_outside (by omega)
      · rw [endBlock, if_neg (not_not.mpr hcode)]
    rw [if_neg hblock, passFrom, passFrom, if_neg hblock, if_neg hblock]
    simp only [endBlock_src, hread]

theorem passFrom_src (source : Memory) (d : Decoder) : (d.passFrom source).2.src = d.src + 1 := by
  rw [passFrom]
  split
  · rfl
  · simp only [endBlock_src]

theorem Behind.passFrom (h : d.Behind) (source : Memory) : (d.passFrom source).2.Behind := by
  have hle := h.dst_le
  have hsrc := passFrom_src source d
  refine Or.inl ?_
  rw [hsrc, Decoder.passFrom]
  by_cases hblock : d.blockLength ≠ 0
  · rw [if_pos hblock]
    rcases h with hlt | ⟨-, -, -, hzero⟩
    · exact Nat.succ_lt_succ hlt
    · exact absurd hzero hblock
  · rw [if_neg hblock]
    by_cases hcode : d.code ≠ 0xff
    · simp only [endBlock, if_pos hcode]
      rcases h with hlt | ⟨-, -, hfirst, -⟩
      · exact Nat.succ_lt_succ hlt
      · exact absurd hfirst hcode
    · simp only [endBlock, if_neg hcode]
      omega

/-! ## In place and apart -/

/-- The decoder `a` reads from `source` and has the same written to a buffer of its own; what is in front
of `d` is as in `source`. -/
structure Apart (source : Memory) (d a : Decoder) : Prop where
  src : a.src = d.src
  dst : a.dst = d.dst
  code : a.code = d.code
  blockLength : a.blockLength = d.blockLength
  written : ∀ x, x < d.dst → a.data x = d.data x
  ahead : ∀ x, d.src ≤ x → d.data x = source x

theorem apart_start (source out : Memory) : Apart source (start source) (start out) :=
  ⟨rfl, rfl, rfl, rfl, fun _ hx => absurd hx (Nat.not_lt_zero _), fun _ _ => rfl⟩

theorem write_agrees {m m' : Memory} {n : Nat} (h : ∀ x, x < n → m x = m' x) (b : UInt8) :
    ∀ x, x < n + 1 → m.write n [b] x = m'.write n [b] x := by
  intro x hx
  by_cases hlast : x = n
  · rw [hlast, Memory.write_singleton_self, Memory.write_singleton_self]
  · rw [Memory.write_of_outside (by rw [List.length_singleton]; omega),
      Memory.write_of_outside (by rw [List.length_singleton]; omega), h x (by omega)]

theorem Apart.pass (h : Apart source d a) (hbehind : d.Behind) :
    d.pass.1 = (a.passFrom source).1 ∧ Apart source d.pass.2 (a.passFrom source).2 := by
  have hread : d.data d.src = source d.src := h.ahead d.src (Nat.le_refl _)
  have hahead : ∀ x, d.src + 1 ≤ x → (d.passFrom d.data).2.data x = source x := by
    intro x hx
    rw [passFrom_outside, h.ahead x (by omega)]
    intro hmem
    have hlt := hbehind.writes x hmem
    rw [readAddress] at hlt
    omega
  have hsrc := passFrom_src d.data d
  rw [← hsrc] at hahead
  rw [hbehind.pass_eq]
  generalize hd : d.passFrom d.data = r at hahead ⊢
  rw [passFrom] at hd ⊢
  rw [h.blockLength]
  by_cases hblock : d.blockLength ≠ 0
  · rw [if_pos hblock] at hd ⊢
    subst hd
    refine ⟨rfl, ⟨?_, ?_, h.code, ?_, ?_, hahead⟩⟩
    · simp only [h.src]
    · simp only [h.dst]
    · rfl
    · simp only [h.src, h.dst, hread]
      exact write_agrees h.written _
  · rw [if_neg hblock] at hd ⊢
    subst hd
    have hend : a.endBlock.src = d.endBlock.src ∧ a.endBlock.dst = d.endBlock.dst ∧
        ∀ x, x < d.endBlock.dst → a.endBlock.data x = d.endBlock.data x := by
      rw [endBlock, endBlock, h.code]
      split
      · simp only [h.src, h.dst, true_and]
        exact write_agrees h.written _
      · exact ⟨h.src, h.dst, h.written⟩
    refine ⟨?_, ⟨?_, hend.2.1, ?_, ?_, hend.2.2, hahead⟩⟩
    · simp only [hend.1, endBlock_src, hread]
    · simp only [hend.1]
    · simp only [hend.1, endBlock_src, hread]
    · simp only [hend.1, endBlock_src, hread]

/-! ## The loop -/

theorem runs_loop {n : Nat} (hn : d.src + n = length) : Runs pass length d (Decoder.loop n d) := by
  induction n generalizing d with
  | zero => exact .done (by omega)
  | succ n ih =>
    have hlt : d.src < length := by omega
    rw [Decoder.loop]
    by_cases hblock : d.blockLength ≠ 0
    · rw [if_pos hblock]
      refine .next hlt ?_ (ih (by simp only; omega))
      rw [pass, if_pos hblock, passFrom, if_pos hblock]
    · rw [if_neg hblock]
      by_cases hzero : d.endBlock.data d.endBlock.src = 0
      · rw [if_pos hzero]
        refine .stop hlt ?_
        rw [endBlock_src] at hzero
        rw [pass, if_neg hblock, passFrom, if_neg hblock]
        simp only [endBlock_src, hzero, ne_eq, not_true_eq_false, decide_false, if_true]
      · rw [if_neg hzero]
        rw [endBlock_src] at hzero
        refine .next hlt ?_ (ih (by simp only [endBlock_src]; omega))
        rw [pass, if_neg hblock, passFrom, if_neg hblock]
        simp only [endBlock_src, hzero, ne_eq, not_false_eq_true, decide_true, if_false]

theorem Behind.visits {d' : Decoder} (h : d.Behind) (hvisits : Visits pass length d d') :
    d'.readAddress < length ∧ ∀ x ∈ d'.writeAddresses, x < d'.readAddress := by
  induction hvisits with
  | here hlt => exact ⟨hlt, h.writes⟩
  | @next d d₁ d' hlt hpass _ ih =>
    have hnext := h.passFrom d.data
    rw [← h.pass_eq, hpass] at hnext
    exact ih hnext

/-- The loop ends behind what it read. -/
theorem Behind.runs {d' : Decoder} (h : d.Behind) (hle : d.src ≤ length) (hruns : Runs pass length d d') :
    d'.Behind ∧ d'.src ≤ length ∧ d.src ≤ d'.src ∧ (d.src < length → d.src < d'.src) := by
  induction hruns with
  | done hend => exact ⟨h, hle, Nat.le_refl _, fun hlt => absurd hlt hend⟩
  | @stop d d' hlt hpass =>
    have hnext := h.passFrom d.data
    have hsrc := passFrom_src d.data d
    rw [← h.pass_eq, hpass] at hnext hsrc
    simp only at hnext hsrc
    exact ⟨hnext, by omega, by omega, fun _ => by omega⟩
  | @next d d₁ d' hlt hpass _ ih =>
    have hnext := h.passFrom d.data
    have hsrc := passFrom_src d.data d
    rw [← h.pass_eq, hpass] at hnext hsrc
    simp only at hnext hsrc
    obtain ⟨hbehind, hsrc', hmono, -⟩ := ih hnext (by omega)
    exact ⟨hbehind, hsrc', by omega, fun _ => by omega⟩

theorem Apart.runs {d' : Decoder} (h : Apart source d a) (hbehind : d.Behind)
    (hruns : Runs Decoder.pass length d d') :
    ∃ a', Runs (passFrom source) length a a' ∧ Apart source d' a' := by
  induction hruns generalizing a with
  | done hend => exact ⟨a, .done (by rwa [h.src]), h⟩
  | @stop d d' hlt hpass =>
    obtain ⟨hgoes, happart⟩ := h.pass hbehind
    rw [hpass] at hgoes happart
    have hstops : a.passFrom source = (false, (a.passFrom source).2) := Prod.ext hgoes.symm rfl
    exact ⟨_, .stop (by rwa [h.src]) hstops, happart⟩
  | @next d d₁ d' hlt hpass _ ih =>
    obtain ⟨hgoes, happart⟩ := h.pass hbehind
    have hnext := hbehind.passFrom d.data
    rw [← hbehind.pass_eq, hpass] at hnext
    rw [hpass] at hgoes happart
    have hgoesOn : a.passFrom source = (true, (a.passFrom source).2) := Prod.ext hgoes.symm rfl
    obtain ⟨a', hrest, hlast⟩ := ih happart hnext
    exact ⟨a', .next (by rwa [h.src]) hgoesOn hrest, hlast⟩

end Decoder

open Decoder in
/-- On any bytes the decoder comes to an end. It reads within the string and writes behind what it reads,
what it returns is shorter than a string that is not empty, and the bytes are those that it leaves in
a buffer of its own. -/
theorem decode_safe (data : Memory) (length : Nat) :
    (∃ d, Runs pass length (start data) d ∧ decode data length = (d.data, d.dst) ∧
      ∀ out, ∃ a, Runs (passFrom data) length (start out) a ∧ a.dst = d.dst ∧
        a.data.read 0 a.dst = d.data.read 0 d.dst) ∧
    (∀ d, Visits pass length (start data) d →
      d.readAddress < length ∧ ∀ x ∈ d.writeAddresses, x < d.readAddress) ∧
    (0 < length → (decode data length).2 < length) := by
  have hbehind := behind_start data
  have hruns : Runs pass length (start data) (Decoder.loop length (start data)) :=
    runs_loop (Nat.zero_add length)
  obtain ⟨hlast, hle, -, hlt⟩ := hbehind.runs (Nat.zero_le length) hruns
  refine ⟨⟨_, hruns, rfl, ?_⟩, fun d hvisits => hbehind.visits hvisits, ?_⟩
  · intro out
    obtain ⟨a, hruns', happart⟩ := (apart_start data out).runs hbehind hruns
    refine ⟨a, hruns', happart.dst, ?_⟩
    rw [happart.dst]
    apply Memory.read_congr
    intro i hi
    rw [Nat.zero_add]
    exact happart.written i hi
  · intro hpos
    have hsrc := hlt hpos
    rcases hlast with hdst | ⟨hzero, -⟩
    · exact Nat.lt_of_lt_of_le hdst hle
    · omega

/-- A block that ends too early. -/
theorem decode_safe_sample :
    (decode (Memory.write (fun _ => 0) 0 [5, 1, 2]) 3).2 < 3 ∧
      ∀ out, ∃ a, Decoder.Runs (Decoder.passFrom (Memory.write (fun _ => 0) 0 [5, 1, 2])) 3
        (Decoder.start out) a ∧ a.data.read 0 a.dst = [1, 2] := by
  obtain ⟨⟨d, -, hdecode, hapart⟩, -, hlt⟩ := decode_safe (Memory.write (fun _ => 0) 0 [5, 1, 2]) 3
  refine ⟨hlt (Nat.succ_pos 2), fun out => ?_⟩
  obtain ⟨a, hruns, -, hread⟩ := hapart out
  refine ⟨a, hruns, hread.trans ?_⟩
  have hbytes : (decode (Memory.write (fun _ => 0) 0 [5, 1, 2]) 3).1.read 0
      (decode (Memory.write (fun _ => 0) 0 [5, 1, 2]) 3).2 = [1, 2] := by decide +kernel
  rwa [hdecode] at hbytes

end InPlace
end Firefly
