import Mathlib.Data.Set.Basic
import Mathlib.Data.List.GetD

/-!
# Firefly.Lib.Nor

NOR flash. An `Image` gives the byte at every address. Programming ANDs the new bits into the
old ones, so only an erased byte (`0xff`) takes the value written to it; erasing sets a range
to `0xff`. A `Command` is one request to the flash and a run is the list of commands issued:
`replay` is the image they leave, `dirty` the set of addresses programmed since they were last
erased, and `WriteOnce` says that no command programs an address twice between two erases.

A command that is interrupted has carried out some of its write units: `units` splits a command
into them, and `torn` is what power loss after `i` units leaves.
-/

namespace Nor

abbrev Image := Nat → UInt8

def program (m : Image) (a : Nat) (bs : List UInt8) : Image := fun x =>
  if a ≤ x ∧ x < a + bs.length then m x &&& bs.getD (x - a) 0xff else m x

def erase (m : Image) (a n : Nat) : Image := fun x =>
  if a ≤ x ∧ x < a + n then 0xff else m x

/-- The `n` bytes from address `a` on. -/
def read (m : Image) (a n : Nat) : List UInt8 := (List.range n).map fun i => m (a + i)

inductive Command where
  | program (a : Nat) (bs : List UInt8)
  | erase (a n : Nat)
  deriving DecidableEq

namespace Command

def apply (m : Image) : Command → Image
  | program a bs => Nor.program m a bs
  | erase a n => Nor.erase m a n

/-- The addresses programmed since their last erase, after the command. -/
def dirty (d : Set Nat) : Command → Set Nat
  | program a bs => fun x => x ∈ d ∨ (a ≤ x ∧ x < a + bs.length)
  | erase a n => fun x => x ∈ d ∧ ¬ (a ≤ x ∧ x < a + n)

def isErase : Command → Bool
  | program _ _ => false
  | erase _ _ => true

end Command

def replay (m : Image) (cs : List Command) : Image := cs.foldl Command.apply m

def dirty (cs : List Command) : Set Nat := cs.foldl Command.dirty ∅

/-- The number of erases. -/
def erases (cs : List Command) : Nat := cs.countP Command.isErase

/-- No command programs an address that was programmed since its last erase. -/
def WriteOnce (cs : List Command) : Prop :=
  ∀ pre a bs post, cs = pre ++ .program a bs :: post →
    ∀ x, a ≤ x → x < a + bs.length → x ∉ dirty pre

@[simp] theorem length_read (m : Image) (a n : Nat) : (read m a n).length = n := by simp [read]

theorem getElem?_read (m : Image) (a n i : Nat) :
    (read m a n)[i]? = if i < n then some (m (a + i)) else none := by
  by_cases h : i < n
  · simp [read, h]
  · simp [read, h]

theorem read_congr {m m' : Image} {a n : Nat} (h : ∀ x, a ≤ x → x < a + n → m x = m' x) :
    read m a n = read m' a n := by
  simp only [read]
  apply List.map_congr_left
  intro i hi
  have hi' : i < n := List.mem_range.mp hi
  exact h (a + i) (by omega) (by omega)

theorem read_add (m : Image) (a n k : Nat) : read m a (n + k) = read m a n ++ read m (a + n) k := by
  simp [read, List.range_add, Nat.add_assoc, Function.comp_def]

theorem program_outside {m : Image} {a : Nat} {bs : List UInt8} {x : Nat}
    (h : x < a ∨ a + bs.length ≤ x) : program m a bs x = m x := by
  rw [program, if_neg (by omega)]

theorem erase_outside {m : Image} {a n x : Nat} (h : x < a ∨ a + n ≤ x) :
    erase m a n x = m x := by
  rw [erase, if_neg (by omega)]

theorem erase_inside {m : Image} {a n x : Nat} (h : a ≤ x) (h' : x < a + n) :
    erase m a n x = 0xff := by
  rw [erase, if_pos ⟨h, h'⟩]

theorem ff_and (b : UInt8) : 0xff &&& b = b := by
  apply UInt8.toBitVec_inj.mp
  exact BitVec.allOnes_and

/-- An erased byte takes the value programmed. -/
theorem program_erased {m : Image} {a : Nat} {bs : List UInt8} {i : Nat} (h : i < bs.length)
    (he : m (a + i) = 0xff) : program m a bs (a + i) = bs[i] := by
  rw [program, if_pos (by omega), he, ff_and, Nat.add_sub_cancel_left]
  simp [h]

/-- Programming an erased range and reading it back gives the bytes written. -/
theorem read_program_self (m : Image) (a : Nat) (bs : List UInt8)
    (he : ∀ x, a ≤ x → x < a + bs.length → m x = 0xff) :
    read (program m a bs) a bs.length = bs := by
  apply List.ext_getElem (by simp)
  intro i h₁ h₂
  simp only [read, List.getElem_map, List.getElem_range]
  exact program_erased h₂ (he (a + i) (by omega) (by omega))

theorem read_program_outside {m : Image} {a b n : Nat} {bs : List UInt8}
    (h : b + n ≤ a ∨ a + bs.length ≤ b) : read (program m a bs) b n = read m b n :=
  read_congr fun _ _ _ => program_outside (by omega)

/-! ## Runs of commands -/

@[simp] theorem replay_nil (m : Image) : replay m [] = m := rfl

@[simp] theorem replay_cons (m : Image) (c : Command) (cs : List Command) :
    replay m (c :: cs) = replay (c.apply m) cs := rfl

@[simp] theorem replay_append (m : Image) (cs ds : List Command) :
    replay m (cs ++ ds) = replay (replay m cs) ds := by
  simp [replay, List.foldl_append]

/-- A run of commands split at an erase, after a run that ends with one. -/
theorem split_erase {ps rest pre post : List Command} {e : Command} {a n : Nat}
    (hps : ∀ c ∈ ps, c.isErase = false)
    (h : ps ++ e :: rest = pre ++ .erase a n :: post) :
    (ps = pre ∧ e = .erase a n ∧ rest = post) ∨
      ∃ pre', pre = ps ++ e :: pre' ∧ rest = pre' ++ .erase a n :: post := by
  rcases List.append_eq_append_iff.mp h with ⟨qs, rfl, hq⟩ | ⟨qs, rfl, hq⟩
  · cases qs with
    | nil =>
      obtain ⟨rfl, rfl⟩ : e = .erase a n ∧ rest = post := by simpa using hq
      exact .inl ⟨by simp, rfl, rfl⟩
    | cons q qs =>
      obtain ⟨rfl, rfl⟩ : e = q ∧ rest = qs ++ .erase a n :: post := by simpa using hq
      exact .inr ⟨qs, rfl, rfl⟩
  · cases qs with
    | nil =>
      obtain ⟨rfl, rfl⟩ : .erase a n = e ∧ post = rest := by simpa using hq
      exact .inl ⟨by simp, rfl, rfl⟩
    | cons q qs =>
      obtain ⟨rfl, -⟩ : .erase a n = q ∧ post = qs ++ e :: rest := by simpa using hq
      exact absurd (hps (.erase a n) (by simp)) (by simp [Command.isErase])

theorem erases_of_programs {ps : List Command} (hps : ∀ c ∈ ps, c.isErase = false) :
    erases ps = 0 := by
  rw [erases, List.countP_eq_zero]
  intro c hc
  simp [hps c hc]

@[simp] theorem erases_append (cs ds : List Command) : erases (cs ++ ds) = erases cs + erases ds :=
  List.countP_append

@[simp] theorem erases_cons_erase (a n : Nat) (cs : List Command) :
    erases (.erase a n :: cs) = erases cs + 1 := List.countP_cons_of_pos rfl

theorem dirty_snoc (cs : List Command) (c : Command) : dirty (cs ++ [c]) = c.dirty (dirty cs) := by
  simp [dirty, List.foldl_append]

theorem mem_dirty_program {cs : List Command} {a x : Nat} {bs : List UInt8} :
    x ∈ dirty (cs ++ [.program a bs]) ↔ x ∈ dirty cs ∨ (a ≤ x ∧ x < a + bs.length) := by
  rw [dirty_snoc]; rfl

theorem mem_dirty_erase {cs : List Command} {a n x : Nat} :
    x ∈ dirty (cs ++ [.erase a n]) ↔ x ∈ dirty cs ∧ ¬ (a ≤ x ∧ x < a + n) := by
  rw [dirty_snoc]; rfl

@[simp] theorem not_mem_dirty_nil (x : Nat) : x ∉ dirty [] := fun h => h

theorem writeOnce_nil : WriteOnce [] := by
  intro pre a bs post h
  simp at h

theorem writeOnce_snoc_erase {cs : List Command} {a n : Nat} (h : WriteOnce cs) :
    WriteOnce (cs ++ [.erase a n]) := by
  intro pre b bs post he
  rcases List.eq_nil_or_concat post with rfl | ⟨post', c, rfl⟩
  · simp at he
  · have he' : cs ++ [.erase a n] = (pre ++ .program b bs :: post') ++ [c] := by simpa using he
    exact h pre b bs post' (List.append_inj' he' rfl).1

theorem writeOnce_snoc_program {cs : List Command} {a : Nat} {bs : List UInt8} (h : WriteOnce cs)
    (hd : ∀ x, a ≤ x → x < a + bs.length → x ∉ dirty cs) :
    WriteOnce (cs ++ [.program a bs]) := by
  intro pre b bs' post he
  rcases List.eq_nil_or_concat post with rfl | ⟨post', c, rfl⟩
  · obtain ⟨rfl, hc⟩ := List.append_inj' he rfl
    obtain ⟨rfl, rfl⟩ : a = b ∧ bs = bs' := by simpa using hc
    exact hd
  · have he' : cs ++ [.program a bs] = (pre ++ .program b bs' :: post') ++ [c] := by simpa using he
    exact h pre b bs' post' (List.append_inj' he' rfl).1

/-! ## Programming a range piece by piece -/

theorem program_nil (m : Image) (a : Nat) : program m a [] = m := by
  funext x
  exact program_outside (by simp; omega)

theorem program_program (m : Image) (a : Nat) (bs cs : List UInt8) :
    program (program m a bs) (a + bs.length) cs = program m a (bs ++ cs) := by
  funext x
  simp only [program, List.length_append]
  by_cases h₁ : a ≤ x ∧ x < a + bs.length
  · rw [if_neg (by omega), if_pos h₁, if_pos (by omega), List.getD_append _ _ _ _ (by omega)]
  · by_cases h₂ : a + bs.length ≤ x ∧ x < a + bs.length + cs.length
    · rw [if_pos h₂, if_neg h₁, if_pos (by omega), List.getD_append_right _ _ _ _ (by omega),
        Nat.sub_sub]
    · rw [if_neg h₂, if_neg h₁, if_neg (by omega)]

/-- The commands program `bs` from `a` on, each the next piece of it. -/
inductive Sequential (a : Nat) : List UInt8 → List Command → Prop where
  | nil : Sequential a [] []
  | snoc {bs ds : List UInt8} {cs : List Command} (h : Sequential a bs cs) :
      Sequential a (bs ++ ds) (cs ++ [.program (a + bs.length) ds])

namespace Sequential

variable {a : Nat} {bs : List UInt8} {cs : List Command}

theorem replay (h : Sequential a bs cs) (m : Image) : Nor.replay m cs = program m a bs := by
  induction h with
  | nil => rw [program_nil, replay_nil]
  | snoc h ih =>
    rw [replay_append, ih, replay_cons, replay_nil, Command.apply, program_program]

theorem isErase (h : Sequential a bs cs) : ∀ c ∈ cs, c.isErase = false := by
  induction h with
  | nil => simp
  | snoc h ih =>
    intro c hc
    rcases List.mem_append.mp hc with hc | hc
    · exact ih c hc
    · rw [List.mem_singleton.mp hc]; rfl

theorem mem_dirty (h : Sequential a bs cs) (log : List Command) (x : Nat) :
    x ∈ dirty (log ++ cs) ↔ x ∈ dirty log ∨ (a ≤ x ∧ x < a + bs.length) := by
  induction h with
  | nil => simp
  | @snoc bs ds cs h ih =>
    rw [← List.append_assoc, mem_dirty_program, ih, List.length_append]
    constructor
    · rintro ((hx | hx) | hx)
      · exact .inl hx
      · exact .inr (by omega)
      · exact .inr (by omega)
    · rintro (hx | hx)
      · exact .inl (.inl hx)
      · by_cases hlt : x < a + bs.length
        · exact .inl (.inr ⟨hx.1, hlt⟩)
        · exact .inr (by omega)

theorem writeOnce (h : Sequential a bs cs) {log : List Command} (hw : WriteOnce log)
    (hd : ∀ x, a ≤ x → x < a + bs.length → x ∉ dirty log) : WriteOnce (log ++ cs) := by
  induction h with
  | nil => simpa using hw
  | @snoc bs ds cs h ih =>
    have hlen : (bs ++ ds).length = bs.length + ds.length := List.length_append
    rw [← List.append_assoc]
    refine writeOnce_snoc_program (ih fun x hx hx' => hd x hx (by omega)) fun x hx hx' hmem => ?_
    rcases (h.mem_dirty log x).mp hmem with hm | hm
    · exact hd x (by omega) (by omega) hm
    · omega

end Sequential

/-! ## Write units -/

/-- The command covers whole write units. -/
def Command.Aligned (w : Nat) : Command → Prop
  | program _ bs => w ∣ bs.length
  | erase _ n => w ∣ n

end Nor
