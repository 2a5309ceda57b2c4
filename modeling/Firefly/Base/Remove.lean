import Firefly.Base.Binary

/-!
# Firefly.Base.Remove

`fd_binary_remove` takes a slice out of what has been put. The bytes behind the slice are moved over it,
but the amount that is moved is `put_index - length`, which counts the bytes in front of the slice too: as
many bytes from `put_index` on are moved with them. What is left is right (`contents_remove`), and only a
slice at the start is removed without going beyond (`cuts_iff`). The indices are 32-bit numbers.
-/

namespace Firefly
namespace Binary

/-- The arguments of `memmove`, as indices. -/
structure Move where
  target : Nat
  source : Nat
  amount : Nat
  deriving DecidableEq

/-- The byte is read or written. -/
def Move.Touches (m : Move) (i : Nat) : Prop :=
  m.source ≤ i ∧ i < m.source + m.amount ∨ m.target ≤ i ∧ i < m.target + m.amount

def removeMove (b : Binary) (index length : Nat) : Move where
  target := index
  source := (index + length) % 2 ^ 32
  amount := (2 ^ 32 - length + b.putIndex) % 2 ^ 32

/-- `fd_binary_remove`. -/
def remove (b : Binary) (index length : Nat) : Binary :=
  let move := b.removeMove index length
  { b with
    buffer := b.buffer.move move.target move.source move.amount
    getIndex :=
      if b.getIndex > (index + length) % 2 ^ 32 then (2 ^ 32 - length + b.getIndex) % 2 ^ 32
      else if b.getIndex > index then index
      else b.getIndex
    putIndex := (2 ^ 32 - length + b.putIndex) % 2 ^ 32 }

/-- Where a byte goes when a slice is cut out in front of it. A byte of the slice goes to its start. -/
def shifted (index length i : Nat) : Nat :=
  if i < index then i else if i < index + length then index else i - length

/-- The slice is cut out of what has been put, and nothing behind that is touched. -/
structure Cuts (b : Binary) (index length : Nat) : Prop where
  contents : (b.remove index length).contents = b.contents.take index ++ b.contents.drop (index + length)
  getIndex : (b.remove index length).getIndex = shifted index length b.getIndex
  inside : ∀ i, (b.removeMove index length).Touches i → i < b.putIndex

variable {b : Binary} {index length : Nat}

theorem removeMove_eq (h : index + length ≤ b.putIndex) (hput : b.putIndex ≤ b.size) :
    b.removeMove index length = ⟨index, index + length, b.putIndex - length⟩ := by
  have hsize := b.size_lt
  rw [removeMove, Move.mk.injEq]
  omega

theorem contents_remove (h : index + length ≤ b.putIndex) (hput : b.putIndex ≤ b.size) :
    (b.remove index length).contents = b.contents.take index ++ b.contents.drop (index + length) := by
  have hsize := b.size_lt
  have hamount : (2 ^ 32 - length + b.putIndex) % 2 ^ 32 = index + (b.putIndex - (index + length)) := by omega
  have hmoved := Memory.read_move b.buffer index (index + length) (b.putIndex - length)
  have hbehind : (b.buffer.move index (index + length) (b.putIndex - length)).read index
      (b.putIndex - (index + length)) = b.buffer.read (index + length) (b.putIndex - (index + length)) := by
    rw [← Memory.take_read (n := b.putIndex - length) (by omega), hmoved, Memory.take_read (by omega)]
  have hfront : (b.buffer.move index (index + length) (b.putIndex - length)).read 0 index =
      b.buffer.read 0 index :=
    Memory.read_write_of_disjoint (Or.inl (by omega))
  simp only [remove, contents, removeMove_eq h hput, hamount]
  rw [Memory.read_add, hfront, Nat.zero_add, hbehind, Memory.take_read (by omega), Memory.drop_read h,
    Nat.zero_add]

theorem getIndex_remove (h : index + length ≤ b.putIndex) (hput : b.putIndex ≤ b.size)
    (hget : b.getIndex < 2 ^ 32) : (b.remove index length).getIndex = shifted index length b.getIndex := by
  have hsize := b.size_lt
  simp only [remove, shifted]
  repeat' split
  all_goals omega

theorem cuts_iff (h : index + length ≤ b.putIndex) (hput : b.putIndex ≤ b.size) (hget : b.getIndex < 2 ^ 32) :
    b.Cuts index length ↔ index = 0 := by
  have hmove := removeMove_eq h hput
  constructor
  · intro hcuts
    by_contra hpos
    have hinside := hcuts.inside b.putIndex
    rw [hmove, Move.Touches] at hinside
    have hread : index + length ≤ b.putIndex ∧ b.putIndex < index + length + (b.putIndex - length) := by omega
    exact absurd (hinside (Or.inl hread)) (Nat.lt_irrefl _)
  · rintro rfl
    refine ⟨contents_remove h hput, getIndex_remove h hput hget, ?_⟩
    intro i hi
    rw [hmove, Move.Touches] at hi
    simp only at hi
    omega

/-- Four bytes, of which three have been put and one has been taken. -/
def sampleBytes : Binary := { initializeWith (fun i => UInt8.ofNat i) 4 with putIndex := 3, getIndex := 1 }

theorem cuts_sample : sampleBytes.Cuts 0 2 :=
  (cuts_iff (by decide) (by decide) (by decide)).mpr rfl

theorem not_cuts_sample : (sampleBytes.removeMove 1 1).Touches 3 ∧ ¬ sampleBytes.Cuts 1 1 := by
  have htouched : (sampleBytes.removeMove 1 1).Touches 3 := Or.inl (by decide)
  exact ⟨htouched, fun h => absurd (h.inside 3 htouched) (by decide)⟩

end Binary
end Firefly
