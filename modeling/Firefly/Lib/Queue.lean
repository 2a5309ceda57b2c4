import Mathlib.Data.List.Basic

/-!
# Firefly.Lib.Queue

Bounded queues. An element is refused when the queue is full, and nothing is taken from an empty one.
-/

namespace Queue

variable {α : Type}

inductive Command (α : Type) where
  | put (a : α)
  | get
  | flush
  | getCount
  | isEmpty
  deriving DecidableEq

inductive Answer (α : Type) where
  | accepted (valid : Bool)
  | taken (a : Option α)
  | flushed
  | count (n : Nat)
  | empty (yes : Bool)
  deriving DecidableEq

/-- The queue of at most `capacity` elements, the oldest first. -/
def step (capacity : Nat) (q : List α) : Command α → Answer α × List α
  | .put a => if q.length < capacity then (.accepted true, q ++ [a]) else (.accepted false, q)
  | .get => (.taken q.head?, q.tail)
  | .flush => (.flushed, [])
  | .getCount => (.count q.length, q)
  | .isEmpty => (.empty q.isEmpty, q)

end Queue
