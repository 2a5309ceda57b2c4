import Firefly.Base.EvalTokens
import Mathlib.Data.UInt

/-!
# Firefly.Base.EvalValue

The values and the evaluation of `fd_eval.c`. A value is its type and the 64 bits of its union, the boolean
in the lowest byte. What the compiler makes of doubles is a parameter, on their bit patterns. An operation
on 64-bit integers is noted with its operands where it is performed; its result is taken modulo `2 ^ 64`
where C leaves it undefined. Evaluation goes as deep as there is fuel, for a tree need not be one.
-/

namespace Firefly
namespace Eval

inductive ValueType where
  | boolean
  | integer
  | real
  deriving DecidableEq

/-- `fd_eval_value_t`. -/
structure EvalValue where
  type : ValueType
  union : UInt64
  deriving DecidableEq

namespace EvalValue

def boolean (v : EvalValue) : Bool := v.union.toUInt8 != 0

def integer (v : EvalValue) : Int64 := v.union.toInt64

def real (v : EvalValue) : UInt64 := v.union

end EvalValue

def initializeBoolean (boolean : Bool) : EvalValue := ⟨.boolean, if boolean then 1 else 0⟩

def initializeInteger (integer : Int64) : EvalValue := ⟨.integer, integer.toUInt64⟩

def initializeReal (real : UInt64) : EvalValue := ⟨.real, real⟩

/-- Doubles by their bit patterns. -/
structure Reals where
  strtod : List Char → UInt64 × Nat
  ofInteger : Int64 → UInt64
  round : UInt64 → UInt64
  negate : UInt64 → UInt64
  multiply : UInt64 → UInt64 → UInt64
  divide : UInt64 → UInt64 → UInt64
  add : UInt64 → UInt64 → UInt64
  subtract : UInt64 → UInt64 → UInt64
  lessThanOrEqualTo : UInt64 → UInt64 → Bool
  lessThan : UInt64 → UInt64 → Bool
  equalTo : UInt64 → UInt64 → Bool

/-- The patterns of 0.0 and 1.0. -/
def zeroReal : UInt64 := 0

def oneReal : UInt64 := 0x3ff0000000000000

/-- An operation on `int64_t` that is performed. -/
inductive Operation where
  | negate (a : Int64)
  | multiply (a b : Int64)
  | divide (a b : Int64)
  | add (a b : Int64)
  | subtract (a b : Int64)
  deriving DecidableEq

/-! ## Operators -/

variable (R : Reals)

def unaryPlusEvaluate (value : EvalValue) : EvalValue × List Operation := (value, [])

def unaryMinusEvaluate (value : EvalValue) : EvalValue × List Operation :=
  match value.type with
  | .boolean => (initializeBoolean (!value.boolean), [])
  | .integer => (initializeInteger (-value.integer), [.negate value.integer])
  | .real => (initializeReal (R.negate value.real), [])

/-- The result of an integer or a real is a boolean, but it is stored as an integer or a real. -/
def unaryNotEvaluate (value : EvalValue) : EvalValue × List Operation :=
  match value.type with
  | .boolean => (initializeBoolean (!value.boolean), [])
  | .integer => (⟨.boolean, (if value.integer = 0 then (1 : Int64) else 0).toUInt64⟩, [])
  | .real => (⟨.boolean, if R.equalTo value.real zeroReal then oneReal else zeroReal⟩, [])

def asReal (value : EvalValue) : EvalValue :=
  match value.type with
  | .boolean => initializeReal (if value.boolean then oneReal else zeroReal)
  | .integer => initializeReal (R.ofInteger value.integer)
  | .real => value

/-- A real keeps its pattern. -/
def asInteger (value : EvalValue) : EvalValue :=
  match value.type with
  | .boolean => initializeInteger (if value.boolean then 1 else 0)
  | .integer => value
  | .real => ⟨.integer, R.round value.real⟩

/-- A real is tested by the integer of the same pattern. -/
def asBoolean (value : EvalValue) : EvalValue :=
  match value.type with
  | .boolean => value
  | .integer => initializeBoolean (value.integer != 0)
  | .real => initializeBoolean (value.integer != 0)

/-- `fd_eval_binary_operation_t`. -/
structure BinaryOperation where
  real : UInt64 → UInt64 → UInt64
  integer : Int64 → Int64 → Int64 × List Operation
  boolean : Bool → Bool → Bool

def binaryEvaluate (a b : EvalValue) (operation : BinaryOperation) : EvalValue × List Operation :=
  if a.type = .real ∨ b.type = .real then
    (initializeReal (operation.real (asReal R a).real (asReal R b).real), [])
  else if a.type = .integer ∨ b.type = .integer then
    let result := operation.integer (asInteger R a).integer (asInteger R b).integer
    (initializeInteger result.1, result.2)
  else (initializeBoolean (operation.boolean a.boolean b.boolean), [])

def binaryMultiply : BinaryOperation :=
  ⟨R.multiply, fun a b => (a * b, [.multiply a b]), fun a b => a && b⟩

def binaryDivide : BinaryOperation :=
  ⟨fun a b => if R.equalTo b zeroReal then zeroReal else R.divide a b,
    fun a b => if b ≠ 0 then (a / b, [.divide a b]) else (0, []), fun a b => a || b⟩

def binaryAdd : BinaryOperation :=
  ⟨R.add, fun a b => (a + b, [.add a b]), fun a b => a || b⟩

def binarySubtract : BinaryOperation :=
  ⟨R.subtract, fun a b => (a - b, [.subtract a b]), fun a b => a && b⟩

/-- `fd_eval_binary_boolean_operation_t`. -/
structure BinaryBooleanOperation where
  real : UInt64 → UInt64 → Bool
  integer : Int64 → Int64 → Bool
  boolean : Bool → Bool → Bool

def binaryBooleanEvaluate (a b : EvalValue) (operation : BinaryBooleanOperation) : EvalValue × List Operation :=
  if a.type = .real ∨ b.type = .real then
    (initializeBoolean (operation.real (asReal R a).real (asReal R b).real), [])
  else if a.type = .integer ∨ b.type = .integer then
    (initializeBoolean (operation.integer (asInteger R a).integer (asInteger R b).integer), [])
  else (initializeBoolean (operation.boolean a.boolean b.boolean), [])

def binaryLessThanOrEqualTo : BinaryBooleanOperation :=
  ⟨R.lessThanOrEqualTo, fun a b => a ≤ b, fun a b => !a || b⟩

def binaryLessThan : BinaryBooleanOperation :=
  ⟨R.lessThan, fun a b => a < b, fun a b => !a && b⟩

def binaryGreaterThanOrEqualTo : BinaryBooleanOperation :=
  ⟨fun a b => R.lessThanOrEqualTo b a, fun a b => a ≥ b, fun a b => a || !b⟩

def binaryGreaterThan : BinaryBooleanOperation :=
  ⟨fun a b => R.lessThan b a, fun a b => a > b, fun a b => a && !b⟩

def binaryEqualTo : BinaryBooleanOperation :=
  ⟨R.equalTo, fun a b => a == b, fun a b => a == b⟩

def binaryNotEqualTo : BinaryBooleanOperation :=
  ⟨fun a b => !R.equalTo a b, fun a b => a != b, fun a b => a != b⟩

def binaryBooleanDemoteEvaluate (a b : EvalValue) (operation : Bool → Bool → Bool) :
    EvalValue × List Operation :=
  let a := if a.type ≠ .boolean then asBoolean a else a
  let b := if b.type ≠ .boolean then asBoolean b else b
  (initializeBoolean (operation a.boolean b.boolean), [])

/-- The function of a unary operator in the table. -/
def UnaryOperator.evaluate (operator : UnaryOperator) (value : EvalValue) : EvalValue × List Operation :=
  if operator.string = ['+'] then unaryPlusEvaluate value
  else if operator.string = ['-'] then unaryMinusEvaluate R value
  else unaryNotEvaluate R value

/-- The function of a binary operator in the table. -/
def BinaryOperator.evaluate (operator : BinaryOperator) (a b : EvalValue) : EvalValue × List Operation :=
  if operator.string = ['*'] then binaryEvaluate R a b (binaryMultiply R)
  else if operator.string = ['/'] then binaryEvaluate R a b (binaryDivide R)
  else if operator.string = ['+'] then binaryEvaluate R a b (binaryAdd R)
  else if operator.string = ['-'] then binaryEvaluate R a b (binarySubtract R)
  else if operator.string = ['<', '='] then binaryBooleanEvaluate R a b (binaryLessThanOrEqualTo R)
  else if operator.string = ['<'] then binaryBooleanEvaluate R a b (binaryLessThan R)
  else if operator.string = ['>', '='] then binaryBooleanEvaluate R a b (binaryGreaterThanOrEqualTo R)
  else if operator.string = ['>'] then binaryBooleanEvaluate R a b (binaryGreaterThan R)
  else if operator.string = ['=', '='] then binaryBooleanEvaluate R a b (binaryEqualTo R)
  else if operator.string = ['!', '='] then binaryBooleanEvaluate R a b (binaryNotEqualTo R)
  else if operator.string = ['&', '&'] then binaryBooleanDemoteEvaluate a b fun a b => a && b
  else binaryBooleanDemoteEvaluate a b fun a b => a || b

/-! ## Evaluation -/

/-- The doubles, and the callback for symbols if there is one: the value that it gives for the characters of
a token, where it returns true. -/
structure Environment where
  reals : Reals
  getSymbolValue : Option (List Char → Option EvalValue)

/-- What evaluation changes: the flag of `fd_eval_t` and the count of failed assertions, and the operations
that it performed, in their order. -/
structure Status where
  error : Bool
  assertCount : Nat
  performed : List Operation
  deriving DecidableEq

def Status.assert (st : Status) (c : Bool) : Status :=
  if c then st else { st with assertCount := st.assertCount + 1 }

def errorValue : EvalValue := ⟨.boolean, 0⟩

def digitsValue (digits : List Char) : Nat := digits.foldl (fun n c => 10 * n + (c.toNat - '0'.toNat)) 0

/-- `strtoll` with base 10 on a text that begins with a digit: the number, cut off at `LLONG_MAX`, and how
many characters it has. -/
def strtoll (s : List Char) : Int64 × Nat :=
  let digits := s.takeWhile isDigit
  (Int64.ofNat (min (digitsValue digits) (2 ^ 63 - 1)), digits.length)

def parseInteger (token : EvalString) (st : Status) : EvalValue × Status :=
  let (integer, length) := strtoll (token.string.getD [])
  (initializeInteger integer, st.assert (length == token.length))

def parseReal (token : EvalString) (st : Status) : EvalValue × Status :=
  let (real, length) := R.strtod (token.string.getD [])
  (initializeReal real, st.assert (length == token.length))

/-- `fd_eval_get_symbol_value`, with `fd_eval_get_symbol_value_default` for a null pointer. -/
def getSymbolValue (env : Environment) (token : EvalString) (st : Status) : EvalValue × Status :=
  match env.getSymbolValue.bind fun callback => callback token.chars with
  | some value => (value, st)
  | none => (errorValue, { st with error := true })

def trueToken : EvalString := ⟨some ['t', 'r', 'u', 'e'], 4⟩

def falseToken : EvalString := ⟨some ['f', 'a', 'l', 's', 'e'], 5⟩

def evaluateLeaf (env : Environment) (token : EvalString) (st : Status) : EvalValue × Status :=
  if token.length = 0 then (errorValue, st)
  else if equalsString token trueToken then (initializeBoolean true, st)
  else if equalsString token falseToken then (initializeBoolean true, st)
  else if isDigit (token.chars.headD ' ') then
    if '.' ∈ token.chars then parseReal env.reals token st else parseInteger token st
  else getSymbolValue env token st

/-- The node at a pointer. The error node is a leaf without a token until something is allocated there. -/
def State.at (e : State) : NodeRef → Option Node
  | .errorNode => some (e.errorNode.getD (.leaf ⟨none, 0⟩))
  | .node i => e.heap.nodes[i]?

/-- What an operator gives, and the operations that it performed noted. -/
def finish (result : EvalValue × List Operation) (st : Status) : EvalValue × Status :=
  (result.1, { st with performed := st.performed ++ result.2 })

/-- `fd_eval_evaluate`; no result without fuel. -/
def evaluate (env : Environment) (e : State) : Nat → NodeRef → Status → Option (EvalValue × Status)
  | 0, _, _ => none
  | fuel + 1, r, st =>
    match e.at r with
    | none => none
    | some (.leaf token) => some (evaluateLeaf env token st)
    | some (.unary operator node) =>
      (evaluate env e fuel node st).map fun x => finish (operator.evaluate env.reals x.1) x.2
    | some (.binary operator left right) =>
      (evaluate env e fuel left st).bind fun a =>
        (evaluate env e fuel right a.2).map fun b => finish (operator.evaluate env.reals a.1 b.1) b.2

/-- `fd_eval_result_t`, and the operations performed on the way. -/
structure EvalResult where
  success : Bool
  value : EvalValue
  performed : List Operation
  deriving DecidableEq

/-- `fd_eval_calculate` with a heap of `count` nodes. -/
def calculate (env : Environment) (fuel : Nat) (expression : List Char) (count : Nat) : Option EvalResult :=
  let (tree, e) := parse expression count
  (evaluate env e fuel tree ⟨e.error, 0, []⟩).map fun x => ⟨!x.2.error, x.1, x.2.performed⟩

end Eval
end Firefly
